import CodeSmell.Detector.DuplicatedCode
import CodeSmell.Proofs.Model.Scope
import CodeSmell.Proofs.Renaming.Stmt

/-!
A renaming cannot hide a clone. Renamed lists of tokens are both refused, for the same reason at the
same place, or their trees have functions that stand on the same lines and have the same signatures;
and nothing else of two functions is compared.
-/

namespace CodeSmell

variable {ts us : List Token}

theorem getLast?_renamed (h : List.Forall₂ Token.Renamed ts us) :
    Option.Rel Token.Renamed ts.getLast? us.getLast? := by
  rw [List.getLast?_eq_head?_reverse, List.getLast?_eq_head?_reverse]
  exact head?_renamed (List.forall₂_reverse_iff.2 h)

theorem dropLast_renamed (h : List.Forall₂ Token.Renamed ts us) :
    List.Forall₂ Token.Renamed ts.dropLast us.dropLast := by
  rw [List.dropLast_eq_take, List.dropLast_eq_take, h.length_eq]
  exact List.forall₂_take _ h

theorem Cursor.ofTokens_renamed (h : List.Forall₂ Token.Renamed ts us) :
    (Cursor.ofTokens ts).Renamed (Cursor.ofTokens us) := by
  have last := getLast?_renamed h
  unfold Cursor.ofTokens
  generalize ts.getLast? = t?, us.getLast? = u? at last
  cases last with
  | none => exact .refl _
  | some same =>
    simp only [same.kind]
    split
    · exact ⟨dropLast_renamed h, same.position, rfl⟩
    · exact ⟨h, by rw [same.endLine], rfl⟩

structure FunctionModel.Clone (f g : FunctionModel) : Prop where
  lines : f.lines = g.lines
  tokenRoles : tokenRoles f.definition.bodyTokens = tokenRoles g.definition.bodyTokens
  tags : Block.tags f.definition.body = Block.tags g.definition.body

namespace ModuleModel

def signatures (m : ModuleModel) : List Signature :=
  m.functions.map fun f => .ofFunction f.definition

def similarities (m : ModuleModel) : List (List Similarity) :=
  m.signatures.map fun s => m.signatures.map s.compare

variable {path : Bytes} {lineCount : Nat} {a b : Block}

theorem outlines_eq (path : Bytes) (lineCount : Nat) (b : Block) :
    (ofBlock path lineCount b).functions.map (·.definition.outline) = b.outlines := by
  have all : (ofBlock path lineCount b).functions.map FunctionModel.definition = b.functionDefs :=
    functions_definition
  rw [Block.outlines, ← all, List.map_map]
  rfl

theorem signatures_eq : (ofBlock path lineCount b).signatures = b.outlines.map Prod.snd := by
  rw [← outlines_eq path lineCount, List.map_map]
  rfl

theorem clones_of_renamed (h : a.Renamed b) : List.Forall₂ FunctionModel.Clone
    (ofBlock path lineCount a).functions (ofBlock path lineCount b).functions := by
  have same : List.Forall₂ Eq
      ((ofBlock path lineCount a).functions.map (·.definition.outline))
      ((ofBlock path lineCount b).functions.map (·.definition.outline)) := by
    rw [outlines_eq, outlines_eq, h.outlines]
    exact List.forall₂_same.2 fun _ _ => rfl
  simp only [List.forall₂_map_left_iff, List.forall₂_map_right_iff] at same
  refine same.imp fun f g outline => ?_
  obtain ⟨lines, signature⟩ := Prod.mk.inj outline
  obtain ⟨roles, tags⟩ := Signature.mk.inj signature
  exact ⟨lines, roles, tags⟩

end ModuleModel

/-- Renamed lists of tokens are refused alike, or their trees have the same functions up to a renaming,
and the same similarities between them. -/
theorem parseTokens_renamed (h : List.Forall₂ Token.Renamed ts us) (path : Bytes) (lineCount : Nat) :
    (∃ e, parseTokens ts = .error e ∧ parseTokens us = .error e) ∨
      ∃ a b, parseTokens ts = .ok a ∧ parseTokens us = .ok b ∧
        List.Forall₂ FunctionModel.Clone (ModuleModel.ofBlock path lineCount a).functions
          (ModuleModel.ofBlock path lineCount b).functions ∧
        (ModuleModel.ofBlock path lineCount a).similarities =
          (ModuleModel.ofBlock path lineCount b).similarities := by
  have run := Parser.tracks_moduleBody Parser.tracks_block (Cursor.ofTokens ts) (Cursor.ofTokens us)
    trivial (Cursor.ofTokens_renamed h) (Nat.lt_succ_self _)
  unfold parseTokens
  generalize Parser.moduleBody Parser.block (Cursor.ofTokens ts) = r,
    Parser.moduleBody Parser.block (Cursor.ofTokens us) = s at run
  cases run with
  | error _ => exact .inl ⟨_, rfl, rfl⟩
  | ok same _ _ =>
    refine .inr ⟨_, _, rfl, rfl, ModuleModel.clones_of_renamed same, ?_⟩
    rw [ModuleModel.similarities, ModuleModel.similarities, ModuleModel.signatures_eq,
      ModuleModel.signatures_eq, same.outlines]

def returning (name parameter : Bytes) : List Token :=
  [{ kind := .keyword, text := "def", position := ⟨1, 1⟩, endLine := 1 },
    { kind := .name, text := name, position := ⟨1, 5⟩, endLine := 1 },
    { kind := .operator, text := "(", position := ⟨1, 6⟩, endLine := 1 },
    { kind := .name, text := parameter, position := ⟨1, 7⟩, endLine := 1 },
    { kind := .operator, text := ")", position := ⟨1, 8⟩, endLine := 1 },
    { kind := .operator, text := ":", position := ⟨1, 9⟩, endLine := 1 },
    { kind := .keyword, text := "return", position := ⟨1, 11⟩, endLine := 1 },
    { kind := .name, text := parameter, position := ⟨1, 18⟩, endLine := 1 },
    { kind := .newline, position := ⟨1, 19⟩, endLine := 1 },
    { kind := .endMarker, position := ⟨2, 1⟩, endLine := 2 }]

theorem returning_renamed : List.Forall₂ Token.Renamed (returning "f" "x") (returning "g" "y") := by
  have name {p : Position} {s t : Bytes} (h : s ≠ "match" ∧ t ≠ "match")
      (h' : s ≠ "case" ∧ t ≠ "case") (h'' : s ≠ [] ∧ t ≠ []) : Token.Renamed
        { kind := .name, text := s, position := p, endLine := 1 }
        { kind := .name, text := t, position := p, endLine := 1 } :=
    ⟨⟨rfl, rfl, rfl, nofun, fun _ => iff_of_false h.1 h.2, fun _ => iff_of_false h'.1 h'.2⟩,
      fun _ => iff_of_false h''.1 h''.2⟩
  refine .cons (.refl _) (.cons (name ?_ ?_ ?_) (.cons (.refl _) (.cons (name ?_ ?_ ?_)
    (.cons (.refl _) (.cons (.refl _) (.cons (.refl _) (.cons (name ?_ ?_ ?_)
      (.cons (.refl _) (.cons (.refl _) .nil))))))))) <;> decide

theorem parseTokens_renamed_returning :
    List.Forall₂ Token.Renamed (returning "f" "x") (returning "g" "y") ∧
      ∃ a b, parseTokens (returning "f" "x") = .ok a ∧ parseTokens (returning "g" "y") = .ok b ∧
        List.Forall₂ FunctionModel.Clone (ModuleModel.ofBlock [] 1 a).functions
          (ModuleModel.ofBlock [] 1 b).functions ∧
        (ModuleModel.ofBlock [] 1 a).similarities = (ModuleModel.ofBlock [] 1 b).similarities := by
  refine ⟨returning_renamed, ?_⟩
  obtain ⟨b, accepted⟩ : ∃ b, parseTokens (returning "f" "x") = .ok b := by decide +kernel
  rcases parseTokens_renamed returning_renamed [] 1 with ⟨e, refused, -⟩ | same
  · cases refused.symm.trans accepted
  · exact same

def importing (name : Bytes) : List Token :=
  [{ kind := .keyword, text := "from", position := ⟨1, 1⟩, endLine := 1 },
    { kind := .name, text := name, position := ⟨1, 6⟩, endLine := 1 },
    { kind := .keyword, text := "import", position := ⟨1, 8⟩, endLine := 1 },
    { kind := .name, text := "x", position := ⟨1, 15⟩, endLine := 1 },
    { kind := .newline, position := ⟨1, 16⟩, endLine := 1 },
    { kind := .endMarker, position := ⟨2, 1⟩, endLine := 2 }]

theorem parseTokens_empty_name : List.Forall₂ Token.Exchanged (importing "a") (importing []) ∧
    (parseTokens (importing "a")).isOk = true ∧ (parseTokens (importing [])).isOk = false := by
  refine ⟨.cons (.refl _) (.cons ⟨rfl, rfl, rfl, nofun, ?_, ?_⟩ (.cons (.refl _) (.cons (.refl _)
    (.cons (.refl _) (.cons (.refl _) .nil))))), by decide +kernel, by decide +kernel⟩
  · exact fun _ => iff_of_false (by decide) (by decide)
  · exact fun _ => iff_of_false (by decide) (by decide)

end CodeSmell
