import CodeSmell.Proofs.Grammar.Reading

/-!
The names of a module. Every name of its tree is spelled by a name token, as a whole or between dots:
`ModuleReading.names`.
-/

namespace CodeSmell

/-- The name `n` is the text of a name token, or stands in it between dots. -/
def Names (ps : List Piece) (n : Bytes) : Prop :=
  ∃ t : Token, .token t ∈ ps ∧ t.kind = .name ∧ n ∈ t.text :: t.text.components

variable {ps qs : List Piece} {n : Bytes}

theorem Names.mono (h : Names qs n) (within : qs ⊆ ps) : Names ps n := by
  obtain ⟨t, mem, isName, same⟩ := h
  exact ⟨t, within mem, isName, same⟩

theorem Names.whole {t : Token} (isName : t.kind = .name) (mem : .token t ∈ ps) :
    Names ps t.text :=
  ⟨t, mem, isName, .head _⟩

theorem Names.optional {t : Token} (isName : t.kind = .name) (mem : .token t ∈ ps)
    (h : t.text.nonempty? = some n) : Names ps n := by
  unfold Bytes.nonempty? at h
  split_ifs at h
  obtain rfl := Option.some.inj h
  exact .whole isName mem

theorem ParameterItem.Layer.names {item : ParameterItem} (h : item.Layer ps) (mem : n ∈ item.names) :
    Names ps n := by
  cases h with
  | slash | star => cases mem
  | parameter _ isName _ _ =>
    obtain rfl := List.mem_singleton.1 mem
    exact .whole isName (List.mem_append_right _ (.head _))

theorem ArgumentItem.Layer.names {item : ArgumentItem} (h : item.Layer ps) (mem : n ∈ item.names) :
    Names ps n := by
  cases h with
  | argument | unpacked => cases mem
  | keyword isName _ => exact .optional isName (.head _) (Option.mem_toList.1 mem)

theorem Expr.Layer.names {e : Expr} (h : e.Layer ps) (mem : n ∈ e.names) : Names ps n := by
  cases h with
  | name isName =>
    obtain rfl := List.mem_singleton.1 mem
    exact .whole isName (.head _)
  | attr _ isName =>
    obtain rfl := List.mem_singleton.1 mem
    exact .whole isName (.tail _ (.tail _ (.head _)))
  | call _ items _ =>
    change n ∈ List.filterMap Keyword.name _ at mem
    rw [ArgumentItem.names_eq] at mem
    obtain ⟨item, argument, mem⟩ := List.mem_flatMap.1 mem
    obtain ⟨qs, layer, within⟩ := items.mem argument
    exact (layer.names mem).mono fun p inside => by simp [within.subset inside]
  | lambda _ items _ =>
    change n ∈ (parametersOf _).map Parameter.name at mem
    rw [parametersOf_names] at mem
    obtain ⟨item, parameter, mem⟩ := List.mem_flatMap.1 mem
    obtain ⟨qs, layer, within⟩ := items.mem parameter
    exact (layer.names mem).mono fun p inside => by simp [within.subset inside]
  | _ => cases mem

theorem NameAfter.names {keyword : Bytes} {name : Option Bytes} (h : NameAfter keyword name ps)
    (mem : n ∈ name.toList) : Names ps n := by
  cases h with
  | absent => cases mem
  | present _ isName => exact .optional isName (.tail _ (.head _)) (Option.mem_toList.1 mem)

theorem DottedName.names {name : Bytes} (h : DottedName name ps) (mem : n ∈ name.components) :
    Names ps n := by
  cases h with
  | intro isName names =>
    rw [Bytes.components_join] at mem
    obtain ⟨part, mem', mem⟩ := List.mem_flatMap.1 mem
    rcases List.mem_cons.1 mem' with rfl | mem'
    · exact ⟨_, .head _, isName, .tail _ mem⟩
    · obtain ⟨qs, led, within⟩ := names.mem mem'
      cases led with
      | intro _ one => cases one with
        | intro isName => exact ⟨_, .tail _ (within.subset (.tail _ (.head _))), isName, .tail _ mem⟩

theorem IsName.names {name : Bytes} (h : IsName name ps) (mem : n ∈ name.components) :
    Names ps n := by
  cases h with
  | intro isName => exact ⟨_, .head _, isName, .tail _ mem⟩

theorem Alias.Layer.names {W : Bytes → List Piece → Prop} {a : Alias} (h : Alias.Layer W a ps)
    (name : ∀ x qs, W x qs → n ∈ x.components → Names qs n) (mem : n ∈ a.names) : Names ps n := by
  cases h with
  | intro one as =>
    rcases List.mem_append.1 mem with mem | mem
    · split_ifs at mem
      · cases mem
      · exact (name _ _ one mem).mono (List.subset_append_left _ _)
    · exact (as.names mem).mono (List.subset_append_right _ _)

theorem ModuleName.names {name : Bytes} (h : ModuleName name ps) (mem : n ∈ name.components) :
    Names ps n := by
  cases h with
  | intro areDots name _ =>
    rw [Bytes.components_dots (text_of_dots areDots)] at mem
    cases name with
    | none => cases mem
    | some name => exact (name.names mem).mono (List.subset_append_right _ _)

theorem ImportedNames.names {names : List Alias} (h : ImportedNames names ps)
    (mem : n ∈ names.flatMap Alias.names) : Names ps n := by
  obtain ⟨a, named, mem⟩ := List.mem_flatMap.1 mem
  have item {qs : List Piece} (h : Alias.Layer IsName a qs) : Names qs n :=
    h.names (fun _ _ => IsName.names) mem
  cases h with
  | star =>
    obtain rfl := List.mem_singleton.1 named
    cases mem
  | plain _ list =>
    obtain ⟨qs, layer, within⟩ := list.mem named
    exact (item layer).mono within.subset
  | grouped _ _ list _ =>
    obtain ⟨qs, layer, within⟩ := list.mem named
    exact (item layer).mono fun p inside => by simp [within.subset inside]

theorem Bases.names {bases : List Expr} {keywords : List (Keyword Expr)}
    (h : Bases bases keywords ps) (mem : n ∈ keywords.filterMap Keyword.name) : Names ps n := by
  cases h with
  | absent => cases mem
  | present _ items _ =>
    rw [ArgumentItem.names_eq] at mem
    obtain ⟨item, argument, mem⟩ := List.mem_flatMap.1 mem
    obtain ⟨qs, layer, within⟩ := items.mem argument
    exact (layer.names mem).mono fun p inside => by simp [within.subset inside]

theorem Handler.Layer.names {handler : Handler Stmt} {isStar : Bool} (h : handler.Layer isStar ps)
    (named : handler.name = some n) : Names ps n := by
  cases h with
  | @intro type name _ _ _ _ _ _ _ _ _ _ as _ _ =>
    refine (as.names (n := n) ?_).mono fun p inside => by simp [inside]
    rw [show name = some n from named]
    exact .head _

theorem StmtForm.Layer.names {form : StmtForm Stmt} {lead main : List Piece}
    (h : form.Layer lead main) (mem : n ∈ form.names) : Names (lead ++ main) n := by
  cases h with
  | tryExcept _ _ handlers _ _ _ =>
    obtain ⟨handler, mem, named⟩ := List.mem_filterMap.1 mem
    obtain ⟨pair, mem', rfl⟩ := List.mem_map.1 mem
    obtain ⟨qs, layer, within⟩ := handlers.mem mem'
    exact (layer.names named).mono fun p inside => by simp [within.subset inside]
  | importNames _ _ names =>
    obtain ⟨a, named, mem⟩ := List.mem_flatMap.1 mem
    obtain ⟨qs, layer, within⟩ := names.mem named
    exact (layer.names (fun _ _ => DottedName.names) mem).mono fun p inside => by simp [within.subset inside]
  | importFrom _ module _ names =>
    rcases List.mem_append.1 mem with mem | mem
    · exact (module.names mem).mono fun p inside => by simp [inside]
    · exact (names.names mem).mono fun p inside => by simp [inside]
  | scope _ _ names =>
    obtain ⟨qs, one, within⟩ := names.mem (x := n) mem
    cases one with
    | intro isName => exact .whole isName (.tail _ (within.subset (.head _)))
  | function _ _ _ isName _ items _ _ _ same =>
    rcases List.mem_cons.1 mem with rfl | mem
    · exact .whole isName (by simp [same])
    · rw [parametersOf_names] at mem
      obtain ⟨item, parameter, mem⟩ := List.mem_flatMap.1 mem
      obtain ⟨qs, layer, within⟩ := items.mem parameter
      exact (layer.names mem).mono fun p inside => by simp [same, within.subset inside]
  | classDef _ _ isName bases _ same =>
    rcases List.mem_cons.1 mem with rfl | mem
    · exact .whole isName (by simp [same])
    · exact (bases.names mem).mono fun p inside => by simp [same, inside]
  | _ => cases mem

namespace Block

def names (b : Block) : List Bytes :=
  b.deep.flatMap (·.form.names) ++ b.nodes.flatMap Expr.names

def softKeywords (b : Block) : List Bytes := b.deep.flatMap (·.form.softKeywords)

end Block

theorem Weight.block_eq {M : Type} [AddCommMonoid M] (w : Weight M) (b : Block) :
    w.block b = (b.deep.map fun s => w.form s.form).sum + w.named (b.softKeywords ++ b.names) +
      (b.nodes.map w.expr).sum := by
  have own (s : Stmt) : w.stmt s =
      w.form s.form + (w.named s.form.softKeywords + w.named s.form.names) +
        ((s.expressions.map fun e => (e.preorder.map w.expr).sum).sum +
          (s.expressions.map fun e => (e.preorder.map fun d => w.named d.names).sum).sum) := by
    rw [stmt, named_append, funext w.tree_eq_add, List.sum_map_add]
  simp only [block, funext own, named_append, named_flatMap, Block.names, Block.nodes,
    Block.softKeywords, sum_map_flatMap, List.sum_map_add]
  abel

theorem Expr.Reading.names {e : Expr} {ts : List Token} (h : e.Reading ts) (mem : n ∈ e.names) :
    ∃ t ∈ ts, t.kind = .name ∧ n ∈ t.text :: t.text.components := by
  induction h with
  | layer layer _ _ =>
    obtain ⟨t, piece, spelled⟩ := layer.names mem
    exact ⟨t, (tokens_within piece).subset (.head _), spelled⟩
  | grouped _ _ _ ih =>
    obtain ⟨t, mem, spelled⟩ := ih mem
    exact ⟨t, by simp [mem], spelled⟩

theorem ModuleReading.names {b : Block} {ts : List Token} (h : ModuleReading b ts)
    (mem : n ∈ b.names) : ∃ t ∈ ts, t.kind = .name ∧ n ∈ t.text :: t.text.components := by
  rcases List.mem_append.1 mem with mem | mem
  · obtain ⟨s, deep, mem⟩ := List.mem_flatMap.1 mem
    obtain ⟨us, reading, within⟩ := h.deep deep
    cases reading with
    | intro layer _ _ =>
      obtain ⟨t, piece, spelled⟩ := layer.names mem
      exact ⟨t, within.subset ((tokens_within piece).subset (.head _)), spelled⟩
  · obtain ⟨e, node, mem⟩ := List.mem_flatMap.1 mem
    obtain ⟨us, reading, within⟩ := h.node node
    obtain ⟨t, mem, spelled⟩ := reading.names mem
    exact ⟨t, within.subset mem, spelled⟩

end CodeSmell
