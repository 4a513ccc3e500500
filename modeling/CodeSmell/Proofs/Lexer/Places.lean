import CodeSmell.Proofs.Lexer.Run

/-!
Places in a source text. What the lexer reports, tokens and errors alike, stands where some part of the
text ends: at the place that a step has come to, at the start of its line, or at a bracket that was
opened before.
-/

namespace CodeSmell

/-- The place is one of the text, its end included. -/
def Bytes.HasPlace (source : Bytes) (p : Position) : Prop :=
  ∃ before, before <+: source ∧ p = ({} : Position).after before

theorem Bytes.HasPlace.line {source : Bytes} {p : Position} (h : source.HasPlace p) :
    source.HasPlace ⟨p.line, 1⟩ := by
  obtain ⟨before, first, rfl⟩ := h
  induction before using List.reverseRecOn with
  | nil => exact ⟨[], first, rfl⟩
  | append_singleton before b ih =>
    rw [Position.after_append, Position.after_cons, Position.after_nil, Position.next]
    split_ifs with feed
    · refine ⟨before ++ [b], first, ?_⟩
      rw [Position.after_append, Position.after_cons, Position.after_nil, Position.next, if_pos feed]
    · exact ih ((List.prefix_append before [b]).trans first)

namespace Lexer

/-- The state has come to a place of the text, and so have the brackets that are open. -/
structure State.Placed (s : State) (source : Bytes) : Prop where
  rest : ∃ taken, source = taken ++ s.rest ∧ s.position = ({} : Position).after taken
  brackets : ∀ b ∈ s.brackets, source.HasPlace b.position

section Steps

variable {s s' : State} {new read : List Token} {source : Bytes}

namespace State.Placed

theorem place (h : s.Placed source) : source.HasPlace s.position := by
  obtain ⟨taken, whole, position⟩ := h.rest
  exact ⟨taken, ⟨s.rest, whole.symm⟩, position⟩

theorem takes {g : Bytes} (h : s.Placed source) (takes : s.Takes g s')
    (brackets : ∀ b ∈ s'.brackets, b ∈ s.brackets ∨ b.position = s.position) : s'.Placed source := by
  obtain ⟨taken, whole, position⟩ := h.rest
  refine ⟨⟨taken ++ g, ?_, ?_⟩, fun b mem => ?_⟩
  · rw [whole, takes.rest, List.append_assoc]
  · rw [takes.position, position, Position.after_append]
  · rcases brackets b mem with mem | same
    · exact h.brackets b mem
    · exact same ▸ h.place

theorem skip (h : s.Placed source) (n : Nat) : (s.skip n).Placed source :=
  h.takes (.skip s n) fun _ => .inl

end State.Placed

theorem brackets_opened {operator : Bytes} {opened : List Bracket}
    (h : brackets s operator = .ok opened) :
    ∀ b ∈ opened, b ∈ s.brackets ∨ b.position = s.position := by
  unfold brackets at h
  split at h
  · split_ifs at h
    · obtain rfl := Except.ok.inj h
      intro b mem
      rcases List.mem_cons.1 mem with rfl | mem
      · exact .inr rfl
      · exact .inl mem
    · split at h
      · cases h
      next outermost outer eq =>
      split_ifs at h
      · obtain rfl := Except.ok.inj h
        exact fun b mem => .inl (eq ▸ List.mem_cons_of_mem _ mem)
      · cases h
    · obtain rfl := Except.ok.inj h
      exact fun _ => .inl
  · obtain rfl := Except.ok.inj h
    exact fun _ => .inl

theorem lexeme_brackets {t : Token} (h : lexeme s = .ok (t, s')) :
    ∀ b ∈ s'.brackets, b ∈ s.brackets ∨ b.position = s.position := by
  cases lexeme_cases h with
  | string | word | number => exact fun _ => .inl
  | operator _ opened => exact brackets_opened opened

theorem State.LineStep.places (h : s.LineStep new s') (placed : s.Placed source) :
    s'.Placed source ∧ ∀ t ∈ new, source.HasPlace t.position := by
  cases h with
  | gap => exact ⟨placed.skip _, nofun⟩
  | lineEnd =>
    have next := placed.skip 1
    exact ⟨⟨next.rest, next.brackets⟩, List.forall_mem_singleton.2 placed.place⟩
  | lexeme rest lexed =>
    have lexes := lexeme_lexes rest lexed
    exact ⟨placed.takes lexes.takes (lexeme_brackets lexed),
      List.forall_mem_singleton.2 (lexes.position ▸ placed.place)⟩

theorem State.Indents.places {width : Nat} (h : s.Indents width new s') (placed : s.Placed source) :
    s'.Placed source ∧ ∀ t ∈ new, source.HasPlace t.position := by
  obtain ⟨rest, position, brackets, -⟩ := h.still
  refine ⟨⟨by rw [rest, position]; exact placed.rest, brackets ▸ placed.brackets⟩, fun t mem => ?_⟩
  obtain ⟨kind, -, rfl⟩ := h.layout t mem
  exact placed.place.line

theorem State.Steps.places (h : s.Steps new s') (placed : s.Placed source) :
    s'.Placed source ∧ ∀ t ∈ new, source.HasPlace t.position := by
  cases h with
  | within _ line => exact line.places placed
  | start _ _ start =>
    cases start with
    | blank => exact ⟨placed.skip _, nofun⟩
    | line _ indents line =>
      obtain ⟨placed₁, layout⟩ := indents.places (placed.skip _)
      obtain ⟨placed₂, tokens⟩ := line.places placed₁
      exact ⟨placed₂, List.forall_mem_append.2 ⟨layout, tokens⟩⟩

variable {e : SyntaxError}

theorem brackets_error {operator : Bytes} (h : brackets s operator = .error e) :
    e.position = s.position := by
  unfold brackets at h
  split at h
  · split_ifs at h
    split at h
    · exact (Except.error.inj h).symm ▸ rfl
    · split_ifs at h
      exact (Except.error.inj h).symm ▸ rfl
  · cases h

theorem lexeme_error (h : lexeme s = .error e) : e.position = s.position := by
  unfold lexeme at h
  split at h
  · split at h
    · cases h
    · exact (Except.error.inj h).symm ▸ rfl
  split_ifs at h
  split at h
  · rcases bind_eq_error.1 h with opened | ⟨_, _, h⟩
    · exact brackets_error opened
    · cases h
  · exact (Except.error.inj h).symm ▸ rfl

theorem lineStep_error (h : lineStep s = .error e) : e.position = s.position := by
  unfold lineStep at h
  split at h
  · cases h
  split_ifs at h
  · split at h
    · cases h
    · exact (Except.error.inj h).symm ▸ rfl
  · rcases bind_eq_error.1 h with lexed | ⟨_, _, h⟩
    · exact lexeme_error lexed
    · cases h

theorem indentStep_error {width : Nat} (h : indentStep s width = .error e) :
    e.position = s.position := by
  unfold indentStep at h
  split_ifs at h
  dsimp only at h
  split_ifs at h
  exact (Except.error.inj h).symm ▸ rfl

theorem step_error (h : step s = .error e) : ∃ n, e.position = (s.skip n).position := by
  unfold step at h
  split_ifs at h
  · refine ⟨runLength isBlank s.rest, ?_⟩
    unfold lineStartStep at h
    dsimp only at h
    generalize s.skip (runLength isBlank s.rest) = s₁ at h ⊢
    split at h
    · cases h
    split_ifs at h
    rcases bind_eq_error.1 h with indent | ⟨⟨layout, s₂⟩, indent, h⟩
    · exact indentStep_error indent
    rcases bind_eq_error.1 h with line | ⟨_, _, h⟩
    · rw [lineStep_error line, (indentStep_cases indent).still.2.1]
    · cases h
  · exact ⟨0, lineStep_error h⟩

theorem closing_places (read : List Token) (placed : s.Placed source) :
    (∀ e, closing read s = .error e → source.HasPlace e.position) ∧
      ∀ final, closing read s = .ok final → ∀ t ∈ final, source.HasPlace t.position := by
  constructor
  · intro e h
    unfold closing at h
    split at h
    · next bracket outer opened =>
      rw [← Except.error.inj h]
      exact placed.brackets bracket (opened ▸ List.mem_cons_self ..)
    · cases h
  · intro final h t mem
    obtain ⟨-, lineEnd, newline, rfl⟩ := closing_cases h
    simp only [List.mem_append, List.mem_map, List.mem_singleton] at mem
    rcases mem with (line | ⟨-, -, rfl⟩) | rfl
    · rw [newline t line]
      exact placed.place
    · exact placed.place.line
    · exact placed.place

theorem finish_places {s : State} {read : List Token} (placed : s.Placed source)
    (before : ∀ t ∈ read, source.HasPlace t.position) :
    (∀ e, finish read s = .error e → source.HasPlace e.position) ∧
      ∀ ts, finish read s = .ok ts → ∀ t ∈ ts, source.HasPlace t.position := by
  by_cases rest : s.rest = []
  · obtain ⟨error, ok⟩ := closing_places read placed
    rw [finish_nil rest]
    cases closed : closing read s with
    | error e' => exact ⟨fun e h => Except.error.inj h ▸ error e' closed, nofun⟩
    | ok final =>
      refine ⟨nofun, fun ts h t mem => ?_⟩
      rw [← Except.ok.inj h, List.mem_append, List.mem_reverse] at mem
      exact mem.elim (before t) (ok final closed t)
  · cases stepped : step s with
    | error e' =>
      rw [finish_error rest stepped]
      refine ⟨fun e h => ?_, nofun⟩
      obtain ⟨n, position⟩ := step_error stepped
      rw [← Except.error.inj h, position]
      exact (placed.skip n).place
    | ok found =>
      obtain ⟨new, s'⟩ := found
      have shorter := step_length_lt rest stepped
      obtain ⟨placed', tokens⟩ := (step_cases rest stepped).places placed
      rw [finish_step rest stepped]
      refine finish_places placed' fun t mem => ?_
      rw [List.mem_append, List.mem_reverse] at mem
      exact mem.elim (tokens t) (before t)
termination_by s.rest.length

end Steps

theorem start_placed (source : Bytes) : ({ rest := source } : State).Placed source :=
  ⟨⟨[], rfl, rfl⟩, nofun⟩

theorem tokenize_places {source : Bytes} {ts : List Token} (h : tokenize source = .ok ts) :
    ∀ t ∈ ts, source.HasPlace t.position :=
  (finish_places (start_placed source) (List.forall_mem_nil _)).2 ts (tokenize_eq_finish source ▸ h)

theorem tokenize_error_place {source : Bytes} {e : SyntaxError} (h : tokenize source = .error e) :
    source.HasPlace e.position :=
  (finish_places (start_placed source) (List.forall_mem_nil _)).1 e (tokenize_eq_finish source ▸ h)

end Lexer

end CodeSmell
