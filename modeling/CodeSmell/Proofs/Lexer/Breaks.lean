import CodeSmell.Proofs.Lexer.Lines

/-!
Layout breaks lines: the text after a line end, an indent or a dedent is on a later line than the text
before it. A line end stands at a line feed, and indentation is read where a line begins, so that all
text read by then is on the lines before.
-/

namespace CodeSmell

/-- Text after a layout token is on a later line than text before it. -/
def LayoutBreaks (ts : List Token) : Prop := ∀ t e u, [t, e, u].Sublist ts → t.isLayout = false →
  e.isLayout = true → u.isLayout = false → t.position.line < u.position.line

theorem LayoutBreaks.mono {ts us : List Token} (h : LayoutBreaks ts) (within : us.Sublist ts) :
    LayoutBreaks us :=
  fun t e u found => h t e u (found.trans within)

namespace Lexer

/-- The tokens that were read, last first, lie behind the state: on its line or before, and on the
lines before if a layout token came after them or a line begins here. -/
structure State.Behind (s : State) (tokens : List Token) : Prop where
  here : ∀ t ∈ tokens, t.isLayout = false → t.position.line ≤ s.position.line
  broken : ∀ t e, [e, t].Sublist tokens → t.isLayout = false → e.isLayout = true →
    t.position.line < s.position.line
  breaks : ∀ t e u, [u, e, t].Sublist tokens → t.isLayout = false → e.isLayout = true →
    u.isLayout = false → t.position.line < u.position.line
  start : s.atLineStart = true →
    s.brackets = [] ∧ ∀ t ∈ tokens, t.isLayout = false → t.position.line < s.position.line

namespace State.Behind

variable {s s' : State} {tokens : List Token}

theorem nil (h : s.brackets = []) : s.Behind [] where
  here t mem := nomatch mem
  broken t e found := absurd found (by simp)
  breaks t e u found := absurd found (by simp)
  start _ := ⟨h, fun t mem => nomatch mem⟩

theorem forward (h : s.Behind tokens) (le : s.position.line ≤ s'.position.line)
    (start : s'.atLineStart = true → s.atLineStart = true ∧ s'.brackets = s.brackets) :
    s'.Behind tokens where
  here t mem text := (h.here t mem text).trans le
  broken t e within text layout := lt_of_lt_of_le (h.broken t e within text layout) le
  breaks := h.breaks
  start begins := by
    obtain ⟨begins, same⟩ := start begins
    obtain ⟨closed, before⟩ := h.start begins
    exact ⟨same.trans closed, fun t mem text => lt_of_lt_of_le (before t mem text) le⟩

theorem skip (h : s.Behind tokens) (n : Nat) : (s.skip n).Behind tokens :=
  h.forward (State.Takes.skip s n).line_le fun begins => ⟨begins, rfl⟩

theorem text {t : Token} (h : s.Behind tokens) (lexes : s.Lexes t s')
    (within : s'.atLineStart = false) : s'.Behind (t :: tokens) := by
  have le := lexes.takes.line_le
  have line : t.position.line = s.position.line := by rw [lexes.position]
  constructor
  case here =>
    intro u mem text
    rcases List.mem_cons.1 mem with rfl | mem
    · omega
    · exact (h.here u mem text).trans le
  case broken =>
    intro u e found text layout
    rcases List.cons_sublist_cons'.1 found with found | ⟨rfl, -⟩
    · exact lt_of_lt_of_le (h.broken u e found text layout) le
    · rw [lexes.kind] at layout
      cases layout
  case breaks =>
    intro u e v found text layout text'
    rcases List.cons_sublist_cons'.1 found with found | ⟨rfl, earlier⟩
    · exact h.breaks u e v found text layout text'
    · rw [line]
      exact h.broken u e earlier text layout
  case start =>
    intro begins
    rw [within] at begins
    cases begins

theorem layout {e : Token} (h : s.Behind tokens) (isLayout : e.isLayout = true)
    (before : ∀ t ∈ tokens, t.isLayout = false → t.position.line < s'.position.line)
    (closed : s'.atLineStart = true → s'.brackets = []) : s'.Behind (e :: tokens) := by
  have before : ∀ t ∈ e :: tokens, t.isLayout = false → t.position.line < s'.position.line := by
    intro t mem text
    rcases List.mem_cons.1 mem with rfl | mem
    · rw [isLayout] at text
      cases text
    · exact before t mem text
  constructor
  case here => exact fun t mem text => (before t mem text).le
  case broken => exact fun t u found text _ => before t (found.subset (by simp)) text
  case breaks =>
    intro t u v found text layout text'
    rcases List.cons_sublist_cons'.1 found with found | ⟨rfl, -⟩
    · exact h.breaks t u v found text layout text'
    · rw [isLayout] at text'
      cases text'
  case start => exact fun begins => ⟨closed begins, before⟩

theorem layouts {new : List Token} (h : s.Behind tokens) (isLayout : ∀ e ∈ new, e.isLayout = true)
    (before : ∀ t ∈ tokens, t.isLayout = false → t.position.line < s.position.line)
    (within : s.atLineStart = false) : s.Behind (new.reverse ++ tokens) := by
  induction new generalizing tokens with
  | nil => exact h
  | cons e new ih =>
    rw [List.forall_mem_cons] at isLayout
    rw [List.reverse_cons, List.append_assoc, List.singleton_append]
    refine ih (h.layout isLayout.1 before fun begins => ?_) isLayout.2 fun t mem text => ?_
    · rw [within] at begins
      cases begins
    · rcases List.mem_cons.1 mem with rfl | mem
      · rw [isLayout.1] at text
        cases text
      · exact before t mem text

end State.Behind

section Steps

variable {s s' : State} {new tokens : List Token}

theorem lexeme_atLineStart {t : Token} (h : lexeme s = .ok (t, s')) :
    s'.atLineStart = s.atLineStart := by
  cases lexeme_cases h <;> rfl

theorem State.LineStep.behind (h : s.LineStep new s') (behind : s.Behind tokens)
    (within : s.atLineStart = false) : s'.Behind (new.reverse ++ tokens) := by
  cases h with
  | gap => exact behind.skip _
  | lineEnd feed outside =>
    have line : (s.skip 1).position.line = s.position.line + 1 := by
      rw [(State.Takes.skip s 1).position, Position.after_line, feed]
      rfl
    refine behind.layout rfl (fun t mem text => ?_) fun _ => outside
    have := behind.here t mem text
    change t.position.line < (s.skip 1).position.line
    omega
  | lexeme rest lexed =>
    exact behind.text (lexeme_lexes rest lexed) ((lexeme_atLineStart lexed).trans within)

theorem State.Indents.behind {width : Nat} (h : s.Indents width new s') (behind : s.Behind tokens)
    (begins : s.atLineStart = true) : s'.Behind (new.reverse ++ tokens) := by
  obtain ⟨-, same, -, within⟩ := h.still
  have behind' : s'.Behind tokens := behind.forward (by rw [same]) fun begins => by
    rw [within] at begins
    cases begins
  refine behind'.layouts (fun e mem => ?_) ?_ within
  · obtain ⟨kind, rfl | rfl, rfl⟩ := h.layout e mem
    all_goals rfl
  · rw [same]
    exact (behind.start begins).2

/-- No bracket is open where a line begins, so that a step within a line is not at its start. -/
theorem State.Steps.behind (h : s.Steps new s') (behind : s.Behind tokens) :
    s'.Behind (new.reverse ++ tokens) := by
  cases h with
  | within inner line =>
    refine line.behind behind (Bool.not_eq_true _ ▸ fun begins => inner ?_)
    exact ⟨begins, (behind.start begins).1⟩
  | start begins _ start =>
    cases start with
    | blank => exact behind.skip _
    | line _ indents line =>
      rw [List.reverse_append, List.append_assoc]
      exact line.behind (indents.behind (behind.skip _) begins) indents.still.2.2.2

end Steps

theorem tokenize_breaks {source : Bytes} {tokens : List Token} (h : tokenize source = .ok tokens) :
    LayoutBreaks tokens := by
  obtain ⟨read, s, final, scanned, closed, rfl⟩ := tokenize_cases h
  intro t e u found text layout text'
  -- The end adds no text, so that the last of the three was read before.
  have only : [t, e, u].Sublist read.reverse := by
    obtain ⟨front, back, same, first, last⟩ := List.sublist_append_iff.1 found
    cases back using List.reverseRecOn with
    | nil => rwa [same, List.append_nil]
    | append_singleton back v =>
      have same : [t, e] ++ [u] = front ++ back ++ [v] := by rw [List.append_assoc]; exact same
      obtain rfl : u = v := (List.append_singleton_inj.1 same).2
      have silent := List.filter_eq_nil_iff.1 (closing_layout closed) u (last.subset (by simp))
      rw [text'] at silent
      exact absurd rfl silent
  have behind : s.Behind read := scan_keeps (I := fun tokens s => s.Behind tokens)
    (fun behind steps => steps.behind behind) (.nil rfl) scanned
  exact behind.breaks t e u (by simpa using only.reverse) text layout text'

end Lexer

end CodeSmell
