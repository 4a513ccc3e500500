import CodeSmell.Proofs.Lexer.Tail

/-!
A blank line or a line with only a comment is invisible to the lexer, whatever the indentation is
there: it moves what follows one line down. The lexer itself does not depend on the line it is at,
which `step_down` says of one step and `finish_down` of the rest of a run.
-/

namespace CodeSmell

def Position.down (p : Position) : Position := ⟨p.line + 1, p.column⟩

def Token.down (t : Token) : Token := { t with position := t.position.down, endLine := t.endLine + 1 }

def SyntaxError.down (e : SyntaxError) : SyntaxError := ⟨e.fault, e.position.down⟩

theorem Position.down_after (p : Position) (s : Bytes) : p.down.after s = (p.after s).down := by
  induction s generalizing p with
  | nil => rfl
  | cons b s ih =>
    have next : p.down.next b = (p.next b).down := by
      unfold next down
      split_ifs <;> rfl
    rw [after_cons, after_cons, next, ih]

namespace Lexer

def Bracket.down (b : Bracket) : Bracket := ⟨b.symbol, b.position.down⟩

@[reducible] def State.down (s : State) : State :=
  { s with position := s.position.down, brackets := s.brackets.map Bracket.down }

def lowered {α β : Type} (f : α → β) : Except SyntaxError α → Except SyntaxError β
  | .ok a => .ok (f a)
  | .error e => .error e.down

variable {s s' : State} {n : Nat}

@[simp] theorem State.down_rest (s : State) : s.down.rest = s.rest := rfl

theorem State.down_skip (s : State) (n : Nat) : s.down.skip n = (s.skip n).down := by
  simp only [skip, down, Position.down_after]

theorem State.down_take (s : State) (n : Nat) (kind : TokenKind) :
    s.down.take n kind = ((s.take n kind).1.down, (s.take n kind).2.down) := by
  simp only [take, down_skip]
  rfl

theorem State.down_isEmpty (s : State) : s.down.brackets.isEmpty = s.brackets.isEmpty := by
  rw [List.isEmpty_map]

theorem brackets_down (s : State) (operator : Bytes) :
    brackets s.down operator = lowered (List.map Bracket.down) (brackets s operator) := by
  unfold brackets
  split
  · split_ifs
    · rfl
    · cases opened : s.brackets with
      | nil => simp only [State.down, opened]; rfl
      | cons b outer =>
        simp only [State.down, opened, List.map_cons, Bracket.down]
        split_ifs <;> rfl
    · rfl
  · rfl

theorem lexeme_down (s : State) :
    lexeme s.down = lowered (fun (t, s') => (t.down, s'.down)) (lexeme s) := by
  unfold lexeme
  dsimp only
  split
  · split
    · rw [State.down_take]; rfl
    · rfl
  split_ifs
  · rw [State.down_take]; rfl
  · rw [State.down_take]; rfl
  · simp only [State.down_take]; rfl
  split
  · rw [brackets_down]
    cases brackets s _ with
    | error e => rfl
    | ok opened => simp only [State.down_take]; rfl
  · rfl

def lowerStep : Except SyntaxError (List Token × State) → Except SyntaxError (List Token × State) :=
  lowered fun (new, s') => (new.map Token.down, s'.down)

theorem lineStep_down (s : State) : lineStep s.down = lowerStep (lineStep s) := by
  unfold lineStep
  rw [State.down_rest]
  split
  · rfl
  split_ifs with blank feed outside outside' outside' comment backslash
  · rw [State.down_skip]; rfl
  · rw [State.down_skip]; rfl
  · rw [List.isEmpty_map] at outside
    exact absurd outside outside'
  · rw [List.isEmpty_map] at outside
    exact absurd outside' outside
  · rw [State.down_skip]; rfl
  · rw [State.down_skip]; rfl
  · split
    · rw [State.down_skip]; rfl
    · rfl
  · rw [lexeme_down]
    cases lexeme s <;> rfl

theorem indentStep_down (s : State) (width : Nat) :
    indentStep s.down width = lowerStep (indentStep s width) := by
  have indent : s.down.indent = s.indent := rfl
  unfold indentStep
  rw [indent]
  split_ifs
  · rfl
  dsimp only
  split_ifs
  · simp only [lowerStep, lowered, List.map_map]; rfl
  · rfl

theorem lineStartStep_down (s : State) : lineStartStep s.down = lowerStep (lineStartStep s) := by
  unfold lineStartStep
  simp only [State.down_skip, State.down_rest]
  split
  · rfl
  split_ifs
  · rfl
  · rfl
  · rw [indentStep_down]
    cases indentStep (s.skip (runLength isBlank s.rest)) _ with
    | error e => rfl
    | ok found =>
      obtain ⟨layout, s₁⟩ := found
      simp only [lowerStep, lowered, bind, Except.bind, lineStep_down]
      cases lineStep s₁ with
      | error e => rfl
      | ok found => simp only [List.map_append]

theorem step_down (s : State) : step s.down = lowerStep (step s) := by
  unfold step
  rw [State.down_isEmpty]
  split_ifs
  · exact lineStartStep_down s
  · exact lineStep_down s

theorem closing_down (read : List Token) (s : State) :
    closing read s.down = lowered (List.map Token.down) (closing read s) := by
  unfold closing
  cases opened : s.brackets with
  | cons bracket _ => simp only [opened, List.map_cons]; rfl
  | nil =>
    simp only [opened, List.map_nil, lowered, List.map_append, List.map_map]
    cases read with
    | nil => rfl
    | cons t read =>
      dsimp only
      split_ifs <;> rfl

/-- From a state one line down a run goes on in the same way. The tokens `later` have been read since
the text moved. -/
theorem finish_down (before : List Token) (s : State) (later : List Token) :
    (∃ after, finish (later ++ before) s = .ok (before.reverse ++ after) ∧
      finish (later.map Token.down ++ before) s.down =
        .ok (before.reverse ++ after.map Token.down)) ∨
    ∃ e, finish (later ++ before) s = .error e ∧
      finish (later.map Token.down ++ before) s.down = .error e.down := by
  by_cases rest : s.rest = []
  · have same : (later.map Token.down ++ before).head?.map Token.kind =
        (later ++ before).head?.map Token.kind := by
      cases later <;> rfl
    rw [finish_nil rest, finish_nil (s := s.down) rest, closing_congr same, closing_down]
    cases closing (later ++ before) s with
    | error e => exact .inr ⟨e, rfl, rfl⟩
    | ok final =>
      refine .inl ⟨later.reverse ++ final, ?_, ?_⟩
      all_goals simp [Except.map, lowered]
  have down := step_down s
  cases stepped : step s with
  | error e =>
    rw [stepped] at down
    exact .inr ⟨e, finish_error rest stepped, finish_error (s := s.down) rest down⟩
  | ok found =>
    obtain ⟨new, s'⟩ := found
    rw [stepped] at down
    have shorter := step_length_lt rest stepped
    rw [finish_step rest stepped, finish_step (s := s.down) rest down, ← List.append_assoc,
      ← List.append_assoc, ← List.map_reverse, ← List.map_append]
    exact finish_down before s' (new.reverse ++ later)
termination_by s.rest.length

/-- A line without its end that holds no token. -/
inductive Blank : Bytes → Prop where
  | spaces {blanks : Bytes} : (∀ b ∈ blanks, isBlank b) → Blank blanks
  | comment {blanks text : Bytes} : (∀ b ∈ blanks, isBlank b) → Ascii.lineFeed ∉ text →
      Blank (blanks ++ '#'.toUInt8 :: text)

theorem Blank.one_line {w : Bytes} (h : Blank w) : Ascii.lineFeed ∉ w := by
  have inside {blanks : Bytes} (spaces : ∀ b ∈ blanks, isBlank b) : Ascii.lineFeed ∉ blanks :=
    fun mem => absurd (spaces _ mem) (by decide)
  cases h with
  | spaces spaces => exact inside spaces
  | comment spaces text =>
    simp only [List.mem_append, List.mem_cons, not_or]
    exact ⟨inside spaces, by decide, text⟩

theorem State.skip_append {s : State} {t rest : Bytes} (eq : s.rest = t ++ rest) :
    s.skip t.length = { s with rest := rest, position := s.position.after t } := by
  rw [skip, eq, List.drop_left, List.take_left]

theorem line_after {s : Bytes} (line : Ascii.lineFeed ∉ s) (p : Position) :
    (p.after s).line = p.line := by
  rw [Position.after_line, List.count_eq_zero.2 line]
  exact Int.add_zero _

theorem Blank.runs {s : State} {w rest : Bytes} (h : Blank w) (start : s.atLineStart = true)
    (outside : s.brackets = []) (eq : s.rest = w ++ Ascii.lineFeed :: rest) :
    Runs s [] (s.nextLine rest) := by
  have line := h.one_line
  have some : s.rest ≠ [] := by simp [eq]
  -- Behind the blanks a line that starts is one that goes on.
  have past {blanks r : Bytes} {b : UInt8} (spaces : ∀ b ∈ blanks, isBlank b)
      (other : isBlank b = false) (eq : s.rest = blanks ++ b :: r) :
      s.skip (runLength isBlank s.rest) =
        { s with rest := b :: r, position := s.position.after blanks } := by
    rw [← State.skip_append eq, eq, runLength_until spaces other r]
  have ended {t : Bytes} (inside : Ascii.lineFeed ∉ t) :
      step { s with rest := Ascii.lineFeed :: rest, position := s.position.after t } =
        .ok ([], s.nextLine rest) := by
    rw [step_feed rfl]
    simp only [State.lineEnd, State.nextLine, start, line_after inside, Bool.true_or, ↓reduceIte]
  cases h with
  | spaces spaces =>
    have skipped := past spaces (by decide) eq
    have same := step_blanks start outside (by rw [skipped]) (.inr (.inl rfl))
    rw [skipped] at same
    exact .one some (same.trans (ended line))
  | @comment blanks text spaces inside =>
    rw [List.append_assoc, List.cons_append] at eq
    have skipped := past spaces (by decide) eq
    have same := step_blanks start outside (by rw [skipped]) (.inl rfl)
    have length := commentLength_until (fun mem => line (List.mem_append_right _ mem)) rest
    rw [skipped] at same
    have first := same.trans (step_comment rfl)
    rw [← List.cons_append, length, State.skip_append rfl, ← Position.after_append] at first
    exact Runs.next some first (.one (List.cons_ne_nil _ _) (ended line))

/-- A blank line in front of a line moves the tokens from there on one line down, and an error just
as well. The lexer has come to the line with the tokens `before`, outside brackets. -/
theorem tokenize_blank_line {a b w : Bytes} {before : List Token} {s : State}
    (runs : Runs { rest := a ++ b } before s) (rest : s.rest = b) (start : s.atLineStart = true)
    (outside : s.brackets = []) (ends : a = [] ∨ a.getLast? = some Ascii.lineFeed) (blank : Blank w) :
    (∃ after, tokenize (a ++ b) = .ok (before ++ after) ∧
      tokenize (a ++ w ++ Ascii.lineFeed :: b) = .ok (before ++ after.map Token.down)) ∨
    ∃ e, tokenize (a ++ b) = .error e ∧ tokenize (a ++ w ++ Ascii.lineFeed :: b) = .error e.down := by
  obtain ⟨g, takes⟩ := runs.takes
  obtain rfl : a = g := List.append_cancel_right (rest ▸ takes.rest)
  have column : s.position.column = 1 := by
    rw [takes.position]
    rcases ends with rfl | last
    · rfl
    · obtain ⟨lines, rfl⟩ := List.getLast?_eq_some_iff.1 last
      rw [Position.after_append]
      rfl
  have last : ∀ x ∈ a.getLast?, x = Ascii.lineFeed := by
    intro x mem
    rcases ends with rfl | last
    · cases mem
    · exact (Option.some.inj (last.symm.trans mem)).symm
  have skipped : Runs (s.on (w ++ Ascii.lineFeed :: b)) [] s.down := by
    have down : s.down = (s.on (w ++ Ascii.lineFeed :: b)).nextLine b := by
      simp only [State.down, State.nextLine, State.on, Position.down, column, outside, List.map_nil,
        rest, start, Bool.true_or]
    rw [down]
    exact blank.runs start outside rfl
  have long : tokenize (a ++ w ++ Ascii.lineFeed :: b) = finish before.reverse s.down := by
    have runs := (runs.tail last (by rw [rest]) (w ++ Ascii.lineFeed :: b)).trans skipped
    rw [List.append_nil] at runs
    rw [tokenize_eq_finish, List.append_assoc]
    exact runs.finish_eq.trans (by rw [List.append_nil])
  have short : tokenize (a ++ b) = finish before.reverse s := by
    rw [tokenize_eq_finish, runs.finish_eq, List.append_nil]
  rw [long, short]
  simpa only [List.reverse_reverse, List.nil_append, List.map_nil] using finish_down before.reverse s []

theorem tokenize_blank_line_block :
    ∃ before s, Runs { rest := "if a:\n" ++ "  f()\n" } before s ∧ s.rest = "  f()\n" ∧
      s.atLineStart = true ∧ s.brackets = [] ∧ Blank "\t # g" ∧
      ∃ after, tokenize ("if a:\n" ++ "  f()\n") = .ok (before ++ after) ∧
        tokenize ("if a:\n" ++ "\t # g" ++ Ascii.lineFeed :: "  f()\n") =
          .ok (before ++ after.map Token.down) := by
  have runs : Runs { rest := "if a:\n" ++ "  f()\n" } _ _ :=
    .next (by decide) rfl (.next (by decide) rfl (.next (by decide) rfl (.next (by decide) rfl
      (.next (by decide) rfl (.refl _)))))
  have blank : Blank "\t # g" := @Blank.comment "\t " " g" (by decide +kernel) (by decide +kernel)
  obtain ⟨tokens, lexed⟩ : ∃ tokens, tokenize ("if a:\n" ++ "  f()\n") = .ok tokens := by
    decide +kernel
  refine ⟨_, _, runs, rfl, rfl, rfl, blank, ?_⟩
  rcases tokenize_blank_line runs rfl rfl rfl (.inr rfl) blank with found | ⟨e, failed, -⟩
  · exact found
  · cases failed.symm.trans lexed

end Lexer

end CodeSmell
