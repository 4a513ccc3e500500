import CodeSmell.Proofs.Lexer.Step

/-!
Runs of the lexer from any state. `finish read s` gives the tokens of a run that has come to the state
`s` with the tokens `read`; it is unfolded one step at a time, so that the bound on the number of steps
stays in this module. `Runs` says that some steps lead from one state to another.
-/

namespace CodeSmell.Lexer

/-- The tokens of a run that has come to `s`, `read` being those so far, last first. -/
def finish (read : List Token) (s : State) : Except SyntaxError (List Token) := do
  let (read, s) ← scan s.rest.length read s
  let final ← closing read s
  .ok (read.reverse ++ final)

theorem tokenize_eq_finish (source : Bytes) : tokenize source = finish [] { rest := source } := rfl

variable {read new later : List Token} {s s₁ s' : State}

theorem step_length_lt (rest : s.rest ≠ []) (h : step s = .ok (new, s')) :
    s'.rest.length < s.rest.length :=
  (step_cases rest h).reads.length_lt

theorem step_takes (rest : s.rest ≠ []) (h : step s = .ok (new, s')) : ∃ g, s.Takes g s' :=
  (step_cases rest h).reads.takes

theorem scan_succ (rest : s.rest ≠ []) (bound : Nat) : scan (bound + 1) read s =
    match step s with
    | .error e => .error e
    | .ok (new, s') => scan bound (new.reverse ++ read) s' := by
  rw [scan]
  exact if_neg (mt List.isEmpty_iff.1 rest)

theorem scan_nil (rest : s.rest = []) (bound : Nat) : scan bound read s = .ok (read, s) := by
  cases bound with
  | zero => rfl
  | succ bound => rw [scan, if_pos (List.isEmpty_iff.2 rest)]

theorem scan_eq_scan {m n : Nat} (enough : s.rest.length ≤ m) (enough' : s.rest.length ≤ n) :
    scan m read s = scan n read s := by
  induction m generalizing n read s with
  | zero =>
    have rest := List.length_eq_zero_iff.1 (Nat.le_zero.1 enough)
    rw [scan_nil rest, scan_nil rest]
  | succ m ih =>
    by_cases rest : s.rest = []
    · rw [scan_nil rest, scan_nil rest]
    have some := List.length_pos_iff.2 rest
    obtain ⟨n, rfl⟩ : ∃ k, n = k + 1 := ⟨n - 1, by omega⟩
    rw [scan_succ rest, scan_succ rest]
    cases stepped : step s with
    | error e => rfl
    | ok found =>
      obtain ⟨new, s'⟩ := found
      have shorter := step_length_lt rest stepped
      exact ih (by omega) (by omega)

theorem finish_nil (rest : s.rest = []) :
    finish read s = (closing read s).map fun final => read.reverse ++ final := by
  simp only [finish, scan_nil rest, bind, Except.bind]
  cases closing read s <;> rfl

theorem finish_error {e : SyntaxError} (rest : s.rest ≠ []) (h : step s = .error e) :
    finish read s = .error e := by
  obtain ⟨b, tail, eq⟩ := List.exists_cons_of_ne_nil rest
  have fuel : s.rest.length = tail.length + 1 := by rw [eq, List.length_cons]
  simp only [finish, fuel, scan_succ rest, h]
  rfl

theorem finish_step (rest : s.rest ≠ []) (h : step s = .ok (new, s')) :
    finish read s = finish (new.reverse ++ read) s' := by
  have shorter := step_length_lt rest h
  obtain ⟨b, tail, eq⟩ := List.exists_cons_of_ne_nil rest
  have fuel : s.rest.length = tail.length + 1 := by rw [eq, List.length_cons]
  simp only [finish, fuel, scan_succ rest, h]
  rw [scan_eq_scan (n := s'.rest.length) (by omega) (Nat.le_refl _)]

theorem step_of_finish {ts : List Token} (rest : s.rest ≠ []) (h : finish read s = .ok ts) :
    ∃ new s', step s = .ok (new, s') ∧ finish (new.reverse ++ read) s' = .ok ts := by
  cases stepped : step s with
  | error e => cases (finish_error rest stepped).symm.trans h
  | ok found => exact ⟨found.1, found.2, rfl, (finish_step rest stepped).symm.trans h⟩

theorem closing_of_finish {ts : List Token} (rest : s.rest = []) (h : finish read s = .ok ts) :
    ∃ final, closing read s = .ok final ∧ read.reverse ++ final = ts := by
  rw [finish_nil rest] at h
  exact map_eq_ok.1 h

theorem closing_congr {read' : List Token}
    (same : read'.head?.map Token.kind = read.head?.map Token.kind) (s : State) :
    closing read' s = closing read s := by
  unfold closing
  rcases read with _ | ⟨t, read⟩ <;> rcases read' with _ | ⟨t', read'⟩
  · rfl
  · cases same
  · cases same
  · simp only [Option.some.inj same]

inductive Runs : State → List Token → State → Prop where
  | refl (s : State) : Runs s [] s
  | next {new later : List Token} {s s₁ s' : State} : s.rest ≠ [] → step s = .ok (new, s₁) →
      Runs s₁ later s' → Runs s (new ++ later) s'

namespace Runs

theorem one (rest : s.rest ≠ []) (h : step s = .ok (new, s')) : Runs s new s' := by
  simpa using Runs.next rest h (.refl s')

theorem trans (h : Runs s new s₁) (h' : Runs s₁ later s') : Runs s (new ++ later) s' := by
  induction h with
  | refl => exact h'
  | next rest stepped _ ih =>
    rw [List.append_assoc]
    exact .next rest stepped (ih h')

theorem finish_eq (h : Runs s new s') : finish read s = finish (new.reverse ++ read) s' := by
  induction h generalizing read with
  | refl => rfl
  | next rest stepped _ ih => rw [finish_step rest stepped, ih, List.reverse_append, List.append_assoc]

theorem of_step_eq {u : State} (same : step s = step u) (rest : s.rest ≠ [])
    (shorter : s'.rest.length < u.rest.length) (h : Runs u new s') : Runs s new s' := by
  cases h with
  | refl => exact absurd shorter (Nat.lt_irrefl _)
  | next _ stepped runs => exact .next rest (same.trans stepped) runs

theorem takes (h : Runs s new s') : ∃ g, s.Takes g s' := by
  induction h with
  | refl => exact ⟨[], rfl, rfl⟩
  | next rest stepped _ ih =>
    obtain ⟨g, takes⟩ := step_takes rest stepped
    obtain ⟨g', takes'⟩ := ih
    exact ⟨g ++ g', takes.trans takes'⟩

end Runs

theorem runs_of_finish {read ts : List Token} {s : State} (h : finish read s = .ok ts) :
    ∃ new s' final, Runs s new s' ∧ s'.rest = [] ∧ finish (new.reverse ++ read) s' = .ok ts ∧
      ts = read.reverse ++ new ++ final := by
  by_cases rest : s.rest = []
  · obtain ⟨final, -, rfl⟩ := closing_of_finish rest h
    exact ⟨[], s, final, .refl s, rest, h, by rw [List.append_nil]⟩
  · obtain ⟨new, s₁, stepped, after⟩ := step_of_finish rest h
    have shorter := step_length_lt rest stepped
    obtain ⟨later, s', final, runs, nil, finished, rfl⟩ := runs_of_finish after
    refine ⟨new ++ later, s', final, .next rest stepped runs, nil, ?_, ?_⟩
    · simpa using finished
    · simp
termination_by s.rest.length

theorem mem_of_finish {t : Token} {ts read : List Token} {s : State} (mem : t ∈ read)
    (h : finish read s = .ok ts) : t ∈ ts := by
  obtain ⟨new, s', final, -, -, -, rfl⟩ := runs_of_finish h
  simp [mem]

section LineEnds

variable {b : UInt8} {r : Bytes}

def State.nextLine (s : State) (rest : Bytes) : State :=
  { s with
    rest
    position := ⟨s.position.line + 1, 1⟩
    atLineStart := s.atLineStart || s.brackets.isEmpty }

def State.lineEnd (s : State) : List Token :=
  if s.atLineStart || !s.brackets.isEmpty then [] else [s.layout .newline s.position.column]

theorem step_eq_lineStartStep (start : s.atLineStart = true) (outside : s.brackets = []) :
    step s = lineStartStep s := by
  rw [step, start, outside]
  rfl

theorem lineStartStep_blanks (rest : (s.skip (runLength isBlank s.rest)).rest = b :: r)
    (ends : b = '#'.toUInt8 ∨ b = Ascii.lineFeed ∨ b = Ascii.carriageReturn) :
    lineStartStep s = .ok ([], (s.skip (runLength isBlank s.rest)).skip
      (if b = '#'.toUInt8 then commentLength (b :: r) else 1)) := by
  unfold lineStartStep
  simp only [rest]
  rcases ends with rfl | rfl | rfl
  · rfl
  · rfl
  · rfl

theorem lineStartStep_end (rest : s.rest = b :: r)
    (ends : b = '#'.toUInt8 ∨ b = Ascii.lineFeed ∨ b = Ascii.carriageReturn) :
    lineStartStep s = .ok ([], s.skip (if b = '#'.toUInt8 then commentLength (b :: r) else 1)) := by
  have still : s.skip (runLength isBlank s.rest) = s := by
    have other : isBlank b = false := by rcases ends with rfl | rfl | rfl <;> decide
    have none : runLength isBlank s.rest = 0 := by simp [rest, runLength, other]
    rw [none]
    rfl
  have blanks := lineStartStep_blanks (by rw [still]; exact rest) ends
  rwa [still] at blanks

theorem step_eq_lineStep (within : ¬(s.atLineStart = true ∧ s.brackets = [])) :
    step s = lineStep s := by
  rw [step, if_neg fun start => within ?_]
  obtain ⟨start, outside⟩ := Bool.and_eq_true_iff.1 start
  exact ⟨start, List.isEmpty_iff.1 outside⟩

theorem step_feed (rest : s.rest = Ascii.lineFeed :: r) : step s = .ok (s.lineEnd, s.nextLine r) := by
  have skipped : s.skip 1 = { s with rest := r, position := ⟨s.position.line + 1, 1⟩ } := by
    rw [State.skip, rest]
    rfl
  by_cases start : s.atLineStart = true ∧ s.brackets = []
  · rw [step_eq_lineStartStep start.1 start.2, lineStartStep_end rest (.inr (.inl rfl)),
      if_neg (by decide), skipped]
    simp [State.lineEnd, State.nextLine, start.1]
  · rw [step_eq_lineStep start]
    unfold lineStep
    simp only [rest, skipped]
    rw [if_neg (by decide), if_pos (by decide)]
    by_cases outside : s.brackets = []
    · have within : s.atLineStart = false :=
        Bool.eq_false_of_not_eq_true fun atStart => start ⟨atStart, outside⟩
      simp [State.lineEnd, State.nextLine, outside, within]
    · have inside : s.brackets.isEmpty = false := by simpa using outside
      simp [State.lineEnd, State.nextLine, inside]

theorem step_return (rest : s.rest = Ascii.carriageReturn :: r) : step s = .ok ([], s.skip 1) := by
  by_cases start : s.atLineStart = true ∧ s.brackets = []
  · rw [step_eq_lineStartStep start.1 start.2, lineStartStep_end rest (.inr (.inr rfl)),
      if_neg (by decide)]
  · rw [step_eq_lineStep start]
    unfold lineStep
    simp only [rest]
    rw [if_pos (by decide)]

theorem step_comment (rest : s.rest = '#'.toUInt8 :: r) :
    step s = .ok ([], s.skip (commentLength s.rest)) := by
  by_cases start : s.atLineStart = true ∧ s.brackets = []
  · rw [step_eq_lineStartStep start.1 start.2, lineStartStep_end rest (.inl rfl), if_pos rfl, rest]
  · rw [step_eq_lineStep start]
    unfold lineStep
    simp only [rest]
    rw [if_neg (by decide), if_neg (by decide), if_pos (by decide)]

theorem step_blanks (start : s.atLineStart = true) (outside : s.brackets = [])
    (rest : (s.skip (runLength isBlank s.rest)).rest = b :: r)
    (ends : b = '#'.toUInt8 ∨ b = Ascii.lineFeed ∨ b = Ascii.carriageReturn) :
    step s = step (s.skip (runLength isBlank s.rest)) := by
  rw [step_eq_lineStartStep start outside, lineStartStep_blanks rest ends]
  symm
  exact Eq.trans (step_eq_lineStartStep start outside) (lineStartStep_end rest ends)

end LineEnds

end CodeSmell.Lexer
