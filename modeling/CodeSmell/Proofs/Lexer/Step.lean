import CodeSmell.Proofs.Results
import CodeSmell.Token.Lexer
import Mathlib.Data.List.TakeWhile
import Mathlib.Tactic

/-!
What one step of the lexer does: it goes past a gap, or past a gap and the text of one token, and it
always goes forward.

* `Gap after gap`: the text `gap` lies between tokens, `after` being the text that follows it.
* `step_reads`: the two things a step can do, for a state that has text left.
-/

namespace CodeSmell.Lexer

/-! ## Lexemes -/

theorem holdsAt_zero {p : UInt8 → Bool} {s : Bytes} (h : holdsAt p s 0 = true) :
    ∃ b rest, s = b :: rest ∧ p b = true := by
  cases s with
  | nil => simp [holdsAt] at h
  | cons b rest => exact ⟨b, rest, rfl, by simpa [holdsAt] using h⟩

theorem holdsAt_succ (p : UInt8 → Bool) (b : UInt8) (s : Bytes) (n : Nat) :
    holdsAt p (b :: s) (n + 1) = holdsAt p s n := rfl

theorem runLength_pos {p : UInt8 → Bool} {b : UInt8} (rest : Bytes) (h : p b = true) :
    0 < runLength p (b :: rest) := by
  simp [runLength, h]

theorem take_runLength (p : UInt8 → Bool) (s : Bytes) : s.take (runLength p s) = s.takeWhile p := by
  conv_lhs => rw [← List.takeWhile_append_dropWhile (p := p) (l := s)]
  exact List.take_left' (by rw [runLength, List.takeWhile_append_dropWhile])

theorem drop_runLength (p : UInt8 → Bool) (s : Bytes) : s.drop (runLength p s) = s.dropWhile p := by
  conv_lhs => rw [← List.takeWhile_append_dropWhile (p := p) (l := s)]
  exact List.drop_left' (by rw [runLength, List.takeWhile_append_dropWhile])

theorem digitRun_pos {b : UInt8} (rest : Bytes) (h : Ascii.isDigit b = true) :
    0 < digitRun (b :: rest) :=
  runLength_pos rest (by rw [h, Bool.true_or])

theorem digitRun_point (rest : Bytes) : digitRun ('.'.toUInt8 :: rest) = 0 := by
  have point : (Ascii.isDigit '.'.toUInt8 || '.'.toUInt8 == '_'.toUInt8) = false := by decide
  simp only [digitRun, runLength, List.takeWhile_cons, point, Bool.false_eq_true, ↓reduceIte,
    List.length_nil]

theorem fractionLength_point (rest : Bytes) : 0 < fractionLength ('.'.toUInt8 :: rest) := by
  simp [fractionLength, holdsAt]

theorem realLength_pos {s : Bytes} (h : (holdsAt Ascii.isDigit s 0 ||
    (holdsAt (· == '.'.toUInt8) s 0 && holdsAt Ascii.isDigit s 1)) = true) : 0 < realLength s := by
  have first : 0 < digitRun s + fractionLength (s.drop (digitRun s)) := by
    rcases Bool.or_eq_true_iff.1 h with digit | point
    · obtain ⟨b, rest, rfl, digit⟩ := holdsAt_zero digit
      have := digitRun_pos rest digit
      omega
    · obtain ⟨b, rest, rfl, isPoint⟩ := holdsAt_zero (Bool.and_eq_true_iff.1 point).1
      obtain rfl := eq_of_beq isPoint
      rw [digitRun_point, List.drop_zero, Nat.zero_add]
      exact fractionLength_point rest
  unfold realLength
  split
  · omega
  · dsimp only
    omega

theorem operator?_length_pos {s operator : Bytes} (h : operator? s = some operator) :
    0 < operator.length := by
  have known : operator ∈ operators := List.mem_of_find?_eq_some h
  have nonempty : ∀ o ∈ operators, 0 < o.length := by decide
  exact nonempty operator known

theorem take_operator {s operator : Bytes} (h : operator? s = some operator) :
    s.take operator.length = operator := by
  have isPrefix := List.find?_some h
  exact List.prefix_iff_eq_take.1 (List.isPrefixOf_iff_prefix.1 isPrefix) |>.symm

theorem quotedLength_pos {s : Bytes} {n : Nat} (h : quotedLength s = .ok n) : 0 < n := by
  unfold quotedLength at h
  split at h
  · cases h
  · split at h <;> split at h <;> cases h <;> omega

/-! ## Going forward -/

/-- From `s` to `s'` the lexer went past `taken`. -/
structure State.Takes (s : State) (taken : Bytes) (s' : State) : Prop where
  rest : s.rest = taken ++ s'.rest
  position : s'.position = s.position.after taken

namespace State.Takes

theorem skip (s : State) (n : Nat) : s.Takes (s.rest.take n) (s.skip n) :=
  ⟨(List.take_append_drop n s.rest).symm, rfl⟩

theorem trans {s s₁ s₂ : State} {g₁ g₂ : Bytes} (h₁ : s.Takes g₁ s₁) (h₂ : s₁.Takes g₂ s₂) :
    s.Takes (g₁ ++ g₂) s₂ where
  rest := by rw [h₁.rest, h₂.rest, List.append_assoc]
  position := by rw [h₂.position, h₁.position, Position.after_append]

end State.Takes

/-- The state `s'` is `s` after the token `t`, which has text. -/
structure State.Lexes (s : State) (t : Token) (s' : State) : Prop where
  takes : s.Takes t.text s'
  text : t.text ≠ []
  position : t.position = s.position
  endLine : t.endLine = s'.position.line
  kind : t.isLayout = false

theorem State.Lexes.take {s : State} {n : Nat} {kind : TokenKind} (rest : s.rest ≠ [])
    (pos : 0 < n) (h : kind.isLayout = false) : s.Lexes (s.take n kind).1 (s.take n kind).2 where
  takes := .skip s n
  text := by
    intro empty
    rcases List.take_eq_nil_iff.1 empty with zero | nil
    · omega
    · exact rest nil
  position := rfl
  endLine := rfl
  kind := h

inductive State.Lexeme (s : State) : Token → State → Prop where
  | string {n m : Nat} : stringPrefix? s.rest = some n → quotedLength (s.rest.drop n) = .ok m →
      s.Lexeme (s.take (n + m) .string).1 (s.take (n + m) .string).2
  | word {kind : TokenKind} : holdsAt startsName s.rest 0 = true → kind = .keyword ∨ kind = .name →
      s.Lexeme (s.take (runLength continuesName s.rest) kind).1
        (s.take (runLength continuesName s.rest) kind).2
  | number {value : Float} {imaginary : Bool} : (holdsAt Ascii.isDigit s.rest 0 ||
      (holdsAt (· == '.'.toUInt8) s.rest 0 && holdsAt Ascii.isDigit s.rest 1)) = true →
      s.Lexeme { (s.take (numberLength s.rest) .number).1 with value, imaginary }
        (s.take (numberLength s.rest) .number).2
  | operator {operator : Bytes} {opened : List Bracket} : operator? s.rest = some operator →
      Lexer.brackets s operator = .ok opened → s.Lexeme (s.take operator.length .operator).1
        { (s.take operator.length .operator).2 with brackets := opened }

theorem lexeme_cases {s s' : State} {t : Token} (h : lexeme s = .ok (t, s')) : s.Lexeme t s' := by
  unfold lexeme at h
  split at h
  · next n found =>
    split at h
    · next m length =>
      obtain ⟨rfl, rfl⟩ := Prod.mk.inj (Except.ok.inj h)
      exact .string found length
    · cases h
  split_ifs at h with starts number
  · obtain ⟨rfl, rfl⟩ := Prod.mk.inj (Except.ok.inj h)
    exact .word starts (ite_eq_or_eq _ _ _)
  · obtain ⟨rfl, rfl⟩ := Prod.mk.inj (Except.ok.inj h)
    exact .number number
  · split at h
    · next operator found =>
      obtain ⟨_, opened, h⟩ := bind_eq_ok.1 h
      obtain ⟨rfl, rfl⟩ := Prod.mk.inj (Except.ok.inj h)
      exact .operator found opened
    · cases h

theorem lexeme_lexes {s s' : State} {t : Token} (rest : s.rest ≠ [])
    (h : lexeme s = .ok (t, s')) : s.Lexes t s' := by
  cases lexeme_cases h with
  | string _ length =>
    have := quotedLength_pos length
    exact .take rest (by omega) rfl
  | word starts kind =>
    obtain ⟨b, tail, eq, starts⟩ := holdsAt_zero starts
    refine .take rest ?_ (by rcases kind with rfl | rfl <;> rfl)
    rw [eq]
    exact runLength_pos tail (by rw [continuesName, starts, Bool.true_or])
  | number number =>
    have := realLength_pos number
    have lexed : s.Lexes (s.take (numberLength s.rest) .number).1 _ :=
      .take rest (by rw [numberLength]; omega) rfl
    exact ⟨lexed.takes, lexed.text, lexed.position, lexed.endLine, lexed.kind⟩
  | @operator text _ found _ =>
    have lexed : s.Lexes (s.take text.length .operator).1 _ :=
      .take rest (operator?_length_pos found) rfl
    exact ⟨⟨lexed.takes.rest, lexed.takes.position⟩, lexed.text, lexed.position, lexed.endLine,
      lexed.kind⟩

/-! ## Gaps -/

def isGapByte (b : UInt8) : Bool :=
  isBlank b || b == Ascii.carriageReturn || b == Ascii.lineFeed

/-- A text between tokens, before the text `after`: white space, line ends, continuations, and
comments up to the end of their line. -/
inductive Gap (after : Bytes) : Bytes → Prop where
  | nil : Gap after []
  | space {b : UInt8} {gap : Bytes} : isGapByte b → Gap after gap → Gap after (b :: gap)
  | continuation {gap : Bytes} : Gap after gap → Gap after ('\\'.toUInt8 :: Ascii.lineFeed :: gap)
  | continuationReturn {gap : Bytes} : Gap after gap →
      Gap after ('\\'.toUInt8 :: Ascii.carriageReturn :: Ascii.lineFeed :: gap)
  | comment {text gap : Bytes} : Ascii.lineFeed ∉ text →
      (gap ++ after).head?.all (· == Ascii.lineFeed) → Gap after gap →
      Gap after ('#'.toUInt8 :: text ++ gap)

theorem Gap.append {after g₁ g₂ : Bytes} (h₁ : Gap (g₂ ++ after) g₁) (h₂ : Gap after g₂) :
    Gap after (g₁ ++ g₂) := by
  induction h₁ with
  | nil => exact h₂
  | space blank _ ih => exact .space blank ih
  | continuation _ ih => exact .continuation ih
  | continuationReturn _ ih => exact .continuationReturn ih
  | @comment text gap inside ended _ ih =>
    rw [List.append_assoc]
    exact .comment inside (by rwa [List.append_assoc]) ih

theorem Gap.spaces {after gap : Bytes} (h : ∀ b ∈ gap, isGapByte b) : Gap after gap := by
  induction gap with
  | nil => exact .nil
  | cons b rest ih =>
    exact .space (h b (List.mem_cons_self ..)) (ih fun c mem => h c (List.mem_cons_of_mem _ mem))

theorem comment_text (tail : Bytes) : ∃ text, Ascii.lineFeed ∉ text ∧
    ('#'.toUInt8 :: tail).take (commentLength ('#'.toUInt8 :: tail)) = '#'.toUInt8 :: text ∧
    (('#'.toUInt8 :: tail).drop (commentLength ('#'.toUInt8 :: tail))).head?.all
      (· == Ascii.lineFeed) := by
  have mark : ('#'.toUInt8 != Ascii.lineFeed) = true := by decide
  simp only [commentLength, take_runLength, drop_runLength, List.takeWhile_cons, List.dropWhile_cons,
    mark, ↓reduceIte]
  refine ⟨tail.takeWhile (· != Ascii.lineFeed), fun mem => ?_, rfl, ?_⟩
  · simpa using List.mem_takeWhile_imp mem
  · have ended := List.head?_dropWhile_not (· != Ascii.lineFeed) tail
    cases next : (tail.dropWhile (· != Ascii.lineFeed)).head? with
    | none => rfl
    | some b => simpa [next] using ended

theorem comment_gap {s : Bytes} (h : s.head? = some '#'.toUInt8) :
    Gap (s.drop (commentLength s)) (s.take (commentLength s)) ∧ s.take (commentLength s) ≠ [] := by
  obtain ⟨tail, rfl⟩ := List.head?_eq_some_iff.1 h
  obtain ⟨text, inside, taken, ended⟩ := comment_text tail
  rw [taken, ← List.append_nil ('#'.toUInt8 :: text)]
  exact ⟨.comment inside ended .nil, List.cons_ne_nil _ _⟩

theorem continuationLength?_cases {mark : UInt8} {tail : Bytes} {n : Nat}
    (found : continuationLength? (mark :: tail) = some n) :
    (∃ rest, tail = Ascii.lineFeed :: rest ∧ n = 2) ∨
      ∃ rest, tail = Ascii.carriageReturn :: Ascii.lineFeed :: rest ∧ n = 3 := by
  unfold continuationLength? at found
  split_ifs at found with feed both
  · obtain ⟨b, rest, rfl, isFeed⟩ := holdsAt_zero (holdsAt_succ .. ▸ feed)
    obtain rfl := eq_of_beq isFeed
    exact .inl ⟨rest, rfl, (Option.some.inj found).symm⟩
  · obtain ⟨first, second⟩ := Bool.and_eq_true_iff.1 both
    obtain ⟨b, rest, rfl, isReturn⟩ := holdsAt_zero (holdsAt_succ .. ▸ first)
    obtain rfl := eq_of_beq isReturn
    obtain ⟨b, rest, rfl, isFeed⟩ := holdsAt_zero (holdsAt_succ .. ▸ holdsAt_succ .. ▸ second)
    obtain rfl := eq_of_beq isFeed
    exact .inr ⟨rest, rfl, (Option.some.inj found).symm⟩

theorem continuation_gap {s : Bytes} {n : Nat} (h : s.head? = some '\\'.toUInt8)
    (found : continuationLength? s = some n) : Gap (s.drop n) (s.take n) ∧ s.take n ≠ [] := by
  obtain ⟨tail, rfl⟩ := List.head?_eq_some_iff.1 h
  rcases continuationLength?_cases found with ⟨rest, rfl, rfl⟩ | ⟨rest, rfl, rfl⟩
  · exact ⟨.continuation .nil, List.cons_ne_nil _ _⟩
  · exact ⟨.continuationReturn .nil, List.cons_ne_nil _ _⟩

/-! ## Steps -/

inductive State.LineStep (s : State) : List Token → State → Prop where
  | gap {n : Nat} : Gap (s.skip n).rest (s.rest.take n) → s.rest.take n ≠ [] → s.LineStep [] (s.skip n)
  | lineEnd {rest : Bytes} : s.rest = Ascii.lineFeed :: rest → s.brackets = [] →
      s.LineStep [s.layout .newline s.position.column] { s.skip 1 with atLineStart := true }
  | lexeme {t : Token} {s' : State} : s.rest ≠ [] → Lexer.lexeme s = .ok (t, s') → s.LineStep [t] s'

inductive State.Indents (s : State) (width : Nat) : List Token → State → Prop where
  | indent : s.indent < width → s.Indents width [s.layout .indent 1]
      { s with atLineStart := false, indents := width :: s.indents }
  | dedents : (s.indents.dropWhile (width < ·)).head?.getD 0 = width →
      s.Indents width ((s.indents.takeWhile (width < ·)).map fun _ => s.layout .dedent 1)
        { s with atLineStart := false, indents := s.indents.dropWhile (width < ·) }

inductive State.LineStart (s : State) : List Token → State → Prop where
  | blank {n : Nat} : Gap (s.skip n).rest (s.rest.take n) → s.rest.take n ≠ [] →
      s.LineStart [] (s.skip n)
  | line {n width : Nat} {layout tokens : List Token} {s₁ s' : State} :
      (∀ b ∈ s.rest.take n, isGapByte b) → (s.skip n).Indents width layout s₁ →
      s₁.LineStep tokens s' → s.LineStart (layout ++ tokens) s'

inductive State.Steps (s : State) (new : List Token) (s' : State) : Prop where
  | start : s.atLineStart = true → s.brackets = [] → s.LineStart new s' → s.Steps new s'
  | within : ¬(s.atLineStart = true ∧ s.brackets = []) → s.LineStep new s' → s.Steps new s'

section Cases

variable {s s' : State} {new : List Token}

theorem lineStep_cases (rest : s.rest ≠ []) (h : lineStep s = .ok (new, s')) : s.LineStep new s' := by
  obtain ⟨b, tail, eq⟩ := List.exists_cons_of_ne_nil rest
  have byte (space : isGapByte b = true) : s.LineStep [] (s.skip 1) := by
    refine .gap ?_ (by simp [eq])
    rw [eq]
    exact .space space .nil
  unfold lineStep at h
  split at h
  · next empty => exact absurd empty rest
  next c _ eq' =>
  obtain ⟨rfl, rfl⟩ := List.cons.inj (eq.symm.trans eq')
  split_ifs at h with blank feed outside comment backslash
  · obtain ⟨rfl, rfl⟩ := Prod.mk.inj (Except.ok.inj h)
    exact byte (by rw [isGapByte, blank, Bool.true_or])
  · obtain ⟨rfl, rfl⟩ := Prod.mk.inj (Except.ok.inj h)
    exact .lineEnd (by rw [eq, eq_of_beq feed]) (List.isEmpty_iff.1 outside)
  · obtain ⟨rfl, rfl⟩ := Prod.mk.inj (Except.ok.inj h)
    exact byte (by rw [isGapByte, feed, Bool.or_true])
  · obtain ⟨rfl, rfl⟩ := Prod.mk.inj (Except.ok.inj h)
    have ⟨gap, nonempty⟩ := comment_gap (s := s.rest) (by rw [eq, eq_of_beq comment]; rfl)
    exact .gap gap nonempty
  · split at h
    · next n found =>
      obtain ⟨rfl, rfl⟩ := Prod.mk.inj (Except.ok.inj h)
      have ⟨gap, nonempty⟩ := continuation_gap (by rw [eq, eq_of_beq backslash]; rfl) found
      exact .gap gap nonempty
    · cases h
  · obtain ⟨⟨t, s₁⟩, lexed, h⟩ := bind_eq_ok.1 h
    obtain ⟨rfl, rfl⟩ := Prod.mk.inj (Except.ok.inj h)
    exact .lexeme rest lexed

theorem lineStep_silent {b : UInt8} {tail : Bytes} (outside : s.brackets = []) (rest : s.rest = b :: tail)
    (h : lineStep s = .ok ([], s')) : ∃ n, s' = s.skip n ∧
      ((isBlank b || b == Ascii.carriageReturn) = true ∧ n = 1 ∨
        b = '#'.toUInt8 ∧ n = commentLength (b :: tail) ∨
        b = '\\'.toUInt8 ∧ continuationLength? (b :: tail) = some n) := by
  unfold lineStep at h
  simp only [rest] at h
  split_ifs at h with blank feed closed comment backslash
  · exact ⟨1, (Prod.mk.inj (Except.ok.inj h)).2.symm, .inl ⟨blank, rfl⟩⟩
  · cases (Prod.mk.inj (Except.ok.inj h)).1
  · exact absurd (List.isEmpty_iff.2 outside) closed
  · exact ⟨_, (Prod.mk.inj (Except.ok.inj h)).2.symm, .inr (.inl ⟨eq_of_beq comment, rfl⟩)⟩
  · split at h
    · next n found =>
      exact ⟨n, (Prod.mk.inj (Except.ok.inj h)).2.symm, .inr (.inr ⟨eq_of_beq backslash, found⟩)⟩
    · cases h
  · obtain ⟨_, _, h⟩ := bind_eq_ok.1 h
    cases (Prod.mk.inj (Except.ok.inj h)).1

theorem indentStep_cases {width : Nat} (h : indentStep s width = .ok (new, s')) :
    s.Indents width new s' := by
  unfold indentStep at h
  split_ifs at h with deeper
  · obtain ⟨rfl, rfl⟩ := Prod.mk.inj (Except.ok.inj h)
    exact .indent deeper
  dsimp only at h
  split_ifs at h with known
  · obtain ⟨rfl, rfl⟩ := Prod.mk.inj (Except.ok.inj h)
    exact .dedents known
  · cases h

theorem State.Indents.layout {width : Nat} (h : s.Indents width new s') :
    ∀ t ∈ new, ∃ kind, (kind = .indent ∨ kind = .dedent) ∧ t = s.layout kind 1 := by
  cases h with
  | indent => exact List.forall_mem_singleton.2 ⟨_, .inl rfl, rfl⟩
  | dedents => exact List.forall_mem_map.2 fun _ _ => ⟨_, .inr rfl, rfl⟩

theorem State.Indents.still {width : Nat} (h : s.Indents width new s') :
    s'.rest = s.rest ∧ s'.position = s.position ∧ s'.brackets = s.brackets ∧
      s'.atLineStart = false := by
  cases h <;> exact ⟨rfl, rfl, rfl, rfl⟩

theorem State.skip_skip (s : State) (n m : Nat) : (s.skip n).skip m = s.skip (n + m) := by
  simp only [skip, List.drop_drop, List.take_add, Position.after_append]

theorem isGapByte_of_blank {s : Bytes} {b : UInt8} (h : b ∈ s.take (runLength isBlank s)) :
    isGapByte b = true := by
  rw [take_runLength] at h
  rw [isGapByte, List.mem_takeWhile_imp h, Bool.true_or, Bool.true_or]

theorem lineStartStep_cases (rest : s.rest ≠ []) (h : lineStartStep s = .ok (new, s')) :
    s.LineStart new s' := by
  unfold lineStartStep at h
  dsimp only at h
  have blanks := @isGapByte_of_blank s.rest
  generalize runLength isBlank s.rest = n at h blanks
  -- A gap after the blanks is one with them.
  have past {m : Nat} (gap : Gap ((s.skip n).skip m).rest ((s.skip n).rest.take m))
      (nonempty : (s.skip n).rest.take m ≠ []) : s.LineStart [] ((s.skip n).skip m) := by
    rw [State.skip_skip] at gap ⊢
    have split : s.rest.take (n + m) = s.rest.take n ++ (s.skip n).rest.take m := List.take_add
    refine .blank ?_ (by rw [split]; exact List.append_ne_nil_of_right_ne_nil _ nonempty)
    rw [split]
    exact .append (.spaces fun b => blanks) gap
  split at h
  · next empty =>
    obtain ⟨rfl, rfl⟩ := Prod.mk.inj (Except.ok.inj h)
    refine .blank (.spaces fun b => blanks) fun none => rest ?_
    rw [← List.take_append_drop n s.rest, none, List.nil_append]
    exact empty
  next b tail eq =>
  split_ifs at h with comment lineEnd
  · obtain ⟨rfl, rfl⟩ := Prod.mk.inj (Except.ok.inj h)
    have ⟨gap, mark⟩ := comment_gap (s := (s.skip n).rest) (by rw [eq, eq_of_beq comment]; rfl)
    exact past gap mark
  · obtain ⟨rfl, rfl⟩ := Prod.mk.inj (Except.ok.inj h)
    refine past ?_ (by simp [eq])
    rw [eq]
    refine .space ?_ .nil
    rcases Bool.or_eq_true_iff.1 lineEnd with feed | carriage
    · rw [isGapByte, feed, Bool.or_true]
    · rw [isGapByte, carriage, Bool.or_true, Bool.true_or]
  · obtain ⟨⟨layout, s₁⟩, indent, h⟩ := bind_eq_ok.1 h
    obtain ⟨⟨tokens, s₂⟩, line, h⟩ := bind_eq_ok.1 h
    obtain ⟨rfl, rfl⟩ := Prod.mk.inj (Except.ok.inj h)
    have indents := indentStep_cases indent
    have rest₁ : s₁.rest ≠ [] := by
      rw [indents.still.1, eq]
      exact List.cons_ne_nil b tail
    exact .line (fun b => blanks) indents (lineStep_cases rest₁ line)

theorem step_cases (rest : s.rest ≠ []) (h : step s = .ok (new, s')) : s.Steps new s' := by
  unfold step at h
  split at h
  · next start =>
    obtain ⟨start, outside⟩ := Bool.and_eq_true_iff.1 start
    exact .start start (List.isEmpty_iff.1 outside) (lineStartStep_cases rest h)
  · next other =>
    refine .within (fun ⟨start, outside⟩ => other ?_) (lineStep_cases rest h)
    rw [start, outside]
    rfl

end Cases

/-! ## Runs -/

/-- What steps keep holds at the end of a scan; the tokens are those read so far, last first. -/
theorem scan_keeps {I : List Token → State → Prop}
    (keeps : ∀ {tokens new s s'}, I tokens s → s.Steps new s' → I (new.reverse ++ tokens) s')
    {bound : Nat} {tokens tokens' : List Token} {s s' : State} (before : I tokens s)
    (h : scan bound tokens s = .ok (tokens', s')) : I tokens' s' := by
  induction bound generalizing tokens s with
  | zero =>
    obtain ⟨rfl, rfl⟩ := Prod.mk.inj (Except.ok.inj h)
    exact before
  | succ bound ih =>
    unfold scan at h
    split_ifs at h with empty
    · obtain ⟨rfl, rfl⟩ := Prod.mk.inj (Except.ok.inj h)
      exact before
    split at h
    · cases h
    next new s₁ stepped =>
    exact ih (keeps before (step_cases (fun nil => empty (List.isEmpty_iff.2 nil)) stepped)) h

theorem closing_cases {tokens final : List Token} {s : State} (h : closing tokens s = .ok final) :
    s.brackets = [] ∧ ∃ lineEnd, (∀ t ∈ lineEnd, t = s.layout .newline s.position.column) ∧
      final = lineEnd ++ (s.indents.map fun _ => s.layout .dedent 1) ++
        [s.layout .endMarker s.position.column] := by
  unfold closing at h
  split at h
  · cases h
  next outside =>
  refine ⟨outside, _, fun t mem => ?_, (Except.ok.inj h).symm⟩
  split at mem
  · split_ifs at mem
    · cases mem
    · exact List.mem_singleton.1 mem
  · cases mem

theorem tokenize_cases {source : Bytes} {tokens : List Token} (h : tokenize source = .ok tokens) :
    ∃ read s final, scan source.length [] { rest := source } = .ok (read, s) ∧
      closing read s = .ok final ∧ tokens = read.reverse ++ final := by
  obtain ⟨⟨read, s⟩, scanned, h⟩ := bind_eq_ok.1 h
  obtain ⟨final, closed, h⟩ := bind_eq_ok.1 h
  exact ⟨read, s, final, scanned, closed, (Except.ok.inj h).symm⟩

/-! ## Text -/

/-- A step that yields the tokens `new` goes past a gap, or past a gap and one token's text. -/
inductive State.Reads (s : State) : List Token → State → Prop where
  | gap {new : List Token} {g : Bytes} {s' : State} : s.Takes g s' → g ≠ [] → Gap s'.rest g →
      new.filter (!·.isLayout) = [] → s.Reads new s'
  | token {new : List Token} {g : Bytes} {s₁ s' : State} {t : Token} : s.Takes g s₁ →
      Gap s₁.rest g → s₁.Lexes t s' → new.filter (!·.isLayout) = [t] → s.Reads new s'

section Text

variable {s s' : State} {new : List Token}

theorem State.LineStep.reads (h : s.LineStep new s') : s.Reads new s' := by
  cases h with
  | gap gap nonempty => exact .gap (.skip s _) nonempty gap rfl
  | lineEnd eq _ =>
    have takes := State.Takes.skip s 1
    refine .gap ⟨takes.rest, takes.position⟩ (by simp [eq]) ?_ rfl
    rw [eq]
    exact .space (by decide) .nil
  | lexeme rest lexed =>
    have lexes := lexeme_lexes rest lexed
    exact .token ⟨rfl, rfl⟩ .nil lexes (by simp [lexes.kind])

theorem State.Indents.silent {width : Nat} (h : s.Indents width new s') :
    new.filter (!·.isLayout) = [] := by
  refine List.filter_eq_nil_iff.2 fun t mem => ?_
  obtain ⟨kind, rfl | rfl, rfl⟩ := h.layout t mem
  all_goals exact Bool.false_ne_true

theorem State.Reads.after_gap {s₁ : State} {g : Bytes} {layout : List Token}
    (takes : s.Takes g s₁) (spaces : ∀ b ∈ g, isGapByte b)
    (silent : layout.filter (!·.isLayout) = []) (reads : s₁.Reads new s') :
    s.Reads (layout ++ new) s' := by
  have before : Gap s₁.rest g := .spaces spaces
  cases reads with
  | gap takes' nonempty gap nothing =>
    refine .gap (takes.trans takes') (by simp [nonempty]) (.append ?_ gap) (by simp [silent, nothing])
    rwa [← takes'.rest]
  | token takes' gap lexes one =>
    refine .token (takes.trans takes') (.append ?_ gap) lexes (by simp [silent, one])
    rwa [← takes'.rest]

theorem State.Steps.reads (h : s.Steps new s') : s.Reads new s' := by
  cases h with
  | within _ line => exact line.reads
  | start _ _ start =>
    cases start with
    | blank gap nonempty => exact .gap (.skip s _) nonempty gap rfl
    | @line n width layout tokens s₁ s' blanks indents line =>
      have takes := State.Takes.skip s n
      exact .after_gap ⟨by rw [indents.still.1]; exact takes.rest, indents.still.2.1⟩ blanks
        indents.silent line.reads

end Text

theorem State.Reads.takes {s s' : State} {new : List Token} (h : s.Reads new s') :
    ∃ g, s.Takes g s' := by
  cases h with
  | gap takes => exact ⟨_, takes⟩
  | token takes _ lexes => exact ⟨_, takes.trans lexes.takes⟩

theorem State.Reads.length_lt {s s' : State} {new : List Token} (h : s.Reads new s') :
    s'.rest.length < s.rest.length := by
  cases h with
  | gap takes nonempty =>
    have := List.length_pos_iff.2 nonempty
    rw [takes.rest, List.length_append]
    omega
  | token takes _ lexes =>
    have := List.length_pos_iff.2 lexes.text
    rw [takes.rest, lexes.takes.rest, List.length_append, List.length_append]
    omega

end CodeSmell.Lexer
