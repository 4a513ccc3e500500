import CodeSmell.Proofs.Lexer.Step
import Mathlib.Data.List.Find

/-!
What the lexer looks at to find a word, a number, an operator or the opening of a string is the text up
to the end of its line. Two texts with the same first line begin with the same lexeme, strings apart.
-/

namespace CodeSmell

def isBreak (b : UInt8) : Bool := b == Ascii.lineFeed || b == Ascii.carriageReturn

def Bytes.firstLine (s : Bytes) : Bytes := s.takeWhile (!isBreak ·)

namespace Lexer

open Bytes

/-- The test holds only within a line. -/
def Inline (p : UInt8 → Bool) : Prop := ∀ b, isBreak b = true → p b = false

variable {p : UInt8 → Bool} {s t : Bytes}

theorem inline_of (feed : p Ascii.lineFeed = false) (ret : p Ascii.carriageReturn = false) :
    Inline p := by
  intro b isBreak
  rcases Bool.or_eq_true_iff.1 isBreak with same | same
  · rwa [eq_of_beq same]
  · rwa [eq_of_beq same]

@[simp] theorem firstLine_nil : firstLine [] = [] := rfl

theorem firstLine_break {b : UInt8} (h : isBreak b = true) (s : Bytes) : firstLine (b :: s) = [] := by
  simp [firstLine, h]

theorem firstLine_cons {b : UInt8} (h : isBreak b = false) (s : Bytes) :
    firstLine (b :: s) = b :: firstLine s := by
  simp [firstLine, h]

theorem prefix_firstLine (s : Bytes) : firstLine s <+: s := List.takeWhile_prefix _

theorem firstLine_drop {n : Nat} (le : n ≤ (firstLine s).length) :
    firstLine (s.drop n) = (firstLine s).drop n := by
  induction n generalizing s with
  | zero => rfl
  | succ n ih =>
    cases s with
    | nil => rfl
    | cons b s =>
      cases h : isBreak b with
      | true => simp [firstLine_break h] at le
      | false =>
        rw [firstLine_cons h, List.length_cons] at le
        rw [firstLine_cons h, List.drop_succ_cons, List.drop_succ_cons, ih (by omega)]

theorem holdsAt_firstLine (h : Inline p) : holdsAt p (firstLine s) 0 = holdsAt p s 0 := by
  cases s with
  | nil => rfl
  | cons b s =>
    cases isBreak' : isBreak b with
    | true => simp [firstLine_break isBreak', holdsAt, h b isBreak']
    | false => simp [firstLine_cons isBreak', holdsAt]

theorem holdsAt_succ_firstLine {q : UInt8 → Bool} {n : Nat} (h : Inline p)
    (next : ∀ s, holdsAt q (firstLine s) n = holdsAt q s n) :
    (holdsAt p (firstLine s) 0 && holdsAt q (firstLine s) (n + 1)) =
      (holdsAt p s 0 && holdsAt q s (n + 1)) := by
  cases s with
  | nil => rfl
  | cons b s =>
    cases isBreak' : isBreak b with
    | true => simp [firstLine_break isBreak', holdsAt, h b isBreak']
    | false => rw [firstLine_cons isBreak', holdsAt_succ, holdsAt_succ, next]; rfl

theorem runLength_firstLine (h : Inline p) : runLength p (firstLine s) = runLength p s := by
  unfold runLength firstLine
  rw [List.takeWhile_takeWhile]
  congr 2
  funext b
  cases isBreak' : isBreak b with
  | true => simp [h b isBreak']
  | false => simp

theorem runLength_le (p : UInt8 → Bool) (s : Bytes) : runLength p s ≤ s.length :=
  (List.takeWhile_sublist p).length_le

theorem runLength_until {b : UInt8} (holds : ∀ b ∈ s, p b = true) (stops : p b = false)
    (rest : Bytes) : runLength p (s ++ b :: rest) = s.length := by
  rw [runLength, List.takeWhile_append_of_pos holds, List.takeWhile_cons, stops]
  simp

theorem commentLength_until (line : Ascii.lineFeed ∉ s) (rest : Bytes) :
    commentLength (s ++ Ascii.lineFeed :: rest) = s.length :=
  runLength_until (fun b mem => bne_iff_ne.2 fun same => line (by rwa [← same])) (by decide) rest

theorem digitRun_le (s : Bytes) : digitRun s ≤ s.length := runLength_le _ s

theorem digitRun_firstLine (s : Bytes) : digitRun (firstLine s) = digitRun s :=
  runLength_firstLine (inline_of (by decide) (by decide))

theorem isBreak_of_holds {b : UInt8} (h : Inline p) (holds : p b = true) : isBreak b = false := by
  cases isBreak' : isBreak b with
  | false => rfl
  | true => rw [h b isBreak'] at holds; cases holds

theorem firstLine_drop_one (h : Inline p) (holds : holdsAt p s 0 = true) :
    (firstLine s).drop 1 = firstLine (s.drop 1) ∧ 1 ≤ (firstLine s).length := by
  obtain ⟨b, s, rfl, holds⟩ := holdsAt_zero holds
  simp [firstLine_cons (isBreak_of_holds h holds)]

theorem holdsAt_lt {n : Nat} (h : holdsAt p s n = true) : n < s.length := by
  obtain ⟨b, found, -⟩ := Option.any_eq_true _ _ |>.1 h
  exact (List.getElem?_eq_some_iff.1 found).1

theorem inline_point : Inline (· == '.'.toUInt8) := inline_of (by decide) (by decide)

theorem inline_digit : Inline Ascii.isDigit := inline_of (by decide) (by decide)

theorem fractionLength_firstLine (s : Bytes) : fractionLength (firstLine s) = fractionLength s := by
  unfold fractionLength
  rw [holdsAt_firstLine inline_point]
  split_ifs with point
  · rw [(firstLine_drop_one inline_point point).1, digitRun_firstLine]
  · rfl

theorem fractionLength_le (s : Bytes) : fractionLength s ≤ s.length := by
  unfold fractionLength
  split_ifs with point
  · have := holdsAt_lt point
    have := digitRun_le (s.drop 1)
    rw [List.length_drop] at this
    omega
  · exact Nat.zero_le _

theorem exponentLength_firstLine (s : Bytes) : exponentLength (firstLine s) = exponentLength s := by
  have mark : Inline (Ascii.toLower · == 'e'.toUInt8) := inline_of (by decide) (by decide)
  have sign : Inline fun b => b == '+'.toUInt8 || b == '-'.toUInt8 := inline_of (by decide) (by decide)
  cases s with
  | nil => rfl
  | cons b s =>
    cases isBreak' : isBreak b with
    | true =>
      have other : (Ascii.toLower b == 'e'.toUInt8) = false := mark b isBreak'
      simp [exponentLength, firstLine_break isBreak', holdsAt, other]
    | false =>
      rw [firstLine_cons isBreak']
      have signed : holdsAt (fun b => b == '+'.toUInt8 || b == '-'.toUInt8) (firstLine s) 0 =
          holdsAt (fun b => b == '+'.toUInt8 || b == '-'.toUInt8) s 0 := holdsAt_firstLine sign
      cases some : holdsAt (fun b => b == '+'.toUInt8 || b == '-'.toUInt8) s 0 with
      | false =>
        rw [some] at signed
        simp only [exponentLength, holdsAt_succ, signed, some, Bool.false_eq_true, ↓reduceIte,
          Nat.add_zero, holdsAt_firstLine inline_digit, List.drop_succ_cons, List.drop_zero,
          digitRun_firstLine]
        rfl
      | true =>
        rw [some] at signed
        obtain ⟨c, s, rfl, isSign⟩ := holdsAt_zero some
        rw [firstLine_cons (isBreak_of_holds sign isSign)] at signed ⊢
        simp only [exponentLength, holdsAt_succ, signed, some, ↓reduceIte, Nat.one_add,
          holdsAt_firstLine inline_digit, List.drop_succ_cons, List.drop_zero, digitRun_firstLine]
        rfl

theorem exponentLength_le (s : Bytes) : exponentLength s ≤ s.length := by
  unfold exponentLength
  dsimp only
  generalize (if holdsAt (fun b => b == '+'.toUInt8 || b == '-'.toUInt8) s 1 then 1 else 0) = sign
  split_ifs with mark
  · have := holdsAt_lt (Bool.and_eq_true_iff.1 mark).2
    have := digitRun_le (s.drop (1 + sign))
    rw [List.length_drop] at this
    omega
  · exact Nat.zero_le _

theorem realLength_firstLine (s : Bytes) : realLength (firstLine s) = realLength s := by
  have zero : Inline (· == '0'.toUInt8) := inline_of (by decide) (by decide)
  have base : Inline fun b => (Number.base? b).isSome := inline_of (by decide) (by decide)
  have hex : Inline fun b => Ascii.isHexDigit b || b == '_'.toUInt8 :=
    inline_of (by decide) (by decide)
  unfold realLength
  rw [holdsAt_succ_firstLine zero fun _ => holdsAt_firstLine base]
  split_ifs with based
  · have le : 2 ≤ (firstLine s).length := by
      rw [← holdsAt_succ_firstLine zero fun _ => holdsAt_firstLine base] at based
      exact holdsAt_lt (Bool.and_eq_true_iff.1 based).2
    rw [← firstLine_drop le, runLength_firstLine hex]
  · have whole : digitRun s ≤ (firstLine s).length := digitRun_firstLine s ▸ digitRun_le _
    have fraction := fractionLength_le (firstLine (s.drop (digitRun s)))
    rw [fractionLength_firstLine, firstLine_drop whole, List.length_drop] at fraction
    simp only [digitRun_firstLine, ← firstLine_drop whole, fractionLength_firstLine]
    rw [← firstLine_drop (by omega), exponentLength_firstLine]

theorem realLength_le (s : Bytes) : realLength s ≤ s.length := by
  unfold realLength
  split_ifs with based
  · have := holdsAt_lt (Bool.and_eq_true_iff.1 based).2
    have := runLength_le (fun b => Ascii.isHexDigit b || b == '_'.toUInt8) (s.drop 2)
    rw [List.length_drop] at this
    omega
  · have := digitRun_le s
    have := fractionLength_le (s.drop (digitRun s))
    have := exponentLength_le (s.drop (digitRun s + fractionLength (s.drop (digitRun s))))
    simp only [List.length_drop] at *
    omega

theorem isImaginary_firstLine (s : Bytes) : isImaginary (firstLine s) = isImaginary s := by
  have mark : Inline (Ascii.toLower · == 'j'.toUInt8) := inline_of (by decide) (by decide)
  have behind (s : Bytes) (n : Nat) {p : UInt8 → Bool} : holdsAt p s n = holdsAt p (s.drop n) 0 := by
    simp [holdsAt]
  have le := realLength_le (firstLine s)
  rw [isImaginary, isImaginary, behind, behind s]
  rw [realLength_firstLine] at le ⊢
  rw [← firstLine_drop le, holdsAt_firstLine mark]

theorem numberLength_firstLine (s : Bytes) : numberLength (firstLine s) = numberLength s := by
  rw [numberLength, numberLength, realLength_firstLine, isImaginary_firstLine]

theorem numberLength_le (s : Bytes) : numberLength s ≤ s.length := by
  unfold numberLength
  split_ifs with mark
  · exact holdsAt_lt mark
  · exact realLength_le s

theorem inline_quote : Inline isQuote := inline_of (by decide) (by decide)

theorem inline_stringPrefix : Inline isStringPrefix := inline_of (by decide) (by decide)

theorem stringPrefix?_firstLine (s : Bytes) : stringPrefix? (firstLine s) = stringPrefix? s := by
  cases s with
  | nil => rfl
  | cons b s =>
    cases isBreak' : isBreak b with
    | true =>
      have quote := inline_quote b isBreak'
      have letter := inline_stringPrefix b isBreak'
      simp [stringPrefix?, firstLine_break isBreak', holdsAt, quote, letter]
    | false =>
      simp only [stringPrefix?, firstLine_cons isBreak', holdsAt_succ,
        holdsAt_firstLine inline_quote,
        holdsAt_succ_firstLine inline_stringPrefix fun _ => holdsAt_firstLine inline_quote]
      rfl

theorem isPrefixOf_firstLine {o : Bytes} (inside : ∀ b ∈ o, isBreak b = false) (s : Bytes) :
    o.isPrefixOf (firstLine s) = o.isPrefixOf s := by
  induction o generalizing s with
  | nil => rfl
  | cons b o ih =>
    rw [List.forall_mem_cons] at inside
    cases s with
    | nil => rfl
    | cons c s =>
      cases isBreak' : isBreak c with
      | false => rw [firstLine_cons isBreak', List.isPrefixOf, List.isPrefixOf, ih inside.2]
      | true =>
        have other : (b == c) = false := by
          refine beq_eq_false_iff_ne.2 fun same => ?_
          rw [← same, inside.1] at isBreak'
          cases isBreak'
        simp [firstLine_break isBreak', List.isPrefixOf, other]

theorem operator?_firstLine (s : Bytes) : operator? (firstLine s) = operator? s := by
  have inside : ∀ o ∈ operators, ∀ b ∈ o, isBreak b = false := by decide +kernel
  exact List.find?_congr fun o known => isPrefixOf_firstLine (inside o known) s

end Lexer

end CodeSmell
