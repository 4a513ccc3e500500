import CodeSmell.Proofs.Report.Grammar
import CodeSmell.Report.Json
import Mathlib.Data.List.Basic
import Mathlib.Data.List.TakeWhile
import Mathlib.Data.Nat.Basic
import Mathlib.Tactic.IntervalCases

/-!
Numbers as JSON. The decimal text of a natural or an integer reads as just that number. A finite
double-precision number to some count of significant digits is a number of the grammar in each of
its forms: the digits of the text are not all zero, so that a fraction without trailing zeros is not
empty.
-/

namespace CodeSmell

/-! ## Digits of naturals -/

namespace Bytes

theorem ofNat_digit {n : Nat} (h : n < 10) : Bytes.ofNat n = [(48 + n).toUInt8] := by
  rw [Bytes.ofNat, Nat.toDigits_of_lt_base h]
  interval_cases n <;> rfl

theorem ofNat_append {n d : Nat} (pos : 0 < n) (digit : d < 10) :
    Bytes.ofNat (10 * n + d) = Bytes.ofNat n ++ [(48 + d).toUInt8] := by
  rw [← ofNat_digit digit, Bytes.ofNat, ← Nat.toDigits_append_toDigits (by decide) pos digit,
    List.map_append, ← Bytes.ofNat, ← Bytes.ofNat]

theorem ofNat_ne_nil (n : Nat) : Bytes.ofNat n ≠ [] := by
  rw [Bytes.ofNat, Ne, List.map_eq_nil_iff]
  exact Nat.toDigits_ne_nil

theorem isDigit_digit : ∀ d < 10, Ascii.isDigit (48 + d).toUInt8 = true := by decide

theorem toNat_digit : ∀ d < 10, (48 + d).toUInt8.toNat - 48 = d := by decide

theorem isDigit_of_mem_ofNat {n : Nat} : ∀ b ∈ Bytes.ofNat n, Ascii.isDigit b = true := by
  induction n using Nat.base_induction 10 (by decide) with
  | single d digit =>
    rw [ofNat_digit digit]
    simpa using isDigit_digit d digit
  | digit n d digit pos ih =>
    rw [ofNat_append pos digit, List.forall_mem_append]
    refine ⟨ih, ?_⟩
    simpa using isDigit_digit d digit

theorem digitsValue_ofNat (n : Nat) : Number.digitsValue (Bytes.ofNat n) = n := by
  induction n using Nat.base_induction 10 (by decide) with
  | single d digit =>
    rw [ofNat_digit digit]
    simpa [Number.digitsValue] using toNat_digit d digit
  | digit n d digit pos ih =>
    rw [Number.digitsValue] at ih
    rw [ofNat_append pos digit, Number.digitsValue, List.foldl_append, ih, List.foldl_cons,
      List.foldl_nil, toNat_digit d digit, Nat.mul_comm]

theorem head_ofNat {n : Nat} (zero : (Bytes.ofNat n).head? = some ('0' : UInt8)) : n = 0 := by
  induction n using Nat.base_induction 10 (by decide) with
  | single d digit =>
    rw [ofNat_digit digit, List.head?_cons, Option.some_inj] at zero
    have value := toNat_digit d digit
    rw [zero] at value
    exact value.symm
  | digit n d digit pos ih =>
    rw [ofNat_append pos digit, List.head?_append_of_ne_nil _ (ofNat_ne_nil n)] at zero
    exact absurd (ih zero) pos.ne'

end Bytes

/-! ## Significant digits -/

namespace Decimal

theorem lt_pow_decimalLength (n : Nat) : n < 10 ^ decimalLength n := by
  unfold decimalLength
  split
  · omega
  · exact (Nat.length_toDigits_le_iff (by decide) Nat.length_toDigits_pos).1 le_rfl

theorem decimalLength_pos {n : Nat} (h : 0 < n) : 0 < decimalLength n := by
  rw [decimalLength, if_neg (by omega)]
  exact Nat.length_toDigits_pos

theorem roundDiv_pos {num den : Nat} (pos : 0 < den) (le : den ≤ num) : 0 < roundDiv num den := by
  have quotient : 0 < num / den := Nat.div_pos le pos
  unfold roundDiv
  dsimp only
  split <;> omega

theorem le_of_decimalOrder_neg {num den : Nat} (pos : 0 < num) (posDen : 0 < den)
    (below : decimalOrder num den < 0) :
    ∃ k : Nat, decimalOrder num den = -(k : Int) ∧ den ≤ num * 10 ^ k := by
  unfold decimalOrder at below ⊢
  split at below
  · next le =>
    have := decimalLength_pos (Nat.div_pos le posDen)
    omega
  · next lt =>
    rw [if_neg lt]
    refine ⟨_, rfl, ?_⟩
    have := (Nat.div_lt_iff_lt_mul pos).1 (lt_pow_decimalLength ((den - 1) / num))
    rw [Nat.mul_comm]
    omega

theorem significant_pos {precision num den : Nat} (places : 0 < precision) (pos : 0 < num)
    (posDen : 0 < den) (below : (significant precision num den).2 < 0) :
    0 < (significant precision num den).1 := by
  unfold significant at below ⊢
  dsimp only at below ⊢
  split at below
  · next full =>
    rw [if_pos full]
    exact Nat.pow_pos (by decide)
  · next notFull =>
    rw [if_neg notFull]
    obtain ⟨k, order, le⟩ := le_of_decimalOrder_neg pos posDen below
    have exponent : ((precision : Int) - 1 - -(k : Int)).toNat = precision - 1 + k := by omega
    have scaled : scale 10 num den (precision - 1 - decimalOrder num den) =
        (num * 10 ^ (precision - 1 + k), den) := by
      rw [scale, order, if_pos (by omega), exponent, Nat.pow_eq]
    rw [scaled]
    refine roundDiv_pos posDen (le.trans (Nat.mul_le_mul_left num ?_))
    exact Nat.pow_le_pow_right (by decide) (Nat.le_add_left k _)

theorem scale_pos {num : Nat} (pos : 0 < num) (exponent : Int) :
    0 < (scale 2 num 1 exponent).1 ∧ 0 < (scale 2 num 1 exponent).2 := by
  unfold scale
  split
  · exact ⟨Nat.mul_pos pos (Nat.pow_pos (by decide)), Nat.one_pos⟩
  · exact ⟨pos, Nat.mul_pos Nat.one_pos (Nat.pow_pos (by decide))⟩

/-! ## Trailing zeros -/

theorem mem_of_mem_dropZeros {ds : Bytes} {b : UInt8} (mem : b ∈ dropZeros ds) : b ∈ ds := by
  rw [dropZeros, List.mem_reverse] at mem
  exact List.mem_reverse.1 ((List.dropWhile_sublist _).subset mem)

theorem dropZeros_ofNat_ne_nil {n : Nat} (pos : 0 < n) : dropZeros (Bytes.ofNat n) ≠ [] := by
  rw [dropZeros, Ne, List.reverse_eq_nil_iff, List.dropWhile_eq_nil_iff]
  intro zeros
  obtain ⟨b, front, same⟩ := List.exists_cons_of_ne_nil (Bytes.ofNat_ne_nil n)
  have first := zeros b (by rw [same]; simp)
  have := Bytes.head_ofNat (n := n) (by rw [same, List.head?_cons, eq_of_beq first])
  omega

end Decimal

/-! ## Texts of the grammar -/

namespace Json

open Grammar

def IsMagnitude (t : Bytes) : Prop := ∃ m e, ∀ rest, Magnitude m e (t ++ rest) rest

def IsNumeral (t : Bytes) : Prop := ∃ m e, ∀ rest, Numeral m e (t ++ rest) rest

structure IsWhole (t : Bytes) : Prop where
  nonempty : t ≠ []
  decimal : ∀ b ∈ t, Ascii.isDigit b = true
  noZero : t.head? = some ('0' : UInt8) → t = "0"

theorem IsWhole.digits {t : Bytes} (h : IsWhole t) (rest : Bytes) : Digits t (t ++ rest) rest :=
  ⟨h.nonempty, h.decimal, rfl⟩

theorem isWhole_ofNat (n : Nat) : IsWhole (Bytes.ofNat n) where
  nonempty := Bytes.ofNat_ne_nil n
  decimal := Bytes.isDigit_of_mem_ofNat
  noZero zero := by
    rw [Bytes.head_ofNat zero]
    rfl

theorem isWhole_zero : IsWhole "0" := isWhole_ofNat 0

theorem IsWhole.take {t : Bytes} (h : IsWhole t) (k : Nat) : IsWhole (t.take (k + 1)) where
  nonempty := by
    rw [Ne, List.take_eq_nil_iff]
    exact not_or.2 ⟨Nat.succ_ne_zero k, h.nonempty⟩
  decimal b mem := h.decimal b (List.mem_of_mem_take mem)
  noZero zero := by
    rw [List.head?_take, if_neg (Nat.succ_ne_zero k)] at zero
    rw [h.noZero zero]
    exact List.take_of_length_le (Nat.le_add_left 1 k)

theorem magnitude_ofNat (n : Nat) (rest : Bytes) : Magnitude n 0 (Bytes.ofNat n ++ rest) rest := by
  have whole := isWhole_ofNat n
  simpa [Bytes.digitsValue_ofNat] using
    Magnitude.mk (whole.digits rest) whole.noZero .none .none

theorem numeral_ofInt (n : Int) (rest : Bytes) : Numeral n 0 (Bytes.ofInt n ++ rest) rest := by
  cases n with
  | ofNat n => exact .positive (magnitude_ofNat n rest)
  | negSucc n => exact .negative (magnitude_ofNat (n + 1) rest)

theorem fraction_text {fraction : Bytes} (decimal : ∀ b ∈ fraction, Ascii.isDigit b = true)
    (rest : Bytes) : Fraction fraction
      ((if fraction.isEmpty then [] else ("." : Bytes) ++ fraction) ++ rest) rest := by
  cases fraction with
  | nil => exact .none
  | cons d ds => exact .some ⟨List.cons_ne_nil d ds, decimal, rfl⟩

theorem withFraction_eq (whole fraction : Bytes) : Decimal.withFraction whole fraction =
    whole ++ if fraction.isEmpty then [] else ("." : Bytes) ++ fraction := by
  unfold Decimal.withFraction
  split <;> simp

theorem isMagnitude_withFraction {whole fraction tail : Bytes} {e : Int} (isWhole : IsWhole whole)
    (decimal : ∀ b ∈ fraction, Ascii.isDigit b = true)
    (scaled : ∀ rest, Exponent e (tail ++ rest) rest) :
    IsMagnitude (Decimal.withFraction whole fraction ++ tail) := by
  refine ⟨Number.digitsValue (whole ++ fraction), e - fraction.length, fun rest => ?_⟩
  rw [withFraction_eq, List.append_assoc, List.append_assoc]
  exact .mk (isWhole.digits _) isWhole.noZero (fraction_text decimal _) (scaled rest)

theorem isMagnitude_plain {whole fraction : Bytes} (isWhole : IsWhole whole)
    (decimal : ∀ b ∈ fraction, Ascii.isDigit b = true) :
    IsMagnitude (Decimal.withFraction whole fraction) := by
  have unscaled (rest : Bytes) : Exponent 0 ([] ++ rest) rest := .none
  have read := isMagnitude_withFraction isWhole decimal unscaled
  rwa [List.append_nil] at read

/-! ## Numbers to some count of digits -/

theorem exponent_text (exponent : Int) :
    ∃ e, ∀ rest, Exponent e ("e" ++ Decimal.exponentText exponent ++ rest) rest := by
  let shown := Bytes.ofNat exponent.natAbs
  let ds : Bytes := if shown.length < 2 then "0" ++ shown else shown
  have digits (rest : Bytes) : Digits ds (ds ++ rest) rest := by
    refine ⟨?_, fun b mem => ?_, rfl⟩
    · unfold ds
      split
      · exact List.cons_ne_nil _ _
      · exact Bytes.ofNat_ne_nil _
    · unfold ds at mem
      split at mem
      · rcases List.mem_cons.1 mem with rfl | mem
        · rfl
        · exact Bytes.isDigit_of_mem_ofNat b mem
      · exact Bytes.isDigit_of_mem_ofNat b mem
  have text : Decimal.exponentText exponent = (if exponent < 0 then "-" else "+") ++ ds := rfl
  rw [text]
  split
  · exact ⟨_, fun rest => .minus rfl (digits rest)⟩
  · exact ⟨_, fun rest => .plus rfl (digits rest)⟩

theorem isMagnitude_place (precision n : Nat) (order : Int) (pos : order < 0 → 0 < n) :
    IsMagnitude (Decimal.place precision (Bytes.ofNat n) order) := by
  have kept {ds : Bytes} (inside : ds ⊆ Bytes.ofNat n) :
      ∀ b ∈ Decimal.dropZeros ds, Ascii.isDigit b = true :=
    fun b mem => Bytes.isDigit_of_mem_ofNat b (inside (Decimal.mem_of_mem_dropZeros mem))
  have behind (k : Nat) := kept (List.drop_subset k (Bytes.ofNat n))
  have front (k : Nat) := (isWhole_ofNat n).take k
  unfold Decimal.place
  split_ifs with scientific below
  · obtain ⟨e, scaled⟩ := exponent_text order
    rw [List.append_assoc]
    exact isMagnitude_withFraction (front 0) (behind 1) scaled
  · let fraction : Bytes :=
      List.replicate (-order - 1).toNat ('0' : UInt8) ++ Decimal.dropZeros (Bytes.ofNat n)
    have nonempty : fraction.isEmpty = false := by
      simp [fraction, Decimal.dropZeros_ofNat_ne_nil (pos below)]
    have decimal : ∀ b ∈ fraction, Ascii.isDigit b = true := by
      rw [List.forall_mem_append]
      refine ⟨fun b mem => ?_, kept (List.Subset.refl _)⟩
      rw [List.eq_of_mem_replicate mem]
      rfl
    have read := isMagnitude_plain isWhole_zero decimal
    rw [withFraction_eq, nonempty] at read
    rw [List.append_assoc]
    exact read
  · exact isMagnitude_plain (front order.toNat) (behind (order.toNat + 1))

theorem isNumeral_signed {t : Bytes} (h : IsMagnitude t) (negative : Bool) :
    IsNumeral (Decimal.signed negative t) := by
  obtain ⟨m, e, read⟩ := h
  cases negative with
  | false => exact ⟨m, e, fun rest => .positive (read rest)⟩
  | true => exact ⟨-m, e, fun rest => .negative (read rest)⟩

theorem isNumeral_general {precision : Nat} (places : 0 < precision) {x : Float}
    {negative : Bool} {mantissa : Nat} {exponent : Int}
    (finite : Decimal.Binary.ofFloat x = .finite negative mantissa exponent) :
    IsNumeral (Decimal.general precision x) := by
  unfold Decimal.general
  rw [finite]
  dsimp only
  split_ifs with zero
  · exact isNumeral_signed ⟨0, 0, magnitude_ofNat 0⟩ negative
  · obtain ⟨pos, posDen⟩ := Decimal.scale_pos (Nat.pos_of_ne_zero zero) exponent
    exact isNumeral_signed (isMagnitude_place precision _ _
      fun below => Decimal.significant_pos places pos posDen below) negative

/-! ## Finite numbers -/

open Float.Model in
theorem exponent_of_finite {x : Float} (h : x.isFinite = true) :
    x.toBits.toNat / Nat.pow 2 52 % 2048 ≠ 2047 := by
  intro same
  have full : @UnpackedFloat.unpackExponent .binary64 x.toModel.toBits.toBitVec = -1 := by
    apply BitVec.eq_of_toNat_eq
    rw [UnpackedFloat.unpackExponent, BitVec.toNat_cast, BitVec.extractLsb_toNat,
      Nat.shiftRight_eq_div_pow]
    exact same
  have infinite : x.isFinite = false := by
    unfold Float.isFinite Float.Model.isFinite Float.Model.unpack UnpackedFloat.unpack
    refine (congrArg UnpackedFloat.isFinite (if_pos full)).trans ?_
    split <;> rfl
  cases h.symm.trans infinite

theorem ofFloat_of_finite {x : Float} (h : x.isFinite = true) : ∃ negative mantissa exponent,
    Decimal.Binary.ofFloat x = .finite negative mantissa exponent := by
  unfold Decimal.Binary.ofFloat Decimal.Binary.ofBits
  simp only [if_neg (exponent_of_finite h)]
  split <;> exact ⟨_, _, _, rfl⟩

theorem reads_number (x : Float) : ∃ v, (∀ rest, Reads (.value v) (number x ++ rest) rest) ∧
    if x.isFinite then ∃ m e, v = .number m e else v = .null := by
  cases finite : x.isFinite with
  | false =>
    rw [number, finite]
    exact ⟨.null, fun rest => .null, rfl⟩
  | true =>
    have isNumeral : IsNumeral (number x) := by
      obtain ⟨negative, mantissa, exponent, isFinite⟩ := ofFloat_of_finite finite
      rw [number, finite]
      cases small : Decimal.smallInteger? x with
      | none => exact isNumeral_general (by decide) isFinite
      | some n => exact ⟨n, 0, numeral_ofInt n⟩
    obtain ⟨m, e, read⟩ := isNumeral
    exact ⟨.number m e, fun rest => .number (read rest), m, e, rfl⟩

end Json

end CodeSmell
