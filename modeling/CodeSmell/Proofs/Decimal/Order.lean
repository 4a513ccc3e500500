import CodeSmell.Decimal.Binary
import Mathlib

/-!
The order of floating-point numbers. All values but the one that is not a number stand in one linear
order, in which both zeros have the same place: `rank` is the place of a number, and less, at most
and equal are those of the places.
-/

namespace CodeSmell.Decimal

open Float.Model Float.Model.UnpackedFloat

/-- A class of numbers, from negative infinity up to positive infinity, and within it the exponent
before the mantissa. -/
abbrev Rank := Int ×ₗ Int ×ₗ Int

def rankOf : UnpackedFloat → Rank
  | .notANumber | .zero _ => toLex (0, toLex (0, 0))
  | .infinity .negative => toLex (-2, toLex (0, 0))
  | .infinity .positive => toLex (2, toLex (0, 0))
  | .finite .negative mantissa exponent _ => toLex (-1, toLex (-exponent, -mantissa))
  | .finite .positive mantissa exponent _ => toLex (1, toLex (exponent, mantissa))

def rank (x : Float) : Rank := rankOf x.toModel.unpack

theorem compare_toLex (c e m d f n : Int) :
    compare (toLex (c, toLex (e, m)) : Rank) (toLex (d, toLex (f, n))) =
      (compare c d).then ((compare e f).then (compare m n)) := rfl

theorem compare_neg (m n : Int) : compare (-m) (-n) = (compare m n).swap := by
  rw [← Std.OrientedCmp.eq_swap]
  show compareOfLessAndEq (-m) (-n) = compareOfLessAndEq n m
  simp only [compareOfLessAndEq, neg_lt_neg_iff, neg_inj, eq_comm]

theorem compare_cast (m n : Nat) : compare (m : Int) n = compare m n := by
  show compareOfLessAndEq (m : Int) n = compareOfLessAndEq m n
  simp only [compareOfLessAndEq, Nat.cast_lt, Nat.cast_inj]

theorem compare_rankOf {a b : UnpackedFloat} (ha : a.isNaN = false) (hb : b.isNaN = false) :
    a.compare b = some (compare (rankOf a) (rankOf b)) := by
  cases a with
  | notANumber => cases ha
  | infinity s =>
    cases b with
    | notANumber => cases hb
    | infinity t => cases s <;> cases t <;> rfl
    | zero => cases s <;> rfl
    | finite t => cases s <;> cases t <;> rfl
  | zero =>
    cases b with
    | notANumber => cases hb
    | infinity t => cases t <;> rfl
    | zero => rfl
    | finite t => cases t <;> rfl
  | finite s m e =>
    cases b with
    | notANumber => cases hb
    | infinity t => cases s <;> cases t <;> rfl
    | zero => cases s <;> rfl
    | finite t n f =>
      -- only numbers of one sign have the same class
      cases s with
      | negative =>
        cases t with
        | negative =>
          simp [UnpackedFloat.compare, rankOf, compare_toLex, compare_neg, compare_cast,
            Ordering.swap_then]
        | positive => rfl
      | positive =>
        cases t with
        | negative => rfl
        | positive => simp [UnpackedFloat.compare, rankOf, compare_toLex, compare_cast]

section Numbers

variable {x y : Float} (hx : x.isNaN = false) (hy : y.isNaN = false)

include hx hy

theorem lt_iff_rank : x < y ↔ rank x < rank y := by
  show decide (x.toModel.unpack.lt y.toModel.unpack = true) = true ↔ _
  rw [decide_eq_true_iff, UnpackedFloat.lt, compare_rankOf hx hy, beq_iff_eq, Option.some_inj]
  exact compare_lt_iff_lt

theorem beq_iff_rank : (x == y) = true ↔ rank x = rank y := by
  show x.toModel.unpack.beq y.toModel.unpack = true ↔ _
  rw [UnpackedFloat.beq, compare_rankOf hx hy, beq_iff_eq, Option.some_inj]
  exact compare_eq_iff_eq

theorem le_iff_rank : x ≤ y ↔ rank x ≤ rank y := by
  show decide (x.toModel.unpack.le y.toModel.unpack = true) = true ↔ _
  rw [decide_eq_true_iff, UnpackedFloat.le, compare_rankOf hx hy, Option.any_some,
    Ordering.isLE_iff_ne_gt]
  exact compare_le_iff_le

theorem not_lt_iff_le : ¬x < y ↔ y ≤ x := by
  rw [lt_iff_rank hx hy, le_iff_rank hy hx, not_lt]

theorem beq_of_not_lt (notLess : ¬x < y) (notGreater : ¬y < x) : (x == y) = true := by
  rw [lt_iff_rank hx hy] at notLess
  rw [lt_iff_rank hy hx] at notGreater
  rw [beq_iff_rank hx hy]
  exact le_antisymm (not_lt.1 notGreater) (not_lt.1 notLess)

end Numbers

theorem compare_eq_none {a b : UnpackedFloat} (h : a.isNaN = true ∨ b.isNaN = true) :
    a.compare b = none := by
  cases a <;> cases b <;> simp [UnpackedFloat.isNaN, UnpackedFloat.compare] at h ⊢

section Values

variable {x y z : Float}

theorem isNaN_of_lt (h : x < y) : x.isNaN = false ∧ y.isNaN = false := by
  have less : x.toModel.unpack.compare y.toModel.unpack = some .lt := eq_of_beq (of_decide_eq_true h)
  constructor
  · by_contra nan
    rw [compare_eq_none (.inl (Bool.eq_true_of_not_eq_false nan))] at less
    cases less
  · by_contra nan
    rw [compare_eq_none (.inr (Bool.eq_true_of_not_eq_false nan))] at less
    cases less

theorem lt_trans (h : x < y) (h' : y < z) : x < z := by
  obtain ⟨hx, hy⟩ := isNaN_of_lt h
  obtain ⟨-, hz⟩ := isNaN_of_lt h'
  rw [lt_iff_rank hx hy] at h
  rw [lt_iff_rank hy hz] at h'
  exact (lt_iff_rank hx hz).2 (h.trans h')

theorem not_beq_of_lt (h : x < y) : ¬(x == y) = true := by
  obtain ⟨hx, hy⟩ := isNaN_of_lt h
  rw [lt_iff_rank hx hy] at h
  rw [beq_iff_rank hx hy]
  exact h.ne

theorem beq_self (h : x.isNaN = false) : (x == x) = true := (beq_iff_rank h h).2 rfl

end Values

end CodeSmell.Decimal
