import CodeSmell.Bytes

/-!
Double-precision numbers as exact rationals: `Binary.ofFloat` takes a number apart into a mantissa
and a power of two, and `nearest` rounds a quotient of naturals to the nearest number, ties to even.
-/

namespace CodeSmell.Decimal

/-- A finite number is `mantissa * 2 ^ exponent`, with a sign. -/
inductive Binary where
  | nan
  | infinite (negative : Bool)
  | finite (negative : Bool) (mantissa : Nat) (exponent : Int)
deriving DecidableEq, Repr

/-- The sign is the top bit, then eleven exponent bits, then 52 bits of fraction. -/
def Binary.ofBits (bits : Nat) : Binary :=
  let negative := bits / Nat.pow 2 63 % 2 == 1
  let exponent : Nat := bits / Nat.pow 2 52 % 2048
  let fraction : Nat := bits % Nat.pow 2 52
  if exponent = 2047 then if fraction = 0 then .infinite negative else .nan
  else if exponent = 0 then .finite negative fraction (-1074)
  else .finite negative (fraction + Nat.pow 2 52) (exponent - 1075)

def Binary.ofFloat (x : Float) : Binary := .ofBits x.toBits.toNat

/-- The quotient rounded to the nearest natural, a half to the even neighbour. -/
def roundDiv (num den : Nat) : Nat :=
  let quotient := num / den
  let twice := 2 * (num % den)
  if den < twice ∨ (twice = den ∧ quotient % 2 = 1) then quotient + 1 else quotient

def scale (base num den : Nat) (exponent : Int) : Nat × Nat :=
  if 0 ≤ exponent then (num * base.pow exponent.toNat, den)
  else (num, den * base.pow (-exponent).toNat)

/-- The exponent `e` with `2 ^ e ≤ num / den < 2 ^ (e + 1)`, both positive. -/
def binaryOrder (num den : Nat) : Int :=
  let guess : Int := (num.log2 : Int) - den.log2
  let (n, d) := scale 2 num den (-guess)
  if n < d then guess - 1 else guess

def infinityBits : Nat := 2047 * Nat.pow 2 52

/-- The bits of the number nearest to `num / den`, ties to even; infinity from the overflow
threshold on. -/
def nearestBits (num den : Nat) : Nat :=
  if num = 0 then 0
  else
    let exponent := max (binaryOrder num den - 52) (-1074)
    let (n, d) := scale 2 num den (-exponent)
    min ((exponent + 1074).toNat * Nat.pow 2 52 + roundDiv n d) infinityBits

def nearest (num den : Nat) : Float := Float.ofBits (nearestBits num den).toUInt64

def decimalLength (n : Nat) : Nat := if n = 0 then 0 else (Nat.toDigits 10 n).length

/-- The number nearest to `digits * 10 ^ exponent`. Orders of magnitude beyond all finite numbers
are settled without the power. -/
def ofDecimal (digits : Nat) (exponent : Int) : Float :=
  let order := decimalLength digits + exponent
  if digits = 0 ∨ order < -330 then 0
  else if 310 < order then Float.ofBits infinityBits.toUInt64
  else
    let (num, den) := scale 10 digits 1 exponent
    nearest num den

end CodeSmell.Decimal
