import CodeSmell.Decimal.Binary

/-!
Decimal text of a number, rounded from its exact value with ties to even: `general` writes a given
count of significant digits without trailing zeros, `fixed` a given count of places, and `short` is
how thresholds and measures are shown to a reader.
-/

namespace CodeSmell.Decimal

def decimalOrder (num den : Nat) : Int :=
  if den ≤ num then (decimalLength (num / den) : Int) - 1 else -(decimalLength ((den - 1) / num) : Int)

/-- The value to `precision` significant digits: the digits as one natural, and the exponent of the
first of them. -/
def significant (precision : Nat) (num den : Nat) : Nat × Int :=
  let order := decimalOrder num den
  let (n, d) := scale 10 num den (precision - 1 - order)
  let digits := roundDiv n d
  if digits = Nat.pow 10 precision then (Nat.pow 10 (precision - 1), order + 1) else (digits, order)

def dropZeros (digits : Bytes) : Bytes := (digits.reverse.dropWhile (· == '0'.toUInt8)).reverse

def withFraction (whole fraction : Bytes) : Bytes :=
  if fraction.isEmpty then whole else whole ++ "." ++ fraction

def exponentText (exponent : Int) : Bytes :=
  let digits := Bytes.ofNat exponent.natAbs
  (if exponent < 0 then "-" else "+") ++ (if digits.length < 2 then "0" ++ digits else digits)

/-- Positional from `10 ^ -4` up to the precision, scientific elsewhere. -/
def place (precision : Nat) (digits : Bytes) (order : Int) : Bytes :=
  if order < -4 ∨ (precision : Int) ≤ order then
    withFraction (digits.take 1) (dropZeros (digits.drop 1)) ++ "e" ++ exponentText order
  else if order < 0 then
    "0." ++ List.replicate (-order - 1).toNat '0'.toUInt8 ++ dropZeros digits
  else
    let whole := order.toNat + 1
    withFraction (digits.take whole) (dropZeros (digits.drop whole))

def signed (negative : Bool) (text : Bytes) : Bytes := if negative then "-" ++ text else text

def general (precision : Nat) (x : Float) : Bytes :=
  match Binary.ofFloat x with
  | .nan => "nan"
  | .infinite negative => signed negative "inf"
  | .finite negative mantissa exponent =>
    if mantissa = 0 then signed negative "0"
    else
      let (num, den) := scale 2 mantissa 1 exponent
      let (digits, order) := significant precision num den
      signed negative (place precision (Bytes.ofNat digits) order)

def fixed (places : Nat) (x : Float) : Bytes :=
  match Binary.ofFloat x with
  | .nan => "nan"
  | .infinite negative => signed negative "inf"
  | .finite negative mantissa exponent =>
    let (num, den) := scale 2 (mantissa * Nat.pow 10 places) 1 exponent
    let digits := Bytes.ofNat (roundDiv num den)
    let padded := List.replicate (places + 1 - digits.length) '0'.toUInt8 ++ digits
    let whole := padded.length - places
    signed negative (padded.take whole ++ "." ++ padded.drop whole)

def smallInteger? (x : Float) : Option Int :=
  match Binary.ofFloat x with
  | .finite negative mantissa exponent =>
    let (num, den) := scale 2 mantissa 1 exponent
    if num % den = 0 ∧ num / den < Nat.pow 10 15 then
      some (if negative then -(num / den : Int) else (num / den : Int))
    else none
  | _ => none

/-- Integers without a fraction; otherwise six significant digits. -/
def short (x : Float) : Bytes :=
  match smallInteger? x with
  | some n => Bytes.ofInt n
  | none => general 6 x

end CodeSmell.Decimal
