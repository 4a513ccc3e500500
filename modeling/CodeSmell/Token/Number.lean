import CodeSmell.Decimal.Binary

/-!
The value of a number literal. Underscores and the imaginary mark do not count; a literal with a
base adds up its digits in floating point, any other is the number nearest to its decimal text.
-/

namespace CodeSmell.Number

def base? (marker : UInt8) : Option Nat :=
  let marker := Ascii.toLower marker
  if marker == 'x' then some 16
  else if marker == 'o' then some 8
  else if marker == 'b' then some 2
  else none

def digitsValue (digits : Bytes) : Nat := digits.foldl (fun n b => 10 * n + (b.toNat - 48)) 0

def decimalValue (text : Bytes) : Float :=
  let (whole, rest) := text.span Ascii.isDigit
  let (fraction, rest) := match rest with
    | b :: rest => if b == '.' then rest.span Ascii.isDigit else ([], b :: rest)
    | [] => ([], [])
  let exponent : Int := match rest with
    | mark :: rest =>
      if Ascii.toLower mark == 'e' then
        match rest with
        | sign :: digits =>
          if sign == '-' then -(digitsValue digits : Int)
          else if sign == '+' then digitsValue digits
          else digitsValue (sign :: digits)
        | [] => 0
      else 0
    | [] => 0
  Decimal.ofDecimal (digitsValue (whole ++ fraction)) (exponent - fraction.length)

/-- Digits above the base are taken at their hexadecimal value. -/
def basedValue (base : Nat) (digits : Bytes) : Float :=
  digits.foldl (fun value b => value * base.toFloat + ((Ascii.hexValue? b).getD 0).toFloat) 0

def value (text : Bytes) : Float :=
  let text := text.filter fun (b : UInt8) => !(b == '_' || b == 'j' || b == 'J')
  match text with
  | zero :: marker :: digit :: digits =>
    if zero == '0' then
      match base? marker with
      | some base => basedValue base (digit :: digits)
      | none => decimalValue text
    else decimalValue text
  | _ => decimalValue text

end CodeSmell.Number
