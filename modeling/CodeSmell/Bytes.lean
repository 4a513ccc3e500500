/-!
Text as bytes. Sources, file names and messages are arbitrary byte strings: columns, case and
white space are a matter of single bytes, and only ASCII letters have a case.
-/

namespace CodeSmell

abbrev Bytes := List UInt8

def Bytes.ofString (s : String) : Bytes := s.toUTF8.data.toList

instance : Coe String Bytes := ⟨Bytes.ofString⟩

instance coeCharByte : Coe Char UInt8 := ⟨Char.toUInt8⟩

namespace Ascii

def isDigit (b : UInt8) : Bool := '0' ≤ b && b ≤ '9'

def isLower (b : UInt8) : Bool := 'a' ≤ b && b ≤ 'z'

def isUpper (b : UInt8) : Bool := 'A' ≤ b && b ≤ 'Z'

def isAlpha (b : UInt8) : Bool := isLower b || isUpper b

def toLower (b : UInt8) : UInt8 := if isUpper b then b + 32 else b

def toUpper (b : UInt8) : UInt8 := if isLower b then b - 32 else b

def isSpace (b : UInt8) : Bool := b == ' ' || (9 ≤ b && b ≤ 13)

def hexValue? (b : UInt8) : Option Nat :=
  if isDigit b then some (b.toNat - 48)
  else if 'a' ≤ toLower b && toLower b ≤ 'f' then some ((toLower b).toNat - 87)
  else none

def isHexDigit (b : UInt8) : Bool := (hexValue? b).isSome

def lineFeed : UInt8 := 10

def carriageReturn : UInt8 := 13

def tab : UInt8 := 9

def formFeed : UInt8 := 12

end Ascii

namespace Bytes

def lower (s : Bytes) : Bytes := s.map Ascii.toLower

def upper (s : Bytes) : Bytes := s.map Ascii.toUpper

def trim (s : Bytes) : Bytes :=
  ((s.dropWhile Ascii.isSpace).reverse.dropWhile Ascii.isSpace).reverse

def splitOn (sep : UInt8) : Bytes → List Bytes
  | [] => [[]]
  | b :: rest =>
    if b = sep then [] :: splitOn sep rest
    else match splitOn sep rest with
      | piece :: pieces => (b :: piece) :: pieces
      | [] => [[b]]

def join (sep : Bytes) (pieces : List Bytes) : Bytes := List.intercalate sep pieces

def nonempty? (s : Bytes) : Option Bytes := if s.isEmpty then none else some s

def ofNat (n : Nat) : Bytes := (Nat.toDigits 10 n).map Char.toUInt8

def ofInt : Int → Bytes
  | .ofNat n => ofNat n
  | .negSucc n => "-" ++ ofNat (n + 1)

def ofBool (b : Bool) : Bytes := if b then "true" else "false"

end Bytes

def Bytes.entries (s : Bytes) : List Bytes :=
  ((s.splitOn ',').map Bytes.trim).filter (!·.isEmpty)

def appendNew (known new : List Bytes) : List Bytes :=
  new.foldl (fun known entry => if known.contains entry then known else known ++ [entry]) known

def insertSorted (x : Bytes) : List Bytes → List Bytes
  | [] => [x]
  | y :: rest => if x < y then x :: y :: rest else if x = y then y :: rest else y :: insertSorted x rest

def sortedSet (xs : List Bytes) : List Bytes := xs.foldl (fun set x => insertSorted x set) []

end CodeSmell
