import CodeSmell.Token.Number

/-!
JSON texts and their values. `Reads` says of a text that it begins with a value and what follows it,
by the rules of the grammar; white space may stand around every value and every mark. Strings are
read as bytes: those from 0x80 on stand for themselves, and an escape stands for the bytes of its
character.
-/

namespace CodeSmell.Json

/-- A number is `mantissa * 10 ^ exponent`. -/
inductive Value where
  | null
  | bool (b : Bool)
  | number (mantissa exponent : Int)
  | string (s : Bytes)
  | array (elements : List Value)
  | object (members : List (Bytes × Value))

namespace Grammar

def isBlank (b : UInt8) : Bool :=
  b == ' ' || b == Ascii.tab || b == Ascii.lineFeed || b == Ascii.carriageReturn

inductive Space : Bytes → Bytes → Prop
  | nil {t : Bytes} : Space t t
  | cons {b : UInt8} {t rest : Bytes} (blank : isBlank b = true) (more : Space t rest) :
      Space (b :: t) rest

def escapes : List (UInt8 × UInt8) :=
  [('"', '"'), ('\\', '\\'), ('/', '/'), ('b', 8), ('f', Ascii.formFeed), ('n', Ascii.lineFeed),
    ('r', Ascii.carriageReturn), ('t', Ascii.tab)]

def unit? : Bytes → Option (Nat × Bytes)
  | a :: b :: c :: d :: rest => do
    let a ← Ascii.hexValue? a
    let b ← Ascii.hexValue? b
    let c ← Ascii.hexValue? c
    let d ← Ascii.hexValue? d
    pure (((a * 16 + b) * 16 + c) * 16 + d, rest)
  | _ => none

def utf8 (code : Nat) : Bytes := Bytes.ofString (Char.ofNat code).toString

def isHighSurrogate (unit : Nat) : Bool := 0xD800 ≤ unit && unit < 0xDC00

def isLowSurrogate (unit : Nat) : Bool := 0xDC00 ≤ unit && unit < 0xE000

def surrogatePair (high low : Nat) : Nat := 0x10000 + (high - 0xD800) * 0x400 + (low - 0xDC00)

inductive CodeUnit : Nat → Bytes → Bytes → Prop
  | mk {unit : Nat} {t rest : Bytes} (digits : unit? t = some (unit, rest)) :
      CodeUnit unit ('\\' :: 'u' :: t) rest

/-- A byte that stands for itself, or an escape with the bytes it stands for. -/
inductive Character : Bytes → Bytes → Bytes → Prop
  | plain {b : UInt8} {rest : Bytes} (printable : 0x20 ≤ b) (noQuote : b ≠ '"')
      (noBackslash : b ≠ '\\') : Character [b] (b :: rest) rest
  | escape {letter b : UInt8} {rest : Bytes} (known : escapes.lookup letter = some b) :
      Character [b] ('\\' :: letter :: rest) rest
  | unicode {code : Nat} {t rest : Bytes} (unit : CodeUnit code t rest)
      (noHigh : isHighSurrogate code = false) (noLow : isLowSurrogate code = false) :
      Character (utf8 code) t rest
  | pair {high low : Nat} {t t' rest : Bytes} (first : CodeUnit high t t')
      (isHigh : isHighSurrogate high = true) (second : CodeUnit low t' rest)
      (isLow : isLowSurrogate low = true) : Character (utf8 (surrogatePair high low)) t rest

inductive Characters : Bytes → Bytes → Bytes → Prop
  | nil {rest : Bytes} : Characters [] rest rest
  | cons {c s t t' rest : Bytes} (first : Character c t t') (more : Characters s t' rest) :
      Characters (c ++ s) t rest

structure Digits (digits t rest : Bytes) : Prop where
  nonempty : digits ≠ []
  decimal : ∀ b ∈ digits, Ascii.isDigit b = true
  text : t = digits ++ rest

inductive Fraction : Bytes → Bytes → Bytes → Prop
  | none {rest : Bytes} : Fraction [] rest rest
  | some {digits t rest : Bytes} (read : Digits digits t rest) :
      Fraction digits ('.' :: t) rest

def isExponentMark (b : UInt8) : Bool := b == 'e' || b == 'E'

inductive Exponent : Int → Bytes → Bytes → Prop
  | none {rest : Bytes} : Exponent 0 rest rest
  | unsigned {mark : UInt8} {digits t rest : Bytes} (isMark : isExponentMark mark = true)
      (read : Digits digits t rest) : Exponent (Number.digitsValue digits) (mark :: t) rest
  | plus {mark : UInt8} {digits t rest : Bytes} (isMark : isExponentMark mark = true)
      (read : Digits digits t rest) : Exponent (Number.digitsValue digits) (mark :: '+' :: t) rest
  | minus {mark : UInt8} {digits t rest : Bytes} (isMark : isExponentMark mark = true)
      (read : Digits digits t rest) :
      Exponent (-(Number.digitsValue digits : Int)) (mark :: '-' :: t) rest

/-- A number without a sign; a zero that is not alone does not begin it. -/
inductive Magnitude : Nat → Int → Bytes → Bytes → Prop
  | mk {whole fraction t t' t'' rest : Bytes} {exponent : Int} (read : Digits whole t t')
      (noZero : whole.head? = some '0' → whole = "0") (behind : Fraction fraction t' t'')
      (scaled : Exponent exponent t'' rest) :
      Magnitude (Number.digitsValue (whole ++ fraction)) (exponent - fraction.length) t rest

inductive Numeral : Int → Int → Bytes → Bytes → Prop
  | positive {m : Nat} {e : Int} {t rest : Bytes} (read : Magnitude m e t rest) : Numeral m e t rest
  | negative {m : Nat} {e : Int} {t rest : Bytes} (read : Magnitude m e t rest) :
      Numeral (-(m : Int)) e ('-' :: t) rest

/-- A value, a value with its name, or what stands between the brackets of one that is not empty. -/
inductive Part where
  | value (v : Value)
  | member (m : Bytes × Value)
  | elements (vs : List Value)
  | members (ms : List (Bytes × Value))

/-- The text begins with the part, and the rest follows. -/
inductive Reads : Part → Bytes → Bytes → Prop
  | null {rest : Bytes} : Reads (.value .null) ("null" ++ rest) rest
  | bool {b : Bool} {rest : Bytes} : Reads (.value (.bool b)) (Bytes.ofBool b ++ rest) rest
  | number {m e : Int} {t rest : Bytes} (read : Numeral m e t rest) :
      Reads (.value (.number m e)) t rest
  | string {s t rest : Bytes} (read : Characters s t ('"' :: rest)) :
      Reads (.value (.string s)) ('"' :: t) rest
  | noElements {t rest : Bytes} (empty : Space t (']' :: rest)) :
      Reads (.value (.array [])) ('[' :: t) rest
  | array {vs : List Value} {t rest : Bytes} (inside : Reads (.elements vs) t (']' :: rest)) :
      Reads (.value (.array vs)) ('[' :: t) rest
  | noMembers {t rest : Bytes} (empty : Space t ('\x7d' :: rest)) :
      Reads (.value (.object [])) ('\x7b' :: t) rest
  | object {ms : List (Bytes × Value)} {t rest : Bytes}
      (inside : Reads (.members ms) t ('\x7d' :: rest)) :
      Reads (.value (.object ms)) ('\x7b' :: t) rest
  | lastElement {v : Value} {t t₁ t₂ rest : Bytes} (before : Space t t₁)
      (read : Reads (.value v) t₁ t₂) (behind : Space t₂ rest) : Reads (.elements [v]) t rest
  | elements {v : Value} {vs : List Value} {t t₁ t₂ t₃ rest : Bytes} (before : Space t t₁)
      (read : Reads (.value v) t₁ t₂) (behind : Space t₂ (',' :: t₃))
      (more : Reads (.elements vs) t₃ rest) : Reads (.elements (v :: vs)) t rest
  | member {name : Bytes} {v : Value} {t t₁ t₂ t₃ rest : Bytes}
      (named : Characters name t ('"' :: t₁)) (colon : Space t₁ (':' :: t₂))
      (between : Space t₂ t₃) (read : Reads (.value v) t₃ rest) :
      Reads (.member (name, v)) ('"' :: t) rest
  | lastMember {m : Bytes × Value} {t t₁ t₂ rest : Bytes} (before : Space t t₁)
      (read : Reads (.member m) t₁ t₂) (behind : Space t₂ rest) : Reads (.members [m]) t rest
  | members {m : Bytes × Value} {ms : List (Bytes × Value)} {t t₁ t₂ t₃ rest : Bytes}
      (before : Space t t₁) (read : Reads (.member m) t₁ t₂) (behind : Space t₂ (',' :: t₃))
      (more : Reads (.members ms) t₃ rest) : Reads (.members (m :: ms)) t rest

def Document (t : Bytes) (v : Value) : Prop :=
  ∃ t₁ t₂, Space t t₁ ∧ Reads (.value v) t₁ t₂ ∧ Space t₂ []

end Grammar

end CodeSmell.Json
