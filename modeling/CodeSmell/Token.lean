import CodeSmell.Position

/-!
Tokens of Python source. Layout tokens (line ends, indentation, the end marker) carry no text.
-/

namespace CodeSmell

inductive TokenKind where
  | name | keyword | number | string | operator | newline | indent | dedent | endMarker
deriving DecidableEq, Repr, Inhabited

namespace TokenKind

def all : List TokenKind :=
  [name, keyword, number, string, operator, newline, indent, dedent, endMarker]

def label : TokenKind → Bytes
  | name => "Name"
  | keyword => "Keyword"
  | number => "Number"
  | string => "String"
  | operator => "Operator"
  | newline => "Newline"
  | indent => "Indent"
  | dedent => "Dedent"
  | endMarker => "EndMarker"

def isLayout : TokenKind → Bool
  | newline | indent | dedent | endMarker => true
  | _ => false

end TokenKind

/-- `value` and `imaginary` matter for numbers only. -/
structure Token where
  kind : TokenKind := .endMarker
  text : Bytes := []
  position : Position := ⟨0, 0⟩
  endLine : Int := 0
  value : Float := 0
  imaginary : Bool := false
deriving Inhabited

namespace Token

def isLayout (t : Token) : Bool := t.kind.isLayout

def isOperator (t : Token) (text : Bytes) : Bool := t.kind == .operator && t.text == text

def isKeyword (t : Token) (text : Bytes) : Bool := t.kind == .keyword && t.text == text

end Token

def keywords : List Bytes := List.map Bytes.ofString
  ["False", "None", "True", "and", "as", "assert", "async", "await", "break", "class", "continue",
   "def", "del", "elif", "else", "except", "finally", "for", "from", "global", "if", "import", "in",
   "is", "lambda", "nonlocal", "not", "or", "pass", "raise", "return", "try", "while", "with",
   "yield"]

def isKeyword (word : Bytes) : Bool := keywords.contains word

end CodeSmell
