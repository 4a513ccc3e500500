import CodeSmell.Bytes

/-!
The operators of expressions, their spelling and how tightly the binary ones bind.
-/

namespace CodeSmell

inductive UnaryOp where
  | minus | plus | invert | not
deriving DecidableEq, Repr, Inhabited

def UnaryOp.symbol : UnaryOp → Bytes
  | minus => "-"
  | plus => "+"
  | invert => "~"
  | not => "not"

inductive BinaryOp where
  | bitOr | bitXor | bitAnd | shiftLeft | shiftRight | add | sub
  | mul | div | floorDiv | mod | matMul | pow
deriving DecidableEq, Repr, Inhabited

namespace BinaryOp

def all : List BinaryOp :=
  [bitOr, bitXor, bitAnd, shiftLeft, shiftRight, add, sub, mul, div, floorDiv, mod, matMul, pow]

def symbol : BinaryOp → Bytes
  | bitOr => "|"
  | bitXor => "^"
  | bitAnd => "&"
  | shiftLeft => "<<"
  | shiftRight => ">>"
  | add => "+"
  | sub => "-"
  | mul => "*"
  | div => "/"
  | floorDiv => "//"
  | mod => "%"
  | matMul => "@"
  | pow => "**"

/-- The left-associative operators, from the loosest level 1 to the tightest. -/
def level? : BinaryOp → Option Nat
  | bitOr => some 1
  | bitXor => some 2
  | bitAnd => some 3
  | shiftLeft | shiftRight => some 4
  | add | sub => some 5
  | mul | div | floorDiv | mod | matMul => some 6
  | pow => none

def augmented (op : BinaryOp) : Bytes := op.symbol ++ "="

end BinaryOp

inductive BoolOp where
  | and | or
deriving DecidableEq, Repr, Inhabited

def BoolOp.symbol : BoolOp → Bytes
  | and => "and"
  | or => "or"

inductive CompareOp where
  | lt | gt | eq | ge | le | ne | isIn | notIn | is | isNot
deriving DecidableEq, Repr, Inhabited

namespace CompareOp

/-- The comparisons that are operator tokens; the others are made of keywords. -/
def symbolic : List CompareOp := [lt, gt, eq, ge, le, ne]

def symbol : CompareOp → Bytes
  | lt => "<"
  | gt => ">"
  | eq => "=="
  | ge => ">="
  | le => "<="
  | ne => "!="
  | isIn => "in"
  | notIn => "not in"
  | is => "is"
  | isNot => "is not"

end CompareOp

end CodeSmell
