import CodeSmell.Bytes

/-!
Places in a source text. Lines and columns count from 1; a column counts bytes.
-/

namespace CodeSmell

structure Position where
  line : Int := 1
  column : Int := 1
deriving DecidableEq, Repr, Inhabited

namespace Position

def next (p : Position) (b : UInt8) : Position :=
  if b = Ascii.lineFeed then ⟨p.line + 1, 1⟩ else ⟨p.line, p.column + 1⟩

def after (p : Position) (text : Bytes) : Position := text.foldl next p

@[simp] theorem after_nil (p : Position) : p.after [] = p := rfl

@[simp] theorem after_cons (p : Position) (b : UInt8) (text : Bytes) :
    p.after (b :: text) = (p.next b).after text := rfl

theorem after_append (p : Position) (s t : Bytes) : p.after (s ++ t) = (p.after s).after t :=
  List.foldl_append

end Position

structure LineRange where
  first : Int := 0
  last : Int := 0
deriving DecidableEq, Repr, Inhabited

def LineRange.height (lines : LineRange) : Int := lines.last - lines.first

end CodeSmell
