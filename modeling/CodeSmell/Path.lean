import CodeSmell.Bytes

/-!
Paths as text and as names. `Path.normal` removes what can be removed from a path without looking
at a file tree.
-/

namespace CodeSmell

/-- The names of a path that are not empty; an empty last name stands for a separator at the end. -/
structure Path where
  isAbsolute : Bool
  names : List Bytes
deriving DecidableEq, Repr

namespace Path

def separator : UInt8 := '/'

def here : Bytes := "."

def above : Bytes := ".."

def ofText (text : Bytes) : Path :=
  let names := (text.splitOn separator).filter (!·.isEmpty)
  { isAbsolute := text.head? = some separator
    names := if names ≠ [] ∧ text.getLast? = some separator then names ++ [[]] else names }

def text (p : Path) : Bytes :=
  let names := Bytes.join [separator] p.names
  if p.isAbsolute then separator :: names else names

/-- What a file tree sees of a path, which ends there at its first zero byte. -/
def beforeZero (path : Bytes) : Bytes := path.takeWhile (· != 0)

def fileName (path : Bytes) : Bytes := (path.splitOn separator).getLast?.getD []

def within (directory path : Bytes) : Bytes :=
  if path.head? = some separator then path
  else if directory = [] ∨ directory.getLast? = some separator then directory ++ path
  else directory ++ separator :: path

/-- Adds a name to a normal path, which is given from its end. A name followed by `..` goes, and so
does `..` at the root; the separator before what goes stays. -/
def addName (isAbsolute : Bool) (done : List Bytes) (name : Bytes) : List Bytes :=
  let closed := if done.head? = some [] then done.tail else done
  if name = [] ∨ name = here then (if closed = [] then [] else [] :: closed)
  else if name = above then
    match closed with
    | [] => if isAbsolute then [] else [above]
    | last :: rest =>
      if last = above then above :: closed else if rest = [] then [] else [] :: rest
  else name :: closed

def closeAbove : List Bytes → List Bytes
  | [] :: last :: rest => if last = above then last :: rest else [] :: last :: rest
  | done => done

/-- Without `.`, without names followed by `..`, and without `..` at the root; what then is empty is
`.`, unless it was empty before. -/
def normal (p : Path) : Path :=
  if p.names = [] then p
  else
    let names := (closeAbove (p.names.foldl (addName p.isAbsolute) [])).reverse
    { p with names := if names = [] ∧ !p.isAbsolute then [here] else names }

end Path

end CodeSmell
