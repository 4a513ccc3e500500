import CodeSmell.Syntax.Stmt

/-!
How alike two functions are: the tokens of their bodies with names, numbers and strings replaced by
their roles, compared as sets, and the kinds of their statements, compared as sets or by edit
distance.
-/

namespace CodeSmell

def nameRole (previous next : Option Token) : Bytes :=
  if previous.any (·.isOperator ".") then "<attr>"
  else if next.any (·.isOperator "(") then "<call>"
  else "<name>"

/-- The role of a token between the last one that has text and the very next one. -/
def Token.role (previous next : Option Token) (t : Token) : Bytes :=
  match t.kind with
  | .name => nameRole previous next
  | .number => "<num>"
  | .string => "<str>"
  | _ => t.text

def rolesAfter (previous : Option Token) : List Token → List Bytes
  | [] => []
  | t :: rest =>
    if t.isLayout then rolesAfter previous rest
    else t.role previous rest.head? :: rolesAfter (some t) rest

/-- The roles of all tokens with text; keywords and operators stand for themselves. -/
def tokenRoles (tokens : List Token) : List Bytes := rolesAfter none tokens

def Stmt.tags (s : Stmt) : List Bytes :=
  s.label :: match s.form with
    | .matchOn _ cases => cases.map fun _ => "MatchCase"
    | _ => []

def Block.tags (b : Block) : List Bytes := b.walk.flatMap Stmt.tags

def overlap (left right : List Bytes) : Nat × Nat :=
  let left := left.eraseDups
  let right := right.eraseDups
  let shared := (left.filter right.contains).length
  (shared, left.length + right.length - shared)

/-- The shared part of the distinct elements; two empty lists are alike. -/
def jaccard (left right : List Bytes) : Float :=
  let (shared, total) := overlap left right
  if total = 0 then 1 else Float.ofNat shared / Float.ofNat total

/-- The rest of a row of distances, from the entries before and above each. -/
def distanceRow (x : Bytes) (diagonal current : Nat) : List Bytes → List Nat → List Nat
  | y :: ys, above :: row =>
    let next := min (above + 1) (min (current + 1) (diagonal + if x = y then 0 else 1))
    next :: distanceRow x above next ys row
  | _, _ => []

/-- The distances from a text with one element more, out of those without it. -/
def nextRow (right : List Bytes) (row : List Nat) (x : Bytes) : List Nat :=
  match row with
  | first :: rest => (first + 1) :: distanceRow x first (first + 1) right rest
  | [] => []

/-- The least number of insertions, deletions and substitutions from one list to the other. -/
def editDistance (left right : List Bytes) : Nat :=
  (left.foldl (nextRow right) (List.range (right.length + 1))).getLast?.getD 0

def editSimilarity (left right : List Bytes) : Float :=
  let longest := max left.length right.length
  if longest = 0 then 1
  else 1 - Float.ofNat (editDistance left right) / Float.ofNat longest

structure Similarity where
  token : Float
  structural : Float
  combined : Float
deriving Inhabited

structure Signature where
  tokens : List Bytes
  tags : List Bytes

def Signature.ofFunction (f : FunctionDef Stmt) : Signature :=
  { tokens := tokenRoles f.bodyTokens, tags := Block.tags f.body }

/-- Statement kinds in equal number are compared as sets. -/
def Signature.compare (a b : Signature) : Similarity :=
  let token := jaccard a.tokens b.tokens
  let structural :=
    if a.tags.length = b.tags.length then jaccard a.tags b.tags
    else editSimilarity a.tags b.tags
  { token, structural, combined := if token < structural then structural else token }

end CodeSmell
