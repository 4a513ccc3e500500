import CodeSmell.Model.Scope

/-!
The number literals and attribute accesses of an expression. A sign before a number belongs to the
literal, and a chain `a.b[i].c` is one access, recorded at its last link: of its inner links only
the root and the indexes are looked at again.
-/

namespace CodeSmell

namespace Expr

/-- The value and text of a literal, with its sign. Imaginary numbers are none. -/
def literal? (e : Expr) : Option (Float × Bytes) :=
  match e.form with
  | .number value text false => some (value, text)
  | .unary .minus ⟨_, .number value text false⟩ => some (-value, "-" ++ text)
  | .unary .plus ⟨_, .number value text false⟩ => some (value, "+" ++ text)
  | _ => none

/-- The parts of an attribute's base that are no links: the indexes and the root. -/
def chainParts : Expr → List Expr
  | ⟨_, .attr value _⟩ => value.chainParts
  | ⟨_, .subscript value index⟩ => value.chainParts ++ [index]
  | e => [e]

def usageParts (e : Expr) : List Expr :=
  match e.form with
  | .attr value _ => value.chainParts
  | _ => if e.literal?.isSome then [] else e.children

theorem sizeOf_le_of_mem_chainParts {e c : Expr} (h : c ∈ e.chainParts) : sizeOf c ≤ sizeOf e := by
  fun_induction chainParts e with
  | case1 p value name ih => have := ih h; simp; omega
  | case2 p value index ih =>
    rcases List.mem_append.mp h with h | h
    · have := ih h; simp; omega
    · obtain rfl := List.mem_singleton.mp h
      simp; omega
  | case3 e => simp_all

theorem sizeOf_lt_of_mem_usageParts {e c : Expr} (h : c ∈ e.usageParts) : sizeOf c < sizeOf e := by
  obtain ⟨p, f⟩ := e
  unfold usageParts at h
  split at h
  · next value name heq =>
    simp only [form] at heq
    subst heq
    have := sizeOf_le_of_mem_chainParts h
    simp; omega
  · split at h
    · simp at h
    · exact sizeOf_lt_of_mem_children h

def visited (e : Expr) : List Expr :=
  e :: e.usageParts.attach.flatMap fun ⟨c, h⟩ =>
    have := sizeOf_lt_of_mem_usageParts h
    c.visited
termination_by sizeOf e

theorem visited_eq (e : Expr) : e.visited = e :: e.usageParts.flatMap visited := by
  rw [visited]
  congr 1
  exact (List.flatMap_subtype fun _ _ => rfl).trans (by simp)

def sketch : Expr → Bytes
  | ⟨_, .name id⟩ => id
  | ⟨_, .attr value name⟩ => value.sketch ++ "." ++ name
  | ⟨_, .subscript value _⟩ => value.sketch ++ "[...]"
  | ⟨_, .call function _ _⟩ => function.sketch ++ "(...)"
  | _ => "<expr>"

/-- The root of a chain of links and subscripts, and the link nearest to it. -/
def chainRoot : Expr → Expr × Option Bytes
  | ⟨_, .subscript value _⟩ => value.chainRoot
  | ⟨_, .attr value name⟩ =>
    let (root, nearest) := value.chainRoot
    (root, nearest.or (some name))
  | e => (e, none)

end Expr

inductive Origin where
  | self (name : Bytes)
  | foreign (target : Bytes)
  | module (target : Bytes)
  | unresolved
deriving DecidableEq, Repr, Inhabited

namespace Origin

def label : Origin → Bytes
  | self _ => "self"
  | foreign _ => "foreign"
  | module _ => "module"
  | unresolved => "unresolved"

def target : Origin → Bytes
  | self name | foreign name | module name => name
  | unresolved => []

/-- An object that hangs on the receiver is foreign, under the name of the first link. -/
def ofBase (receiver : Option Bytes) (imported : List Bytes) (base : Expr) : Origin :=
  let (root, nearest) := base.chainRoot
  match root.form with
  | .name id =>
    if receiver = some id then
      match nearest with
      | none => .self id
      | some link => .foreign link
    else if imported.contains id then .module id
    else .foreign id
  | _ => .unresolved

end Origin

/-- `scope` holds the functions around the literal; a class body in a function has the scope of that
function. `inConstant` marks all literals of a statement that assigns to upper-case names, those of an
annotation included. -/
structure Literal where
  value : Float
  text : Bytes
  position : Position
  scope : FunctionScope
  inConstant : Bool

structure Access where
  name : Bytes
  base : Bytes
  origin : Origin
  position : Position
  scope : FunctionScope

/-- `MAX_RETRIES` or `HTTP2`, but not `_` or `Max`. -/
def isUpperName (name : Bytes) : Bool := !name.any Ascii.isLower && name.any Ascii.isUpper

def Expr.isUpperTarget (e : Expr) : Bool :=
  match e.form with
  | .name id => isUpperName id
  | _ => false

def Stmt.definesConstant (s : Stmt) : Bool :=
  match s.form with
  | .assign targets _ => !targets.isEmpty && targets.all Expr.isUpperTarget
  | .annAssign target _ _ => target.isUpperTarget
  | _ => false

namespace Placed

def visited (p : Placed) : List Expr := p.statement.expressions.flatMap Expr.visited

def literals (p : Placed) : List Literal :=
  p.visited.filterMap fun e => e.literal?.map fun (value, text) =>
    { value, text, position := e.position, scope := p.place.scope,
      inConstant := p.statement.definesConstant }

def accesses (imported : List Bytes) (p : Placed) : List Access :=
  p.visited.filterMap fun e =>
    match e.form with
    | .attr base name => some
        { name, base := base.sketch, origin := .ofBase p.receiver? imported base,
          position := e.position, scope := p.place.scope }
    | _ => none

/-- The names that an import binds; a star binds none that are known. -/
def imports (p : Placed) : List Bytes :=
  match p.statement.form with
  | .importNames names | .importFrom _ names =>
    (names.filter fun (a : Alias) => a.name != "*").map Alias.boundName
  | _ => []

end Placed

end CodeSmell
