import CodeSmell.Syntax.Stmt

/-!
Where the statements of a module stand. `Block.placed` numbers all statements in source order, the
bodies of definitions included, and gives each the class that holds it directly and the functions
around it.
-/

namespace CodeSmell

structure ClassFrame where
  number : Nat
  definition : ClassDef Stmt

structure FunctionFrame where
  number : Nat
  definition : FunctionDef Stmt
  owner : Option ClassFrame

namespace FunctionFrame

/-- The first parameter of a method stands for its object, unless the method is static or the
parameter can only be given by name or takes several arguments. -/
def receiver? (f : FunctionFrame) : Option (Parameter Expr) :=
  if f.owner.isSome && !f.definition.isDecoratedWith "staticmethod" then
    f.definition.parameters.head?.filter fun p => p.kind = .positionalOnly || p.kind = .regular
  else none

end FunctionFrame

/-- A function and the functions around it, innermost first. -/
abbrev FunctionScope := List FunctionFrame

namespace FunctionScope

/-- A method's name after that of its class, a nested function's after that of the function. -/
def qualifiedName : FunctionScope → Bytes
  | [] => []
  | f :: outer =>
    match f.owner with
    | some c => c.definition.name ++ "." ++ f.definition.name
    | none =>
      if outer.isEmpty then f.definition.name
      else qualifiedName outer ++ "." ++ f.definition.name

/-- The receiver that is visible in a function: its own, or that of the function around it unless
a parameter has the same name. -/
def visibleReceiver? : FunctionScope → Option Bytes
  | [] => none
  | f :: outer =>
    match f.receiver? with
    | some p => some p.name
    | none => (visibleReceiver? outer).filter fun name =>
        !f.definition.parameters.any fun p => p.name == name

end FunctionScope

structure FunctionModel where
  frame : FunctionFrame
  outer : FunctionScope

namespace FunctionModel

def definition (f : FunctionModel) : FunctionDef Stmt := f.frame.definition

def lines (f : FunctionModel) : LineRange := f.definition.lines

def scope (f : FunctionModel) : FunctionScope := f.frame :: f.outer

def qualifiedName (f : FunctionModel) : Bytes := f.scope.qualifiedName

end FunctionModel

/-- The class that holds a statement directly, and the functions around it. -/
structure Place where
  owner : Option ClassFrame := none
  scope : FunctionScope := []

def Place.within (place : Place) (number : Nat) (s : Stmt) : Place :=
  match s.form with
  | .function definition => { scope := { number, definition, owner := place.owner } :: place.scope }
  | .classDef definition => { place with owner := some { number, definition } }
  | _ => place

structure Placed where
  number : Nat
  statement : Stmt
  place : Place

namespace Placed

def function? (p : Placed) : Option FunctionModel :=
  match p.statement.form with
  | .function definition =>
    some { frame := { number := p.number, definition, owner := p.place.owner }, outer := p.place.scope }
  | _ => none

def class? (p : Placed) : Option ClassFrame :=
  match p.statement.form with
  | .classDef definition => some { number := p.number, definition }
  | _ => none

/-- The receiver that the statement itself can name; a class body has none. -/
def receiver? (p : Placed) : Option Bytes :=
  if p.place.owner.isSome then none else p.place.scope.visibleReceiver?

end Placed

/-- The statements of a block and all that is nested in them, in source order, numbered from
`number` on. -/
def Block.placed (place : Place) (number : Nat) : Block → List Placed
  | [] => []
  | s :: rest =>
    let below := Block.placed (place.within number s) (number + 1) s.nested.flatten
    { number, statement := s, place } ::
      (below ++ Block.placed place (number + 1 + below.length) rest)
termination_by b => sizeOf b
decreasing_by
  · have := Block.sizeOf_flatten_le s.nested
    have := s.sizeOf_nested_le
    have := Block.sizeOf_pos rest
    simp only [List.cons.sizeOf_spec]
    omega
  · simp only [List.cons.sizeOf_spec]
    omega

end CodeSmell
