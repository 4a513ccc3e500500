import CodeSmell.Model.Usage
import CodeSmell.Syntax.Parser.Stmt

/-!
The model of a source file: its classes with their fields and methods, its functions, number
literals, attribute accesses and imported names, each in source order.
-/

namespace CodeSmell

def Expr.boundNames (e : Expr) : List Bytes :=
  match e.form with
  | .name id => [id]
  | _ => match h : e.targetParts? with
    | some parts => parts.attach.flatMap fun ⟨part, mem⟩ =>
      have := sizeOf_lt_of_mem_children (mem_children_of_targetParts? h mem)
      part.boundNames
    | none => []
termination_by sizeOf e

def Expr.boundFields (receiver : Bytes) (e : Expr) : List Bytes :=
  match e.form with
  | .attr ⟨_, .name id⟩ name => if id = receiver then [name] else []
  | _ => match h : e.targetParts? with
    | some parts => parts.attach.flatMap fun ⟨part, mem⟩ =>
      have := sizeOf_lt_of_mem_children (mem_children_of_targetParts? h mem)
      part.boundFields receiver
    | none => []
termination_by sizeOf e

/-- What a plain or annotated assignment assigns to. -/
def Stmt.assignedTargets (s : Stmt) : List Expr :=
  match s.form with
  | .assign targets _ => targets
  | .annAssign target _ _ => [target]
  | _ => []

/-- What any assignment assigns to, augmented ones included. -/
def Stmt.changedTargets (s : Stmt) : List Expr :=
  match s.form with
  | .augAssign target _ _ => [target]
  | _ => s.assignedTargets

def isConstructorName (name : Bytes) : Bool :=
  name == "__init__" || name == "__new__" || name == "__post_init__"

def ClassFrame.ownFields (c : ClassFrame) : List Bytes :=
  (Block.walk c.definition.body).flatMap fun s => s.assignedTargets.flatMap Expr.boundNames

def FunctionFrame.constructedFields (f : FunctionFrame) : List Bytes :=
  match f.receiver? with
  | some receiver =>
    if isConstructorName f.definition.name then
      (Block.walk f.definition.body).flatMap fun s =>
        s.changedTargets.flatMap (Expr.boundFields receiver.name)
    else []
  | none => []

/-- A class with its methods; the fields are in the order of their first assignment. -/
structure ClassModel where
  frame : ClassFrame
  methods : List FunctionModel

namespace ClassModel

def definition (c : ClassModel) : ClassDef Stmt := c.frame.definition

def fields (c : ClassModel) : List Bytes :=
  appendNew [] (c.frame.ownFields ++ c.methods.flatMap fun f => f.frame.constructedFields)

end ClassModel

structure ModuleModel where
  path : Bytes
  lineCount : Nat
  body : Block
  classes : List ClassModel
  functions : List FunctionModel
  literals : List Literal
  accesses : List Access
  imports : List Bytes

/-- A last line without a line feed counts too. -/
def Bytes.lineCount (source : Bytes) : Nat :=
  source.count Ascii.lineFeed +
    match source.getLast? with
    | some b => if b = Ascii.lineFeed then 0 else 1
    | none => 0

def FunctionFrame.isMethodOf (c : ClassFrame) (f : FunctionFrame) : Bool :=
  f.owner.any fun owner => owner.number == c.number

def ModuleModel.ofBlock (path : Bytes) (lineCount : Nat) (body : Block) : ModuleModel :=
  let placed := Block.placed {} 0 body
  let functions := placed.filterMap Placed.function?
  let imports := sortedSet (placed.flatMap Placed.imports)
  { path, lineCount, body, functions, imports
    classes := (placed.filterMap Placed.class?).map fun c =>
      { frame := c, methods := functions.filter (·.frame.isMethodOf c) }
    literals := placed.flatMap Placed.literals
    accesses := placed.flatMap (Placed.accesses imports) }

def ModuleModel.ofSource (path source : Bytes) : Except SyntaxError ModuleModel := do
  pure (.ofBlock path source.lineCount (← parseModule source))

def ModuleModel.build (path source : Bytes) : Except ModuleError ModuleModel :=
  (ofSource path source).mapError fun e => ModuleError.attributed { toSyntaxError := e } path

namespace ModuleModel

def topLevel (m : ModuleModel) : List FunctionModel :=
  m.functions.filter fun f => f.frame.owner.isNone && f.outer.isEmpty

end ModuleModel

end CodeSmell
