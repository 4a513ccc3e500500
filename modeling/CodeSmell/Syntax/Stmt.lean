import CodeSmell.Syntax.Expr
import CodeSmell.Token

/-!
Statements. As for expressions, a `Stmt` is one layer of syntax with the lines it takes up. The
blocks of a statement are those of a compound statement; the bodies of functions and classes are
kept apart, since they are scopes of their own.
-/

namespace CodeSmell

structure Handler (σ : Type) where
  type : Option Expr
  name : Option Bytes
  body : List σ
  lines : LineRange

structure WithItem where
  context : Expr
  target : Option Expr

structure MatchCase (σ : Type) where
  pattern : Expr
  guard : Option Expr
  body : List σ
  lines : LineRange

structure Alias where
  name : Bytes
  asName : Option Bytes := none
deriving DecidableEq, Repr, Inhabited

/-- The name that an import binds: the alias, or else the first component. -/
def Alias.boundName (a : Alias) : Bytes := a.asName.getD (a.name.takeWhile (· != '.'.toUInt8))

/-- `bodyTokens` are the tokens of the body without layout; `lines` run from the `def` on. -/
structure FunctionDef (σ : Type) where
  name : Bytes
  isAsync : Bool
  decorators : List Expr
  parameters : List (Parameter Expr)
  returns : Option Expr
  body : List σ
  bodyTokens : List Token
  lines : LineRange

structure ClassDef (σ : Type) where
  name : Bytes
  decorators : List Expr
  bases : List Expr
  keywords : List (Keyword Expr)
  body : List σ
  lines : LineRange

/-- One layer of a statement. An `elif` is a conditional statement marked as such, alone in the
`orelse` of the one it continues. -/
inductive StmtForm (σ : Type) where
  | expression (value : Expr)
  | assign (targets : List Expr) (value : Expr)
  | augAssign (target : Expr) (op : BinaryOp) (value : Expr)
  | annAssign (target annotation : Expr) (value : Option Expr)
  | ret (value : Option Expr)
  | cond (test : Expr) (body orelse : List σ) (isElif : Bool)
  | forEach (target iterable : Expr) (body orelse : List σ) (isAsync : Bool)
  | whileLoop (test : Expr) (body orelse : List σ)
  | tryExcept (body : List σ) (handlers : List (Handler σ)) (orelse finalBody : List σ) (isStar : Bool)
  | withItems (items : List WithItem) (body : List σ) (isAsync : Bool)
  | matchOn (subject : Expr) (cases : List (MatchCase σ))
  | raise (exception cause : Option Expr)
  | assert (test : Expr) (message : Option Expr)
  | delete (targets : List Expr)
  | importNames (names : List Alias)
  | importFrom (module : Bytes) (names : List Alias)
  | scope (names : List Bytes) (isNonlocal : Bool)
  | pass
  | breakLoop
  | continueLoop
  | function (definition : FunctionDef σ)
  | classDef (definition : ClassDef σ)

namespace StmtForm

variable {σ : Type}

def blocks : StmtForm σ → List (List σ)
  | cond _ body orelse _ | forEach _ _ body orelse _ | whileLoop _ body orelse => [body, orelse]
  | tryExcept body handlers orelse finalBody _ =>
    body :: (handlers.map Handler.body ++ [orelse, finalBody])
  | withItems _ body _ => [body]
  | matchOn _ cases => cases.map MatchCase.body
  | _ => []

def body? : StmtForm σ → Option (List σ)
  | function f => some f.body
  | classDef c => some c.body
  | _ => none

/-- The expressions of the statement itself, without those in its blocks. For a definition these
are decorators, bases, defaults and annotations. -/
def expressions : StmtForm σ → List Expr
  | expression value => [value]
  | assign targets value => targets ++ [value]
  | augAssign target _ value => [target, value]
  | annAssign target annotation value => target :: annotation :: value.toList
  | ret value => value.toList
  | cond test _ _ _ | whileLoop test _ _ => [test]
  | forEach target iterable _ _ _ => [target, iterable]
  | tryExcept _ handlers _ _ _ => handlers.flatMap fun h => h.type.toList
  | withItems items _ _ => items.flatMap fun i => i.context :: i.target.toList
  | matchOn subject cases => subject :: cases.flatMap fun c => c.pattern :: c.guard.toList
  | raise exception cause => exception.toList ++ cause.toList
  | assert test message => test :: message.toList
  | delete targets => targets
  | function f => f.decorators ++ f.parameters.flatMap Parameter.expressions ++ f.returns.toList
  | classDef c => c.decorators ++ c.bases ++ c.keywords.map Keyword.value
  | _ => []

end StmtForm

inductive Stmt where
  | mk (lines : LineRange) (form : StmtForm Stmt)

instance : Inhabited Stmt := ⟨⟨default, .pass⟩⟩

abbrev Block := List Stmt

namespace Stmt

def lines : Stmt → LineRange
  | ⟨lines, _⟩ => lines

def form : Stmt → StmtForm Stmt
  | ⟨_, form⟩ => form

def blocks (s : Stmt) : List Block := s.form.blocks

def body? (s : Stmt) : Option Block := s.form.body?

def expressions (s : Stmt) : List Expr := s.form.expressions

def nested (s : Stmt) : List Block := s.blocks ++ s.body?.toList

/-- The word that names a kind of statement. A call that stands alone has its own. -/
def label (s : Stmt) : Bytes :=
  match s.form with
  | .expression ⟨_, .call ..⟩ => "Call"
  | .expression _ => "Expr"
  | .assign .. => "Assign"
  | .augAssign .. => "AugAssign"
  | .annAssign .. => "AnnAssign"
  | .ret _ => "Return"
  | .cond .. => "If"
  | .forEach .. => "For"
  | .whileLoop .. => "While"
  | .tryExcept .. => "Try"
  | .withItems .. => "With"
  | .matchOn .. => "Match"
  | .raise .. => "Raise"
  | .assert .. => "Assert"
  | .delete _ => "Delete"
  | .importNames _ | .importFrom .. => "Import"
  | .scope .. => "Scope"
  | .pass => "Pass"
  | .breakLoop => "Break"
  | .continueLoop => "Continue"
  | .function _ => "FunctionDef"
  | .classDef _ => "ClassDef"

end Stmt

namespace Block

theorem sizeOf_pos (b : Block) : 1 ≤ sizeOf b := by
  cases b <;> simp only [List.nil.sizeOf_spec, List.cons.sizeOf_spec] <;> omega

theorem sizeOf_append (a b : Block) : sizeOf (a ++ b) + 1 = sizeOf a + sizeOf b := by
  induction a with
  | nil => simp; omega
  | cons s rest ih => simp only [List.cons_append, List.cons.sizeOf_spec]; omega

theorem sizeOf_flatten_le (bs : List Block) : sizeOf bs.flatten ≤ sizeOf bs := by
  induction bs with
  | nil => simp
  | cons b rest ih =>
    have := sizeOf_append b rest.flatten
    simp only [List.flatten_cons, List.cons.sizeOf_spec]
    omega

end Block

namespace Stmt

theorem sizeOf_append_blocks (as bs : List Block) : sizeOf (as ++ bs) + 1 = sizeOf as + sizeOf bs := by
  induction as with
  | nil => simp; omega
  | cons a rest ih => simp only [List.cons_append, List.cons.sizeOf_spec]; omega

theorem sizeOf_handlerBodies_le (hs : List (Handler Stmt)) :
    sizeOf (hs.map Handler.body) ≤ sizeOf hs := by
  induction hs with
  | nil => simp
  | cons h rest ih =>
    cases h
    simp only [List.map_cons, List.cons.sizeOf_spec, Handler.mk.sizeOf_spec]
    omega

theorem sizeOf_caseBodies_le (cs : List (MatchCase Stmt)) :
    sizeOf (cs.map MatchCase.body) ≤ sizeOf cs := by
  induction cs with
  | nil => simp
  | cons c rest ih =>
    cases c
    simp only [List.map_cons, List.cons.sizeOf_spec, MatchCase.mk.sizeOf_spec]
    omega

theorem sizeOf_nested_le (s : Stmt) : sizeOf s.nested ≤ sizeOf s + 1 := by
  obtain ⟨lines, f⟩ := s
  cases f with
  | tryExcept body handlers orelse finalBody isStar =>
    have bodies := sizeOf_handlerBodies_le handlers
    have append := sizeOf_append_blocks (handlers.map Handler.body) [orelse, finalBody]
    simp [nested, blocks, body?, form, StmtForm.blocks, StmtForm.body?] at append ⊢
    omega
  | matchOn subject cases =>
    have bodies := sizeOf_caseBodies_le cases
    simp [nested, blocks, body?, form, StmtForm.blocks, StmtForm.body?]
    omega
  | function f => cases f; simp [nested, blocks, body?, form, StmtForm.blocks, StmtForm.body?]; omega
  | classDef c => cases c; simp [nested, blocks, body?, form, StmtForm.blocks, StmtForm.body?]; omega
  | _ => simp [nested, blocks, body?, form, StmtForm.blocks, StmtForm.body?] <;> omega

theorem sizeOf_blocks_le (s : Stmt) : sizeOf s.blocks ≤ sizeOf s + 1 := by
  have := sizeOf_append_blocks s.blocks s.body?.toList
  have := sizeOf_nested_le s
  have : 1 ≤ sizeOf s.body?.toList := by cases s.body? <;> simp
  simp only [nested] at *
  omega

end Stmt

/-- All statements of a block in source order, blocks of compound statements included but not the
bodies of functions and classes. -/
def Block.walk : Block → List Stmt
  | [] => []
  | s :: rest => s :: (Block.walk s.blocks.flatten ++ Block.walk rest)
termination_by b => sizeOf b
decreasing_by
  · have := Block.sizeOf_flatten_le s.blocks
    have := s.sizeOf_blocks_le
    have := Block.sizeOf_pos rest
    simp only [List.cons.sizeOf_spec]
    omega
  · simp only [List.cons.sizeOf_spec]
    omega

/-- The name of a decorator: `wraps` for `functools.wraps(f)`. -/
def Expr.decorator? : Expr → Option Bytes
  | ⟨_, .call function _ _⟩ => function.decorator?
  | ⟨_, .name id⟩ => some id
  | ⟨_, .attr _ name⟩ => some name
  | _ => none

def FunctionDef.isDecoratedWith {σ : Type} (f : FunctionDef σ) (name : Bytes) : Bool :=
  f.decorators.any fun d => d.decorator? == some name

end CodeSmell
