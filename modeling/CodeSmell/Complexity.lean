import CodeSmell.Syntax.Stmt

/-!
Cyclomatic complexity: one, and one more for each decision. Decorators and defaults of nested
definitions run in the scope around them and count there; their bodies do not.
-/

namespace CodeSmell

def sumOf {α : Type} (f : α → Nat) : List α → Nat
  | [] => 0
  | x :: rest => f x + sumOf f rest

def Expr.ownDecisions (e : Expr) : Nat :=
  match e.form with
  | .boolean _ values => values.length - 1
  | .conditional .. => 1
  | .comprehension _ _ clauses | .dictComprehension _ _ clauses =>
    sumOf (fun c => 1 + c.conditions.length) clauses
  | _ => 0

def Expr.decisions (e : Expr) : Nat := sumOf Expr.ownDecisions e.preorder

def Stmt.branches (s : Stmt) : Nat :=
  match s.form with
  | .cond .. | .forEach .. | .whileLoop .. => 1
  | .tryExcept _ handlers _ _ _ => handlers.length
  | .matchOn _ cases => cases.length
  | _ => 0

def Stmt.decisions (s : Stmt) : Nat := s.branches + sumOf Expr.decisions s.expressions

def Block.complexity (b : Block) : Nat := 1 + sumOf Stmt.decisions b.walk

end CodeSmell
