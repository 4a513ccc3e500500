import CodeSmell.Position
import CodeSmell.Syntax.Operator

/-!
Expressions. `Form` is one layer of syntax over sub-expressions of any type, and an `Expr` is a form
with a place. `Expr.children` lists the direct sub-expressions in source order; every walk over
expressions goes along it.
-/

namespace CodeSmell

inductive Constant where
  | none | true | false | ellipsis
deriving DecidableEq, Repr, Inhabited

inductive ParameterKind where
  | positionalOnly | regular | varPositional | keywordOnly | varKeyword
deriving DecidableEq, Repr, Inhabited

structure Parameter (ε : Type) where
  name : Bytes
  position : Nat := 0
  kind : ParameterKind := .regular
  line : Int := 0
  annotation : Option ε := none
  default : Option ε := none

def Parameter.expressions {ε : Type} (p : Parameter ε) : List ε :=
  p.annotation.toList ++ p.default.toList

/-- An argument without a name unpacks a mapping. -/
structure Keyword (ε : Type) where
  name : Option Bytes
  value : ε

structure Clause (ε : Type) where
  target : ε
  iterable : ε
  conditions : List ε := []
  isAsync : Bool := false

def Clause.expressions {ε : Type} (c : Clause ε) : List ε := c.target :: c.iterable :: c.conditions

/-- An entry without a key unpacks a mapping. -/
structure Entry (ε : Type) where
  key : Option ε
  value : ε

def Entry.expressions {ε : Type} (e : Entry ε) : List ε := e.key.toList ++ [e.value]

inductive SequenceKind where
  | list | tuple | set
deriving DecidableEq, Repr, Inhabited

inductive ComprehensionKind where
  | list | set | generator
deriving DecidableEq, Repr, Inhabited

/-- One layer of an expression. Patterns use the same forms: a capture is a name, a class pattern a
call, `p as x` a named expression with target `x`, alternatives a binary `|`. -/
inductive Form (ε : Type) where
  | name (id : Bytes)
  | number (value : Float) (text : Bytes) (imaginary : Bool)
  | string (text : Bytes)
  | constant (constant : Constant)
  | attr (value : ε) (name : Bytes)
  | subscript (value index : ε)
  | slice (lower upper step : Option ε)
  | call (function : ε) (arguments : List ε) (keywords : List (Keyword ε))
  | unary (op : UnaryOp) (operand : ε)
  | binary (op : BinaryOp) (left right : ε)
  | boolean (op : BoolOp) (values : List ε)
  | compare (left : ε) (links : List (CompareOp × ε))
  | conditional (test body orelse : ε)
  | lambda (parameters : List (Parameter ε)) (body : ε)
  | sequence (kind : SequenceKind) (elements : List ε)
  | dict (entries : List (Entry ε))
  | comprehension (kind : ComprehensionKind) (element : ε) (clauses : List (Clause ε))
  | dictComprehension (key value : ε) (clauses : List (Clause ε))
  | starred (value : ε)
  | await (value : ε)
  | yield (value : Option ε)
  | yieldFrom (value : ε)
  | named (target value : ε)

/-- The parts of a form as they are visited: all arguments of a call before its keyword values, and
the name of a named expression before its value. -/
def Form.children {ε : Type} : Form ε → List ε
  | name _ | number .. | string _ | constant _ => []
  | attr value _ => [value]
  | subscript value index => [value, index]
  | slice lower upper step => lower.toList ++ upper.toList ++ step.toList
  | call function arguments keywords => function :: (arguments ++ keywords.map Keyword.value)
  | unary _ operand => [operand]
  | binary _ left right => [left, right]
  | boolean _ values => values
  | compare left links => left :: links.map Prod.snd
  | conditional test body orelse => [body, test, orelse]
  | lambda parameters body => parameters.flatMap Parameter.expressions ++ [body]
  | sequence _ elements => elements
  | dict entries => entries.flatMap Entry.expressions
  | comprehension _ element clauses => element :: clauses.flatMap Clause.expressions
  | dictComprehension key value clauses => key :: value :: clauses.flatMap Clause.expressions
  | starred value | await value | yieldFrom value => [value]
  | yield value => value.toList
  | named target value => [target, value]

inductive Expr where
  | mk (position : Position) (form : Form Expr)

instance : Inhabited Expr := ⟨⟨default, .constant .none⟩⟩

namespace Expr

def position : Expr → Position
  | ⟨position, _⟩ => position

def form : Expr → Form Expr
  | ⟨_, form⟩ => form

def children (e : Expr) : List Expr := e.form.children

theorem sizeOf_lt_of_mem_toList {α : Type} [SizeOf α] {o : Option α} {x : α} (h : x ∈ o.toList) :
    sizeOf x < sizeOf o := by
  cases o <;> simp_all

theorem sizeOf_lt_of_mem_children {e c : Expr} (h : c ∈ e.children) : sizeOf c < sizeOf e := by
  obtain ⟨p, f⟩ := e
  have inClauses {cs : List (Clause Expr)} (h : ∃ clause ∈ cs, c ∈ clause.expressions) :
      sizeOf c < sizeOf cs := by
    obtain ⟨⟨target, iterable, conditions, _⟩, mem, h⟩ := h
    have := List.sizeOf_lt_of_mem mem
    simp only [Clause.expressions, List.mem_cons, Clause.mk.sizeOf_spec] at h this
    rcases h with rfl | rfl | h
    · omega
    · omega
    · have := List.sizeOf_lt_of_mem h; omega
  cases f with
  | name | number | string | constant => simp [children, form, Form.children] at h
  | attr | unary | starred | await | yieldFrom =>
    simp [children, form, Form.children] at h
    subst h; simp; omega
  | subscript | binary | named =>
    simp [children, form, Form.children] at h
    rcases h with rfl | rfl <;> simp <;> omega
  | conditional =>
    simp [children, form, Form.children] at h
    rcases h with rfl | rfl | rfl <;> simp <;> omega
  | slice lower upper step =>
    simp only [children, form, Form.children, List.mem_append] at h
    rcases h with (h | h) | h <;> have := sizeOf_lt_of_mem_toList h <;> simp <;> omega
  | yield value =>
    have := sizeOf_lt_of_mem_toList h
    simp; omega
  | boolean op values | sequence kind values =>
    have : sizeOf c < sizeOf values := List.sizeOf_lt_of_mem h
    simp; omega
  | call function arguments keywords =>
    simp only [children, form, Form.children, List.mem_cons, List.mem_append, List.mem_map] at h
    rcases h with rfl | h | ⟨⟨name, value⟩, mem, rfl⟩
    · simp; omega
    · have := List.sizeOf_lt_of_mem h; simp; omega
    · have := List.sizeOf_lt_of_mem mem; simp at this ⊢; omega
  | compare left links =>
    simp only [children, form, Form.children, List.mem_cons, List.mem_map] at h
    rcases h with rfl | ⟨⟨op, value⟩, mem, rfl⟩
    · simp; omega
    · have := List.sizeOf_lt_of_mem mem; simp at this ⊢; omega
  | lambda parameters body =>
    simp only [children, form, Form.children, List.mem_append, List.mem_flatMap,
      List.mem_singleton] at h
    rcases h with ⟨⟨name, index, kind, line, annotation, fallback⟩, mem, h⟩ | rfl
    · have := List.sizeOf_lt_of_mem mem
      simp only [Parameter.expressions, List.mem_append, Parameter.mk.sizeOf_spec] at h this
      rcases h with h | h <;> have := sizeOf_lt_of_mem_toList h <;> simp <;> omega
    · simp; omega
  | dict entries =>
    simp only [children, form, Form.children, List.mem_flatMap] at h
    obtain ⟨⟨key, value⟩, mem, h⟩ := h
    have := List.sizeOf_lt_of_mem mem
    simp only [Entry.expressions, List.mem_append, List.mem_singleton, Entry.mk.sizeOf_spec] at h this
    rcases h with h | rfl
    · have := sizeOf_lt_of_mem_toList h; simp; omega
    · simp; omega
  | comprehension kind element clauses =>
    simp only [children, form, Form.children, List.mem_cons, List.mem_flatMap] at h
    rcases h with rfl | h
    · simp; omega
    · have := inClauses h; simp; omega
  | dictComprehension key value clauses =>
    simp only [children, form, Form.children, List.mem_cons, List.mem_flatMap] at h
    rcases h with rfl | rfl | h
    · simp; omega
    · simp; omega
    · have := inClauses h; simp; omega

def preorder (e : Expr) : List Expr :=
  e :: e.children.attach.flatMap fun ⟨c, h⟩ =>
    have := sizeOf_lt_of_mem_children h
    c.preorder
termination_by sizeOf e

theorem preorder_eq (e : Expr) : e.preorder = e :: e.children.flatMap preorder := by
  rw [preorder]
  congr 1
  exact (List.flatMap_subtype fun _ _ => rfl).trans (by simp)

end Expr

end CodeSmell
