import CodeSmell.Syntax.Parser.Expr
import Mathlib.Data.List.Forall2
import Mathlib.Tactic

/-!
Expressions printed as tokens. `Expr.render` writes an operand in parentheses where it binds less
tightly than its place asks for, and nowhere else. The expressions that it writes are those with
`Expr.Plain`, and `Expr.Alike` compares them up to positions.
-/

namespace CodeSmell

namespace Token

def operator (text : Bytes) : Token := { kind := .operator, text }

def keyword (text : Bytes) : Token := { kind := .keyword, text }

def ofName (id : Bytes) : Token := { kind := .name, text := id }

def ofNumber (value : Float) (text : Bytes) (imaginary : Bool) : Token :=
  { kind := .number, text, value, imaginary }

end Token

/-! ## Precedence -/

def BinaryOp.precedence (op : BinaryOp) : Nat :=
  match op.level? with
  | some level => level + 4
  | none => 12

def BoolOp.precedence : BoolOp → Nat
  | .or => 1
  | .and => 2

def UnaryOp.precedence : UnaryOp → Nat
  | .not => 3
  | _ => 11

/-- How tightly an expression holds together: 0 for a conditional, 1 to 3 for `or`, `and` and `not`,
4 for a comparison, 5 to 10 for the left-associative operators from `|` to `*`, 11 for a sign, 12 for
a power, 13 for an `await` and 14 for all that is postfix or one token. -/
def Expr.precedence (e : Expr) : Nat :=
  match e.form with
  | .conditional .. => 0
  | .boolean op _ => op.precedence
  | .compare .. => 4
  | .unary op _ => op.precedence
  | .binary op _ _ => op.precedence
  | .await _ => 13
  | _ => 14

theorem Expr.precedence_le (e : Expr) : e.precedence ≤ 14 := by
  unfold Expr.precedence
  split
  · decide
  · next op _ _ => cases op <;> decide
  · decide
  · next op _ _ => cases op <;> decide
  · next op _ _ _ => cases op <;> decide
  · decide
  · exact le_rfl

/-- A power takes an `await` on its left and a sign on its right; the others associate to the left. -/
def BinaryOp.leftPlace (op : BinaryOp) : Nat :=
  if op = .pow then 13 else op.precedence

def BinaryOp.rightPlace (op : BinaryOp) : Nat :=
  if op = .pow then 11 else op.precedence + 1

theorem BinaryOp.precedence_le_leftPlace (op : BinaryOp) : op.precedence ≤ op.leftPlace := by
  cases op <;> decide

def CompareOp.tokens : CompareOp → List Token
  | .isIn => [.keyword "in"]
  | .notIn => [.keyword "not", .keyword "in"]
  | .is => [.keyword "is"]
  | .isNot => [.keyword "is", .keyword "not"]
  | op => [.operator op.symbol]

/-! ## Printing -/

def joinedBy (separator : Token) : List (List Token) → List Token
  | [] => []
  | ts :: rest => ts ++ rest.flatMap (separator :: ·)

namespace Expr

def placed (place : Nat) (e : Expr) (ts : List Token) : List Token :=
  if e.precedence < place then .operator "(" :: (ts ++ [.operator ")"]) else ts

theorem sizeOf_link_lt {links : List (CompareOp × Expr)} {op : CompareOp} {right : Expr}
    (mem : (op, right) ∈ links) : sizeOf right < sizeOf links := by
  have := List.sizeOf_lt_of_mem mem
  simp only [Prod.mk.sizeOf_spec] at this
  omega

def render : Expr → List Token
  | ⟨_, .name id⟩ => [.ofName id]
  | ⟨_, .number value text imaginary⟩ => [.ofNumber value text imaginary]
  | ⟨_, .attr value name⟩ => value.placed 14 value.render ++ [.operator ".", .ofName name]
  | ⟨_, .subscript value index⟩ =>
    value.placed 14 value.render ++ .operator "[" :: (index.render ++ [.operator "]"])
  | ⟨_, .call function arguments _⟩ =>
    function.placed 14 function.render ++ .operator "(" ::
      (joinedBy (.operator ",") (arguments.attach.map fun ⟨a, _⟩ => a.render) ++ [.operator ")"])
  | ⟨_, .await value⟩ => .keyword "await" :: value.placed 13 value.render
  | ⟨_, .unary .not operand⟩ => .keyword "not" :: operand.placed 3 operand.render
  | ⟨_, .unary op operand⟩ => .operator op.symbol :: operand.placed 11 operand.render
  | ⟨_, .binary op left right⟩ =>
    left.placed op.leftPlace left.render ++
      .operator op.symbol :: right.placed op.rightPlace right.render
  | ⟨_, .compare left links⟩ =>
    left.placed 5 left.render ++
      links.attach.flatMap fun ⟨(op, right), mem⟩ =>
        have := sizeOf_link_lt mem
        op.tokens ++ right.placed 5 right.render
  | ⟨_, .boolean op values⟩ =>
    joinedBy (.keyword op.symbol)
      (values.attach.map fun ⟨v, _⟩ => v.placed (op.precedence + 1) v.render)
  | ⟨_, .conditional test body orelse⟩ =>
    body.placed 1 body.render ++ .keyword "if" :: (test.placed 1 test.render ++
      .keyword "else" :: orelse.render)
  | _ => []

def renderAt (place : Nat) (e : Expr) : List Token := e.placed place e.render

section Equations

variable {p : Position} {e left right : Expr}

theorem map_attach {α β : Type} (xs : List α) (f : α → β) :
    (xs.attach.map fun ⟨x, _⟩ => f x) = xs.map f :=
  (List.map_subtype fun _ _ => rfl).trans (by simp)

theorem renderAt_of_le {place : Nat} (h : place ≤ e.precedence) : e.renderAt place = e.render :=
  if_neg (Nat.not_lt.2 h)

theorem renderAt_of_lt {place : Nat} (h : e.precedence < place) :
    e.renderAt place = .operator "(" :: (e.render ++ [.operator ")"]) :=
  if_pos h

theorem render_name {id : Bytes} : render ⟨p, .name id⟩ = [.ofName id] := by rw [render]

theorem render_number {value : Float} {text : Bytes} {imaginary : Bool} :
    render ⟨p, .number value text imaginary⟩ = [.ofNumber value text imaginary] := by rw [render]

theorem render_attr {name : Bytes} :
    render ⟨p, .attr e name⟩ = e.renderAt 14 ++ [.operator ".", .ofName name] := by
  rw [render]
  rfl

theorem render_subscript {index : Expr} : render ⟨p, .subscript e index⟩ =
    e.renderAt 14 ++ .operator "[" :: (index.render ++ [.operator "]"]) := by
  rw [render]
  rfl

theorem render_call {arguments : List Expr} {keywords : List (Keyword Expr)} :
    render ⟨p, .call e arguments keywords⟩ = e.renderAt 14 ++ .operator "(" ::
      (joinedBy (.operator ",") (arguments.map render) ++ [.operator ")"]) := by
  rw [render, map_attach arguments render]
  rfl

theorem render_await : render ⟨p, .await e⟩ = .keyword "await" :: e.renderAt 13 := by
  rw [render]
  rfl

theorem render_not : render ⟨p, .unary .not e⟩ = .keyword "not" :: e.renderAt 3 := by
  rw [render]
  rfl

theorem render_sign {op : UnaryOp} (sign : op ≠ .not) :
    render ⟨p, .unary op e⟩ = .operator op.symbol :: e.renderAt 11 := by
  rw [render]
  · rfl
  · exact sign

theorem render_binary {op : BinaryOp} : render ⟨p, .binary op left right⟩ =
    left.renderAt op.leftPlace ++ .operator op.symbol :: right.renderAt op.rightPlace := by
  rw [render]
  rfl

theorem render_compare {links : List (CompareOp × Expr)} : render ⟨p, .compare left links⟩ =
    left.renderAt 5 ++ links.flatMap fun link => link.1.tokens ++ link.2.renderAt 5 := by
  rw [render]
  congr 1
  exact (List.flatMap_subtype fun _ _ => rfl).trans (by simp; rfl)

theorem render_boolean {op : BoolOp} {values : List Expr} : render ⟨p, .boolean op values⟩ =
    joinedBy (.keyword op.symbol) (values.map (renderAt (op.precedence + 1))) := by
  rw [render, map_attach values fun v => v.placed (op.precedence + 1) v.render]
  rfl

theorem render_conditional {test : Expr} : render ⟨p, .conditional test left right⟩ =
    left.renderAt 1 ++ .keyword "if" :: (test.renderAt 1 ++ .keyword "else" :: right.render) := by
  rw [render]
  rfl

end Equations

/-! ## The expressions that are printed -/

/-- Names and numbers, put together by the operators and by attributes, plain subscripts, calls with
positional arguments and `await`. -/
inductive Plain : Expr → Prop
  | name {p : Position} {id : Bytes} : Plain ⟨p, .name id⟩
  | number {p : Position} {value : Float} {text : Bytes} {imaginary : Bool} :
      Plain ⟨p, .number value text imaginary⟩
  | attr {p : Position} {value : Expr} {name : Bytes} : Plain value → Plain ⟨p, .attr value name⟩
  | subscript {p : Position} {value index : Expr} : Plain value → Plain index →
      Plain ⟨p, .subscript value index⟩
  | call {p : Position} {function : Expr} {arguments : List Expr} : Plain function →
      (∀ a ∈ arguments, Plain a) → Plain ⟨p, .call function arguments []⟩
  | await {p : Position} {value : Expr} : Plain value → Plain ⟨p, .await value⟩
  | unary {p : Position} {op : UnaryOp} {operand : Expr} : Plain operand →
      Plain ⟨p, .unary op operand⟩
  | binary {p : Position} {op : BinaryOp} {left right : Expr} : Plain left → Plain right →
      Plain ⟨p, .binary op left right⟩
  | compare {p : Position} {left : Expr} {links : List (CompareOp × Expr)} : Plain left →
      (∀ link ∈ links, Plain link.2) → links ≠ [] → Plain ⟨p, .compare left links⟩
  | boolean {p : Position} {op : BoolOp} {values : List Expr} : (∀ v ∈ values, Plain v) →
      2 ≤ values.length → Plain ⟨p, .boolean op values⟩
  | conditional {p : Position} {test body orelse : Expr} : Plain test → Plain body → Plain orelse →
      Plain ⟨p, .conditional test body orelse⟩

inductive Alike : Expr → Expr → Prop
  | name {p q : Position} {id : Bytes} : Alike ⟨p, .name id⟩ ⟨q, .name id⟩
  | number {p q : Position} {value : Float} {text : Bytes} {imaginary : Bool} :
      Alike ⟨p, .number value text imaginary⟩ ⟨q, .number value text imaginary⟩
  | attr {p q : Position} {e d : Expr} {name : Bytes} : Alike e d →
      Alike ⟨p, .attr e name⟩ ⟨q, .attr d name⟩
  | subscript {p q : Position} {e d i j : Expr} : Alike e d → Alike i j →
      Alike ⟨p, .subscript e i⟩ ⟨q, .subscript d j⟩
  | call {p q : Position} {e d : Expr} {as bs : List Expr} : Alike e d → List.Forall₂ Alike as bs →
      Alike ⟨p, .call e as []⟩ ⟨q, .call d bs []⟩
  | await {p q : Position} {e d : Expr} : Alike e d → Alike ⟨p, .await e⟩ ⟨q, .await d⟩
  | unary {p q : Position} {op : UnaryOp} {e d : Expr} : Alike e d →
      Alike ⟨p, .unary op e⟩ ⟨q, .unary op d⟩
  | binary {p q : Position} {op : BinaryOp} {l m r s : Expr} : Alike l m → Alike r s →
      Alike ⟨p, .binary op l r⟩ ⟨q, .binary op m s⟩
  | compare {p q : Position} {e d : Expr} {as bs : List (CompareOp × Expr)} : Alike e d →
      as.map Prod.fst = bs.map Prod.fst →
      List.Forall₂ Alike (as.map Prod.snd) (bs.map Prod.snd) →
      Alike ⟨p, .compare e as⟩ ⟨q, .compare d bs⟩
  | boolean {p q : Position} {op : BoolOp} {as bs : List Expr} : List.Forall₂ Alike as bs →
      Alike ⟨p, .boolean op as⟩ ⟨q, .boolean op bs⟩
  | conditional {p q : Position} {t u b c o r : Expr} : Alike t u → Alike b c → Alike o r →
      Alike ⟨p, .conditional t b o⟩ ⟨q, .conditional u c r⟩

end Expr

/-! ## The tokens that are printed -/

/-- The tokens that begin an expression that holds together as tightly as a place asks for. -/
inductive Token.Opens (place : Nat) : Token → Prop
  | name {id : Bytes} : Opens place (.ofName id)
  | number {value : Float} {text : Bytes} {imaginary : Bool} :
      Opens place (.ofNumber value text imaginary)
  | parenthesis : Opens place (.operator "(")
  | await : place ≤ 13 → Opens place (.keyword "await")
  | sign {op : UnaryOp} : op ≠ .not → place ≤ 11 → Opens place (.operator op.symbol)
  | not : place ≤ 3 → Opens place (.keyword "not")

def Token.isOuter (t : Token) : Bool :=
  t.isLayout || t.isOperator ":" || t.isOperator "=" || t.isOperator ":="

theorem Token.Opens.mono {place looser : Nat} {t : Token} (h : t.Opens place)
    (le : looser ≤ place) : t.Opens looser := by
  cases h with
  | name => exact .name
  | number => exact .number
  | parenthesis => exact .parenthesis
  | await bound => exact .await (le.trans bound)
  | sign sign bound => exact .sign sign (le.trans bound)
  | not bound => exact .not (le.trans bound)

namespace Expr.Plain

variable {e : Expr}

theorem opensAt (place : Nat) (opens : ∃ t ts, e.render = t :: ts ∧ t.Opens e.precedence) :
    ∃ t ts, e.renderAt place = t :: ts ∧ t.Opens place := by
  rcases Nat.lt_or_ge e.precedence place with lt | le
  · exact ⟨_, _, renderAt_of_lt lt, .parenthesis⟩
  · obtain ⟨t, ts, eq, opens⟩ := opens
    exact ⟨t, ts, (renderAt_of_le le).trans eq, opens.mono le⟩

theorem opens (h : e.Plain) : ∃ t ts, e.render = t :: ts ∧ t.Opens e.precedence := by
  have first {place : Nat} {e d : Expr} {more : List Token} (le : e.precedence ≤ place)
      (eq : e.render = d.renderAt place ++ more)
      (opens : ∃ t ts, d.render = t :: ts ∧ t.Opens d.precedence) :
      ∃ t ts, e.render = t :: ts ∧ t.Opens e.precedence := by
    obtain ⟨t, ts, same, opens⟩ := opensAt place opens
    exact ⟨t, ts ++ more, by rw [eq, same, List.cons_append], opens.mono le⟩
  induction h with
  | name => exact ⟨_, _, render_name, .name⟩
  | number => exact ⟨_, _, render_number, .number⟩
  | attr _ ih => exact first le_rfl render_attr ih
  | subscript _ _ ih => exact first le_rfl render_subscript ih
  | call _ _ ih => exact first le_rfl render_call ih
  | await => exact ⟨_, _, render_await, .await le_rfl⟩
  | @unary p op operand _ _ =>
    by_cases not : op = .not
    · obtain rfl := not
      exact ⟨_, _, render_not, .not le_rfl⟩
    · refine ⟨_, _, render_sign not, .sign not ?_⟩
      cases op <;> first | contradiction | exact le_rfl
  | @binary p op _ _ _ _ ih =>
    exact first op.precedence_le_leftPlace render_binary ih
  | compare _ _ _ ih => exact first (by decide : 4 ≤ 5) render_compare ih
  | @boolean p op values _ two ih =>
    cases values with
    | nil => cases two
    | cons v rest =>
      have eq : render ⟨p, .boolean op (v :: rest)⟩ = v.renderAt (op.precedence + 1) ++ _ :=
        render_boolean
      exact first (Nat.le_succ _) eq (ih v (.head _))
  | conditional _ _ _ _ ih => exact first (Nat.zero_le _) render_conditional ih

theorem innerAt {place : Nat} (inner : ∀ t ∈ e.render, t.isOuter = false) :
    ∀ t ∈ e.renderAt place, t.isOuter = false := by
  rcases Nat.lt_or_ge e.precedence place with lt | le
  · rw [renderAt_of_lt lt, List.forall_mem_cons, List.forall_mem_append, List.forall_mem_singleton]
    exact ⟨by decide, inner, by decide⟩
  · rwa [renderAt_of_le le]

theorem inner_joinedBy {separator : Token} {groups : List (List Token)}
    (silent : separator.isOuter = false) (inner : ∀ ts ∈ groups, ∀ t ∈ ts, t.isOuter = false) :
    ∀ t ∈ joinedBy separator groups, t.isOuter = false := by
  cases groups with
  | nil => nofun
  | cons ts rest =>
    rw [List.forall_mem_cons] at inner
    intro t mem
    rcases List.mem_append.1 mem with mem | mem
    · exact inner.1 t mem
    · obtain ⟨us, group, mem⟩ := List.mem_flatMap.1 mem
      rcases List.mem_cons.1 mem with rfl | mem
      · exact silent
      · exact inner.2 us group t mem

theorem inner (h : e.Plain) : ∀ t ∈ e.render, t.isOuter = false := by
  induction h with
  | name =>
    rw [render_name, List.forall_mem_singleton]
    rfl
  | number =>
    rw [render_number, List.forall_mem_singleton]
    rfl
  | attr _ ih =>
    rw [render_attr, List.forall_mem_append, List.forall_mem_cons, List.forall_mem_singleton]
    exact ⟨innerAt ih, by decide, rfl⟩
  | subscript _ _ ih₁ ih₂ =>
    rw [render_subscript, List.forall_mem_append, List.forall_mem_cons, List.forall_mem_append,
      List.forall_mem_singleton]
    exact ⟨innerAt ih₁, by decide, ih₂, by decide⟩
  | call _ _ ih₁ ih₂ =>
    rw [render_call, List.forall_mem_append, List.forall_mem_cons, List.forall_mem_append,
      List.forall_mem_singleton]
    refine ⟨innerAt ih₁, by decide, inner_joinedBy (by decide) fun ts mem => ?_, by decide⟩
    obtain ⟨a, argument, rfl⟩ := List.mem_map.1 mem
    exact ih₂ a argument
  | await _ ih =>
    rw [render_await, List.forall_mem_cons]
    exact ⟨by decide, innerAt ih⟩
  | @unary p op operand _ ih =>
    by_cases not : op = .not
    · rw [not, render_not, List.forall_mem_cons]
      exact ⟨by decide, innerAt ih⟩
    · rw [render_sign not, List.forall_mem_cons]
      exact ⟨by cases op <;> decide, innerAt ih⟩
  | @binary p op _ _ _ _ ih₁ ih₂ =>
    rw [render_binary, List.forall_mem_append, List.forall_mem_cons]
    exact ⟨innerAt ih₁, by cases op <;> decide, innerAt ih₂⟩
  | compare _ _ _ ih₁ ih₂ =>
    rw [render_compare, List.forall_mem_append]
    refine ⟨innerAt ih₁, fun t mem => ?_⟩
    obtain ⟨⟨op, right⟩, link, mem⟩ := List.mem_flatMap.1 mem
    rcases List.mem_append.1 mem with sign | mem
    · have inner : ∀ t ∈ op.tokens, t.isOuter = false := by cases op <;> decide
      exact inner t sign
    · exact innerAt (ih₂ _ link) t mem
  | @boolean p op values _ _ ih =>
    rw [render_boolean]
    refine inner_joinedBy (by cases op <;> decide) fun ts mem => ?_
    obtain ⟨v, value, rfl⟩ := List.mem_map.1 mem
    exact innerAt (ih v value)
  | conditional _ _ _ ih₁ ih₂ ih₃ =>
    rw [render_conditional, List.forall_mem_append, List.forall_mem_cons, List.forall_mem_append,
      List.forall_mem_cons]
    exact ⟨innerAt ih₂, by decide, innerAt ih₁, by decide, ih₃⟩

end Expr.Plain

end CodeSmell
