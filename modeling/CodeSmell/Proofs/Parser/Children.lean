import CodeSmell.Proofs.Lexer.Order
import CodeSmell.Proofs.Parser.Module
import Mathlib.Data.List.ReduceOption

/-!
The children of an expression and their order. The walk over the children passes each part of a form
once. The pieces of a layer are in source order, so that the walk is in source order where it follows
them; it does not at a call, whose keyword values come after its arguments, and at a captured name,
which comes before its pattern. `Expr.Visited` puts both together.
-/

namespace CodeSmell

section Fields

variable {ε : Type}

/-- What the fields of a form hold, one field after the other. A part may be absent. -/
def Form.fields : Form ε → List (Option ε)
  | name _ | number .. | string _ | constant _ => []
  | attr value _ | unary _ value | starred value | await value | yieldFrom value => [some value]
  | yield value => [value]
  | subscript value index => [some value, some index]
  | slice lower upper step => [lower, upper, step]
  | call function arguments keywords =>
    some function :: (arguments.map some ++ keywords.map (some ·.value))
  | binary _ left right => [some left, some right]
  | boolean _ values => values.map some
  | compare left links => some left :: links.map (some ·.2)
  | conditional test body orelse => [some test, some body, some orelse]
  | lambda parameters body =>
    parameters.map Parameter.annotation ++ parameters.map Parameter.default ++ [some body]
  | sequence _ elements => elements.map some
  | dict entries => entries.map Entry.key ++ entries.map (some ·.value)
  | comprehension _ element clauses => (element :: clauses.flatMap Clause.expressions).map some
  | dictComprehension key value clauses => (key :: value :: clauses.flatMap Clause.expressions).map some
  | named target value => [some target, some value]

/-- The parts of all forms but these two are stored in the order in which they are written. -/
def Form.isPlain : Form ε → Bool
  | call .. | named .. => false
  | _ => true

theorem reduceOption_eq_flatMap (xs : List (Option ε)) :
    xs.reduceOption = xs.flatMap Option.toList := by
  induction xs with
  | nil => rfl
  | cons x xs ih => cases x <;> simp [ih]

theorem Form.children_perm (f : Form ε) : f.children.Perm f.fields.reduceOption := by
  rw [reduceOption_eq_flatMap]
  cases f with
  | conditional test body orelse => exact .swap ..
  | lambda parameters body =>
    have split := parameters.flatMap_append_perm
      (fun p => p.annotation.toList) (fun p => p.default.toList)
    rw [fields, List.flatMap_append, List.flatMap_append, List.flatMap_map, List.flatMap_map]
    exact split.symm.append_right [body]
  | dict entries =>
    have split := entries.flatMap_append_perm (·.key.toList) ([·.value])
    rw [fields, List.flatMap_append, List.flatMap_map, List.flatMap_map]
    exact split.symm
  | _ => simp [children, fields, List.flatMap_map, ← List.map_eq_flatMap]

end Fields

def Piece.expr? : Piece → Option Expr
  | expr e _ => some e
  | _ => none

def exprsOf (ps : List Piece) : List Expr := ps.filterMap Piece.expr?

@[simp] theorem exprsOf_nil : exprsOf [] = [] := rfl

@[simp] theorem exprsOf_token (t : Token) (ps : List Piece) :
    exprsOf (.token t :: ps) = exprsOf ps := rfl

@[simp] theorem exprsOf_expr (e : Expr) (ts : List Token) (ps : List Piece) :
    exprsOf (.expr e ts :: ps) = e :: exprsOf ps := rfl

@[simp] theorem exprsOf_append (ps qs : List Piece) :
    exprsOf (ps ++ qs) = exprsOf ps ++ exprsOf qs :=
  List.filterMap_append

theorem mem_exprsOf {ps : List Piece} {e : Expr} : e ∈ exprsOf ps ↔ ∃ ts, .expr e ts ∈ ps := by
  rw [exprsOf, List.mem_filterMap]
  constructor
  · rintro ⟨p, mem, found⟩
    cases p with
    | expr d ts =>
      obtain rfl := Option.some.inj found
      exact ⟨ts, mem⟩
    | _ => cases found
  · rintro ⟨ts, mem⟩
    exact ⟨_, mem, rfl⟩

section Items

variable {α : Type} {W : α → List Piece → Prop} {parts : α → List Expr} {ps : List Piece}

theorem Repeated.exprsOf {xs : List α} (h : Repeated W xs ps)
    (item : ∀ x ps, W x ps → exprsOf ps = parts x) : exprsOf ps = xs.flatMap parts := by
  induction h with
  | nil => rfl
  | cons one _ ih => rw [exprsOf_append, item _ _ one, ih, List.flatMap_cons]

theorem SeparatedTail.exprsOf {separator : Bytes} {xs : List α}
    (h : SeparatedTail W separator xs ps) (item : ∀ x ps, W x ps → exprsOf ps = parts x) :
    exprsOf ps = xs.flatMap parts := by
  induction h with
  | nil | trailing => rfl
  | cons _ one _ ih =>
    rw [exprsOf_token, exprsOf_append, item _ _ one, ih, List.flatMap_cons]

theorem Separated.exprsOf {separator : Bytes} {xs : List α} (h : Separated W separator xs ps)
    (item : ∀ x ps, W x ps → exprsOf ps = parts x) : exprsOf ps = xs.flatMap parts := by
  cases h with
  | nil => rfl
  | cons one tail => rw [exprsOf_append, item _ _ one, tail.exprsOf item, List.flatMap_cons]

theorem Optionally.exprsOf {x : Option α} (h : Optionally W x ps)
    (item : ∀ x ps, W x ps → exprsOf ps = parts x) : exprsOf ps = x.toList.flatMap parts := by
  cases h with
  | none => rfl
  | some one => simp [item _ _ one]

end Items

section Layers

variable {ps : List Piece}

theorem IsExpr.exprsOf {e : Expr} (h : IsExpr e ps) : exprsOf ps = [e] := by
  cases h
  rfl

theorem Led.exprsOf {lead : Token → Bool} {e : Expr} (h : Led IsExpr lead e ps) :
    exprsOf ps = [e] := by
  cases h with
  | intro _ one => exact one.exprsOf

theorem CompareOp.Link.exprsOf {link : CompareOp × Expr} (h : CompareOp.Link link ps) :
    exprsOf ps = [link.2] := by
  cases h with
  | intro spelling => cases spelling <;> rfl

theorem Clause.Layer.exprsOf {clause : Clause Expr} (h : clause.Layer ps) :
    exprsOf ps = clause.expressions := by
  cases h with
  | intro mark _ _ _ conditions =>
    have conditions := conditions.exprsOf fun _ _ => Led.exprsOf
    cases mark <;> simpa [expressions, Clause.expressions] using conditions

theorem ParameterItem.Layer.exprsOf {item : ParameterItem} (h : item.Layer ps) :
    exprsOf ps = item.expressions := by
  cases h with
  | slash | star => rfl
  | parameter mark _ annotation default =>
    have annotation := annotation.exprsOf fun _ _ => Led.exprsOf
    have default := default.exprsOf fun _ _ => Led.exprsOf
    cases mark <;> simp [expressions, Parameter.expressions, annotation, default]

theorem ArgumentItem.Layer.exprsOf {item : ArgumentItem} (h : item.Layer ps) :
    exprsOf ps = [item.expression] := by
  cases h <;> rfl

theorem Entry.Layer.exprsOf {entry : Entry Expr} (h : entry.Layer ps) :
    exprsOf ps = entry.expressions := by
  cases h <;> rfl

theorem SliceStep.exprsOf {step : Option Expr} (h : SliceStep step ps) :
    exprsOf ps = step.toList := by
  cases h with
  | absent => rfl
  | present _ step => simpa using step.exprsOf fun _ _ => IsExpr.exprsOf

theorem Expr.Index.exprsOf {index : Expr} (h : index.Index ps) : exprsOf ps = [index] := by
  cases h <;> rfl

end Layers

namespace Expr

inductive Parts (e : Expr) (ps : List Piece) : Prop where
  | plain (plain : e.form.isPlain = true) (parts : exprsOf ps = e.children)
  | call (function : Expr) (items : List ArgumentItem)
      (form : e.form = .call function (items.filterMap ArgumentItem.argument?)
        (items.filterMap ArgumentItem.keyword?))
      (parts : exprsOf ps = function :: items.map ArgumentItem.expression)
  | named (name value : Expr) (form : e.form = .named name value)
      (place : e.position = name.position) (parts : exprsOf ps = [name, value])
  | capture (name pattern : Expr) (form : e.form = .named name pattern)
      (place : e.position = pattern.position) (parts : exprsOf ps = [pattern, name])

theorem Layer.parts {e : Expr} {ps : List Piece} (h : e.Layer ps) : e.Parts ps := by
  have one : ∀ x ps, IsExpr x ps → exprsOf ps = [x] := fun _ _ => IsExpr.exprsOf
  cases h with
  | call _ items =>
    have items := items.exprsOf fun _ _ => ArgumentItem.Layer.exprsOf
    exact .call _ _ rfl (by simp [items, ← List.map_eq_flatMap])
  | named => exact .named _ _ rfl rfl rfl
  | capture => exact .capture _ _ rfl rfl rfl
  | string =>
    refine .plain rfl ?_
    simp [exprsOf, children, form, Form.children, Piece.expr?]
  | subscript index => exact .plain rfl (by simp [index.exprsOf, children, form, Form.children])
  | slice lower _ upper step same =>
    refine .plain rfl ?_
    simp [same, lower.exprsOf one, upper.exprsOf one, step.exprsOf, children, form, Form.children]
  | boolean _ others =>
    have others := others.exprsOf fun _ _ => Led.exprsOf
    exact .plain rfl (by simp [others, children, form, Form.children])
  | compare _ links =>
    have links := links.exprsOf fun _ _ => CompareOp.Link.exprsOf
    exact .plain rfl (by simp [links, children, form, Form.children, ← List.map_eq_flatMap])
  | lambda _ items =>
    have items := items.exprsOf fun _ _ => ParameterItem.Layer.exprsOf
    exact .plain rfl (by simp [items, children, form, Form.children, parametersOf_expressions])
  | sequence _ elements | bareTuple elements | indexTuple _ _ elements =>
    exact .plain rfl (by simp [elements.exprsOf one, children, form, Form.children])
  | dict _ entries =>
    have entries := entries.exprsOf fun _ _ => Entry.Layer.exprsOf
    exact .plain rfl (by simp [entries, children, form, Form.children])
  | comprehension _ _ clauses | bareGenerator _ clauses | dictComprehension _ _ _ clauses =>
    have clauses := clauses.exprsOf fun _ _ => Clause.Layer.exprsOf
    exact .plain rfl (by simp [clauses, children, form, Form.children])
  | yield _ value =>
    exact .plain rfl (by simp [value.exprsOf one, children, form, Form.children])
  | _ => exact .plain rfl rfl

end Expr

namespace Expr

def StandsBefore (c d : Expr) : Prop := c.position.Before d.position

theorem StandsBefore.asymm {c d : Expr} (h : c.StandsBefore d) : ¬d.StandsBefore c := fun h' =>
  Position.not_before_self _ (h.trans h')

theorem StandsBefore.ne {c d : Expr} (h : c.StandsBefore d) : c.position ≠ d.position := by
  intro same
  rw [StandsBefore, same] at h
  exact Position.not_before_self _ h

theorem exprsOf_sorted {ps : List Piece} (readings : ∀ c ts, .expr c ts ∈ ps → c.Reading ts)
    (sorted : ((tokensOf ps).filter (!·.isLayout)).Pairwise fun t u => t.position.Before u.position) :
    (exprsOf ps).Pairwise StandsBefore := by
  induction ps with
  | nil => exact .nil
  | cons p ps ih =>
    rw [tokensOf_cons, List.filter_append, List.pairwise_append] at sorted
    obtain ⟨-, later, across⟩ := sorted
    have rest := ih (fun c ts mem => readings c ts (List.mem_cons_of_mem _ mem)) later
    cases p with
    | expr c ts =>
      refine List.pairwise_cons.2 ⟨fun d mem => ?_, rest⟩
      obtain ⟨us, piece⟩ := mem_exprsOf.1 mem
      obtain ⟨t, here, text, place⟩ := (readings c ts (.head _)).position
      obtain ⟨u, there, text', place'⟩ := (readings d us (List.mem_cons_of_mem _ piece)).position
      have there : u ∈ tokensOf ps := List.mem_flatMap.2 ⟨_, piece, there⟩
      have before := across t (List.mem_filter.2 ⟨here, by simp [text]⟩) u
        (List.mem_filter.2 ⟨there, by simp [text']⟩)
      rwa [place, place'] at before
    | _ => exact rest

/-- A keyword value stands before an argument of its call, or a pattern before the name that
captures it. -/
def IsShuffled (e : Expr) : Prop :=
  match e.form with
  | .call _ arguments keywords => ∃ a ∈ arguments, ∃ k ∈ keywords, k.value.StandsBefore a
  | .named target value => value.StandsBefore target
  | _ => False

/-- How the children of an expression are visited. -/
structure Visited (e : Expr) : Prop where
  once : e.children.Perm e.form.fields.reduceOption
  sorted : ¬e.IsShuffled → e.children.Pairwise StandsBefore
  shuffled : e.IsShuffled → ¬e.children.Pairwise fun c d => ¬d.StandsBefore c
  /-- The arguments of a call are in order, and so are its keyword values. -/
  call : ∀ function arguments keywords, e.form = .call function arguments keywords →
    (function :: arguments).Pairwise StandsBefore ∧
      (function :: keywords.map Keyword.value).Pairwise StandsBefore
  /-- An expression with a name is shuffled where it stands at its value, as a pattern does. -/
  named : ∀ target value, e.form = .named target value →
    (e.IsShuffled ↔ e.position = value.position) ∧ (¬e.IsShuffled ↔ e.position = target.position)

theorem IsShuffled.disordered {e : Expr} (h : e.IsShuffled) :
    ¬e.children.Pairwise fun c d => ¬d.StandsBefore c := by
  intro ordered
  obtain ⟨p, f⟩ := e
  cases f with
  | call function arguments keywords =>
    obtain ⟨a, ha, k, hk, before⟩ := h
    have across := (List.pairwise_append.1 (List.pairwise_cons.1 ordered).2).2.2
    exact across a ha k.value (List.mem_map_of_mem hk) before
  | named target value => exact (List.pairwise_cons.1 ordered).1 value (.head _) h
  | _ => exact h

theorem arguments_sublist (items : List ArgumentItem) :
    (items.filterMap ArgumentItem.argument?).Sublist (items.map ArgumentItem.expression) := by
  induction items with
  | nil => exact .slnil
  | cons item items ih =>
    cases item with
    | argument e => exact ih.cons_cons e
    | keyword k => exact ih.cons k.value

theorem keywords_sublist (items : List ArgumentItem) :
    ((items.filterMap ArgumentItem.keyword?).map Keyword.value).Sublist
      (items.map ArgumentItem.expression) := by
  induction items with
  | nil => exact .slnil
  | cons item items ih =>
    cases item with
    | argument e => exact ih.cons e
    | keyword k => exact ih.cons_cons k.value

theorem argument_keyword {items : List ArgumentItem} {a : Expr} {k : Keyword Expr}
    (sorted : (items.map ArgumentItem.expression).Pairwise StandsBefore)
    (ha : a ∈ items.filterMap ArgumentItem.argument?)
    (hk : k ∈ items.filterMap ArgumentItem.keyword?) :
    a.StandsBefore k.value ∨ k.value.StandsBefore a := by
  obtain ⟨item, mem, found⟩ := List.mem_filterMap.1 ha
  obtain ⟨item', mem', found'⟩ := List.mem_filterMap.1 hk
  cases item with
  | keyword => cases found
  | argument e =>
    cases item' with
    | argument => cases found'
    | keyword k' =>
      obtain rfl := Option.some.inj found
      obtain rfl := Option.some.inj found'
      have apart : items.Pairwise fun x y => x.expression.StandsBefore y.expression ∨
          y.expression.StandsBefore x.expression := (List.pairwise_map.1 sorted).imp Or.inl
      have symm : Std.Symm fun x y : ArgumentItem => x.expression.StandsBefore y.expression ∨
          y.expression.StandsBefore x.expression := ⟨fun _ _ => Or.symm⟩
      exact apart.forall mem mem' nofun

theorem isShuffled_named {e target value : Expr} (form : e.form = .named target value) :
    e.IsShuffled ↔ value.StandsBefore target := by
  rw [IsShuffled, form]

theorem Parts.visited {e : Expr} {ps : List Piece} (parts : e.Parts ps)
    (sorted : (exprsOf ps).Pairwise StandsBefore) : e.Visited := by
  have once := e.form.children_perm
  cases parts with
  | plain plain parts =>
    rw [parts] at sorted
    refine ⟨once, fun _ => sorted, IsShuffled.disordered, fun _ _ _ form => ?_, fun _ _ form => ?_⟩
    all_goals
      rw [form] at plain
      cases plain
  | call function items form parts =>
    rw [parts, List.pairwise_cons] at sorted
    obtain ⟨first, sorted⟩ := sorted
    have arguments := arguments_sublist items
    have keywords := keywords_sublist items
    refine ⟨once, fun plain => ?_, IsShuffled.disordered, fun function' arguments' keywords' same => ?_,
      fun _ _ other => by cases form.symm.trans other⟩
    · rw [children, form]
      refine List.pairwise_cons.2 ⟨fun c mem => first c ?_, List.pairwise_append.2
        ⟨sorted.sublist arguments, sorted.sublist keywords, fun a ha v hv => ?_⟩⟩
      · exact (List.mem_append.1 mem).elim (arguments.subset ·) (keywords.subset ·)
      · obtain ⟨k, hk, rfl⟩ := List.mem_map.1 hv
        refine (argument_keyword sorted ha hk).resolve_right fun before => plain ?_
        rw [IsShuffled, form]
        exact ⟨a, ha, k, hk, before⟩
    · obtain ⟨rfl, rfl, rfl⟩ := Form.call.inj (form.symm.trans same)
      exact ⟨(List.pairwise_cons.2 ⟨first, sorted⟩).sublist (arguments.cons_cons _),
        (List.pairwise_cons.2 ⟨first, sorted⟩).sublist (keywords.cons_cons _)⟩
  | named name value form place parts =>
    rw [parts] at sorted
    have before := (List.pairwise_cons.1 sorted).1 value (.head _)
    have plain : ¬e.IsShuffled := mt (isShuffled_named form).1 before.asymm
    refine ⟨once, fun _ => ?_, IsShuffled.disordered, fun _ _ _ other => ?_,
      fun target' value' same => ?_⟩
    · rwa [children, form]
    · cases form.symm.trans other
    · obtain ⟨rfl, rfl⟩ := Form.named.inj (form.symm.trans same)
      exact ⟨iff_of_false plain (place ▸ before.ne), iff_of_true plain place⟩
  | capture name pattern form place parts =>
    rw [parts] at sorted
    have before := (List.pairwise_cons.1 sorted).1 name (.head _)
    have shuffled : e.IsShuffled := (isShuffled_named form).2 before
    refine ⟨once, fun plain => (plain shuffled).elim, IsShuffled.disordered, fun _ _ _ other => ?_,
      fun target' value' same => ?_⟩
    · cases form.symm.trans other
    · obtain ⟨rfl, rfl⟩ := Form.named.inj (form.symm.trans same)
      exact ⟨iff_of_true shuffled place, iff_of_false (not_not_intro shuffled) (place ▸ before.ne)⟩

end Expr

/-- The children of each expression of a source are its parts, each once. They are visited in the order
of their places, unless a keyword value of a call stands before an argument, or the expression is a
pattern with a name. -/
theorem children_visited {source : Bytes} {b : Block} (parsed : parseModule source = .ok b) :
    ∀ e ∈ b.nodes, e.Visited := by
  intro e mem
  obtain ⟨inside, marker, lexed, -, reading⟩ := parseModule_reading parsed
  obtain ⟨us, read, within⟩ := reading.node mem
  obtain ⟨ps, layer, readings, within'⟩ := read.layered
  have tokens : (tokensOf ps).Sublist (inside ++ [marker]) :=
    (within'.trans within).sublist.trans (List.sublist_append_left _ _)
  have sorted := (Lexer.tokenize_sorted lexed).sublist (tokens.filter _)
  exact layer.parts.visited (Expr.exprsOf_sorted readings sorted)

def shuffledSource : Bytes := "f(k=1, *[2])\nmatch a:\n  case 3 as b: pass\n"

theorem children_visited_shuffled : ∃ b, parseModule shuffledSource = .ok b ∧
    b.nodes.map (·.children.map Expr.position) =
      [[⟨1, 1⟩, ⟨1, 8⟩, ⟨1, 5⟩], [], [⟨1, 9⟩], [⟨1, 10⟩], [], [], [], [⟨3, 13⟩, ⟨3, 8⟩], [], []] ∧
    ∀ e ∈ b.nodes, e.Visited := by
  obtain ⟨b, parsed, places⟩ : ∃ b, parseModule shuffledSource = .ok b ∧
      b.nodes.map (·.children.map Expr.position) =
        [[⟨1, 1⟩, ⟨1, 8⟩, ⟨1, 5⟩], [], [⟨1, 9⟩], [⟨1, 10⟩], [], [], [], [⟨3, 13⟩, ⟨3, 8⟩], [], []] := by
    decide +kernel
  exact ⟨b, parsed, places, children_visited parsed⟩

theorem keyword_after_argument : ∃ b, parseModule "f(k=1, *[2])\n" = .ok b ∧
    ∃ e ∈ b.nodes, ¬e.children.Pairwise fun c d => ¬d.position.Before c.position := by
  obtain ⟨b, parsed, e, mem, places⟩ : ∃ b, parseModule "f(k=1, *[2])\n" = .ok b ∧
      ∃ e ∈ b.nodes, e.children.map Expr.position = [⟨1, 1⟩, ⟨1, 8⟩, ⟨1, 5⟩] := by
    decide +kernel
  refine ⟨b, parsed, e, mem, fun ordered => ?_⟩
  rw [← List.pairwise_map (f := Expr.position) (R := fun p q => ¬q.Before p), places] at ordered
  simp [Position.Before] at ordered

end CodeSmell
