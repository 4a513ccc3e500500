import CodeSmell.Proofs.Grammar.Reading

/-!
The shapes of trees that are read from tokens: what the walks over a tree rely on without looking.
Every layer of an expression and every form of a statement has the shape that its kind asks for, and
an `elif` stands alone in the `orelse` of the condition that it continues.
-/

namespace CodeSmell

/-- A name, an attribute or a subscript. -/
inductive Expr.IsReference : Expr → Prop where
  | name {p : Position} {id : Bytes} : IsReference ⟨p, .name id⟩
  | attr {p : Position} {value : Expr} {name : Bytes} : IsReference ⟨p, .attr value name⟩
  | subscript {p : Position} {value index : Expr} : IsReference ⟨p, .subscript value index⟩

/-- References within starred expressions, lists and tuples. -/
inductive Expr.IsTarget : Expr → Prop where
  | reference {e : Expr} : e.IsReference → IsTarget e
  | starred {p : Position} {value : Expr} : IsTarget value → IsTarget ⟨p, .starred value⟩
  | list {p : Position} {elements : List Expr} : (∀ e ∈ elements, IsTarget e) →
      IsTarget ⟨p, .sequence .list elements⟩
  | tuple {p : Position} {elements : List Expr} : (∀ e ∈ elements, IsTarget e) →
      IsTarget ⟨p, .sequence .tuple elements⟩

theorem Expr.isReference_of_isPlainTarget {e : Expr} (h : e.isPlainTarget = true) :
    e.IsReference := by
  obtain ⟨p, f⟩ := e
  cases f with
  | name id => exact .name
  | attr value name => exact .attr
  | subscript value index => exact .subscript
  | _ => cases h

theorem Expr.badTarget?_eq (e : Expr) : e.badTarget? = if e.isPlainTarget then none
    else match e.targetParts? with
      | none => some e.position
      | some parts => parts.findSome? badTarget? := by
  rw [badTarget?]
  split
  · rfl
  · split
    · next none => rw [none]
    · next parts some =>
      simp only [some]
      exact (List.findSome?_subtype fun _ _ => rfl).trans (by rw [List.unattach_attach])

theorem Expr.isTarget_of_badTarget? {e : Expr} (h : e.badTarget? = none) : e.IsTarget := by
  induction e using preorder.induct with
  | case1 e ih =>
    rw [badTarget?_eq] at h
    split at h
    · next plain => exact .reference (isReference_of_isPlainTarget plain)
    split at h
    · cases h
    next parts some =>
    have all : ∀ part ∈ parts, part.IsTarget := fun part mem =>
      ih part (mem_children_of_targetParts? some mem) (List.findSome?_eq_none_iff.1 h part mem)
    obtain ⟨p, f⟩ := e
    cases f with
    | starred value =>
      obtain rfl := Option.some.inj some
      exact .starred (all value (.head _))
    | sequence kind elements =>
      cases kind with
      | list => exact Option.some.inj some ▸ .list all
      | tuple => exact Option.some.inj some ▸ .tuple all
      | set => cases some
    | _ => cases some

def Numbered (parameters : List (Parameter Expr)) : Prop :=
  parameters.map Parameter.position = List.range parameters.length

theorem numbered_add {list : ParameterList} (h : Numbered list.parameters) (item : ParameterItem) :
    Numbered (list.add item).parameters := by
  cases item with
  | slash =>
    have same : (Parameter.position ∘ fun p : Parameter Expr =>
        if p.kind = .regular then { p with kind := .positionalOnly } else p) = Parameter.position := by
      funext p
      dsimp only [Function.comp]
      split <;> rfl
    rw [Numbered, ParameterList.add, List.map_map, List.length_map, same]
    exact h
  | star => exact h
  | parameter p =>
    rw [Numbered, ParameterList.add, List.map_append, List.length_append, h]
    exact List.range_succ.symm

theorem numbered_parametersOf (items : List ParameterItem) : Numbered (parametersOf items) := by
  have loop (list : ParameterList) (h : Numbered list.parameters) :
      Numbered (items.foldl ParameterList.add list).parameters := by
    induction items generalizing list with
    | nil => exact h
    | cons item items ih => exact ih _ (numbered_add h item)
  exact loop {} rfl

namespace Form

variable {ε : Type}

def operators : Form ε → List CompareOp
  | compare _ links => links.map Prod.fst
  | _ => []

def comparators : Form ε → List ε
  | compare _ links => links.map Prod.snd
  | _ => []

/-- The elements of a collection, which are the keys of a dictionary; where a mapping is unpacked
the key is missing. -/
def elements : Form ε → List (Option ε)
  | sequence _ elements => elements.map some
  | dict entries => entries.map Entry.key
  | _ => []

def values : Form ε → List ε
  | dict entries => entries.map Entry.value
  | dictComprehension _ value _ => [value]
  | _ => []

def clauses : Form ε → List (Clause ε)
  | comprehension _ _ clauses | dictComprehension _ _ clauses => clauses
  | _ => []

def WellFormed (f : Form Expr) : Prop :=
  match f with
  | boolean _ values => 2 ≤ values.length
  | compare .. => f.comparators.length = f.operators.length ∧ f.comparators ≠ []
  | sequence .. => none ∉ f.elements ∧ f.values = []
  | dict _ => f.elements.length = f.values.length
  | comprehension .. => f.clauses ≠ [] ∧ f.values = [] ∧ ∀ c ∈ f.clauses, c.target.IsTarget
  | dictComprehension .. =>
    f.clauses ≠ [] ∧ f.values.length = 1 ∧ ∀ c ∈ f.clauses, c.target.IsTarget
  | lambda parameters _ => Numbered parameters
  | _ => True

end Form

theorem Clause.Layer.isTarget {c : Clause Expr} {ps : List Piece} (h : c.Layer ps) :
    c.target.IsTarget := by
  cases h with
  | intro _ _ _ good _ => exact Expr.isTarget_of_badTarget? good

theorem Repeated.targets {clauses : List (Clause Expr)} {ps : List Piece}
    (h : Repeated Clause.Layer clauses ps) : ∀ c ∈ clauses, c.target.IsTarget := by
  intro c mem
  obtain ⟨qs, layer, -⟩ := h.mem mem
  exact layer.isTarget

theorem Expr.Layer.wellFormed {e : Expr} {ps : List Piece} (h : e.Layer ps) : e.form.WellFormed := by
  cases h with
  | boolean some _ =>
    have := List.length_pos_iff.2 some
    simp only [form, Form.WellFormed, List.length_cons]
    omega
  | compare some _ =>
    refine ⟨?_, mt List.map_eq_nil_iff.1 some⟩
    simp [Form.comparators, Form.operators, form]
  | lambda => exact numbered_parametersOf _
  | sequence | bareTuple | indexTuple => exact ⟨by simp [Form.elements, form], rfl⟩
  | dict => exact (by simp [Form.WellFormed, Form.elements, Form.values, form])
  | comprehension _ some clauses _ | bareGenerator some clauses => exact ⟨some, rfl, clauses.targets⟩
  | dictComprehension _ _ some clauses _ => exact ⟨some, rfl, clauses.targets⟩
  | _ => trivial

theorem Expr.Reading.layered {e : Expr} {ts : List Token} (h : e.Reading ts) :
    ∃ ps, e.Layer ps ∧ (∀ c us, .expr c us ∈ ps → c.Reading us) ∧ tokensOf ps <:+: ts := by
  induction h with
  | layer layer readings _ => exact ⟨_, layer, readings, List.infix_rfl⟩
  | grouped _ _ _ ih =>
    obtain ⟨ps, layer, readings, within⟩ := ih
    exact ⟨ps, layer, readings, within.trans ⟨[_], [_], rfl⟩⟩

/-- Of the blocks that a statement holds only the `orelse` of a condition has an `elif`, and then
nothing else. -/
def StmtForm.ElifsAlone : StmtForm Stmt → Prop
  | cond _ body orelse _ => (∀ s ∈ body, s.isElif = false) ∧
      ((∃ s ∈ orelse, s.isElif = true) → orelse.length = 1)
  | f => ∀ b ∈ f.blocks ++ f.body?.toList, ∀ s ∈ b, s.isElif = false

def StmtForm.WellFormed : StmtForm Stmt → Prop
  | assign targets _ | delete targets => targets ≠ [] ∧ ∀ t ∈ targets, t.IsTarget
  | augAssign target _ _ | annAssign target _ _ => target.IsReference
  | forEach target _ _ _ _ => target.IsTarget
  | withItems items _ _ => items ≠ [] ∧ ∀ i ∈ items, ∀ t ∈ i.target, t.IsTarget
  | tryExcept _ handlers orelse finalBody _ =>
    (handlers ≠ [] ∨ finalBody ≠ []) ∧ (orelse ≠ [] → handlers ≠ [])
  | matchOn _ cases => cases ≠ []
  | importNames names | importFrom _ names => names ≠ []
  | scope names _ => names ≠ []
  | function definition => Numbered definition.parameters
  | _ => True

theorem Simple.no_elif {b : Block} {ps : List Piece} (h : Simple b ps) : ∀ s ∈ b, s.isElif = false := by
  cases h with
  | intro _ _ _ noElif => exact noElif

theorem Line.no_elif {b : Block} {ps : List Piece} (h : Line b ps) : ∀ s ∈ b, s.isElif = false := by
  cases h with
  | compound noElif => exact List.forall_mem_singleton.2 noElif
  | simple simple => exact simple.no_elif

theorem no_elif_flatten {W : Block → List Piece → Prop} {bs : List Block} {ps : List Piece}
    (h : Repeated W bs ps) (item : ∀ b ps, W b ps → ∀ s ∈ b, s.isElif = false) :
    ∀ s ∈ bs.flatten, s.isElif = false := by
  intro s mem
  obtain ⟨b, mem, inside⟩ := List.mem_flatten.1 mem
  obtain ⟨qs, layer, -⟩ := h.mem mem
  exact item b qs layer s inside

theorem Block.Layer.no_elif {b : Block} {ps : List Piece} (h : Block.Layer b ps) :
    ∀ s ∈ b, s.isElif = false := by
  cases h with
  | inline _ simple => exact simple.no_elif
  | indented _ _ _ lines _ => exact no_elif_flatten lines fun _ _ => Line.no_elif

theorem Branch.no_elif {keyword : Bytes} {b : Block} {ps : List Piece} (h : Branch keyword b ps) :
    ∀ s ∈ b, s.isElif = false := by
  cases h with
  | absent => exact nofun
  | present _ layer => exact layer.no_elif

theorem OrElse.alone {b : Block} {ps : List Piece} (h : OrElse b ps)
    (some : ∃ s ∈ b, s.isElif = true) : b.length = 1 := by
  cases h with
  | branch branch =>
    obtain ⟨s, mem, isElif⟩ := some
    rw [branch.no_elif s mem] at isElif
    cases isElif
  | elif => rfl

theorem Handler.Layer.no_elif {h : Handler Stmt} {isStar : Bool} {ps : List Piece}
    (layer : h.Layer isStar ps) : ∀ s ∈ h.body, s.isElif = false := by
  cases layer with
  | intro _ _ _ _ _ body => exact body.no_elif

theorem StmtForm.Layer.elifsAlone {form : StmtForm Stmt} {lead main : List Piece}
    (h : form.Layer lead main) : form.ElifsAlone := by
  cases h with
  | cond _ body orelse => exact ⟨body.no_elif, orelse.alone⟩
  | forEach _ _ _ _ body orelse | whileLoop _ body orelse =>
    simpa [ElifsAlone, blocks, body?] using ⟨body.no_elif, orelse.no_elif⟩
  | tryExcept _ body handlers orelse final _ =>
    refine List.forall_mem_append.2 ⟨List.forall_mem_cons.2 ⟨body.no_elif, ?_⟩, List.forall_mem_nil _⟩
    refine List.forall_mem_append.2 ⟨List.forall_mem_map.2 ?_, ?_⟩
    · refine List.forall_mem_map.2 fun h mem => ?_
      obtain ⟨qs, layer, -⟩ := handlers.mem mem
      exact layer.no_elif
    · exact List.forall_mem_cons.2 ⟨orelse.no_elif, List.forall_mem_singleton.2 final.no_elif⟩
  | withItems _ _ _ body => simpa [ElifsAlone, blocks, body?] using body.no_elif
  | matchOn _ _ _ _ _ _ cases =>
    refine List.forall_mem_append.2 ⟨List.forall_mem_map.2 fun c mem => ?_, List.forall_mem_nil _⟩
    obtain ⟨qs, ⟨-, -, -, layer⟩, -⟩ := cases.mem mem
    exact layer.no_elif
  | function _ _ _ _ _ _ _ _ body => simpa [ElifsAlone, blocks, body?] using body.no_elif
  | classDef _ _ _ _ body => simpa [ElifsAlone, blocks, body?] using body.no_elif
  | _ => exact List.forall_mem_nil _

theorem ImportedNames.some {names : List Alias} {ps : List Piece} (h : ImportedNames names ps) :
    names ≠ [] := by
  cases h with
  | star => exact List.cons_ne_nil _ _
  | plain some _ | grouped some _ _ _ => exact some

theorem WithItems.some {items : List WithItem} {ps : List Piece} (h : WithItems items ps) :
    items ≠ [] ∧ ∀ i ∈ items, ∀ t ∈ i.target, t.IsTarget := by
  have targets {qs : List Piece} (list : Separated WithItem.Layer "," items qs) :
      ∀ i ∈ items, ∀ t ∈ i.target, t.IsTarget := by
    intro i mem t target
    obtain ⟨qs, ⟨-, good⟩, -⟩ := list.mem mem
    exact Expr.isTarget_of_badTarget? (good t target)
  cases h with
  | plain some list | grouped some _ list _ => exact ⟨some, targets list⟩

theorem StmtForm.Layer.wellFormed {form : StmtForm Stmt} {lead main : List Piece}
    (h : form.Layer lead main) : form.WellFormed := by
  cases h with
  | assign some targets =>
    refine ⟨some, fun t mem => ?_⟩
    obtain ⟨qs, ⟨good, -⟩, -⟩ := targets.mem mem
    exact Expr.isTarget_of_badTarget? good
  | delete _ some targets =>
    refine ⟨some, fun t mem => ?_⟩
    obtain ⟨qs, ⟨good⟩, -⟩ := targets.mem mem
    exact Expr.isTarget_of_badTarget? good
  | augAssign plain | annAssign plain => exact Expr.isReference_of_isPlainTarget plain
  | forEach _ _ good => exact Expr.isTarget_of_badTarget? good
  | withItems _ _ items => exact items.some
  | @tryExcept _ orelse _ handlers _ _ _ _ _ _ _ _ _ _ without =>
    cases handlers with
    | nil => exact ⟨.inr (without rfl).2, fun some => absurd (without rfl).1 some⟩
    | cons => exact ⟨.inl (List.cons_ne_nil _ _), fun _ => List.cons_ne_nil _ _⟩
  | matchOn _ _ _ _ _ some _ => exact some
  | importNames _ some _ => exact some
  | importFrom _ _ _ names => exact names.some
  | scope _ some _ => exact some
  | function => exact numbered_parametersOf _
  | _ => trivial

/-- All expressions and statements of a block have the shapes of their kinds, those in the bodies of
definitions included. -/
structure Block.WellFormed (b : Block) : Prop where
  expressions : ∀ e ∈ b.nodes, e.form.WellFormed
  statements : ∀ s ∈ b.deep, s.form.WellFormed
  elifs : ∀ s ∈ b.deep, s.form.ElifsAlone
  no_elif : ∀ s ∈ b, s.isElif = false

theorem Stmt.Reading.layered {s : Stmt} {ts : List Token} (h : s.Reading ts) :
    ∃ lead main, s.form.Layer lead main := by
  cases h with
  | intro layer _ _ => exact ⟨_, _, layer⟩

theorem ModuleReading.wellFormed {b : Block} {ts : List Token} (h : ModuleReading b ts) :
    b.WellFormed where
  expressions e mem := by
    obtain ⟨us, reading, -⟩ := h.node mem
    obtain ⟨ps, layer, -⟩ := reading.layered
    exact layer.wellFormed
  statements s mem := by
    obtain ⟨us, reading, -⟩ := h.deep mem
    obtain ⟨lead, main, layer⟩ := reading.layered
    exact layer.wellFormed
  elifs s mem := by
    obtain ⟨us, reading, -⟩ := h.deep mem
    obtain ⟨lead, main, layer⟩ := reading.layered
    exact layer.elifsAlone
  no_elif := by
    cases h with
    | intro lines _ =>
      refine no_elif_flatten lines fun b ps line => ?_
      cases line with
      | line line => exact line.no_elif
      | filler => exact nofun

end CodeSmell
