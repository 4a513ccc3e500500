import CodeSmell.Complexity
import CodeSmell.Proofs.Model.Scope

/-!
The complexity of functions and the keywords of their bodies. A tree makes the decisions that its
tokens say, but that each case of a match counts, and not its guard. `Block.placed_sum` splits the
statements of a body among the functions in it, so that `ModuleModel.complexity_agrees` counts each
decision in one function.
-/

namespace CodeSmell

theorem sumOf_eq {α : Type} (f : α → Nat) (xs : List α) : sumOf f xs = (xs.map f).sum := by
  induction xs with
  | nil => rfl
  | cons x rest ih => rw [sumOf, ih, List.map_cons, List.sum_cons]

def Token.isDecision (t : Token) : Bool := t.kind == .keyword && decide (t.text ∈ decisionWords)

def keywordCount : Weight ℕ where
  number _ := 0
  keyword word := if word ∈ decisionWords then 1 else 0
  silent _ other := if_neg other

theorem keywordCount_token (t : Token) :
    keywordCount.token t = if t.isDecision then 1 else 0 := by
  unfold Weight.token Token.isDecision
  cases kind : t.kind <;> simp [keywordCount]

theorem keywordCount_tokens (ts : List Token) :
    (ts.map keywordCount.token).sum = ts.countP Token.isDecision := by
  induction ts with
  | nil => rfl
  | cons t ts ih =>
    rw [List.map_cons, List.sum_cons, ih, keywordCount_token, List.countP_cons, add_comm]

theorem keywordCount_clause (c : Clause Expr) :
    keywordCount.clause c = 1 + c.conditions.length := by
  have loop : keywordCount.keyword "for" = 1 := by decide
  have condition : keywordCount.keyword "if" = 1 := by decide
  simp [Weight.clause, loop, condition]

theorem keywordCount_expr (e : Expr) : keywordCount.expr e = e.ownDecisions := by
  obtain ⟨p, f⟩ := e
  cases f with
  | boolean op values =>
    have symbol : keywordCount.keyword op.symbol = 1 := by cases op <;> decide
    simp [Weight.expr, Expr.ownDecisions, Expr.form, symbol]
  | conditional test body orelse => exact (by decide : keywordCount.keyword "if" = 1)
  | comprehension kind element clauses | dictComprehension key value clauses =>
    simp only [Weight.expr, Expr.ownDecisions, Expr.form, sumOf_eq, funext keywordCount_clause]
  | _ => rfl

theorem keywordCount_tree (e : Expr) : keywordCount.tree e = e.decisions := by
  rw [keywordCount.tree_of_unnamed fun _ => rfl, Expr.decisions, sumOf_eq, funext keywordCount_expr]

namespace Stmt

def caseCount (s : Stmt) : Nat :=
  match s.form with
  | .matchOn _ cases => cases.length
  | _ => 0

def guardCount (s : Stmt) : Nat :=
  match s.form with
  | .matchOn _ cases => cases.countP (·.guard.isSome)
  | _ => 0

end Stmt

theorem keywordCount_guards (cases : List (MatchCase Stmt)) :
    (cases.map keywordCount.guard).sum = cases.countP (·.guard.isSome) := by
  have condition : keywordCount.keyword "if" = 1 := by decide
  induction cases with
  | nil => rfl
  | cons c rest ih =>
    rw [List.map_cons, List.sum_cons, ih, List.countP_cons, add_comm]
    congr 1
    cases guard : c.guard <;> simp [Weight.guard, guard, condition]

theorem keywordCount_form (s : Stmt) :
    keywordCount.form s.form + s.caseCount = s.branches + s.guardCount := by
  obtain ⟨lines, f⟩ := s
  cases f with
  | cond test body orelse isElif =>
    have test : keywordCount.keyword (if isElif then "elif" else "if") = 1 := by
      cases isElif <;> decide
    exact congrArg (· + 0) test
  | forEach target iterable body orelse isAsync =>
    exact (by decide : keywordCount.keyword "for" + 0 = 1 + 0)
  | whileLoop test body orelse => exact (by decide : keywordCount.keyword "while" + 0 = 1 + 0)
  | tryExcept body handlers orelse finalBody isStar =>
    have handler : keywordCount.keyword "except" = 1 := by decide
    simp [Weight.form, Stmt.form, Stmt.caseCount, Stmt.branches, Stmt.guardCount, handler]
  | matchOn subject cases =>
    simp only [Weight.form, Stmt.form, Stmt.caseCount, Stmt.branches, Stmt.guardCount,
      keywordCount_guards, add_comm]
  | _ => rfl

theorem keywordCount_stmt (s : Stmt) :
    keywordCount.stmt s + s.caseCount = s.decisions + s.guardCount := by
  have own := keywordCount_form s
  rw [keywordCount.stmt_of_unnamed fun _ => rfl, Stmt.decisions, sumOf_eq, funext keywordCount_tree]
  omega

namespace FunctionModel

/-- The statements of the function itself, not those of definitions in it. -/
def statements (f : FunctionModel) : List Stmt := Block.walk f.definition.body

end FunctionModel

namespace Block

theorem placed_sum {M : Type} [AddCommMonoid M] (φ : Stmt → M) {place : Place} {n : Nat} {b : Block}
    (noClass : ∀ s ∈ b.deep, ∀ c, s.form ≠ .classDef c) : (b.deep.map φ).sum =
      (b.walk.map φ).sum + (((Block.placed place n b).filterMap Placed.function?).map fun g =>
        (g.statements.map φ).sum).sum := by
  fun_induction Block.placed place n b with
  | case1 place n => simp [walk_nil]
  | case2 place n s rest below ih₁ ih₂ =>
    rw [deep_cons, List.forall_mem_cons] at noClass
    obtain ⟨notClass, noClass⟩ := noClass
    have inner := ih₁ fun d mem => noClass d (List.mem_append_left _ mem)
    have later := ih₂ fun d mem => noClass d (List.mem_append_right _ mem)
    rw [deep_cons, walk_cons, List.map_cons, List.sum_cons, List.map_append, List.sum_append, inner,
      later, List.map_cons, List.sum_cons, List.map_append, List.sum_append, List.filterMap_cons,
      List.filterMap_append]
    cases isFunction : s.form with
    | function definition =>
      have body : s.nested.flatten = definition.body := by
        simp [Stmt.nested, Stmt.blocks, Stmt.body?, isFunction, StmtForm.blocks, StmtForm.body?]
      have none : s.blocks.flatten = [] := by
        simp [Stmt.blocks, isFunction, StmtForm.blocks]
      simp only [Placed.function?, isFunction, none, body, List.map_cons, List.sum_cons,
        List.map_append, List.sum_append, List.map_nil, List.sum_nil, walk_nil,
        FunctionModel.statements, FunctionModel.definition, below]
      abel
    | classDef definition => exact absurd isFunction (notClass definition)
    | _ =>
      have blocks : s.nested.flatten = s.blocks.flatten := by
        simp [Stmt.nested, Stmt.body?, isFunction, StmtForm.body?]
      simp only [Placed.function?, isFunction, blocks, List.map_append, List.sum_append, below]
      abel

end Block

theorem Block.Reading.deep {b : Block} {d : Stmt} {ts : List Token} (h : b.Reading ts)
    (mem : d ∈ b.deep) : ∃ us, d.Reading us ∧ us <:+: ts := by
  cases h with
  | @intro ps layer spelled =>
    rw [Block.deep_eq_flatMap] at mem
    obtain ⟨s, nested, mem⟩ := List.mem_flatMap.1 mem
    obtain ⟨us, piece⟩ := mem_of_total_stmts (layer.weighs _ _ _) nested
    have reading : s.Reading us := spelled _ piece
    obtain ⟨vs, reading, within⟩ := reading.deep mem
    exact ⟨vs, reading, within.trans (tokens_within piece)⟩

theorem Stmt.Reading.classKeyword {s : Stmt} {definition : ClassDef Stmt} {ts : List Token}
    (h : s.Reading ts) (isClass : s.form = .classDef definition) :
    ∃ t ∈ ts, t.isKeyword "class" = true := by
  obtain ⟨lines, form⟩ := s
  obtain rfl : form = .classDef definition := isClass
  cases h with
  | @intro form lead main layer exprs stmts =>
    cases layer with
    | @classDef _ _ _ _ t _ _ _ _ _ _ isKey _ _ _ same =>
      exact ⟨t, by simp [same, Piece.tokens], isKey⟩

theorem Block.Reading.noClass {b : Block} {ts : List Token} (h : b.Reading ts)
    (silent : ∀ t ∈ (ts.filter (!·.isLayout)).drop 1, t.isKeyword "class" = false) :
    ∀ s ∈ b.deep, ∀ c, s.form ≠ .classDef c := by
  intro s mem c isClass
  obtain ⟨us, reading, within⟩ := h.deep mem
  obtain ⟨t, mem, isKey⟩ := reading.classKeyword isClass
  obtain ⟨colon, rest, isColon, rfl⟩ := h.colon
  have text : t ∈ ((colon :: rest).filter (!·.isLayout)) := by
    refine List.mem_filter.2 ⟨within.subset mem, ?_⟩
    rw [t.not_isLayout_of_isKeyword isKey]
    rfl
  rw [List.filter_cons_of_pos (by rw [colon.not_isLayout_of_isOperator isColon]; rfl)] at text silent
  rcases List.mem_cons.1 text with rfl | body
  · cases (Token.isOperator_iff.1 isColon).1.symm.trans (Token.isKeyword_iff.1 isKey).1
  · rw [silent t body] at isKey
    cases isKey

namespace ModuleModel

theorem complexity_sum (fs : List FunctionModel) :
    (fs.map fun g => (Block.complexity g.definition.body : ℤ) - 1).sum =
      (((fs.flatMap FunctionModel.statements).map Stmt.decisions).sum : ℕ) := by
  induction fs with
  | nil => rfl
  | cons f rest ih =>
    rw [List.map_cons, List.sum_cons, ih, List.flatMap_cons, List.map_append, List.sum_append,
      Block.complexity, sumOf_eq, FunctionModel.statements]
    push_cast
    ring

def nestedIn (m : ModuleModel) (f : FunctionModel) : List FunctionModel :=
  m.functions.filter fun g => g.outer.has f.frame.number

theorem nestedIn_eq {path : Bytes} {lineCount : Nat} {b : Block} {f : FunctionModel}
    (hf : f ∈ (ofBlock path lineCount b).functions) : ∃ place number,
      (ofBlock path lineCount b).nestedIn f =
        (Block.placed place number f.definition.body).filterMap Placed.function? := by
  obtain ⟨place, number, within⟩ := placed_of_function hf
  refine ⟨place, number, ?_⟩
  rw [nestedIn, ← within]
  have functions : (ofBlock path lineCount b).functions =
      (Block.placed {} 0 b).filterMap Placed.function? := rfl
  rw [functions, List.filter_filterMap, List.filterMap_filter]
  refine List.filterMap_congr fun q _ => ?_
  cases found : q.function? with
  | none => simp
  | some g =>
    have ⟨_, _, _, outer⟩ := Placed.function?_eq_some.1 found
    simp [Option.filter, outer]

/-- The decisions of a function and of those nested in it are the keywords of its body that decide
something, with the cases of a match in place of their guards. -/
theorem complexity_agrees {path source : Bytes} {m : ModuleModel} {f : FunctionModel}
    (h : ofSource path source = .ok m) (hf : f ∈ m.functions)
    (noClass : ∀ t ∈ f.definition.bodyTokens, t.isKeyword "class" = false) :
    ((f :: m.nestedIn f).map fun g => (Block.complexity g.definition.body : ℤ) - 1).sum =
      f.definition.bodyTokens.countP Token.isDecision +
        ((((f :: m.nestedIn f).flatMap FunctionModel.statements).map Stmt.caseCount).sum : ℕ) -
        ((((f :: m.nestedIn f).flatMap FunctionModel.statements).map Stmt.guardCount).sum : ℕ) := by
  obtain ⟨b, inside, marker, rfl, -, -, reading⟩ := ofSource_reading h
  obtain ⟨us, body, tokens, -⟩ := function_reading reading hf
  obtain ⟨place, number, nested⟩ := nestedIn_eq hf
  rw [tokens] at noClass
  have own (φ : Stmt → ℕ) : ((Block.deep f.definition.body).map φ).sum =
      (((f :: (ofBlock path source.lineCount b).nestedIn f).flatMap
        FunctionModel.statements).map φ).sum := by
    rw [Block.placed_sum φ (body.noClass noClass), sum_map_flatMap, List.map_cons, List.sum_cons,
      nested]
    rfl
  have keywords : f.definition.bodyTokens.countP Token.isDecision =
      keywordCount.block f.definition.body := by
    rw [← keywordCount_tokens, tokens, body.weight_bodyTokens]
  have each : ((Block.deep f.definition.body).map fun s => keywordCount.stmt s + s.caseCount).sum =
      ((Block.deep f.definition.body).map fun s => s.decisions + s.guardCount).sum :=
    congrArg List.sum (List.map_congr_left fun s _ => keywordCount_stmt s)
  rw [List.sum_map_add, List.sum_map_add, own Stmt.caseCount, own Stmt.decisions,
    own Stmt.guardCount] at each
  rw [complexity_sum, keywords, Weight.block]
  omega

def nestedSource : Bytes :=
  "def f(x):\n  def g():\n    return 1 if x else 2\n  match x:\n    case 1 if g: pass\n"

theorem complexity_agrees_nested : ∃ m, ∃ f ∈ m.functions,
    ofSource "a.py" nestedSource = .ok m ∧
    (∀ t ∈ f.definition.bodyTokens, t.isKeyword "class" = false) ∧
      ((f :: m.nestedIn f).map fun g => (Block.complexity g.definition.body : ℤ) - 1).sum =
        f.definition.bodyTokens.countP Token.isDecision +
          ((((f :: m.nestedIn f).flatMap FunctionModel.statements).map Stmt.caseCount).sum : ℕ) -
          ((((f :: m.nestedIn f).flatMap FunctionModel.statements).map Stmt.guardCount).sum : ℕ) := by
  obtain ⟨m, built, f, isFunction, noClass⟩ : ∃ m, ofSource "a.py" nestedSource = .ok m ∧
      ∃ f ∈ m.functions, ∀ t ∈ f.definition.bodyTokens, t.isKeyword "class" = false := by
    decide +kernel
  exact ⟨m, f, isFunction, built, noClass, complexity_agrees built isFunction noClass⟩

end ModuleModel

end CodeSmell
