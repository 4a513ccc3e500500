import CodeSmell.Proofs.Lexer.Order
import CodeSmell.Proofs.Lists
import CodeSmell.Proofs.Model.Scope
import CodeSmell.Proofs.Parser.Module

/-!
The literals of a module are the numbers of its source text. `Expr.numerals_reals` says that the
expressions that are looked at have every number of the tree once, signed or not;
`ModuleModel.literals_conserved` relates the literals to the tokens, one to one, with the function
that each of them belongs to.
-/

namespace CodeSmell

/-! ## Numbers of expressions -/

def Expr.numeral (e : Expr) : Expr :=
  match e.form with
  | .unary _ operand => operand
  | _ => e

def Expr.numerals (e : Expr) : List Expr :=
  e.visited.filterMap fun v => v.literal?.map fun _ => v.numeral

def realNumbers : Weight (Multiset Expr) where
  number e := match e.form with
    | .number _ _ false => {e}
    | _ => 0
  keyword _ := 0
  silent _ _ := rfl

@[simp] theorem realNumbers_keyword (word : Bytes) : realNumbers.keyword word = 0 := rfl

@[simp] theorem realNumbers_named (names : List Bytes) : realNumbers.named names = 0 :=
  realNumbers.named_of_unnamed (fun _ => rfl) names

theorem realNumbers_guard (c : MatchCase Stmt) : realNumbers.guard c = 0 := by simp [Weight.guard]

theorem realNumbers_clause (c : Clause Expr) : realNumbers.clause c = 0 := by simp [Weight.clause]

namespace Expr

theorem numerals_eq (e : Expr) : e.numerals =
    (e.literal?.map fun _ => e.numeral).toList ++ e.usageParts.flatMap numerals := by
  rw [numerals, visited_eq, List.filterMap_cons, List.filterMap_flatMap]
  cases e.literal? <;> rfl

def isReal (e : Expr) : Bool :=
  match e.form with
  | .number _ _ false => true
  | _ => false

def reals (e : Expr) : List Expr := e.preorder.filter isReal

theorem reals_eq (e : Expr) :
    e.reals = (if e.isReal then [e] else []) ++ e.children.flatMap reals := by
  rw [reals, preorder_eq, List.filter_cons, List.filter_flatMap]
  split_ifs <;> rfl

theorem reals_chainParts (e : Expr) : e.chainParts.flatMap reals = e.reals := by
  fun_induction chainParts e with
  | case1 p value name ih =>
    rw [ih, reals_eq ⟨p, .attr value name⟩]
    simp [isReal, form, children, Form.children]
  | case2 p value index ih =>
    rw [List.flatMap_append, ih, reals_eq ⟨p, .subscript value index⟩]
    simp [isReal, form, children, Form.children]
  | case3 e => simp

theorem literal?_cases {e : Expr} {value : Float} {text : Bytes} (h : e.literal? = some (value, text)) :
    e.form = .number value text false ∨
      ∃ op p v digits, (op = .minus ∨ op = .plus) ∧ e.form = .unary op ⟨p, .number v digits false⟩ ∧
        value = (if op = .minus then -v else v) ∧ text = op.symbol ++ digits := by
  unfold literal? at h
  split at h
  · next isNumber =>
    obtain ⟨rfl, rfl⟩ := Prod.mk.inj (Option.some.inj h)
    exact .inl isNumber
  · next isMinus =>
    obtain ⟨rfl, rfl⟩ := Prod.mk.inj (Option.some.inj h)
    exact .inr ⟨.minus, _, _, _, .inl rfl, isMinus, rfl, rfl⟩
  · next isPlus =>
    obtain ⟨rfl, rfl⟩ := Prod.mk.inj (Option.some.inj h)
    exact .inr ⟨.plus, _, _, _, .inr rfl, isPlus, rfl, rfl⟩
  · cases h

theorem usageParts_of_plain {e : Expr} (plain : e.literal? = none)
    (noAttr : ∀ value name, e.form ≠ .attr value name) : e.usageParts = e.children := by
  unfold usageParts
  split
  · next value name isAttr => exact absurd isAttr (noAttr value name)
  · simp [plain]

theorem literal_reals (e : Expr) :
    (e.literal?.map fun _ => e.numeral).toList ++ e.usageParts.flatMap reals = e.reals := by
  obtain ⟨p, f⟩ := e
  rw [reals_eq]
  cases f with
  | attr value name =>
    have parts : usageParts ⟨p, .attr value name⟩ = value.chainParts := rfl
    rw [parts, reals_chainParts]
    simp [literal?, isReal, form, children, Form.children]
  | number value text imaginary =>
    cases imaginary <;>
      simp [literal?, usageParts, numeral, isReal, form, children, Form.children]
  | unary op operand =>
    cases found : literal? ⟨p, .unary op operand⟩ with
    | none =>
      rw [usageParts_of_plain found fun _ _ same => by cases same]
      rfl
    | some recorded =>
      have parts : usageParts ⟨p, .unary op operand⟩ = [] := by
        unfold usageParts
        split
        · next isAttr => cases isAttr
        · simp [found]
      have number : operand.reals = [operand] := by
        rcases literal?_cases found with isNumber | ⟨_, _, _, _, -, isUnary, -⟩
        · cases isNumber
        · cases isUnary
          rw [reals_eq]
          rfl
      rw [parts]
      simp [number, numeral, isReal, form, children, Form.children]
  | _ =>
    rw [usageParts_of_plain rfl fun _ _ same => by cases same]
    rfl

theorem numerals_reals (e : Expr) : e.numerals = e.reals := by
  induction e using visited.induct with
  | case1 e ih => rw [numerals_eq, List.flatMap_congr ih, literal_reals]

theorem tree_reals (e : Expr) : realNumbers.tree e = ↑e.reals := by
  induction e using preorder.induct with
  | case1 e ih =>
    have own : realNumbers.expr e = ↑(if e.isReal then [e] else []) := by
      obtain ⟨p, f⟩ := e
      cases f with
      | number value text imaginary => cases imaginary <;> rfl
      | _ => simp [isReal, form, Weight.expr, funext realNumbers_clause]
    rw [realNumbers.tree_eq, realNumbers_named, add_zero, reals_eq, ← Multiset.coe_add, coe_flatMap,
      own, List.map_congr_left ih]

/-! ## What is looked at -/

theorem mem_preorder_self (e : Expr) : e ∈ e.preorder := by
  rw [preorder_eq]
  exact .head _

theorem mem_preorder_of_child {e c d : Expr} (child : c ∈ e.children) (mem : d ∈ c.preorder) :
    d ∈ e.preorder := by
  rw [preorder_eq]
  exact List.mem_cons_of_mem _ (List.mem_flatMap.2 ⟨c, child, mem⟩)

theorem mem_preorder_trans {e c d : Expr} (inner : d ∈ c.preorder) (outer : c ∈ e.preorder) :
    d ∈ e.preorder := by
  induction e using preorder.induct with
  | case1 e ih =>
    rw [preorder_eq, List.mem_cons] at outer
    rcases outer with rfl | below
    · exact inner
    · obtain ⟨b, child, mem⟩ := List.mem_flatMap.1 below
      exact mem_preorder_of_child child (ih b child mem)

theorem mem_preorder_of_chainParts {e c : Expr} (mem : c ∈ e.chainParts) : c ∈ e.preorder := by
  fun_induction chainParts e with
  | case1 p value name ih =>
    exact mem_preorder_of_child (by simp [children, form, Form.children]) (ih mem)
  | case2 p value index ih =>
    rcases List.mem_append.1 mem with mem | mem
    · exact mem_preorder_of_child (by simp [children, form, Form.children]) (ih mem)
    · rw [List.mem_singleton.1 mem]
      exact mem_preorder_of_child (c := index) (by simp [children, form, Form.children])
        (mem_preorder_self index)
  | case3 e =>
    rw [List.mem_singleton.1 mem]
    exact mem_preorder_self e

theorem mem_preorder_of_usageParts {e c : Expr} (mem : c ∈ e.usageParts) : c ∈ e.preorder := by
  unfold usageParts at mem
  split at mem
  · next value name isAttr =>
    refine mem_preorder_of_child ?_ (mem_preorder_of_chainParts mem)
    rw [children, isAttr]
    exact .head _
  · split_ifs at mem
    · cases mem
    · exact mem_preorder_of_child mem (mem_preorder_self c)

theorem mem_preorder_of_visited {e v : Expr} (mem : v ∈ e.visited) : v ∈ e.preorder := by
  induction e using visited.induct with
  | case1 e ih =>
    rw [visited_eq, List.mem_cons] at mem
    rcases mem with rfl | mem
    · exact mem_preorder_self v
    · obtain ⟨c, part, mem⟩ := List.mem_flatMap.1 mem
      exact mem_preorder_trans (ih c part mem) (mem_preorder_of_usageParts part)

theorem unary_of_chain {e u : Expr} {op : UnaryOp} {operand : Expr}
    (isUnary : u.form = .unary op operand) (mem : u ∈ e.preorder) :
    ∃ c ∈ e.chainParts, u ∈ c.preorder := by
  fun_induction chainParts e with
  | case1 p value name ih =>
    rw [preorder_eq, List.mem_cons] at mem
    rcases mem with rfl | mem
    · cases isUnary
    · exact ih (by simpa [children, form, Form.children] using mem)
  | case2 p value index ih =>
    rw [preorder_eq, List.mem_cons] at mem
    rcases mem with rfl | mem
    · cases isUnary
    have mem : u ∈ value.preorder ∨ u ∈ index.preorder := by
      simpa [children, form, Form.children] using mem
    rcases mem with mem | mem
    · obtain ⟨c, part, mem⟩ := ih mem
      exact ⟨c, List.mem_append_left _ part, mem⟩
    · exact ⟨index, by simp, mem⟩
  | case3 e => exact ⟨e, .head _, mem⟩

theorem number_of_literal {e c : Expr} (found : e.literal?.isSome) (child : c ∈ e.children) :
    ∃ p value text, c = ⟨p, .number value text false⟩ := by
  obtain ⟨_, found⟩ := Option.isSome_iff_exists.1 found
  unfold children at child
  rcases literal?_cases found with isNumber | ⟨_, _, _, _, -, isUnary, -⟩
  · rw [isNumber] at child
    cases child
  · rw [isUnary] at child
    exact ⟨_, _, _, List.mem_singleton.1 child⟩

theorem mem_visited_of_unary {e u : Expr} {op : UnaryOp} {operand : Expr}
    (isUnary : u.form = .unary op operand) (mem : u ∈ e.preorder) : u ∈ e.visited := by
  induction e using visited.induct with
  | case1 e ih =>
    rw [visited_eq, List.mem_cons]
    rw [preorder_eq, List.mem_cons] at mem
    rcases mem with rfl | below
    · exact .inl rfl
    refine .inr (List.mem_flatMap.2 ?_)
    obtain ⟨c, child, mem⟩ := List.mem_flatMap.1 below
    have part : ∃ c ∈ e.usageParts, u ∈ c.preorder := by
      by_cases link : ∃ value name, e.form = .attr value name
      · obtain ⟨value, name, isAttr⟩ := link
        obtain ⟨p, f⟩ := e
        obtain rfl : f = .attr value name := isAttr
        obtain rfl := List.mem_singleton.1 child
        exact unary_of_chain isUnary mem
      cases found : e.literal? with
      | none =>
        rw [usageParts_of_plain found fun value name isAttr => link ⟨value, name, isAttr⟩]
        exact ⟨c, child, mem⟩
      | some recorded =>
        obtain ⟨p, value, text, rfl⟩ := number_of_literal (by rw [found]; rfl) child
        have only : u = ⟨p, .number value text false⟩ := by
          simpa [preorder_eq, children, form, Form.children] using mem
        rw [only] at isUnary
        cases isUnary
    obtain ⟨c, part, mem⟩ := part
    exact ⟨c, part, ih c part mem⟩

end Expr

/-! ## Literals of placed statements -/

namespace Placed

/-- The literals with the expressions that they are read from. -/
def recorded (p : Placed) : List (Literal × Expr) :=
  p.visited.filterMap fun e => e.literal?.map fun (value, text) =>
    ({ value, text, position := e.position, scope := p.place.scope,
       inConstant := p.statement.definesConstant }, e)

theorem recorded_literals (p : Placed) : p.recorded.map Prod.fst = p.literals := by
  rw [recorded, literals, List.map_filterMap]
  congr 1
  funext e
  cases e.literal? <;> rfl

theorem mem_recorded {p : Placed} {l : Literal} {v : Expr} (mem : (l, v) ∈ p.recorded) :
    v ∈ p.visited ∧ v.literal? = some (l.value, l.text) ∧ l.position = v.position ∧
      l.scope = p.place.scope := by
  obtain ⟨e, visited, eq⟩ := List.mem_filterMap.1 mem
  obtain ⟨⟨value, text⟩, found, same⟩ := Option.map_eq_some_iff.1 eq
  obtain ⟨rfl, rfl⟩ := Prod.mk.inj same
  exact ⟨visited, found, rfl, rfl⟩

theorem recorded_of_visited {p : Placed} {v : Expr} {value : Float} {text : Bytes}
    (visited : v ∈ p.visited) (literal : v.literal? = some (value, text)) :
    ∃ l, (l, v) ∈ p.recorded :=
  ⟨_, List.mem_filterMap.2 ⟨v, visited, by rw [literal]; rfl⟩⟩

theorem inConstant_of_recorded {p : Placed} {l : Literal} {v : Expr} (mem : (l, v) ∈ p.recorded) :
    l.inConstant = p.statement.definesConstant := by
  obtain ⟨e, -, eq⟩ := List.mem_filterMap.1 mem
  obtain ⟨_, -, same⟩ := Option.map_eq_some_iff.1 eq
  exact (Prod.mk.inj same).1 ▸ rfl

theorem recorded_reals (p : Placed) :
    p.recorded.map (·.2.numeral) = p.statement.expressions.flatMap Expr.reals := by
  rw [recorded, visited, List.map_filterMap, List.filterMap_flatMap]
  refine List.flatMap_congr fun e _ => ?_
  rw [← Expr.numerals_reals, Expr.numerals]
  congr 1
  funext v
  cases v.literal? <;> rfl

theorem recorded_weight (ps : List Placed) :
    (↑((ps.flatMap recorded).map (·.2.numeral)) : Multiset Expr) =
      ((ps.map (·.statement)).map realNumbers.stmt).sum := by
  rw [List.map_flatMap, coe_flatMap, List.map_map]
  refine congrArg List.sum (List.map_congr_left fun p _ => ?_)
  have silent : realNumbers.form p.statement.form = 0 := by
    cases p.statement.form <;> simp [Weight.form, funext realNumbers_guard]
  rw [recorded_reals, coe_flatMap, Function.comp_apply, realNumbers.stmt_of_unnamed fun _ => rfl, silent,
    zero_add]
  exact congrArg List.sum (List.map_congr_left fun e _ => e.tree_reals.symm)

end Placed

/-! ## Numbers of tokens -/

def Token.isReal (t : Token) : Bool := t.kind == .number && !t.imaginary

theorem realNumbers_token (t : Token) :
    realNumbers.token t = if t.isReal then {t.number} else 0 := by
  unfold Weight.token Token.isReal
  cases kind : t.kind <;> cases imaginary : t.imaginary <;>
    simp [Token.number, realNumbers, Expr.form, imaginary]

theorem realNumbers_tokens (ts : List Token) : (ts.map realNumbers.token).sum =
    (↑((ts.filter Token.isReal).map Token.number) : Multiset Expr) := by
  induction ts with
  | nil => rfl
  | cons t ts ih =>
    rw [List.map_cons, List.sum_cons, ih, realNumbers_token]
    cases real : t.isReal with
    | false => simp [real]
    | true => simp [real]

theorem Expr.Reading.sign {e operand : Expr} {op : UnaryOp} {ts : List Token} (h : e.Reading ts)
    (isUnary : e.form = .unary op operand) (sign : op ≠ .not) :
    ∃ t ∈ ts, Parser.sign? t = some op ∧ t.position = e.position := by
  induction h with
  | layer layer _ _ =>
    cases layer with
    | unary isSign =>
      cases isUnary
      exact ⟨_, .head _, isSign, rfl⟩
    | not _ =>
      cases isUnary
      exact absurd rfl sign
    | _ => cases isUnary
  | grouped _ _ _ ih =>
    obtain ⟨t, mem, isSign, position⟩ := ih isUnary
    exact ⟨t, by simp [mem], isSign, position⟩

theorem text_of_sign? {t : Token} {op : UnaryOp} (h : Parser.sign? t = some op) :
    t.text = op.symbol := by
  unfold Parser.sign? at h
  split_ifs at h with minus plus invert
  · exact Option.some.inj h ▸ (Token.isOperator_iff.1 minus).2
  · exact Option.some.inj h ▸ (Token.isOperator_iff.1 plus).2
  · exact Option.some.inj h ▸ (Token.isOperator_iff.1 invert).2

namespace ModuleModel

def nodes (m : ModuleModel) : List Expr :=
  m.body.deep.flatMap fun s => s.expressions.flatMap Expr.preorder

end ModuleModel

/-- The literal is the number of a token, together with the sign that it is the operand of. -/
inductive Literal.Records (m : ModuleModel) (tokens : List Token) (l : Literal) (t : Token) :
    Prop where
  | alone : (∀ op p, op = .minus ∨ op = .plus → (⟨p, .unary op t.number⟩ : Expr) ∉ m.nodes) →
      l.text = t.text → l.position = t.position → l.value = t.value → Records m tokens l t
  | signed {op : UnaryOp} {sign : Token} : op = .minus ∨ op = .plus → sign ∈ tokens →
      Parser.sign? sign = some op → ⟨sign.position, .unary op t.number⟩ ∈ m.nodes →
      l.text = sign.text ++ t.text → l.position = sign.position →
      l.value = (if op = .minus then -t.value else t.value) → Records m tokens l t

/-- The literal belongs to the innermost function that has the token in its body, if there is one. -/
structure Literal.BelongsWith (m : ModuleModel) (l : Literal) (t : Token) : Prop where
  nowhere : l.scope = [] ↔ ∀ f ∈ m.functions, t ∉ f.definition.bodyTokens
  innermost : ∀ f ∈ m.functions, l.scope = f.scope ↔ t ∈ f.definition.bodyTokens ∧
    ∀ g ∈ m.functions, g.outer.has f.frame.number → t ∉ g.definition.bodyTokens

theorem numbers_nodup {source : Bytes} {inside : List Token} {marker : Token}
    (lexed : tokenize source = .ok (inside ++ [marker])) :
    ((inside.filter Token.isReal).map Token.number).Nodup := by
  have places := Lexer.tokenize_position_inj lexed
  have within : (inside.filter Token.isReal).Sublist
      ((inside ++ [marker]).filter (!·.isLayout)) := by
    have text : inside.filter Token.isReal = (inside.filter (!·.isLayout)).filter Token.isReal := by
      rw [List.filter_filter]
      refine List.filter_congr fun t _ => ?_
      unfold Token.isReal Token.isLayout
      cases t.kind <;> simp [TokenKind.isLayout]
    rw [text, List.filter_append]
    exact List.filter_sublist.trans (List.sublist_append_left _ _)
  refine List.Nodup.of_map Expr.position ?_
  rw [List.map_map]
  exact places.sublist (within.map Token.position)

namespace ModuleModel

section Recorded

variable {path : Bytes} {lineCount : Nat} {b : Block} {inside : List Token}

def recordedIn (b : Block) : List (Literal × Expr) :=
  (Block.placed {} 0 b).flatMap Placed.recorded

theorem recordedIn_literals :
    (recordedIn b).map Prod.fst = (ofBlock path lineCount b).literals := by
  rw [recordedIn, List.map_flatMap]
  exact List.flatMap_congr fun p _ => p.recorded_literals

theorem recordedIn_numbers (reading : ModuleReading b inside) :
    ((recordedIn b).map (·.2.numeral)).Perm ((inside.filter Token.isReal).map Token.number) := by
  rw [← Multiset.coe_eq_coe, ← realNumbers_tokens, reading.weight, recordedIn,
    Placed.recorded_weight, Block.placed_statements]
  rfl

theorem recordedIn_function {f : FunctionModel} (reading : ModuleReading b inside)
    (hf : f ∈ (ofBlock path lineCount b).functions) :
    (((recordedIn b).filter fun r => r.1.scope.has f.frame.number).map (·.2.numeral)).Perm
      ((f.definition.bodyTokens.filter Token.isReal).map Token.number) := by
  obtain ⟨us, body, tokens, -⟩ := function_reading reading hf
  obtain ⟨place, number, within⟩ := placed_of_function hf
  have recorded : (recordedIn b).filter (fun r => r.1.scope.has f.frame.number) =
      ((Block.placed {} 0 b).filter fun q => q.place.scope.has f.frame.number).flatMap
        Placed.recorded := by
    refine filter_flatMap_eq fun q _ r mem => ?_
    have ⟨_, _, _, scope⟩ := Placed.mem_recorded (l := r.1) (v := r.2) mem
    rw [scope]
  rw [← Multiset.coe_eq_coe, ← realNumbers_tokens, tokens, body.weight_bodyTokens, recorded, within,
    Placed.recorded_weight, Block.placed_statements]
  rfl

theorem mem_nodes {e c : Expr} {s : Stmt} (hs : s ∈ b.deep) (he : e ∈ s.expressions)
    (hc : c ∈ e.preorder) : c ∈ (ofBlock path lineCount b).nodes :=
  List.mem_flatMap.2 ⟨s, hs, List.mem_flatMap.2 ⟨e, he, hc⟩⟩

theorem mem_recordedIn {l : Literal} {v : Expr} (mem : (l, v) ∈ recordedIn b) :
    v ∈ (ofBlock path lineCount b).nodes ∧ v.literal? = some (l.value, l.text) ∧
      l.position = v.position := by
  obtain ⟨p, hp, mem⟩ := List.mem_flatMap.1 mem
  have ⟨visited, literal, position, _⟩ := Placed.mem_recorded mem
  obtain ⟨e, he, visited⟩ := List.mem_flatMap.1 visited
  have deep : p.statement ∈ b.deep := by
    rw [← Block.placed_statements {} 0 b]
    exact List.mem_map_of_mem hp
  exact ⟨mem_nodes deep he (Expr.mem_preorder_of_visited visited), literal, position⟩

theorem recorded_of_signed {u operand : Expr} {op : UnaryOp} {value : Float} {text : Bytes}
    (mem : u ∈ (ofBlock path lineCount b).nodes) (isUnary : u.form = .unary op operand)
    (literal : u.literal? = some (value, text)) : ∃ l, (l, u) ∈ recordedIn b := by
  obtain ⟨s, hs, below⟩ := List.mem_flatMap.1 mem
  obtain ⟨e, he, node⟩ := List.mem_flatMap.1 below
  have deep : s ∈ b.deep := hs
  rw [← Block.placed_statements {} 0 b] at deep
  obtain ⟨p, hp, rfl⟩ := List.mem_map.1 deep
  have visited : u ∈ p.visited :=
    List.mem_flatMap.2 ⟨e, he, Expr.mem_visited_of_unary isUnary node⟩
  obtain ⟨l, mem⟩ := Placed.recorded_of_visited visited literal
  exact ⟨l, List.mem_flatMap.2 ⟨p, hp, mem⟩⟩

theorem not_signed {l : Literal} {v : Expr} {t : Token}
    (nodup : ((recordedIn b).map (·.2.numeral)).Nodup) (mem : (l, v) ∈ recordedIn b)
    (alone : v.numeral = v) (number : v = t.number) (real : t.isReal = true) :
    ∀ op p, op = UnaryOp.minus ∨ op = .plus →
      (⟨p, .unary op t.number⟩ : Expr) ∉ (ofBlock path lineCount b).nodes := by
  intro op p sign node
  have real : t.imaginary = false := by
    simpa using (Bool.and_eq_true_iff.1 real).2
  obtain ⟨value, text, literal⟩ : ∃ value text,
      Expr.literal? ⟨p, .unary op t.number⟩ = some (value, text) := by
    rcases sign with rfl | rfl <;> exact ⟨_, _, by rw [Token.number, real]; rfl⟩
  obtain ⟨l', mem'⟩ := recorded_of_signed node rfl literal
  have same := List.inj_on_of_nodup_map nodup mem mem' (by rw [alone, number]; rfl)
  obtain ⟨-, rfl⟩ := Prod.mk.inj same
  cases number

theorem records_of_recordedIn {l : Literal} {v : Expr} {t marker : Token}
    (reading : ModuleReading b inside) (nodup : ((recordedIn b).map (·.2.numeral)).Nodup)
    (mem : (l, v) ∈ recordedIn b) (real : t.isReal = true) (number : v.numeral = t.number) :
    l.Records (ofBlock path lineCount b) (inside ++ [marker]) t := by
  have ⟨node, literal, position⟩ := @mem_recordedIn path lineCount b l v mem
  obtain ⟨us, read, within⟩ := reading.node node
  obtain ⟨p, f⟩ := v
  rcases Expr.literal?_cases literal with isNumber | ⟨op, q, v, digits, isSigned, isUnary, value, text⟩
  · obtain rfl : f = .number l.value l.text false := isNumber
    have plain : Expr.numeral ⟨p, .number l.value l.text false⟩ = _ := rfl
    rw [plain] at number
    have alone := @not_signed path lineCount b l _ t nodup mem plain number real
    obtain ⟨rfl, same⟩ := Expr.mk.inj number
    obtain ⟨value, text, -⟩ := Form.number.inj same
    exact .alone alone text position value
  · obtain rfl : f = _ := isUnary
    have notNot : op ≠ .not := by rcases isSigned with rfl | rfl <;> exact nofun
    obtain ⟨sign, isToken, isSign, place⟩ := read.sign rfl notNot
    have operand : (⟨q, .number v digits false⟩ : Expr) = t.number := number
    obtain ⟨-, same⟩ := Expr.mk.inj operand
    obtain ⟨rfl, rfl, -⟩ := Form.number.inj same
    rw [operand] at node
    refine .signed isSigned (List.mem_append_left _ (within.subset isToken)) isSign (place ▸ node) ?_
      (position.trans place.symm) value
    rw [text, text_of_sign? isSign]

theorem has_iff_mem_bodyTokens {l : Literal} {v : Expr} {t : Token} {f : FunctionModel}
    (reading : ModuleReading b inside) (nodup : ((recordedIn b).map (·.2.numeral)).Nodup)
    (tokens : ((inside.filter Token.isReal).map Token.number).Nodup) (mem : (l, v) ∈ recordedIn b)
    (text : t ∈ inside) (real : t.isReal = true) (number : v.numeral = t.number)
    (hf : f ∈ (ofBlock path lineCount b).functions) :
    l.scope.has f.frame.number = true ↔ t ∈ f.definition.bodyTokens := by
  have within := recordedIn_function reading hf
  obtain ⟨us, _, body, among⟩ := function_reading reading hf
  constructor
  · intro around
    have here : (l, v) ∈ (recordedIn b).filter fun r => r.1.scope.has f.frame.number :=
      List.mem_filter.2 ⟨mem, around⟩
    have numeral : t.number ∈ (f.definition.bodyTokens.filter Token.isReal).map Token.number :=
      within.mem_iff.1 (List.mem_map.2 ⟨_, here, number⟩)
    obtain ⟨u, mem', same⟩ := List.mem_map.1 numeral
    obtain ⟨mem', real'⟩ := List.mem_filter.1 mem'
    have text' : u ∈ inside := by
      rw [body] at mem'
      exact among.subset (List.mem_of_mem_filter (List.mem_of_mem_drop mem'))
    have same := List.inj_on_of_nodup_map tokens (List.mem_filter.2 ⟨text', real'⟩)
      (List.mem_filter.2 ⟨text, real⟩) same
    rwa [← same]
  · intro here
    have numeral : t.number ∈ (f.definition.bodyTokens.filter Token.isReal).map Token.number :=
      List.mem_map_of_mem (List.mem_filter.2 ⟨here, real⟩)
    obtain ⟨⟨l', v'⟩, mem', same⟩ := List.mem_map.1 (within.mem_iff.2 numeral)
    obtain ⟨mem', around⟩ := List.mem_filter.1 mem'
    have same := List.inj_on_of_nodup_map nodup mem mem' (number.trans same.symm)
    obtain ⟨rfl, -⟩ := Prod.mk.inj same
    exact around

theorem scope_of_recorded {l : Literal} {v : Expr} (mem : (l, v) ∈ recordedIn b) (some : l.scope ≠ []) :
    ∃ f ∈ (ofBlock path lineCount b).functions, f.scope = l.scope := by
  obtain ⟨p, hp, mem⟩ := List.mem_flatMap.1 mem
  have ⟨_, _, _, scope⟩ := Placed.mem_recorded mem
  rw [scope] at some ⊢
  exact function_of_scope hp some

theorem belongs_of_has {l : Literal} {t : Token}
    (scope : l.scope ≠ [] → ∃ f ∈ (ofBlock path lineCount b).functions, f.scope = l.scope)
    (has : ∀ f ∈ (ofBlock path lineCount b).functions,
      l.scope.has f.frame.number = true ↔ t ∈ f.definition.bodyTokens) :
    l.BelongsWith (ofBlock path lineCount b) t where
  nowhere := by
    constructor
    · intro nowhere f hf here
      have := (has f hf).2 here
      rw [nowhere] at this
      cases this
    · intro nowhere
      by_contra some
      obtain ⟨f, hf, same⟩ := scope some
      refine nowhere f hf ((has f hf).1 ?_)
      rw [← same]
      exact FunctionScope.has_iff.2 ⟨_, .head _, rfl⟩
  innermost f hf := by
    constructor
    · intro same
      refine ⟨(has f hf).1 ?_, fun g hg nested here => ?_⟩
      · rw [same]
        exact FunctionScope.has_iff.2 ⟨_, .head _, rfl⟩
      · -- `g` is around the literal and so not after `f`, but it is nested in `f`
        obtain ⟨frame, around, number⟩ := FunctionScope.has_iff.1 nested
        have later := number_lt_of_outer hg around
        obtain ⟨frame', around', number'⟩ := FunctionScope.has_iff.1 ((has g hg).2 here)
        rw [same] at around'
        rcases List.mem_cons.1 around' with rfl | outer
        · omega
        · have := number_lt_of_outer hf outer
          omega
    · rintro ⟨here, innermost⟩
      have around := (has f hf).2 here
      have some : l.scope ≠ [] := by
        rintro nowhere
        rw [nowhere] at around
        cases around
      obtain ⟨g, hg, same⟩ := scope some
      rw [← same] at around ⊢
      rcases Bool.or_eq_true_iff.1 (FunctionScope.has_cons g.frame g.outer _ ▸ around) with self | nested
      · rw [functions_inj hg hf (beq_iff_eq.1 self)]
      · refine absurd ((has g hg).1 ?_) (innermost g hg nested)
        rw [← same]
        exact FunctionScope.has_iff.2 ⟨_, .head _, rfl⟩

end Recorded

/-- The literals of a module are the numbers of its source that are not imaginary: each of them is
recorded once, with the sign before it, and belongs to the innermost function around it. -/
theorem literals_conserved {path source : Bytes} {m : ModuleModel}
    (h : ofSource path source = .ok m) : ∃ tokens ts, tokenize source = .ok tokens ∧
      ts.Perm (tokens.filter Token.isReal) ∧
      List.Forall₂ (fun l t => l.Records m tokens t ∧ l.BelongsWith m t) m.literals ts := by
  obtain ⟨b, inside, marker, rfl, lexed, isMarker, reading⟩ := ofSource_reading h
  have tokens := numbers_nodup lexed
  have numbers := recordedIn_numbers reading
  have nodup := numbers.nodup_iff.2 tokens
  obtain ⟨ts, pairs, order⟩ := List.perm_comp_forall₂ (r := fun e t => e = Token.number t) numbers
    (List.forall₂_map_left_iff.2 (List.forall₂_same.2 fun _ _ => rfl))
  have real : (inside ++ [marker]).filter Token.isReal = inside.filter Token.isReal := by
    simp [Token.isReal, isMarker]
  refine ⟨_, ts, lexed, by rwa [real], ?_⟩
  rw [← recordedIn_literals, List.forall₂_map_left_iff]
  rw [List.forall₂_map_left_iff] at pairs
  have ⟨length, each⟩ := List.forall₂_iff_zip.1 pairs
  refine List.forall₂_iff_zip.2 ⟨length, fun {r t} mem => ?_⟩
  obtain ⟨l, v⟩ := r
  have ⟨recorded, isToken⟩ := List.of_mem_zip mem
  obtain ⟨text, real⟩ := List.mem_filter.1 (order.mem_iff.1 isToken)
  refine ⟨records_of_recordedIn reading nodup recorded real (each mem), ?_⟩
  exact belongs_of_has (scope_of_recorded recorded) fun f hf =>
    has_iff_mem_bodyTokens reading nodup tokens recorded text real (each mem) hf

theorem literals_conserved_in_function : ∃ m tokens ts,
    ofSource "a.py" "def f():\n    return -5 + x[3j]\n" = .ok m ∧
      tokenize "def f():\n    return -5 + x[3j]\n" = .ok tokens ∧
      ts.Perm (tokens.filter Token.isReal) ∧
      List.Forall₂ (fun l t => l.Records m tokens t ∧ l.BelongsWith m t) m.literals ts := by
  obtain ⟨m, built⟩ : ∃ m, ofSource "a.py" "def f():\n    return -5 + x[3j]\n" = .ok m := by
    decide +kernel
  obtain ⟨tokens, ts, lexed, perm, pairs⟩ := literals_conserved built
  exact ⟨m, tokens, ts, built, lexed, perm, pairs⟩

end ModuleModel

end CodeSmell
