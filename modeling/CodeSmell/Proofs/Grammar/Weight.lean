import CodeSmell.Proofs.Grammar.Names
import CodeSmell.Proofs.Grammar.Stmt

/-!
Weights of tokens. A weight counts the names, the numbers and the keywords that decide something, in
any commutative monoid. A dotted name weighs what its components weigh. `Expr.Layer.weighs` and
`StmtForm.Layer.weighs` say what the pieces of a layer weigh: what the layer says itself, its
expressions and its nested statements, each once. From them `Expr.Reading.weight` and
`Stmt.Reading.weight` read the weight of all tokens off the tree, so that the parser neither drops
nor repeats a name, a number or a decision.
-/

namespace CodeSmell

def Token.number (t : Token) : Expr := ⟨t.position, .number t.value t.text t.imaginary⟩

def decisionWords : List Bytes :=
  List.map Bytes.ofString ["if", "elif", "for", "while", "except", "and", "or"]

structure Weight (M : Type) [AddCommMonoid M] where
  number : Expr → M
  keyword : Bytes → M
  silent : ∀ word, word ∉ decisionWords → keyword word = 0
  name : Bytes → M := fun _ => 0
  parts : ∀ text, name text = (text.components.map name).sum := by simp
  star : name "*" = 0 := by rfl

namespace Weight

variable {M : Type} [AddCommMonoid M] (w : Weight M) (f : Expr → M) (g : Stmt → M)

def token (t : Token) : M :=
  match t.kind with
  | .number => w.number t.number
  | .keyword => w.keyword t.text
  | .name => w.name t.text
  | _ => 0

/-- The weight of a piece, if its expression or statement weighs what `f` and `g` say. -/
def piece : Piece → M
  | .token t => w.token t
  | .expr e _ => f e
  | .stmt s _ => g s

@[simp] theorem piece_token (t : Token) : w.piece f g (.token t) = w.token t := rfl

@[simp] theorem piece_expr (e : Expr) (ts : List Token) : w.piece f g (.expr e ts) = f e := rfl

@[simp] theorem piece_stmt (s : Stmt) (ts : List Token) : w.piece f g (.stmt s ts) = g s := rfl

theorem token_operator {t : Token} {text : Bytes} (h : t.isOperator text = true) : w.token t = 0 := by
  rw [token, (Token.isOperator_iff.1 h).1]

theorem token_keyword {t : Token} {text : Bytes} (h : t.isKeyword text = true) :
    w.token t = w.keyword text := by
  obtain ⟨kind, rfl⟩ := Token.isKeyword_iff.1 h
  rw [token, kind]

theorem token_silent {t : Token} {text : Bytes} (h : t.isKeyword text = true)
    (silent : text ∉ decisionWords) : w.token t = 0 := by
  rw [w.token_keyword h, w.silent text silent]

theorem token_name {t : Token} (h : t.kind = .name) : w.token t = w.name t.text := by
  rw [token, h]

theorem token_kind {t : Token} {kind : TokenKind} (h : t.kind = kind) (number : kind ≠ .number)
    (keyword : kind ≠ .keyword) (name : kind ≠ .name) : w.token t = 0 := by
  rw [token, h]
  cases kind <;> first | rfl | contradiction

theorem token_sign {t : Token} {op : UnaryOp} (h : Parser.sign? t = some op) : w.token t = 0 := by
  unfold Parser.sign? at h
  split_ifs at h with minus plus invert
  · exact w.token_operator minus
  · exact w.token_operator plus
  · exact w.token_operator invert

theorem token_constant {t : Token} {constant : Constant} (h : t.constant? = some constant) :
    w.token t = 0 := by
  unfold Token.constant? at h
  split_ifs at h with none true false ellipsis
  · exact w.token_silent none (by decide)
  · exact w.token_silent true (by decide)
  · exact w.token_silent false (by decide)
  · exact w.token_operator ellipsis

theorem total_tokens {ts : List Token} (h : ∀ t ∈ ts, w.token t = 0) :
    total (w.piece f g) (ts.map .token) = 0 := by
  induction ts with
  | nil => rfl
  | cons t ts ih =>
    rw [List.forall_mem_cons] at h
    rw [List.map_cons, total_cons, piece_token, h.1, ih h.2, add_zero]

/-! ## What a layer says itself -/

def named (names : List Bytes) : M := (names.map w.name).sum

@[simp] theorem named_nil : w.named [] = 0 := rfl

@[simp] theorem named_cons (name : Bytes) (names : List Bytes) :
    w.named (name :: names) = w.name name + w.named names := by
  simp [named]

@[simp] theorem named_append (names more : List Bytes) :
    w.named (names ++ more) = w.named names + w.named more := by
  simp [named]

theorem named_flatMap {α : Type} (xs : List α) (names : α → List Bytes) :
    w.named (xs.flatMap names) = (xs.map fun x => w.named (names x)).sum :=
  sum_map_flatMap xs names w.name

theorem named_filterMap {α : Type} (xs : List α) (name : α → Option Bytes) :
    w.named (xs.filterMap name) = (xs.map fun x => w.named (name x).toList).sum := by
  induction xs with
  | nil => rfl
  | cons x rest ih => cases named : name x <;> simp [named, ih]

theorem named_components (text : Bytes) : w.named text.components = w.name text :=
  (w.parts text).symm

theorem named_nonempty? (text : Bytes) : w.named text.nonempty?.toList = w.name text := by
  unfold Bytes.nonempty?
  split_ifs with empty
  · rw [List.isEmpty_iff.1 empty, ← w.named_components]
    rfl
  · simp

theorem named_of_unnamed (unnamed : ∀ name, w.name name = 0) (names : List Bytes) :
    w.named names = 0 := by
  induction names with
  | nil => rfl
  | cons name rest ih => rw [named_cons, unnamed, ih, add_zero]

def clause (c : Clause Expr) : M :=
  w.keyword "for" + (c.conditions.map fun _ => w.keyword "if").sum

def expr (e : Expr) : M :=
  match e.form with
  | .number value text imaginary => w.number ⟨e.position, .number value text imaginary⟩
  | .boolean op values => (values.tail.map fun _ => w.keyword op.symbol).sum
  | .conditional .. => w.keyword "if"
  | .comprehension _ _ clauses | .dictComprehension _ _ clauses => (clauses.map w.clause).sum
  | _ => 0

def guard (c : MatchCase Stmt) : M := (c.guard.toList.map fun _ => w.keyword "if").sum

def form : StmtForm Stmt → M
  | .cond _ _ _ isElif => w.keyword (if isElif then "elif" else "if")
  | .forEach .. => w.keyword "for"
  | .whileLoop .. => w.keyword "while"
  | .tryExcept _ handlers _ _ _ => (handlers.map fun _ => w.keyword "except").sum
  | .matchOn _ cases => (cases.map w.guard).sum
  | _ => 0

end Weight

/-! ## The parts of expressions -/

def ParameterItem.expressions : ParameterItem → List Expr
  | parameter p => p.expressions
  | _ => []

def ArgumentItem.expression : ArgumentItem → Expr
  | argument e => e
  | keyword k => k.value

theorem ParameterList.add_expressions (list : ParameterList) (item : ParameterItem) :
    (list.add item).parameters.flatMap Parameter.expressions =
      list.parameters.flatMap Parameter.expressions ++ item.expressions := by
  cases item with
  | slash =>
    simp only [add, List.flatMap_map, ParameterItem.expressions, List.append_nil]
    refine List.flatMap_congr fun p _ => ?_
    split <;> rfl
  | star => simp [add, ParameterItem.expressions]
  | parameter p => simp [add, ParameterItem.expressions, Parameter.expressions]

theorem ParameterList.add_names (list : ParameterList) (item : ParameterItem) :
    (list.add item).parameters.map Parameter.name =
      list.parameters.map Parameter.name ++ item.names := by
  cases item with
  | slash =>
    simp only [add, List.map_map, ParameterItem.names, List.append_nil]
    refine List.map_congr_left fun p _ => ?_
    simp only [Function.comp_apply]
    split <;> rfl
  | star => simp [add, ParameterItem.names]
  | parameter p => simp [add, ParameterItem.names]

theorem parametersOf_names (items : List ParameterItem) :
    (parametersOf items).map Parameter.name = items.flatMap ParameterItem.names := by
  have run (list : ParameterList) : (items.foldl ParameterList.add list).parameters.map
      Parameter.name = list.parameters.map Parameter.name ++ items.flatMap ParameterItem.names := by
    induction items generalizing list with
    | nil => simp
    | cons item rest ih => simp [ih, ParameterList.add_names]
  exact run {}

theorem ArgumentItem.names_eq (items : List ArgumentItem) :
    (items.filterMap ArgumentItem.keyword?).filterMap Keyword.name =
      items.flatMap ArgumentItem.names := by
  induction items with
  | nil => rfl
  | cons item rest ih =>
    cases item with
    | argument e => exact ih
    | keyword k =>
      rw [List.filterMap_cons_some (by rfl : ArgumentItem.keyword? (.keyword k) = some k),
        List.flatMap_cons, ← ih]
      cases name : k.name <;> simp [name, ArgumentItem.names]

theorem parametersOf_expressions (items : List ParameterItem) :
    (parametersOf items).flatMap Parameter.expressions =
      items.flatMap ParameterItem.expressions := by
  have run (list : ParameterList) : (items.foldl ParameterList.add list).parameters.flatMap
      Parameter.expressions = list.parameters.flatMap Parameter.expressions ++
        items.flatMap ParameterItem.expressions := by
    induction items generalizing list with
    | nil => simp
    | cons item rest ih => simp [ih, ParameterList.add_expressions]
  exact run {}

section Layers

variable {M : Type} [AddCommMonoid M] (w : Weight M) (f : Expr → M) (g : Stmt → M)

theorem ArgumentItem.sum_split (items : List ArgumentItem) :
    (items.map fun item => f item.expression).sum =
      ((items.filterMap ArgumentItem.argument?).map f).sum +
        ((items.filterMap ArgumentItem.keyword?).map fun k => f k.value).sum := by
  induction items with
  | nil => simp
  | cons item rest ih =>
    rw [List.map_cons, List.sum_cons, ih]
    cases item with
    | argument e => exact (add_assoc ..).symm
    | keyword k => exact add_left_comm ..

theorem IsExpr.weighs {e : Expr} {ps : List Piece} (h : IsExpr e ps) :
    total (w.piece f g) ps = f e := by
  cases h
  simp

theorem Led.weighs_operator {text : Bytes} {e : Expr} {ps : List Piece}
    (h : Led IsExpr (·.isOperator text) e ps) : total (w.piece f g) ps = f e :=
  h.total_eq (fun _ lead => w.token_operator lead) fun _ _ one => one.weighs w f g

theorem Led.weighs_keyword {text : Bytes} {e : Expr} {ps : List Piece}
    (h : Led IsExpr (·.isKeyword text) e ps) :
    total (w.piece f g) ps = w.keyword text + f e := by
  cases h with
  | intro lead one => simp [w.token_keyword lead, one.weighs w f g]

theorem Marked.weighs_operator {text : Bytes} {b : Bool} {ps : List Piece}
    (h : Marked (·.isOperator text) b ps) : total (w.piece f g) ps = 0 := by
  cases h with
  | absent => rfl
  | present mark => simp [w.token_operator mark]

theorem Marked.weighs_async {b : Bool} {ps : List Piece} (h : Marked (·.isKeyword "async") b ps) :
    total (w.piece f g) ps = 0 := by
  cases h with
  | absent => rfl
  | present mark => simp [w.token_silent mark (by decide)]

theorem CompareOp.Spelling.weighs {op : CompareOp} {ps : List Piece} (h : op.Spelling ps) :
    total (w.piece f g) ps = 0 := by
  cases h with
  | symbolic isOp => simp [w.token_operator (Token.isOperator_of_compareOp? isOp).2]
  | isIn is => simp [w.token_silent is (by decide)]
  | notIn is is' => simp [w.token_silent is (by decide), w.token_silent is' (by decide)]
  | is is => simp [w.token_silent is (by decide)]
  | isNot is is' => simp [w.token_silent is (by decide), w.token_silent is' (by decide)]

theorem CompareOp.Link.weighs {link : CompareOp × Expr} {ps : List Piece}
    (h : CompareOp.Link link ps) : total (w.piece f g) ps = f link.2 := by
  cases h with
  | intro spelling => simp [spelling.weighs w f g]

theorem Clause.Layer.weighs {clause : Clause Expr} {ps : List Piece} (h : clause.Layer ps) :
    total (w.piece f g) ps = w.clause clause + (clause.expressions.map f).sum := by
  cases h with
  | intro async isFor isIn _ ifs =>
    simp only [total_append, total_cons, Weight.piece_token, Weight.piece_expr,
      async.weighs_async w f g, w.token_keyword isFor, w.token_silent isIn (by decide),
      ifs.total_eq fun _ _ => Led.weighs_keyword w f g, Weight.clause, Clause.expressions,
      List.sum_map_add, List.map_cons, List.sum_cons]
    abel

theorem ParameterKind.Mark.weighs {kind : ParameterKind} {ps : List Piece} (h : kind.Mark ps) :
    total (w.piece f g) ps = 0 := by
  cases h with
  | regular => rfl
  | varPositional is | varKeyword is => simp [w.token_operator is]

theorem ParameterItem.Layer.weighs {item : ParameterItem} {ps : List Piece} (h : item.Layer ps) :
    total (w.piece f g) ps = w.named item.names + (item.expressions.map f).sum := by
  cases h with
  | slash is | star is =>
    simp [ParameterItem.expressions, ParameterItem.names, w.token_operator is]
  | parameter mark isName annotation default =>
    simp [ParameterItem.expressions, ParameterItem.names, Parameter.expressions, mark.weighs w f g,
      w.token_name isName,
      annotation.total_eq fun _ _ => Led.weighs_operator w f g,
      default.total_eq fun _ _ => Led.weighs_operator w f g]

theorem ArgumentItem.Layer.weighs {item : ArgumentItem} {ps : List Piece} (h : item.Layer ps) :
    total (w.piece f g) ps = w.named item.names + f item.expression := by
  cases h with
  | argument => simp [ArgumentItem.expression, ArgumentItem.names]
  | keyword isName isEquals =>
    simp [ArgumentItem.expression, ArgumentItem.names, w.token_name isName,
      w.token_operator isEquals, w.named_nonempty?]
  | unpacked isStars =>
    simp [ArgumentItem.expression, ArgumentItem.names, w.token_operator isStars]

theorem Entry.Layer.weighs {entry : Entry Expr} {ps : List Piece} (h : entry.Layer ps) :
    total (w.piece f g) ps = (entry.expressions.map f).sum := by
  cases h with
  | keyed isColon => simp [Entry.expressions, w.token_operator isColon]
  | unpacked isStars => simp [Entry.expressions, w.token_operator isStars]

theorem SliceStep.weighs {step : Option Expr} {ps : List Piece} (h : SliceStep step ps) :
    total (w.piece f g) ps = (step.toList.map f).sum := by
  cases h with
  | absent => rfl
  | present isColon step =>
    simp [w.token_operator isColon, step.total_eq fun _ _ one => one.weighs w f g]

theorem Expr.Index.weighs {index : Expr} {ps : List Piece} (h : index.Index ps) :
    total (w.piece f g) ps = f index := by
  cases h with
  | one isOpening isClosing => simp [w.token_operator isOpening, w.token_operator isClosing]
  | several => simp

theorem Expr.Layer.weighs {e : Expr} {ps : List Piece} (h : e.Layer ps) :
    total (w.piece f g) ps = w.expr e + w.named e.names + (e.children.map f).sum := by
  have one : ∀ x ps, IsExpr x ps → total (w.piece f g) ps = f x := fun _ _ one => one.weighs w f g
  have comma : ∀ t : Token, t.isOperator "," = true → w.piece f g (.token t) = 0 :=
    fun _ => w.token_operator
  have clauses : ∀ x ps, Clause.Layer x ps →
      total (w.piece f g) ps = w.clause x + (x.expressions.map f).sum :=
    fun _ _ => Clause.Layer.weighs w f g
  cases h with
  | name isName =>
    simp [Weight.expr, names, children, form, Form.children, Token.reference, w.token_name isName]
  | number isNumber =>
    simp [Weight.expr, names, children, form, position, Form.children, Weight.token, Token.number,
      isNumber]
  | string isString strings =>
    have silent : ∀ t ∈ _, w.token t = 0 := List.forall_mem_cons.2
      ⟨w.token_kind isString (by decide) (by decide) (by decide),
        fun t mem => w.token_kind (strings t mem) (by decide) (by decide) (by decide)⟩
    rw [w.total_tokens f g silent]
    simp [Weight.expr, names, children, form, Form.children]
  | constant isConstant =>
    have silent : w.token _ = 0 := w.token_constant isConstant
    simp [Weight.expr, names, children, form, Form.children, silent]
  | attr isDot isName =>
    simp [Weight.expr, names, children, form, Form.children, w.token_operator isDot,
      w.token_name isName, add_comm]
  | subscript index => simp [Weight.expr, names, children, form, Form.children, index.weighs w f g]
  | slice lower isColon upper step same =>
    simp [same, Weight.expr, names, children, form, Form.children, lower.total_eq one, upper.total_eq one,
      step.weighs w f g, w.token_operator isColon]
  | call isOpening items isClosing =>
    simp [Weight.expr, names, children, form, Form.children, w.token_operator isOpening,
      w.token_operator isClosing, items.total_eq comma fun _ _ => ArgumentItem.Layer.weighs w f g,
      ArgumentItem.names_eq, w.named_flatMap, List.sum_map_add, ArgumentItem.sum_split f,
      Function.comp_def]
    abel
  | unary isSign =>
    simp [Weight.expr, names, children, form, Form.children, w.token_sign isSign]
  | not isNot =>
    simp [Weight.expr, names, children, form, Form.children, w.token_silent isNot (by decide)]
  | binary isOp => simp [Weight.expr, names, children, form, Form.children, w.token_operator isOp]
  | boolean _ others =>
    simp [Weight.expr, names, children, form, Form.children,
      others.total_eq fun _ _ => Led.weighs_keyword w f g, List.sum_map_add]
    abel
  | compare _ links =>
    simp [Weight.expr, names, children, form, Form.children,
      links.total_eq fun _ _ => CompareOp.Link.weighs w f g, Function.comp_def]
  | conditional isIf isElse =>
    simp [Weight.expr, names, children, form, Form.children, w.token_keyword isIf,
      w.token_silent isElse (by decide)]
    abel
  | lambda isLambda items isColon =>
    simp [Weight.expr, names, children, form, Form.children, parametersOf_expressions,
      parametersOf_names, sum_map_flatMap, w.named_flatMap, List.sum_map_add,
      w.token_silent isLambda (by decide), w.token_operator isColon,
      items.total_eq comma fun _ _ => ParameterItem.Layer.weighs w f g]
    abel
  | sequence isOpening elements isClosing | indexTuple isOpening _ elements isClosing =>
    simp [Weight.expr, names, children, form, Form.children, elements.total_eq comma one,
      w.token_operator isOpening, w.token_operator isClosing]
  | bareTuple elements =>
    simp [Weight.expr, names, children, form, Form.children, elements.total_eq comma one]
  | dict isOpening entries isClosing =>
    simp [Weight.expr, names, children, form, Form.children, sum_map_flatMap,
      w.token_operator isOpening, w.token_operator isClosing, entries.total_eq comma fun _ _ => Entry.Layer.weighs w f g]
  | comprehension isOpening _ loops isClosing =>
    simp [Weight.expr, names, children, form, Form.children, sum_map_flatMap,
      loops.total_eq clauses,
      w.token_operator isOpening, w.token_operator isClosing, List.sum_map_add]
    abel
  | bareGenerator _ loops =>
    simp [Weight.expr, names, children, form, Form.children, sum_map_flatMap,
      loops.total_eq clauses,
      List.sum_map_add]
    abel
  | dictComprehension isOpening isColon _ loops isClosing =>
    simp [Weight.expr, names, children, form, Form.children, sum_map_flatMap,
      loops.total_eq clauses,
      w.token_operator isOpening, w.token_operator isColon, w.token_operator isClosing,
      List.sum_map_add]
    abel
  | starred isStar =>
    simp [Weight.expr, names, children, form, Form.children, w.token_operator isStar]
  | await isAwait =>
    simp [Weight.expr, names, children, form, Form.children, w.token_silent isAwait (by decide)]
  | yield isYield value =>
    simp [Weight.expr, names, children, form, Form.children, value.total_eq one,
      w.token_silent isYield (by decide)]
  | yieldFrom isYield isFrom =>
    simp [Weight.expr, names, children, form, Form.children, w.token_silent isYield (by decide),
      w.token_silent isFrom (by decide)]
  | named _ isWalrus =>
    simp [Weight.expr, names, children, form, Form.children, w.token_operator isWalrus]
  | capture _ isAs =>
    simp [Weight.expr, names, children, form, Form.children, w.token_silent isAs (by decide),
      add_comm]

end Layers

/-! ## Layers of statements -/

section Statements

variable {M : Type} [AddCommMonoid M] (w : Weight M) (f : Expr → M) (g : Stmt → M)

theorem IsStmt.weighs {s : Stmt} {ps : List Piece} (h : IsStmt s ps) :
    total (w.piece f g) ps = g s := by
  cases h
  simp

theorem Possibly.weighs {kind : TokenKind} {ps : List Piece} (h : Possibly (·.kind == kind) ps)
    (layout : kind.isLayout = true) : total (w.piece f g) ps = 0 := by
  cases h with
  | absent => rfl
  | present is =>
    have is := beq_iff_eq.1 is
    rw [total_cons, total_nil, add_zero, Weight.piece_token]
    refine w.token_kind is ?_ ?_ ?_ <;> rintro rfl <;> cases layout

theorem Simple.weighs {b : Block} {ps : List Piece} (h : Simple b ps) :
    total (w.piece f g) ps = (b.map g).sum := by
  cases h with
  | intro _ list ends =>
    simp [list.total_eq (fun _ => w.token_operator) fun _ _ one => one.weighs w f g,
      ends.weighs w f g rfl]

theorem Line.weighs {b : Block} {ps : List Piece} (h : Line b ps) :
    total (w.piece f g) ps = (b.map g).sum := by
  cases h with
  | compound => simp
  | simple simple => exact simple.weighs w f g

theorem Block.Layer.weighs {b : Block} {ps : List Piece} (h : Block.Layer b ps) :
    total (w.piece f g) ps = (b.map g).sum := by
  cases h with
  | inline isColon simple => simp [w.token_operator isColon, simple.weighs w f g]
  | indented isColon isLineEnd isIndent lines dedent =>
    simp [w.token_operator isColon, w.token_kind isLineEnd, w.token_kind isIndent,
      lines.total_eq fun _ _ => Line.weighs w f g, dedent.weighs w f g rfl, List.map_flatten,
      List.sum_flatten, Function.comp_def]

theorem Branch.weighs {keyword : Bytes} {b : Block} {ps : List Piece} (h : Branch keyword b ps)
    (silent : keyword ∉ decisionWords) : total (w.piece f g) ps = (b.map g).sum := by
  cases h with
  | absent => rfl
  | present isKeyword block => simp [w.token_silent isKeyword silent, block.weighs w f g]

theorem OrElse.weighs {b : Block} {ps : List Piece} (h : OrElse b ps) :
    total (w.piece f g) ps = (b.map g).sum := by
  cases h with
  | branch branch => exact branch.weighs w f g (by decide)
  | elif => simp

theorem NameAfter.weighs {name : Option Bytes} {ps : List Piece} (h : NameAfter "as" name ps) :
    total (w.piece f g) ps = w.named name.toList := by
  cases h with
  | absent => rfl
  | present isAs isName =>
    simp [w.token_silent isAs (by decide), w.token_name isName, w.named_nonempty?]

theorem Handler.Layer.weighs {handler : Handler Stmt} {isStar : Bool} {ps : List Piece}
    (h : handler.Layer isStar ps) : total (w.piece f g) ps = w.keyword "except" +
      w.named handler.name.toList + (handler.type.toList.map f).sum + (handler.body.map g).sum := by
  cases h with
  | intro isExcept star type name _ body =>
    simp [w.token_keyword isExcept, star.weighs_operator w f g,
      type.total_eq fun _ _ one => one.weighs w f g, name.weighs w f g, body.weighs w f g]
    abel

theorem WithItem.Layer.weighs {item : WithItem} {ps : List Piece} (h : item.Layer ps) :
    total (w.piece f g) ps = f item.context + (item.target.toList.map f).sum := by
  have led : ∀ x ps, Led IsExpr (·.isKeyword "as") x ps → total (w.piece f g) ps = f x := by
    intro x ps h
    rw [h.weighs_keyword w f g, w.silent _ (by decide), zero_add]
  cases h with
  | intro target _ => simp [target.total_eq led]

theorem MatchCase.Layer.weighs {c : MatchCase Stmt} {ps : List Piece} (h : c.Layer ps) :
    total (w.piece f g) ps = w.guard c + w.name "case" +
      (f c.pattern + (c.guard.toList.map f).sum) + (c.body.map g).sum := by
  cases h with
  | intro isName word guard body =>
    simp [w.token_name isName, word, guard.total_eq fun _ _ => Led.weighs_keyword w f g,
      List.sum_map_add, body.weighs w f g, Weight.guard]
    abel

theorem text_of_dots {dots : List Token}
    (h : ∀ t ∈ dots, t.isOperator "." = true ∨ t.isOperator "..." = true) :
    ∀ b ∈ dots.flatMap Token.text, b = '.'.toUInt8 := by
  intro b mem
  obtain ⟨t, dot, mem⟩ := List.mem_flatMap.1 mem
  have only : ∀ text ∈ ([".", "..."] : List Bytes), text.all (· == '.'.toUInt8) = true := by decide
  refine eq_of_beq (List.all_eq_true.1 (only t.text ?_) b mem)
  rcases h t dot with dot | dots
  · rw [(Token.isOperator_iff.1 dot).2]
    exact .head _
  · rw [(Token.isOperator_iff.1 dots).2]
    exact .tail _ (.head _)

theorem IsName.weighs {name : Bytes} {ps : List Piece} (h : IsName name ps) :
    total (w.piece f g) ps = w.name name := by
  cases h with
  | intro isName => simp [w.token_name isName]

theorem DottedName.weighs {name : Bytes} {ps : List Piece} (h : DottedName name ps) :
    total (w.piece f g) ps = w.name name := by
  have led : ∀ x ps, Led IsName (·.isOperator ".") x ps → total (w.piece f g) ps = w.name x :=
    fun _ _ h => h.total_eq (fun _ => w.token_operator) fun _ _ one => one.weighs w f g
  cases h with
  | intro isName names =>
    rw [← w.named_components, Bytes.components_join, w.named_flatMap, total_cons,
      Weight.piece_token, w.token_name isName, names.total_eq led]
    simp [w.named_components]

theorem Alias.Layer.weighs {W : Bytes → List Piece → Prop} {a : Alias} {ps : List Piece}
    (h : Alias.Layer W a ps) (name : ∀ x ps, W x ps → total (w.piece f g) ps = w.name x) :
    total (w.piece f g) ps = w.named a.names := by
  cases h with
  | @intro text asName ps ns one as =>
    rw [Alias.names, total_append, name _ _ one, as.weighs w f g, w.named_append]
    split_ifs with star
    · rw [show text = _ from star, w.star, w.named_nil]
    · rw [w.named_components]

theorem ModuleName.weighs {name : Bytes} {ps : List Piece} (h : ModuleName name ps) :
    total (w.piece f g) ps = w.name name := by
  cases h with
  | @intro dots name ps areDots names _ =>
    have silent : ∀ t ∈ dots, w.token t = 0 := fun t mem =>
      (areDots t mem).elim w.token_operator w.token_operator
    rw [← w.named_components, Bytes.components_dots (text_of_dots areDots), w.named_components,
      total_append, w.total_tokens f g silent, zero_add,
      names.total_eq fun _ _ => DottedName.weighs w f g]
    cases name with
    | none => simp [← w.named_components]
    | some name => simp

theorem ImportedNames.weighs {names : List Alias} {ps : List Piece} (h : ImportedNames names ps) :
    total (w.piece f g) ps = w.named (names.flatMap Alias.names) := by
  have list {names : List Alias} {ps : List Piece}
      (h : Separated (Alias.Layer IsName) "," names ps) :
      total (w.piece f g) ps = w.named (names.flatMap Alias.names) := by
    rw [w.named_flatMap]
    exact h.total_eq (fun _ => w.token_operator) fun _ _ one =>
      one.weighs w f g fun _ _ => IsName.weighs w f g
  cases h with
  | star isStar => simp [w.token_operator isStar, Alias.names]
  | plain _ names => exact list names
  | grouped _ isOpening names isClosing =>
    simp [w.token_operator isOpening, list names, w.token_operator isClosing]

theorem WithItems.weighs {items : List WithItem} {ps : List Piece} (h : WithItems items ps) :
    total (w.piece f g) ps = (items.map fun i => f i.context + (i.target.toList.map f).sum).sum := by
  have list {ps : List Piece} (h : Separated WithItem.Layer "," items ps) :=
    h.total_eq (fun _ => w.token_operator) fun _ _ => WithItem.Layer.weighs w f g
  cases h with
  | plain _ items => exact list items
  | grouped _ isOpening items isClosing =>
    simp [w.token_operator isOpening, list items, w.token_operator isClosing]

theorem Assigned.weighs {e : Expr} {ps : List Piece} (h : Assigned e ps) :
    total (w.piece f g) ps = f e := by
  cases h with
  | intro _ isEquals => simp [w.token_operator isEquals]

theorem Deleted.weighs {e : Expr} {ps : List Piece} (h : Deleted e ps) :
    total (w.piece f g) ps = f e := by
  cases h
  simp

theorem Raised.weighs {exception cause : Option Expr} {ps : List Piece}
    (h : Raised exception cause ps) :
    total (w.piece f g) ps = (exception.toList.map f).sum + (cause.toList.map f).sum := by
  have led : ∀ x ps, Led IsExpr (·.isKeyword "from") x ps → total (w.piece f g) ps = f x := by
    intro x ps h
    rw [h.weighs_keyword w f g, w.silent _ (by decide), zero_add]
  cases h with
  | absent => simp
  | present cause => simp [cause.total_eq led]

theorem Decorator.weighs {e : Expr} {ps : List Piece} (h : Decorator e ps) :
    total (w.piece f g) ps = f e := by
  cases h with
  | intro isAt ends => simp [w.token_operator isAt, ends.weighs w f g rfl]

theorem Bases.weighs {bases : List Expr} {keywords : List (Keyword Expr)} {ps : List Piece}
    (h : Bases bases keywords ps) : total (w.piece f g) ps =
      w.named (keywords.filterMap Keyword.name) +
        ((bases.map f).sum + (keywords.map fun k => f k.value).sum) := by
  cases h with
  | absent => simp
  | present isOpening items isClosing =>
    simp [w.token_operator isOpening, w.token_operator isClosing, ArgumentItem.sum_split f,
      ArgumentItem.names_eq, w.named_flatMap, List.sum_map_add,
      items.total_eq (fun _ => w.token_operator) fun _ _ => ArgumentItem.Layer.weighs w f g]

theorem StmtForm.Layer.weighs {form : StmtForm Stmt} {lead main : List Piece}
    (h : form.Layer lead main) (lines : LineRange) : total (w.piece f g) (lead ++ main) =
      w.form form + w.named (form.softKeywords ++ form.names) + (form.expressions.map f).sum +
        ((Stmt.mk lines form).nested.flatten.map g).sum := by
  have expr : ∀ x ps, IsExpr x ps → total (w.piece f g) ps = f x := fun _ _ one => one.weighs w f g
  have block {b : Block} {ps : List Piece} (h : Block.Layer b ps) := h.weighs w f g
  have name : ∀ x ps, IsName x ps → total (w.piece f g) ps = w.name x :=
    fun _ _ => IsName.weighs w f g
  have comma : ∀ t : Token, t.isOperator "," = true → w.piece f g (.token t) = 0 :=
    fun _ => w.token_operator
  rw [total_append]
  simp only [Stmt.nested, Stmt.blocks, Stmt.body?, Stmt.form]
  cases h with
  | expression => simp [Weight.form, StmtForm.names, softKeywords, expressions, blocks, body?]
  | assign _ targets =>
    simp [Weight.form, StmtForm.names, softKeywords, expressions, blocks, body?,
      targets.total_eq fun _ _ => Assigned.weighs w f g]
  | augAssign _ isOp =>
    simp [Weight.form, StmtForm.names, softKeywords, expressions, blocks, body?,
      w.token_operator (Token.isOperator_of_augmentedOp? isOp)]
  | annAssign _ isColon value =>
    simp [Weight.form, StmtForm.names, softKeywords, expressions, blocks, body?,
      w.token_operator isColon,
      value.total_eq fun _ _ => Led.weighs_operator w f g]
  | ret isReturn value =>
    simp [Weight.form, StmtForm.names, softKeywords, expressions, blocks, body?,
      w.token_silent isReturn (by decide),
      value.total_eq expr]
  | cond isCond body orelse =>
    simp [Weight.form, StmtForm.names, softKeywords, expressions, blocks, body?,
      w.token_keyword isCond, block body,
      orelse.weighs w f g]
    abel
  | forEach async isFor _ isIn body orelse =>
    simp [Weight.form, StmtForm.names, softKeywords, expressions, blocks, body?,
      async.weighs_async w f g, w.token_keyword isFor,
      w.token_silent isIn (by decide), block body, orelse.weighs w f g (by decide)]
    abel
  | whileLoop isWhile body orelse =>
    simp [Weight.form, StmtForm.names, softKeywords, expressions, blocks, body?,
      w.token_keyword isWhile, block body,
      orelse.weighs w f g (by decide)]
    abel
  | tryExcept isTry body handlers orelse final _ =>
    simp [Weight.form, StmtForm.names, softKeywords, expressions, blocks, body?,
      w.token_silent isTry (by decide), block body,
      handlers.total_eq fun _ _ => Handler.Layer.weighs w f g, orelse.weighs w f g (by decide),
      final.weighs w f g (by decide), sum_map_flatMap, List.sum_map_add, List.map_flatten,
      List.sum_flatten, Function.comp_def, w.named_filterMap]
    abel
  | withItems async isWith items body =>
    simp [Weight.form, StmtForm.names, softKeywords, expressions, blocks, body?,
      async.weighs_async w f g,
      w.token_silent isWith (by decide), items.weighs w f g, block body, sum_map_flatMap]
  | matchOn isName word isColon isLineEnd isIndent _ cases dedent =>
    simp [Weight.form, StmtForm.names, softKeywords, expressions, blocks, body?,
      w.token_name isName, word, w.token_operator isColon,
      w.token_kind isLineEnd, w.token_kind isIndent, dedent.weighs w f g rfl,
      cases.total_eq fun _ _ => MatchCase.Layer.weighs w f g, sum_map_flatMap, List.sum_map_add,
      List.map_flatten, List.sum_flatten, Function.comp_def, Weight.named]
    abel
  | raise isRaise raised =>
    simp [Weight.form, StmtForm.names, softKeywords, expressions, blocks, body?,
      w.token_silent isRaise (by decide),
      raised.weighs w f g]
  | assert isAssert message =>
    simp [Weight.form, StmtForm.names, softKeywords, expressions, blocks, body?,
      w.token_silent isAssert (by decide),
      message.total_eq fun _ _ => Led.weighs_operator w f g]
  | delete isDel _ targets =>
    simp [Weight.form, StmtForm.names, softKeywords, expressions, blocks, body?,
      w.token_silent isDel (by decide),
      targets.total_eq comma fun _ _ => Deleted.weighs w f g]
  | importNames isImport _ names =>
    simp [Weight.form, StmtForm.names, softKeywords, expressions, blocks, body?,
      w.token_silent isImport (by decide),
      w.named_flatMap,
      names.total_eq comma fun _ _ one => one.weighs w f g fun _ _ => DottedName.weighs w f g]
  | importFrom isFrom module isImport names =>
    simp [Weight.form, StmtForm.names, softKeywords, expressions, blocks, body?,
      w.token_silent isFrom (by decide),
      module.weighs w f g, w.token_silent isImport (by decide), names.weighs w f g,
      w.named_components]
  | @scope names isNonlocal t ps isScope _ list =>
    have silent : w.token t = 0 := by
      cases isNonlocal with
      | false => exact w.token_silent isScope (by decide)
      | true => exact w.token_silent isScope (by decide)
    simp [Weight.form, StmtForm.names, softKeywords, expressions, blocks, body?,
      silent, list.total_eq comma name,
      Weight.named]
  | pass is | breakLoop is | continueLoop is =>
    simp [Weight.form, StmtForm.names, softKeywords, expressions, blocks, body?,
      w.token_silent is (by decide)]
  | function decorators async isDef isName isOpening items isClosing returns body same =>
    simp [same, Weight.form, StmtForm.names, softKeywords, expressions, blocks, body?,
      async.weighs_async w f g,
      decorators.total_eq fun _ _ => Decorator.weighs w f g, w.token_silent isDef (by decide),
      w.token_name isName, w.token_operator isOpening, w.token_operator isClosing,
      items.total_eq comma fun _ _ => ParameterItem.Layer.weighs w f g, parametersOf_expressions,
      parametersOf_names, w.named_flatMap, List.sum_map_add,
      returns.total_eq fun _ _ => Led.weighs_operator w f g, block body, sum_map_flatMap]
    abel
  | classDef decorators isClass isName bases body same =>
    simp [same, Weight.form, StmtForm.names, softKeywords, expressions, blocks, body?,
      decorators.total_eq fun _ _ => Decorator.weighs w f g, w.token_silent isClass (by decide),
      w.token_name isName, bases.weighs w f g, block body, Function.comp_def]
    abel

end Statements

end CodeSmell
