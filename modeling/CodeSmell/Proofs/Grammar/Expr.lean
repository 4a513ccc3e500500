import CodeSmell.Proofs.Grammar.Piece
import CodeSmell.Syntax.Parser.Expr

/-!
The grammar of expressions, without precedence. `Expr.Layer e ps` says that the pieces `ps` make up
the outermost layer of `e`, and `Expr.Reading e ts` that `e` is a reading of the tokens `ts`, where
any expression may stand in parentheses. The positions are those that the layers determine: each is
that of a token of the expression. An index of several elements is a tuple at the bracket before them,
so that it is read with its brackets.
-/

namespace CodeSmell

theorem Token.not_isLayout_of_sign? {t : Token} {op : UnaryOp} (h : Parser.sign? t = some op) :
    t.isLayout = false := by
  unfold Parser.sign? at h
  split_ifs at h with minus plus invert
  · exact t.not_isLayout_of_isOperator minus
  · exact t.not_isLayout_of_isOperator plus
  · exact t.not_isLayout_of_isOperator invert

theorem Token.not_isLayout_of_constant? {t : Token} {value : Constant}
    (h : t.constant? = some value) : t.isLayout = false := by
  unfold Token.constant? at h
  split_ifs at h with none yes no ellipsis
  · exact t.not_isLayout_of_isKeyword none
  · exact t.not_isLayout_of_isKeyword yes
  · exact t.not_isLayout_of_isKeyword no
  · exact t.not_isLayout_of_isOperator ellipsis

theorem Token.isOperator_of_find? {α : Type} {ops : List α} {symbol : α → Bytes} {t : Token} {op : α}
    (h : (if t.kind == .operator then ops.find? (symbol · == t.text) else none) = some op) :
    op ∈ ops ∧ t.isOperator (symbol op) = true := by
  split_ifs at h with operator
  have same := List.find?_some h
  exact ⟨List.mem_of_find?_eq_some h, Bool.and_eq_true_iff.2 ⟨operator, BEq.symm same⟩⟩

theorem Token.isOperator_of_binaryOp? {t : Token} {op : BinaryOp} (h : t.binaryOp? = some op) :
    t.isOperator op.symbol = true := (isOperator_of_find? h).2

theorem Token.isOperator_of_augmentedOp? {t : Token} {op : BinaryOp} (h : t.augmentedOp? = some op) :
    t.isOperator op.augmented = true := (isOperator_of_find? h).2

theorem Token.isOperator_of_compareOp? {t : Token} {op : CompareOp} (h : t.compareOp? = some op) :
    op ∈ CompareOp.symbolic ∧ t.isOperator op.symbol = true := isOperator_of_find? h

inductive CompareOp.Spelling : CompareOp → List Piece → Prop where
  | symbolic {op : CompareOp} {t : Token} : t.compareOp? = some op → Spelling op [.token t]
  | isIn {t : Token} : t.isKeyword "in" → Spelling .isIn [.token t]
  | notIn {t u : Token} : t.isKeyword "not" → u.isKeyword "in" → Spelling .notIn [.token t, .token u]
  | is {t : Token} : t.isKeyword "is" → Spelling .is [.token t]
  | isNot {t u : Token} : t.isKeyword "is" → u.isKeyword "not" → Spelling .isNot [.token t, .token u]

inductive CompareOp.Link : CompareOp × Expr → List Piece → Prop where
  | intro {op : CompareOp} {e : Expr} {ts : List Token} {ps : List Piece} :
      op.Spelling ps → Link (op, e) (ps ++ [.expr e ts])

inductive Clause.Layer : Clause Expr → List Piece → Prop where
  | intro {target iterable : Expr} {conditions : List Expr} {isAsync : Bool} {loop within : Token}
      {ts us : List Token} {as ps : List Piece} :
      Marked (·.isKeyword "async") isAsync as →
      loop.isKeyword "for" → within.isKeyword "in" → target.badTarget? = none →
      Repeated (Led IsExpr (·.isKeyword "if")) conditions ps →
      Layer { target, iterable, conditions, isAsync }
        (as ++ .token loop :: .expr target ts :: .token within :: .expr iterable us :: ps)

inductive ParameterKind.Mark : ParameterKind → List Piece → Prop where
  | regular : Mark .regular []
  | varPositional {t : Token} : t.isOperator "*" → Mark .varPositional [.token t]
  | varKeyword {t : Token} : t.isOperator "**" → Mark .varKeyword [.token t]

inductive ParameterItem.Layer : ParameterItem → List Piece → Prop where
  | slash {t : Token} : t.isOperator "/" → Layer .slash [.token t]
  | star {t : Token} : t.isOperator "*" → Layer .star [.token t]
  | parameter {kind : ParameterKind} {name : Token} { annotation default : Option Expr}
      {ms as ds : List Piece} : kind.Mark ms → name.kind = .name →
      Optionally (Led IsExpr (·.isOperator ":")) annotation as →
      Optionally (Led IsExpr (·.isOperator "=")) default ds →
      Layer (.parameter { name := name.text, kind, line := name.position.line, annotation, default })
        (ms ++ .token name :: (as ++ ds))

inductive ArgumentItem.Layer : ArgumentItem → List Piece → Prop where
  | argument {e : Expr} {ts : List Token} : Layer (.argument e) [.expr e ts]
  | keyword {name equals : Token} {e : Expr} {ts : List Token} : name.kind = .name →
      equals.isOperator "=" →
      Layer (.keyword ⟨name.text.nonempty?, e⟩) [.token name, .token equals, .expr e ts]
  | unpacked {t : Token} {e : Expr} {ts : List Token} : t.isOperator "**" →
      Layer (.keyword ⟨none, e⟩) [.token t, .expr e ts]

inductive Entry.Layer : Entry Expr → List Piece → Prop where
  | keyed {k v : Expr} {colon : Token} {ts us : List Token} : colon.isOperator ":" →
      Layer ⟨some k, v⟩ [.expr k ts, .token colon, .expr v us]
  | unpacked {t : Token} {v : Expr} {ts : List Token} : t.isOperator "**" →
      Layer ⟨none, v⟩ [.token t, .expr v ts]

inductive SliceStep : Option Expr → List Piece → Prop where
  | absent : SliceStep none []
  | present {colon : Token} {step : Option Expr} {ps : List Piece} : colon.isOperator ":" →
      Optionally IsExpr step ps → SliceStep step (.token colon :: ps)

def SequenceKind.brackets : SequenceKind → Bytes × Bytes
  | list => ("[", "]")
  | tuple => ("(", ")")
  | set => ("\x7b", "\x7d")

def ComprehensionKind.brackets : ComprehensionKind → Bytes × Bytes
  | list => ("[", "]")
  | generator => ("(", ")")
  | set => ("\x7b", "\x7d")

/-- An index and the brackets around it, which belong to a tuple of several elements. -/
inductive Expr.Index : Expr → List Piece → Prop where
  | one {index : Expr} {ts : List Token} {opening closing : Token} : opening.isOperator "[" →
      closing.isOperator "]" → Index index [.token opening, .expr index ts, .token closing]
  | several {elements : List Expr} {ts : List Token} {opening closing : Token} :
      opening.isOperator "[" → closing.isOperator "]" →
      Index ⟨opening.position, .sequence .tuple elements⟩
        [.expr ⟨opening.position, .sequence .tuple elements⟩ (opening :: (ts ++ [closing]))]

inductive Expr.Layer : Expr → List Piece → Prop where
  | name {t : Token} : t.kind = .name → Layer t.reference [.token t]
  | number {t : Token} : t.kind = .number →
      Layer ⟨t.position, .number t.value t.text t.imaginary⟩ [.token t]
  | string {t : Token} {ts : List Token} : t.kind = .string → (∀ u ∈ ts, u.kind = .string) →
      Layer ⟨t.position, .string (Bytes.join " " ((t :: ts).map Token.text))⟩ ((t :: ts).map .token)
  | constant {t : Token} {constant : Constant} : t.constant? = some constant →
      Layer ⟨t.position, .constant constant⟩ [.token t]
  | attr {e : Expr} {ts : List Token} {dot name : Token} : dot.isOperator "." → name.kind = .name →
      Layer ⟨e.position, .attr e name.text⟩ [.expr e ts, .token dot, .token name]
  | subscript {e index : Expr} {ts : List Token} {ps : List Piece} : index.Index ps →
      Layer ⟨e.position, .subscript e index⟩ (.expr e ts :: ps)
  | slice {start colon : Token} {lower upper step : Option Expr} {ls us ss ps : List Piece} :
      Optionally IsExpr lower ls → colon.isOperator ":" → Optionally IsExpr upper us →
      SliceStep step ss → ps = ls ++ .token colon :: (us ++ ss) →
      (tokensOf ps).head? = some start → Layer ⟨start.position, .slice lower upper step⟩ ps
  | call {e : Expr} {ts : List Token} {items : List ArgumentItem} {opening closing : Token}
      {ps : List Piece} : opening.isOperator "(" → Separated ArgumentItem.Layer "," items ps →
      closing.isOperator ")" →
      Layer ⟨e.position, .call e (items.filterMap ArgumentItem.argument?)
          (items.filterMap ArgumentItem.keyword?)⟩
        (.expr e ts :: .token opening :: (ps ++ [.token closing]))
  | unary {op : UnaryOp} {t : Token} {e : Expr} {ts : List Token} : Parser.sign? t = some op →
      Layer ⟨t.position, .unary op e⟩ [.token t, .expr e ts]
  | not {t : Token} {e : Expr} {ts : List Token} : t.isKeyword "not" →
      Layer ⟨t.position, .unary .not e⟩ [.token t, .expr e ts]
  | binary {op : BinaryOp} {l r : Expr} {t : Token} {ts us : List Token} : t.isOperator op.symbol →
      Layer ⟨l.position, .binary op l r⟩ [.expr l ts, .token t, .expr r us]
  | boolean {op : BoolOp} {first : Expr} {others : List Expr} {ts : List Token} {ps : List Piece} :
      others ≠ [] → Repeated (Led IsExpr (·.isKeyword op.symbol)) others ps →
      Layer ⟨first.position, .boolean op (first :: others)⟩ (.expr first ts :: ps)
  | compare {left : Expr} {links : List (CompareOp × Expr)} {ts : List Token} {ps : List Piece} :
      links ≠ [] → Repeated CompareOp.Link links ps →
      Layer ⟨left.position, .compare left links⟩ (.expr left ts :: ps)
  | conditional {test body orelse : Expr} {cond other : Token} {ts us vs : List Token} :
      cond.isKeyword "if" → other.isKeyword "else" →
      Layer ⟨body.position, .conditional test body orelse⟩
        [.expr body ts, .token cond, .expr test us, .token other, .expr orelse vs]
  | lambda {start colon : Token} {items : List ParameterItem} {body : Expr} {ts : List Token}
      {ps : List Piece} : start.isKeyword "lambda" → Separated ParameterItem.Layer "," items ps →
      colon.isOperator ":" → Layer ⟨start.position, .lambda (parametersOf items) body⟩
        (.token start :: (ps ++ [.token colon, .expr body ts]))
  | sequence {kind : SequenceKind} {opening closing : Token} {elements : List Expr}
      {ps : List Piece} : opening.isOperator kind.brackets.1 → Separated IsExpr "," elements ps →
      closing.isOperator kind.brackets.2 → Layer ⟨opening.position, .sequence kind elements⟩
        (.token opening :: (ps ++ [.token closing]))
  | bareTuple {p : Position} {first : Expr} {others : List Expr} {ps : List Piece} :
      Separated IsExpr "," (first :: others) ps →
      (p = first.position ∨ ∃ t, (tokensOf ps).head? = some t ∧ p = t.position) →
      Layer ⟨p, .sequence .tuple (first :: others)⟩ ps
  | indexTuple {opening closing : Token} {elements : List Expr} {ps : List Piece} :
      opening.isOperator "[" → elements ≠ [] → Separated IsExpr "," elements ps →
      closing.isOperator "]" → Layer ⟨opening.position, .sequence .tuple elements⟩
        (.token opening :: (ps ++ [.token closing]))
  | dict {opening closing : Token} {entries : List (Entry Expr)} {ps : List Piece} :
      opening.isOperator "\x7b" → Separated Entry.Layer "," entries ps →
      closing.isOperator "\x7d" → Layer ⟨opening.position, .dict entries⟩
        (.token opening :: (ps ++ [.token closing]))
  | comprehension {kind : ComprehensionKind} {opening closing : Token} {element : Expr}
      {clauses : List (Clause Expr)} {ts : List Token} {ps : List Piece} :
      opening.isOperator kind.brackets.1 → clauses ≠ [] → Repeated Clause.Layer clauses ps →
      closing.isOperator kind.brackets.2 →
      Layer ⟨opening.position, .comprehension kind element clauses⟩
        (.token opening :: .expr element ts :: (ps ++ [.token closing]))
  | bareGenerator {element : Expr} {clauses : List (Clause Expr)} {ts : List Token}
      {ps : List Piece} : clauses ≠ [] → Repeated Clause.Layer clauses ps →
      Layer ⟨element.position, .comprehension .generator element clauses⟩ (.expr element ts :: ps)
  | dictComprehension {opening colon closing : Token} {k v : Expr} {clauses : List (Clause Expr)}
      {ts us : List Token} {ps : List Piece} : opening.isOperator "\x7b" → colon.isOperator ":" →
      clauses ≠ [] → Repeated Clause.Layer clauses ps → closing.isOperator "\x7d" →
      Layer ⟨opening.position, .dictComprehension k v clauses⟩
        (.token opening :: .expr k ts :: .token colon :: .expr v us :: (ps ++ [.token closing]))
  | starred {t : Token} {e : Expr} {ts : List Token} : t.isOperator "*" →
      Layer ⟨t.position, .starred e⟩ [.token t, .expr e ts]
  | await {t : Token} {e : Expr} {ts : List Token} : t.isKeyword "await" →
      Layer ⟨t.position, .await e⟩ [.token t, .expr e ts]
  | yield {t : Token} {value : Option Expr} {ps : List Piece} : t.isKeyword "yield" →
      Optionally IsExpr value ps → Layer ⟨t.position, .yield value⟩ (.token t :: ps)
  | yieldFrom {t u : Token} {e : Expr} {ts : List Token} : t.isKeyword "yield" → u.isKeyword "from" →
      Layer ⟨t.position, .yieldFrom e⟩ [.token t, .token u, .expr e ts]
  | named {name t : Token} {value : Expr} {ts us : List Token} : name.kind = .name →
      t.isOperator ":=" → Layer ⟨name.position, .named name.reference value⟩
        [.expr name.reference ts, .token t, .expr value us]
  | capture {name t : Token} {pattern : Expr} {ts us : List Token} : name.kind = .name →
      t.isKeyword "as" → Layer ⟨pattern.position, .named name.reference pattern⟩
        [.expr pattern ts, .token t, .expr name.reference us]

inductive Expr.Reading : Expr → List Token → Prop where
  | layer {e : Expr} {ps : List Piece} : e.Layer ps → (∀ c ts, .expr c ts ∈ ps → Reading c ts) →
      Reading e (tokensOf ps)
  | grouped {e : Expr} {ts : List Token} {opening closing : Token} : opening.isOperator "(" →
      Reading e ts → closing.isOperator ")" → Reading e (opening :: (ts ++ [closing]))

theorem Expr.Layer.first {e : Expr} {ps : List Piece} (h : e.Layer ps) :
    ∃ p qs, ps = p :: qs ∧ p.hasText = true := by
  cases h with
  | name isName => exact ⟨_, _, rfl, hasText_of_kind isName rfl⟩
  | number isNumber => exact ⟨_, _, rfl, hasText_of_kind isNumber rfl⟩
  | string isString => exact ⟨_, _, rfl, hasText_of_kind isString rfl⟩
  | constant isConstant =>
    exact ⟨_, _, rfl, by simp [Piece.hasText, Token.not_isLayout_of_constant? isConstant]⟩
  | slice lower isColon _ _ same =>
    subst same
    cases lower with
    | none => exact ⟨_, _, rfl, hasText_of_isOperator isColon⟩
    | some one =>
      cases one
      exact ⟨_, _, rfl, rfl⟩
  | unary isSign => exact ⟨_, _, rfl, by simp [Piece.hasText, Token.not_isLayout_of_sign? isSign]⟩
  | sequence isOpening | dict isOpening | comprehension isOpening | dictComprehension isOpening
  | indexTuple isOpening | starred isOpening =>
    exact ⟨_, _, rfl, hasText_of_isOperator isOpening⟩
  | not isKey | lambda isKey | await isKey | yield isKey | yieldFrom isKey =>
    exact ⟨_, _, rfl, hasText_of_isKeyword isKey⟩
  | bareTuple elements =>
    cases elements with
    | cons one _ =>
      cases one
      exact ⟨_, _, rfl, rfl⟩
  | _ => exact ⟨_, _, rfl, rfl⟩

theorem Expr.Layer.hasText {e : Expr} {ps : List Piece} (h : e.Layer ps) :
    ps.any Piece.hasText = true := by
  obtain ⟨p, qs, rfl, text⟩ := h.first
  rw [List.any_cons, text, Bool.true_or]

theorem Expr.Reading.head {e : Expr} {ts : List Token} (h : e.Reading ts) :
    ∃ t, ts.head? = some t ∧ t.isLayout = false := by
  induction h with
  | layer layer _ ih =>
    obtain ⟨p, qs, rfl, text⟩ := layer.first
    cases p with
    | token t => exact ⟨t, rfl, by simpa [Piece.hasText] using text⟩
    | expr c ts =>
      obtain ⟨t, first, text⟩ := ih c ts (.head _)
      exact ⟨t, by simp [Piece.tokens, first], text⟩
    | stmt s ts => cases text
  | grouped isOpening _ _ _ => exact ⟨_, rfl, Token.not_isLayout_of_isOperator isOpening⟩

theorem Expr.Reading.text {e : Expr} {ts : List Token} (h : e.Reading ts) :
    ∃ t ∈ ts, t.isLayout = false := by
  obtain ⟨t, first, text⟩ := h.head
  exact ⟨t, List.mem_of_mem_head? first, text⟩

theorem Expr.Layer.stands {e : Expr} {ps : List Piece} (h : e.Layer ps) :
    (∃ t, (tokensOf ps).head? = some t ∧ t.position = e.position) ∨
      ∃ c us, .expr c us ∈ ps ∧ c.position = e.position := by
  cases h with
  | slice _ _ _ _ _ start => exact .inl ⟨_, start, rfl⟩
  | bareTuple elements place =>
    rcases place with rfl | ⟨t, start, rfl⟩
    · cases elements with
      | cons one _ =>
        cases one
        exact .inr ⟨_, _, .head _, rfl⟩
    · exact .inl ⟨t, start, rfl⟩
  | attr | subscript | call | binary | boolean | compare | conditional | bareGenerator | named
  | capture => exact .inr ⟨_, _, .head _, rfl⟩
  | _ => exact .inl ⟨_, rfl, rfl⟩

theorem Expr.Reading.position {e : Expr} {ts : List Token} (h : e.Reading ts) :
    ∃ t ∈ ts, t.isLayout = false ∧ t.position = e.position := by
  induction h with
  | @layer e ps layer readings ih =>
    rcases layer.stands with ⟨t, start, place⟩ | ⟨c, us, mem, place⟩
    · obtain ⟨u, start', text⟩ := (Expr.Reading.layer layer readings).head
      obtain rfl := Option.some.inj (start.symm.trans start')
      exact ⟨t, List.mem_of_mem_head? start, text, place⟩
    · obtain ⟨t, mem', text, place'⟩ := ih c us mem
      exact ⟨t, List.mem_flatMap.2 ⟨_, mem, mem'⟩, text, place'.trans place⟩
  | grouped _ _ _ ih =>
    obtain ⟨t, mem, text, place⟩ := ih
    exact ⟨t, List.mem_cons_of_mem _ (List.mem_append_left _ mem), text, place⟩

end CodeSmell
