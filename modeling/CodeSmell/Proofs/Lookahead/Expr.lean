import CodeSmell.Proofs.Lookahead.Walks

/-!
Where expressions stop. An expression does not end with a colon. Nested rules may be anything that keeps
this, and `walks_parse` closes the recursion.
-/

namespace CodeSmell.Parser

open Cursor

variable {a : Bool}

theorem firm_of_sign? {t : Token} {op : UnaryOp} (h : sign? t = some op) : t.Firm := by
  unfold sign? at h
  split_ifs at h with minus plus invert
  · exact .operator minus (by decide)
  · exact .operator plus (by decide)
  · exact .operator invert (by decide)

theorem firm_of_levelOp? {level : Nat} {t : Token} {op : BinaryOp}
    (h : levelOp? level t = some op) : t.Firm := by
  apply Token.Firm.operator (isOperator_of_levelOp? h).1
  cases op <;> decide

theorem firm_of_compareOp? {t : Token} {op : CompareOp} (h : t.compareOp? = some op) : t.Firm := by
  apply Token.Firm.operator (Token.isOperator_of_compareOp? h).2
  cases op <;> decide

theorem firm_of_spelling {op : CompareOp} {ps : List Piece} (h : op.Spelling ps) :
    ∀ t ∈ tokensOf ps, t.Firm := by
  cases h with
  | symbolic found => simpa [Piece.tokens] using firm_of_compareOp? found
  | isIn word | is word => simpa [Piece.tokens] using Token.Firm.keyword word
  | notIn word word' | isNot word word' =>
    simpa [Piece.tokens] using ⟨Token.Firm.keyword word, Token.Firm.keyword word'⟩

section Rules

variable {self : Rule → Parser Expr} (nested : ∀ rule {a : Bool}, Walks a (self rule) true)

theorem walks_checkTarget {e : Expr} : Walks a (checkTarget e) a := by
  unfold checkTarget
  cases e.badTarget? with
  | none => exact walks_pure
  | some p => exact walks_failAt

theorem walks_tupleOrOne {stop : Cursor → Bool} {item : Parser Expr}
    (each : ∀ {a}, Walks a item true) : Walks a (tupleOrOne stop item) true := by
  apply each.bind
  intro first
  apply WalksWhen.ifTest _ walks_pure
  exact ((walks_separatedTail (by decide) each).bind fun _ => walks_pure).always

include nested

theorem walks_after {t : Cursor → Bool} (firm : ∀ {c}, t c = true → c.peek.Firm) (rule : Rule) :
    WalksWhen (t · = true) a (do let _ ← advance; self rule) true :=
  (walks_advance.known fun _ => firm).bind fun _ => nested rule

theorem walks_afterColon (rule : Rule) :
    WalksWhen (·.atOperator ":" = true) a (do let _ ← advance; self rule) true :=
  walks_colon.bind fun _ => nested rule

theorem walks_rules (rule : Rule) {t : Cursor → Bool} : Walks a (optional t (self rule)) a :=
  walks_optional (nested rule).loose.always

theorem walks_starred (rule : Rule) :
    WalksWhen (·.atOperator "*" = true) a (starred (self rule)) true := by
  apply (walks_advance.known fun _ => firm_atOperator (by decide)).bind
  exact fun _ => (nested rule).bind fun _ => walks_pure

theorem walks_targetList : Walks a (targetList self) true :=
  walks_tupleOrOne (.ifTest (walks_starred nested .binary) (nested .binary))

theorem walks_clause : Walks a (clause self) true := by
  apply (walks_accept fun h => (firm_atKeyword h).text).bind
  intro _
  apply walks_expectKeyword.bind
  intro _
  apply (walks_targetList nested).bind
  intro _
  apply walks_checkTarget.bind
  intro _
  apply walks_expectKeyword.bind
  intro _
  apply (nested .orTest).bind
  intro _
  exact (walks_many (walks_after nested firm_atKeyword .orTest)).bind fun _ => walks_pure

theorem walks_clauses : Walks a (clauses self) a :=
  walks_many (walks_clause nested).loose.always

theorem walks_yieldExpr : Walks a (yieldExpr self) true := by
  apply walks_expectKeyword.bind
  intro _
  apply walks_ifAccept firm_atKeyword
  · exact (nested .test).bind fun _ => walks_pure
  · exact (walks_rules nested .starExprs).bind fun _ => walks_pure

theorem walks_parameter (kind : ParameterKind) (annotated : Bool) :
    Walks a (parameter self kind annotated) true := by
  apply walks_expectName.bind
  intro _
  apply (walks_optional ((walks_afterColon nested .test).known _)).bind
  · exact fun _ => walks_pure
  · exact fun _ colon => (Bool.and_eq_true_iff.1 colon).2

theorem walks_parameterItem (annotated : Bool) : Walks a (parameterItem self annotated) true := by
  have starred (kind : ParameterKind) :
      Walks true (.parameter <$> parameter self kind annotated : Parser ParameterItem) true :=
    (walks_parameter nested kind annotated).map
  apply walks_ifAccept (firm_atOperator (by decide)) walks_pure
  apply walks_ifAccept (firm_atOperator (by decide))
  · exact .ifTest (starred _).always walks_pure
  apply walks_ifAccept (firm_atOperator (by decide)) (starred _)
  apply (walks_parameter nested _ _).bind
  intro _
  apply (walks_optional (walks_after nested (firm_atOperator (by decide)) .test)).bind
  exact fun _ => walks_pure

theorem walks_parameters (closing : Bytes) (annotated : Bool) :
    Walks a (parameters self closing annotated) a :=
  (walks_commaList (walks_parameterItem nested annotated)).map

theorem walks_argumentItem : Walks a (argumentItem self) true := by
  apply WalksWhen.ifTest (walks_starred nested .test).map
  apply walks_ifAccept (firm_atOperator (by decide))
  · exact (nested .test).bind fun _ => walks_pure
  apply WalksWhen.ifTest
  · apply (walks_pair fun _ => (nested .test).bind fun _ => walks_pure).known
    intro c both
    obtain ⟨name, equals⟩ := Bool.and_eq_true_iff.1 both
    exact ⟨firm_atKind rfl (by decide) name, .operator equals (by decide)⟩
  · apply (nested .named).bind
    intro _
    apply WalksWhen.ifTest _ walks_pure
    exact ((walks_clauses nested).bind fun _ => walks_pure).always

theorem walks_arguments : Walks a (arguments self) true :=
  (walks_commaList (walks_argumentItem nested)).bind fun _ =>
    (walks_expectOperator (by decide)).bind fun _ => walks_pure

theorem walks_sliceFrom {start : Token} {lower : Option Expr} :
    Walks false (sliceFrom self start lower) false := by
  apply (walks_rules nested .test).bind
  intro _
  apply walks_ifColon
  · exact (walks_rules nested .test).bind fun _ => walks_pure
  · exact walks_pure.bind fun _ => walks_pure

theorem walks_sliceItem : Walks false (sliceItem self) false := by
  apply WalksWhen.look
  intro start
  apply WalksWhen.always
  apply (walks_rules nested .starNamed).bind
  intro lower
  apply (walks_accept fun h => Token.not_isLayout_of_isOperator h).bind
  intro colon
  cases lower <;> cases colon
  case some.false => exact walks_pure
  all_goals exact walks_sliceFrom nested

theorem walks_subscript : Walks a (subscript self) true := by
  have closing {e : Expr} : Walks false (do let _ ← expectOperator "]"; pure e) true :=
    (walks_expectOperator (by decide)).bind fun _ => walks_pure
  apply (walks_expectOperator (by decide)).loose.bind
  intro _
  apply (walks_sliceItem nested).bind
  intro _
  apply WalksWhen.ifTest
  · apply WalksWhen.always
    apply (walks_separatedTail (by decide) (walks_sliceItem nested)).bind
    exact fun _ => walks_pure.bind fun _ => closing
  · exact walks_pure.bind fun _ => closing

theorem walks_trailer : Walks a (trailer self) true := by
  apply walks_ifAccept (firm_atOperator (by decide))
  · exact walks_expectName.bind fun _ => walks_pure
  apply walks_ifAccept (firm_atOperator (by decide))
  · exact (walks_arguments nested).bind fun _ => walks_pure
  · exact (walks_subscript nested).map

theorem walks_parenthesized {opening : Token} : Walks a (parenthesized self opening) true := by
  have closing {e : Expr} {a : Bool} : Walks a (do let _ ← expectOperator ")"; pure e) true :=
    (walks_expectOperator (by decide)).bind fun _ => walks_pure
  apply walks_ifAccept (firm_atOperator (by decide)) walks_pure
  apply WalksWhen.ifTest
  · exact ((walks_yieldExpr nested).bind fun _ => closing).always
  apply (nested .starNamed).bind
  intro _
  apply WalksWhen.ifTest
  · exact ((walks_clauses nested).bind fun _ => closing).always
  apply WalksWhen.ifTest _ closing
  exact ((walks_separatedTail (by decide) (nested .starNamed)).bind fun _ => closing).always

theorem walks_elements {opening : Token} {closing : Bytes} {kind : SequenceKind}
    {loop : ComprehensionKind} {first : Expr} (other : closing ≠ ":") :
    Walks a (elements self opening closing kind loop first) true := by
  have closing {e : Expr} {a : Bool} : Walks a (do let _ ← expectOperator closing; pure e) true :=
    (walks_expectOperator other).bind fun _ => walks_pure
  apply WalksWhen.ifTest
  · exact ((walks_clauses nested).bind fun _ => closing).always
  · exact (walks_separatedTail (by decide) (nested .starNamed).loose).bind fun _ => closing

theorem walks_bracketed {opening : Token} : Walks a (bracketed self opening) true := by
  apply walks_ifAccept (firm_atOperator (by decide)) walks_pure
  exact (nested .starNamed).bind fun _ => walks_elements nested (by decide)

theorem walks_unpackedEntry : Walks a (unpackedEntry self) true :=
  (nested .binary).bind fun _ => walks_pure

theorem walks_entry : Walks a (entry self) true := by
  apply walks_ifAccept (firm_atOperator (by decide)) (walks_unpackedEntry nested)
  apply (nested .test).bind
  intro _
  apply walks_expectColon.bind
  exact fun _ => (nested .test).bind fun _ => walks_pure

theorem walks_entries {opening : Token} {first : Entry Expr} :
    Walks a (entries self opening first) true :=
  (walks_separatedTail (by decide) (walks_entry nested).loose).bind fun _ =>
    (walks_expectOperator (by decide)).bind fun _ => walks_pure

theorem walks_braced {opening : Token} : Walks a (braced self opening) true := by
  apply walks_ifAccept (firm_atOperator (by decide)) walks_pure
  apply walks_ifAccept (firm_atOperator (by decide))
  · exact (walks_unpackedEntry nested).bind fun _ => walks_entries nested
  apply (nested .starNamed).bind
  intro _
  apply walks_ifColon _ (walks_elements nested (by decide))
  apply (nested .test).bind
  intro _
  apply WalksWhen.ifTest _ (walks_entries nested)
  apply WalksWhen.always
  apply (walks_clauses nested).bind
  exact fun _ => (walks_expectOperator (by decide)).bind fun _ => walks_pure

omit nested in
theorem walks_stringRun : WalksWhen (·.atKind .string = true) a stringRun true := by
  have string : WalksWhen (·.atKind .string = true) true advance true :=
    walks_advance.known fun _ => firm_atKind rfl (by decide)
  apply (walks_advance.known fun _ => firm_atKind rfl (by decide)).bind
  exact fun _ => (walks_many string).bind fun _ => walks_pure

theorem walks_atom : Walks a (atom self) true := by
  apply WalksWhen.look
  intro t
  have taken {e : Expr} (firm : t.Firm) : WalksWhen (·.peek = t) a (do let _ ← advance; pure e) true :=
    (walks_advanceAt firm).bind fun _ => walks_pure
  cases kind : t.kind
  case name | number => exact taken (.of_kind (by rw [kind]; rfl) (by rw [kind]; decide))
  case string =>
    apply walks_stringRun.known
    rintro c rfl
    exact beq_iff_eq.2 kind
  all_goals
    simp only
    cases constant : t.constant? with
    | some value => exact taken (.constant constant)
    | none =>
      apply WalksWhen.always
      apply walks_ifAccept (firm_atOperator (by decide)) (walks_parenthesized nested)
      apply walks_ifAccept (firm_atOperator (by decide)) (walks_bracketed nested)
      exact walks_ifAccept (firm_atOperator (by decide)) (walks_braced nested) walks_fail

theorem walks_primary : Walks a (primary self) true := by
  apply WalksWhen.ifTest
  · apply (walks_advance.known fun _ => firm_atKeyword).bind
    exact fun _ => (nested .primary).bind fun _ => walks_pure
  · apply (walks_atom nested).bind
    exact fun _ => (walks_many (walks_trailer nested).always).bind fun _ => walks_pure

theorem walks_power : Walks a (power self) true := by
  apply (walks_primary nested).bind
  intro _
  apply walks_ifAccept (firm_atOperator (by decide)) _ walks_pure
  exact (nested .unary).bind fun _ => walks_pure

theorem walks_unary : Walks a (unary self) true := by
  apply WalksWhen.look
  intro t
  cases sign : sign? t with
  | none => exact (walks_power nested).always
  | some op =>
    apply (walks_advanceAt (firm_of_sign? sign)).bind
    exact fun _ => (nested .unary).bind fun _ => walks_pure

theorem walks_binary (depth : Nat) : Walks a (binary self depth) true := by
  induction depth generalizing a with
  | zero => exact walks_unary nested
  | succ depth ih =>
    apply ih.bind
    intro _
    apply (walks_manyKeyed _).bind fun _ => walks_pure
    intro op
    apply (walks_advance.known fun c found => firm_of_levelOp? found).bind
    exact fun _ => ih.bind fun _ => walks_pure

omit nested in
theorem walks_comparisonOp : WalksWhen (atComparison · = true) a comparisonOp true := by
  rintro c₀ c op c' ⟨before, start⟩ eq
  obtain ⟨ps, spelling, reads⟩ := sound_comparisonOp c op c' start eq
  apply before.reads reads
  · exact firm_of_spelling spelling
  · cases spelling <;> simp [Piece.tokens]

theorem walks_comparison : Walks a (comparison self) true := by
  apply (walks_binary nested 6).bind
  intro _
  apply (walks_many (walks_comparisonOp.bind fun _ => _)).bind
  · exact fun _ => .ite walks_pure walks_pure
  · exact fun _ => (walks_binary nested 6).bind fun _ => walks_pure

theorem walks_notTest : Walks a (notTest self) true := by
  apply WalksWhen.ifTest _ (walks_comparison nested)
  apply (walks_advance.known fun _ => firm_atKeyword).bind
  exact fun _ => (nested .notTest).bind fun _ => walks_pure

omit nested in
theorem walks_boolean {op : BoolOp} {item : Parser Expr} (each : ∀ {a}, Walks a item true) :
    Walks a (boolean op item) true := by
  apply each.bind
  intro _
  apply (walks_many ((walks_advance.known fun _ => firm_atKeyword).bind fun _ => each)).bind
  exact fun _ => .ite walks_pure walks_pure

theorem walks_orTest : Walks a (orTest self) true :=
  walks_boolean (walks_boolean (walks_notTest nested))

theorem walks_lambda : Walks a (lambda self) true := by
  apply walks_expectKeyword.bind
  intro _
  apply (walks_parameters nested _ _).bind
  intro _
  apply walks_expectColon.bind
  exact fun _ => (nested .test).bind fun _ => walks_pure

theorem walks_conditional : Walks a (conditional self) true := by
  apply WalksWhen.ifTest (walks_lambda nested).always
  apply (walks_orTest nested).bind
  intro _
  apply walks_ifAccept firm_atKeyword _ walks_pure
  apply (walks_orTest nested).bind
  intro _
  apply walks_expectKeyword.bind
  exact fun _ => (nested .test).bind fun _ => walks_pure

theorem walks_named : Walks a (named self) true := by
  apply WalksWhen.ifTest _ (walks_conditional nested)
  apply (walks_pair fun _ => (nested .test).bind fun _ => walks_pure).known
  intro c both
  obtain ⟨name, walrus⟩ := Bool.and_eq_true_iff.1 both
  exact ⟨firm_atKind rfl (by decide) name, .operator walrus (by decide)⟩

theorem walks_starNamed : Walks a (starNamed self) true :=
  .ifTest (walks_starred nested .binary) (walks_named nested)

theorem walks_body (rule : Rule) : Walks a (rule.body self) true := by
  cases rule with
  | starExprs => exact walks_tupleOrOne (walks_starNamed nested)
  | starNamed => exact walks_starNamed nested
  | named => exact walks_named nested
  | test => exact walks_conditional nested
  | orTest => exact walks_orTest nested
  | notTest => exact walks_notTest nested
  | binary => exact walks_binary nested 6
  | unary => exact walks_unary nested
  | primary => exact walks_primary nested

end Rules

theorem walks_within (bound : Nat) (rule : Rule) {a : Bool} :
    Walks a (Rule.within bound rule) true := by
  induction bound generalizing rule a with
  | zero => exact walks_fail
  | succ bound ih => exact walks_body ih rule

theorem walks_parse (rule : Rule) {a : Bool} : Walks a rule.parse true :=
  fun c₀ c => walks_within (c.left + 1) rule c₀ c

end CodeSmell.Parser
