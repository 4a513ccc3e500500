import CodeSmell.Proofs.Places.Keeps
import CodeSmell.Proofs.Renaming.Expr

/-!
Places of expressions. An expression stands at the place of a token with text, so that it is the same
wherever layout stands, and so does every part of it that cannot be assigned to.
-/

namespace CodeSmell

/-- The expression stands at one of the places `S`, and so does what in it cannot be assigned to. -/
structure Expr.Placed (S : Position → Prop) (e : Expr) : Prop where
  position : S e.position
  target : ∀ p, e.badTarget? = some p → S p

namespace Expr.Placed

variable {S : Position → Prop} {p : Position} {f : Form Expr}

theorem ofParts (place : S p)
    (parts : ∀ es, (Expr.mk p f).targetParts? = some es → ∀ e ∈ es, e.Placed S) :
    (Expr.mk p f).Placed S := by
  refine ⟨place, fun q bad => ?_⟩
  rw [badTarget?_eq] at bad
  split_ifs at bad
  split at bad
  · rwa [← Option.some.inj bad]
  · next es found =>
    obtain ⟨e, mem, bad⟩ := List.exists_of_findSome?_eq_some bad
    exact (parts es found e mem).target q bad

theorem whole (place : S p) (parts : (Expr.mk p f).targetParts? = none) : (Expr.mk p f).Placed S :=
  .ofParts place fun _ found => nomatch parts.symm.trans found

theorem starred {value : Expr} (place : S p) (h : value.Placed S) :
    (Expr.mk p (.starred value)).Placed S := by
  refine .ofParts place fun es found => ?_
  obtain rfl := Option.some.inj found
  exact List.forall_mem_singleton.2 h

theorem sequence {kind : SequenceKind} {es : List Expr} (place : S p) (h : Parser.Each (Expr.Placed S) es) :
    (Expr.mk p (.sequence kind es)).Placed S := by
  refine .ofParts place fun parts found => ?_
  cases kind with
  | list | tuple =>
    obtain rfl := Option.some.inj found
    exact h
  | set => cases found

theorem reference {t : Token} (place : S t.position) : t.reference.Placed S := .whole place rfl

theorem apply {e : Expr} (h : e.Placed S) (t : Trailer) : (Trailer.apply e t).Placed S := by
  cases t with
  | attr | call | subscript => exact .whole h.position rfl

end Expr.Placed

theorem foldl_keeps {α β : Type} {V : α → Prop} {f : α → β → α} (step : ∀ a x, V a → V (f a x))
    (xs : List β) {a : α} (first : V a) : V (xs.foldl f a) := by
  induction xs generalizing a with
  | nil => exact first
  | cons x xs ih => exact ih (step a x first)

namespace Parser

open Cursor

variable {S : Position → Prop} {k : Bool}

theorem chain_placed {e : Expr} (h : e.Placed S) (links : List (BinaryOp × Expr)) :
    (chain e links).Placed S :=
  foldl_keeps (fun _ _ h => .whole h.position rfl) links h

theorem keeps_checkTarget {e : Expr} (h : e.Placed S) : Keeps S false Whatever (checkTarget e) := by
  unfold checkTarget
  cases bad : e.badTarget? with
  | none => exact keeps_pure trivial
  | some p => exact keeps_failAt (h.target p bad)

theorem keeps_tupleOrOne {stop : Cursor → Bool} {item : Parser Expr} (h : Blind stop)
    (each : Keeps S k (Expr.Placed S) item) : Keeps S k (Expr.Placed S) (tupleOrOne stop item) := by
  refine each.bind fun first place => keeps_ifTest (textual_atOperator _).blind ?_ (keeps_pure place)
  exact (keeps_separatedTail h each.loose).bind fun others more =>
    keeps_pure (.sequence place.position (.cons place more))

section Rules

variable {self : Rule → Parser Expr} (nested : ∀ rule {k : Bool}, Keeps S k (Expr.Placed S) (self rule))

include nested

theorem keeps_starred (rule : Rule) : KeepsWhen S AtText k (Expr.Placed S) (starred (self rule)) :=
  keeps_advance.bind fun _ star => (nested rule).bind fun _ value => keeps_pure (.starred star value)

theorem keeps_targetList : Keeps S k (Expr.Placed S) (targetList self) :=
  keeps_tupleOrOne blind_opensExpression.not <| keeps_byTest (textual_atOperator _).blind
    ((keeps_starred nested .binary).known (textual_atOperator _).text) (nested .binary).always

theorem keeps_clause : Keeps S false Whatever (clause self) := by
  refine (keeps_accept (textual_atKeyword _).blind).bind fun _ _ => keeps_expectKeyword.bind fun _ _ => ?_
  refine (keeps_targetList nested).bind fun _ target => (keeps_checkTarget target).bind fun _ _ => ?_
  refine keeps_expectKeyword.bind fun _ _ => (nested .orTest).bind fun _ _ => ?_
  exact (keeps_many (textual_atKeyword _).blind (keeps_skip (nested .orTest)).always).bind
    fun _ _ => keeps_pure trivial

theorem keeps_clauses : Keeps S false Whatever (clauses self) :=
  (keeps_many textual_atClause.blind (keeps_clause nested).always).whatever

theorem keeps_yieldExpr : Keeps S k (Expr.Placed S) (yieldExpr self) := by
  refine keeps_expectKeyword.bind fun _ start => keeps_ifAccept (textual_atKeyword _) ?_ ?_
  · exact (nested .test).bind fun _ _ => keeps_pure (.whole start rfl)
  · exact (keeps_optional blind_opensExpression (nested .starExprs).always).bind fun _ _ =>
      keeps_pure (.whole start rfl)

theorem keeps_parameter (kind : ParameterKind) (annotated : Bool) :
    Keeps S k Whatever (parameter self kind annotated) := by
  refine keeps_expectName.bind fun _ _ => ?_
  have colon : Blind fun c => annotated && c.atOperator ":" :=
    fun _ _ _ same => congrArg (annotated && ·) ((textual_atOperator ":").blind same)
  exact (keeps_optional colon (keeps_skip (nested .test)).always).bind fun _ _ => keeps_pure trivial

theorem keeps_parameterItem (annotated : Bool) :
    Keeps S false Whatever (parameterItem self annotated) := by
  have starred (kind : ParameterKind) : Keeps S false Whatever
      (.parameter <$> parameter self kind annotated : Parser ParameterItem) :=
    (keeps_parameter nested kind annotated).map fun _ => id
  refine keeps_ifAccept (textual_atOperator _) (keeps_pure trivial) ?_
  refine keeps_ifAccept (textual_atOperator _)
    (keeps_ifTest (blind_atKind _) (starred _) (keeps_pure trivial)) ?_
  refine keeps_ifAccept (textual_atOperator _) (starred _) ?_
  refine (keeps_parameter nested _ _).bind fun _ _ => ?_
  exact (keeps_optional (textual_atOperator _).blind (keeps_skip (nested .test)).always).bind
    fun _ _ => keeps_pure trivial

theorem keeps_parameters (closing : Bytes) (annotated : Bool) :
    Keeps S false Whatever (parameters self closing annotated) :=
  (keeps_commaList (textual_atOperator _).blind (keeps_parameterItem nested annotated)).map
    fun _ _ => trivial

theorem keeps_argumentItem : Keeps S false Whatever (argumentItem self) := by
  refine keeps_byTest (textual_atOperator _).blind ?_ (KeepsWhen.always ?_)
  · exact ((keeps_starred nested .test).known (textual_atOperator _).text).map fun _ _ => trivial
  refine keeps_ifAccept (textual_atOperator _) ?_ (keeps_byTest textual_atKeywordArgument.blind ?_
    (KeepsWhen.always ?_))
  · exact (nested .test).bind fun _ _ => keeps_pure trivial
  · refine (keeps_advance.known textual_atKeywordArgument.text).bind fun _ _ => ?_
    exact keeps_skip ((nested .test).bind fun _ _ => keeps_pure trivial)
  refine (nested .named).bind fun _ _ => keeps_ifTest textual_atClause.blind ?_ (keeps_pure trivial)
  exact (keeps_clauses nested).bind fun _ _ => keeps_pure trivial

theorem keeps_arguments : Keeps S false Whatever (arguments self) :=
  (keeps_commaList (textual_atOperator _).blind (keeps_argumentItem nested)).bind fun _ _ =>
    keeps_expectOperator.bind fun _ _ => keeps_pure trivial

theorem keeps_sliceFrom {start : Token} (place : S start.position) (lower : Option Expr) :
    Keeps S false (Expr.Placed S) (sliceFrom self start lower) := by
  have slice {upper step : Option Expr} : Keeps S false (Expr.Placed S)
      (pure ⟨start.position, .slice lower upper step⟩) := keeps_pure (.whole place rfl)
  refine (keeps_optional ((textual_atOperator _).or textual_atSliceEnd).blind.not
    (nested .test).always).bind fun _ _ => keeps_ifAccept (textual_atOperator _) ?_ ?_
  · exact (keeps_optional textual_atSliceEnd.blind.not (nested .test).always).bind fun _ _ => slice
  · exact (keeps_pure (V := Whatever) trivial).bind fun _ _ => slice

theorem keeps_sliceItem : Keeps S k (Expr.Placed S) (sliceItem self) := by
  have colon : Textual (·.atOperator ":") := textual_atOperator _
  refine keeps_look fun start place c d _ same => ?_
  cases holds : c.atOperator ":" with
  | true =>
    refine KeepsWhen.told (P := (·.atOperator ":" = true)) (j := false) ?_ (fun _ => colon.text)
      c d holds same
    refine keeps_absent colon.blind.not (fun c colon => by simp [colon]) (KeepsWhen.always ?_)
    refine (keeps_accept colon.blind).bind ?_
    rintro (_ | _) _
    all_goals exact keeps_sliceFrom nested place none
  | false =>
    have lower := keeps_present colon.blind.not (nested .starNamed (k := true)).always
    refine (lower.known (P := (·.atOperator ":" = false)) fun c none => by simpa using none).bind ?_
      c d holds same
    rintro _ ⟨index, stands, rfl⟩
    refine (keeps_accept colon.blind).bind ?_
    rintro (_ | _) _
    · exact keeps_pure stands
    · exact keeps_sliceFrom nested place _

theorem keeps_subscript : Keeps S false Whatever (subscript self) := by
  refine keeps_expectOperator.bind fun _ opening => (keeps_sliceItem nested).bind fun _ first => ?_
  have closing {e : Expr} : Keeps S false Whatever (do let _ ← expectOperator "]"; pure e) :=
    keeps_expectOperator.bind fun _ _ => keeps_pure trivial
  refine keeps_ifTest (textual_atOperator _).blind ?_ ?_
  · refine (keeps_separatedTail (textual_atOperator _).blind (keeps_sliceItem nested)).bind fun _ _ => ?_
    exact (keeps_pure (V := Whatever) trivial).bind fun _ _ => closing
  · exact (keeps_pure (V := Whatever) trivial).bind fun _ _ => closing

theorem keeps_trailer : Keeps S false Whatever (trailer self) := by
  refine keeps_ifAccept (textual_atOperator _) ?_ (keeps_ifAccept (textual_atOperator _) ?_ ?_)
  · exact keeps_expectName.bind fun _ _ => keeps_pure trivial
  · exact (keeps_arguments nested).bind fun _ _ => keeps_pure trivial
  · exact (keeps_subscript nested).map fun _ _ => trivial

theorem keeps_parenthesized {opening : Token} (place : S opening.position) :
    Keeps S false (Expr.Placed S) (parenthesized self opening) := by
  have closing {e : Expr} (h : e.Placed S) :
      Keeps S false (Expr.Placed S) (do let _ ← expectOperator ")"; pure e) :=
    keeps_expectOperator.bind fun _ _ => keeps_pure h
  refine keeps_ifAccept (textual_atOperator _) (keeps_pure (.sequence place .nil)) ?_
  refine keeps_ifTest (textual_atKeyword _).blind ?_ ?_
  · exact (keeps_yieldExpr nested).bind fun _ value => closing value
  refine (nested .starNamed).bind fun _ first => keeps_ifTest textual_atClause.blind ?_ ?_
  · exact (keeps_clauses nested).bind fun _ _ => closing (.whole place rfl)
  refine keeps_ifTest (textual_atOperator _).blind ?_ (closing first)
  exact (keeps_separatedTail (textual_atOperator _).blind (nested .starNamed)).bind
    fun _ others => closing (.sequence place (.cons first others))

theorem keeps_elements {opening : Token} {closing : Bytes} {kind : SequenceKind}
    {loop : ComprehensionKind} {first : Expr} (place : S opening.position) (h : first.Placed S) :
    Keeps S false (Expr.Placed S) (elements self opening closing kind loop first) := by
  refine keeps_ifTest textual_atClause.blind ?_ ?_
  · exact (keeps_clauses nested).bind fun _ _ => keeps_expectOperator.bind
      fun _ _ => keeps_pure (.whole place rfl)
  · exact (keeps_separatedTail (textual_atOperator _).blind (nested .starNamed)).bind
      fun _ others => keeps_expectOperator.bind
        fun _ _ => keeps_pure (.sequence place (.cons h others))

theorem keeps_bracketed {opening : Token} (place : S opening.position) :
    Keeps S false (Expr.Placed S) (bracketed self opening) :=
  keeps_ifAccept (textual_atOperator _) (keeps_pure (.sequence place .nil)) <|
    (nested .starNamed).bind fun _ first => keeps_elements nested place first

theorem keeps_unpackedEntry : Keeps S false Whatever (unpackedEntry self) :=
  (nested .binary).bind fun _ _ => keeps_pure trivial

theorem keeps_entry : Keeps S false Whatever (entry self) := by
  refine keeps_ifAccept (textual_atOperator _) (keeps_unpackedEntry nested) ?_
  exact (nested .test).bind fun _ _ => keeps_expectOperator.bind fun _ _ =>
    (nested .test).bind fun _ _ => keeps_pure trivial

theorem keeps_entries {opening : Token} {first : Entry Expr} (place : S opening.position) :
    Keeps S false (Expr.Placed S) (entries self opening first) :=
  (keeps_separatedTail (textual_atOperator _).blind (keeps_entry nested)).bind fun _ _ =>
    keeps_expectOperator.bind fun _ _ => keeps_pure (.whole place rfl)

theorem keeps_braced {opening : Token} (place : S opening.position) :
    Keeps S false (Expr.Placed S) (braced self opening) := by
  refine keeps_ifAccept (textual_atOperator _) (keeps_pure (.whole place rfl)) ?_
  refine keeps_ifAccept (textual_atOperator _) ?_ ?_
  · exact (keeps_unpackedEntry nested).bind fun _ _ => keeps_entries nested place
  refine (nested .starNamed).bind fun _ first => ?_
  refine keeps_ifAccept (textual_atOperator _) ?_ (keeps_elements nested place first)
  refine (nested .test).bind fun _ _ => keeps_ifTest textual_atClause.blind ?_ (keeps_entries nested place)
  exact (keeps_clauses nested).bind fun _ _ => keeps_expectOperator.bind
    fun _ _ => keeps_pure (.whole place rfl)

omit nested in
theorem keeps_stringRun : KeepsWhen S AtText k (Expr.Placed S) stringRun := by
  have string : Textual (·.atKind .string) := textual_atKind rfl
  refine keeps_advance.bind fun _ first => ?_
  exact (keeps_many string.blind (keeps_advance.known string.text)).bind
    fun _ _ => keeps_pure (.whole first rfl)

theorem keeps_atom : Keeps S k (Expr.Placed S) (atom self) := by
  refine keeps_look fun t place => ?_
  have taken {e : Expr} (text : t.isLayout = false) (h : e.Placed S) :
      KeepsWhen S (·.peek = t) true (Expr.Placed S) (do let _ ← advance; pure e) :=
    (keeps_skip (keeps_pure h)).always.told fun _ c is => by rw [AtText, is, text]
  cases kind : t.kind
  case name => exact taken (by rw [Token.isLayout, kind]; rfl) (.reference place)
  case number => exact taken (by rw [Token.isLayout, kind]; rfl) (.whole place rfl)
  case string => exact keeps_stringRun.known fun c is => by rw [AtText, is, Token.isLayout, kind]; rfl
  all_goals
    simp only
    cases constant : t.constant? with
    | some value => exact taken (Token.not_isLayout_of_constant? constant) (.whole place rfl)
    | none =>
      refine .always <| keeps_ifAccept (textual_atOperator _) (keeps_parenthesized nested place) ?_
      refine keeps_ifAccept (textual_atOperator _) (keeps_bracketed nested place) ?_
      exact keeps_ifAccept (textual_atOperator _) (keeps_braced nested place) keeps_fail

theorem keeps_primary : Keeps S k (Expr.Placed S) (primary self) := by
  have await : Textual (·.atKeyword "await") := textual_atKeyword _
  refine keeps_byTest await.blind ?_ (KeepsWhen.always ?_)
  · exact (keeps_advance.known await.text).bind fun _ start =>
      (nested .primary).bind fun _ _ => keeps_pure (.whole start rfl)
  · refine (keeps_atom nested).bind fun base stands => ?_
    exact (keeps_many textual_atTrailer.blind (keeps_trailer nested).always).bind
      fun trailers _ => keeps_pure (foldl_keeps (fun _ t h => h.apply t) trailers stands)

theorem keeps_power : Keeps S k (Expr.Placed S) (power self) := by
  refine (keeps_primary nested).bind fun base stands => ?_
  refine keeps_ifAccept (textual_atOperator _) ?_ (keeps_pure stands)
  exact (nested .unary).bind fun _ _ => keeps_pure (.whole stands.position rfl)

theorem keeps_unary : Keeps S k (Expr.Placed S) (unary self) := by
  refine keeps_look fun t place => ?_
  cases sign : sign? t with
  | none => exact (keeps_power nested).always
  | some op =>
    have operand : Keeps S false (Expr.Placed S) (do
        let _ ← advance
        let operand ← self .unary
        pure ⟨t.position, .unary op operand⟩) :=
      keeps_skip ((nested .unary).bind fun _ _ => keeps_pure (.whole place rfl))
    exact operand.always.told fun _ c is => by rw [AtText, is, Token.not_isLayout_of_sign? sign]

theorem keeps_binary (depth : Nat) : Keeps S k (Expr.Placed S) (binary self depth) := by
  induction depth generalizing k with
  | zero => exact keeps_unary nested
  | succ depth ih =>
    refine ih.bind fun first stands => ?_
    refine (keeps_manyKeyed (V := Whatever) (fun _ _ _ same => same.peek.levelOp? _) fun op => ?_).bind
      fun links _ => keeps_pure (chain_placed stands links)
    exact .always <| keeps_skip <| ih.bind fun _ _ => keeps_pure trivial

theorem keeps_operand : Keeps S k (Expr.Placed S) (operand self) := keeps_binary nested 6

omit nested in
theorem keeps_comparisonOp : KeepsWhen S AtText k Whatever comparisonOp := by
  refine keeps_advance.bind fun t _ => ?_
  cases t.compareOp? with
  | some op => exact keeps_pure trivial
  | none =>
    refine .ite (keeps_pure trivial) (.ite (keeps_skip (keeps_pure trivial)) ?_)
    exact keeps_ifAccept (textual_atKeyword _) (keeps_pure trivial) (keeps_pure trivial)

theorem keeps_comparison : Keeps S k (Expr.Placed S) (comparison self) := by
  refine (keeps_operand nested).bind fun left stands => ?_
  have link : KeepsWhen S (atComparison · = true) false Whatever
      (do let op ← comparisonOp; let right ← operand self; pure (op, right)) :=
    (keeps_comparisonOp.known textual_atComparison.text).bind fun _ _ =>
      (keeps_operand nested).bind fun _ _ => keeps_pure trivial
  exact (keeps_many textual_atComparison.blind link).bind fun _ _ =>
    .ite (keeps_pure stands) (keeps_pure (.whole stands.position rfl))

theorem keeps_notTest : Keeps S k (Expr.Placed S) (notTest self) := by
  have not : Textual (·.atKeyword "not") := textual_atKeyword _
  refine keeps_byTest not.blind ?_ (keeps_comparison nested).always
  exact (keeps_advance.known not.text).bind fun _ start =>
    (nested .notTest).bind fun _ _ => keeps_pure (.whole start rfl)

omit nested in
theorem keeps_boolean {op : BoolOp} {item : Parser Expr} (each : Keeps S k (Expr.Placed S) item) :
    Keeps S k (Expr.Placed S) (boolean op item) := by
  refine each.bind fun first stands => ?_
  exact (keeps_many (textual_atKeyword _).blind (keeps_skip each.loose).always).bind fun _ _ =>
    .ite (keeps_pure stands) (keeps_pure (.whole stands.position rfl))

theorem keeps_andTest : Keeps S k (Expr.Placed S) (andTest self) := keeps_boolean (keeps_notTest nested)

theorem keeps_orTest : Keeps S k (Expr.Placed S) (orTest self) := keeps_boolean (keeps_andTest nested)

theorem keeps_lambda : Keeps S k (Expr.Placed S) (lambda self) := by
  refine keeps_expectKeyword.bind fun _ start => (keeps_parameters nested _ _).bind fun _ _ => ?_
  exact keeps_expectOperator.bind fun _ _ => (nested .test).bind fun _ _ => keeps_pure (.whole start rfl)

theorem keeps_conditional : Keeps S k (Expr.Placed S) (conditional self) := by
  refine keeps_ifTest (textual_atKeyword _).blind (keeps_lambda nested) ?_
  refine (keeps_orTest nested).bind fun body stands => ?_
  refine keeps_ifAccept (textual_atKeyword _) ?_ (keeps_pure stands)
  exact (keeps_orTest nested).bind fun _ _ => keeps_expectKeyword.bind fun _ _ =>
    (nested .test).bind fun _ _ => keeps_pure (.whole stands.position rfl)

theorem keeps_named : Keeps S k (Expr.Placed S) (named self) := by
  have starts : Textual fun c => c.atKind .name && c.peekSecond.isOperator ":=" :=
    (textual_atKind rfl).and (blind_secondIsOperator _)
  refine keeps_byTest starts.blind ?_ (keeps_conditional nested).always
  exact (keeps_advance.known starts.text).bind fun _ name =>
    keeps_skip ((nested .test).bind fun _ _ => keeps_pure (.whole name rfl))

theorem keeps_starNamed : Keeps S k (Expr.Placed S) (starNamed self) :=
  keeps_byTest (textual_atOperator _).blind
    ((keeps_starred nested .binary).known (textual_atOperator _).text) (keeps_named nested).always

theorem keeps_body (rule : Rule) : Keeps S k (Expr.Placed S) (rule.body self) := by
  cases rule with
  | starExprs => exact keeps_tupleOrOne blind_opensExpression.not (keeps_starNamed nested)
  | starNamed => exact keeps_starNamed nested
  | named => exact keeps_named nested
  | test => exact keeps_conditional nested
  | orTest => exact keeps_orTest nested
  | notTest => exact keeps_notTest nested
  | binary => exact keeps_operand nested
  | unary => exact keeps_unary nested
  | primary => exact keeps_primary nested

end Rules

theorem keeps_within (bound : Nat) (rule : Rule) :
    Keeps S k (Expr.Placed S) (Rule.within bound rule) := by
  induction bound generalizing rule k with
  | zero => exact keeps_fail
  | succ bound ih => exact keeps_body (fun rule _ => ih rule) rule

theorem keeps_parse (rule : Rule) : Keeps S k (Expr.Placed S) rule.parse := by
  intro c d _ same
  unfold Rule.parse
  rw [same.left]
  exact keeps_within (c.left + 1) rule c d trivial same

end Parser

end CodeSmell
