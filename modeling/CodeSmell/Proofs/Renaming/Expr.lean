import CodeSmell.Proofs.Grammar.Shape
import CodeSmell.Proofs.Renaming.Tracks

/-!
Expressions up to a renaming. Of an expression, the grammar looks at its place, at whether it can be
assigned to and at whether it is a call; a renaming keeps all of that. Every rule for expressions goes
together with itself on renamed tokens, takes a token if it succeeds and is never stuck.
-/

namespace CodeSmell

def Expr.isCall (e : Expr) : Bool :=
  match e.form with
  | .call .. => true
  | _ => false

structure Expr.Renamed (e d : Expr) : Prop where
  position : e.position = d.position
  isPlainTarget : e.isPlainTarget = d.isPlainTarget
  badTarget? : e.badTarget? = d.badTarget?
  isCall : e.isCall = d.isCall

namespace Expr.Renamed

variable {p q : Position} {e d value value' : Expr} {f g : Form Expr}

theorem refl (e : Expr) : e.Renamed e := ⟨rfl, rfl, rfl, rfl⟩

theorem ofParts (same : p = q) (plain : (Expr.mk p f).isPlainTarget = (Expr.mk q g).isPlainTarget)
    (call : (Expr.mk p f).isCall = (Expr.mk q g).isCall)
    (parts : Option.Rel (List.Forall₂ Renamed) (Expr.mk p f).targetParts? (Expr.mk q g).targetParts?) :
    Renamed ⟨p, f⟩ ⟨q, g⟩ := by
  obtain rfl := same
  refine ⟨rfl, plain, ?_, call⟩
  rw [badTarget?_eq, badTarget?_eq, plain]
  generalize (Expr.mk p f).targetParts? = es, (Expr.mk p g).targetParts? = ds at parts
  cases parts with
  | none => rfl
  | some parts =>
    congr 1
    simp only
    induction parts with
    | nil => rfl
    | cons one _ ih => rw [List.findSome?_cons, List.findSome?_cons, one.badTarget?, ih]

theorem whole (same : p = q) (plain : (Expr.mk p f).isPlainTarget = (Expr.mk q g).isPlainTarget)
    (call : (Expr.mk p f).isCall = (Expr.mk q g).isCall) (parts : (Expr.mk p f).targetParts? = none)
    (parts' : (Expr.mk q g).targetParts? = none) : Renamed ⟨p, f⟩ ⟨q, g⟩ := by
  refine .ofParts same plain call ?_
  rw [parts, parts']
  exact .none

theorem starred (same : p = q) (h : value.Renamed value') :
    Renamed ⟨p, .starred value⟩ ⟨q, .starred value'⟩ :=
  .ofParts same rfl rfl (.some (.cons h .nil))

theorem sequence {kind : SequenceKind} {es ds : List Expr} (same : p = q)
    (h : List.Forall₂ Renamed es ds) : Renamed ⟨p, .sequence kind es⟩ ⟨q, .sequence kind ds⟩ := by
  refine .ofParts same rfl rfl ?_
  cases kind with
  | list | tuple => exact .some h
  | set => exact .none

theorem reference {t u : Token} (h : t.Renamed u) : t.reference.Renamed u.reference :=
  .whole h.position rfl rfl rfl rfl

end Expr.Renamed

inductive Trailer.Renamed : Trailer → Trailer → Prop where
  | attr {name name' : Bytes} : Renamed (.attr name) (.attr name')
  | call {arguments arguments' : List Expr} {keywords keywords' : List (Keyword Expr)} :
    Renamed (.call arguments keywords) (.call arguments' keywords')
  | subscript {index index' : Expr} : Renamed (.subscript index) (.subscript index')

theorem Trailer.Renamed.apply {e d : Expr} {t u : Trailer} (same : e.Renamed d) (h : t.Renamed u) :
    (Trailer.apply e t).Renamed (Trailer.apply d u) := by
  cases h with
  | attr | call | subscript => exact .whole same.position rfl rfl rfl rfl

theorem foldl_related {α β : Type} {R : α → α → Prop} {V : β → β → Prop} {f g : α → β → α}
    {xs ys : List β} (step : ∀ a b x y, R a b → V x y → R (f a x) (g b y)) (h : List.Forall₂ V xs ys)
    {a b : α} (first : R a b) : R (xs.foldl f a) (ys.foldl g b) := by
  induction h generalizing a b with
  | nil => exact first
  | cons one _ ih => exact ih (step a b _ _ first one)

namespace Parser

open Cursor

variable {n : Nat}

def Any {α : Type} (_ _ : α) : Prop := True

theorem TracksWhen.any {α : Type} {P : Cursor → Prop} {k : Nat} {V : α → α → Prop} {p q : Parser α}
    (h : TracksWhen P n k V p q) : TracksWhen P n k Any p q :=
  h.mono fun _ _ _ => trivial

theorem chain_renamed {e d : Expr} {links links' : List (BinaryOp × Expr)} (same : e.Renamed d)
    (h : List.Forall₂ Any links links') : (chain e links).Renamed (chain d links') :=
  foldl_related (fun _ _ _ _ same _ => .whole same.position rfl rfl rfl rfl) h same

theorem tracks_checkTarget {e d : Expr} (h : e.Renamed d) :
    Tracks n 0 Eq (checkTarget e) (checkTarget d) := by
  unfold checkTarget
  rw [h.badTarget?]
  cases d.badTarget? with
  | none => exact tracks_pure rfl
  | some position => exact tracks_failAt (by decide)

theorem tracks_tupleOrOne {k : Nat} {stop : Cursor → Bool} {item : Parser Expr} (h : Steady stop)
    (each : Tracks n k Expr.Renamed item item) :
    Tracks n k Expr.Renamed (tupleOrOne stop item) (tupleOrOne stop item) := by
  refine each.bind fun first first' same => tracks_ifTest (steady_atOperator _) ?_ (tracks_pure same)
  exact (tracks_separatedTail h each.loose).bind fun others others' more =>
    tracks_pure (.sequence same.position (.cons same more))

def sliceFrom (self : Rule → Parser Expr) (start : Token) (lower : Option Expr) : Parser Expr := do
  let upper ← optional (fun c => !(c.atOperator ":" || atSliceEnd c)) (self .test)
  let step ← if ← acceptOperator ":" then optional (!atSliceEnd ·) (self .test) else pure none
  pure ⟨start.position, .slice lower upper step⟩

section Rules

variable {self : Rule → Parser Expr} (nested : ∀ rule, Tracks n 1 Expr.Renamed (self rule) (self rule))

include nested

theorem tracks_starred (rule : Rule) : TracksWhen (·.rest ≠ []) (n + 1) 1 Expr.Renamed
    (starred (self rule)) (starred (self rule)) :=
  tracks_advance.next fun _ _ star =>
    (nested rule).loose.bind fun _ _ value => tracks_pure (.starred star.position value)

theorem tracks_targetList : Tracks n 1 Expr.Renamed (targetList self) (targetList self) :=
  tracks_tupleOrOne steady_opensExpression.not <| tracks_ifTest (steady_atOperator _)
    (tracks_advance?.before fun _ _ star =>
      (nested .binary).bind fun _ _ value => tracks_pure (.starred star.position value))
    (nested .binary)

theorem tracks_after (rule : Rule) : Tracks n 1 Expr.Renamed (do let _ ← advance; self rule)
    (do let _ ← advance; self rule) :=
  tracks_advance?.before fun _ _ _ => nested rule

theorem tracks_clause : Tracks (n + 1) 1 Any (clause self) (clause self) := by
  refine tracks_acceptKeyword.before fun _ _ _ => tracks_expectKeyword.next fun _ _ _ => ?_
  refine (tracks_targetList nested).loose.bind fun _ _ target => ?_
  refine (tracks_checkTarget target).bind fun _ _ _ => tracks_expectKeyword.loose.bind fun _ _ _ => ?_
  refine (nested .orTest).loose.bind fun _ _ _ => ?_
  exact (tracks_many (steady_atKeyword _) (tracks_after nested .orTest).always).bind
    fun _ _ _ => tracks_pure trivial

theorem tracks_clauses :
    Tracks n 0 (List.Forall₂ Any) (clauses self) (clauses self) :=
  tracks_many solid_atClause.steady (tracks_clause nested).lower.always

theorem tracks_yieldExpr : Tracks (n + 1) 1 Expr.Renamed (yieldExpr self) (yieldExpr self) := by
  refine tracks_expectKeyword.next fun _ _ start => tracks_ifAccept? (steady_atKeyword _) ?_ ?_
  · exact (nested .test).loose.bind fun _ _ _ => tracks_pure (.whole start.position rfl rfl rfl rfl)
  · refine (tracks_optional steady_opensExpression (nested .starExprs).loose.always).bind ?_
    exact fun _ _ _ => tracks_pure (.whole start.position rfl rfl rfl rfl)

theorem tracks_parameter (kind : ParameterKind) (annotated : Bool) :
    Tracks (n + 1) 1 Any (parameter self kind annotated) (parameter self kind annotated) := by
  refine tracks_expectName.next fun _ _ _ => ?_
  have colon : Steady fun c => annotated && c.atOperator ":" :=
    fun _ _ same => congrArg (annotated && ·) (steady_atOperator ":" same)
  exact (tracks_optional colon (tracks_after nested .test).loose.always).bind
    fun _ _ _ => tracks_pure trivial

theorem tracks_parameterItem (annotated : Bool) :
    Tracks (n + 1) 1 Any (parameterItem self annotated) (parameterItem self annotated) := by
  refine tracks_ifAccept (solid_atOperator _) (tracks_pure trivial) ?_
  refine tracks_ifAccept (solid_atOperator _) (tracks_ifTest (steady_atKind _) ?_ (tracks_pure trivial)) ?_
  · exact (tracks_parameter nested _ _).lower.loose.map fun _ _ _ => trivial
  refine tracks_ifAccept (solid_atOperator _) ?_ ?_
  · exact (tracks_parameter nested _ _).lower.loose.map fun _ _ _ => trivial
  refine (tracks_parameter nested _ _).next fun _ _ _ => ?_
  exact (tracks_optional (steady_atOperator _) (tracks_after nested .test).loose.always).bind
    fun _ _ _ => tracks_pure trivial

theorem tracks_parameters (closing : Bytes) (annotated : Bool) :
    Tracks n 0 Any (parameters self closing annotated) (parameters self closing annotated) :=
  (tracks_commaList (steady_atOperator _) (tracks_parameterItem nested annotated).lower.loose).any.map
    fun _ _ _ => trivial

theorem tracks_argumentItem : Tracks n 1 Any (argumentItem self) (argumentItem self) := by
  refine tracks_byTest (steady_atOperator _) ?_ (TracksWhen.always ?_)
  · exact ((tracks_starred nested .test).lower.known (solid_atOperator _).rest).map fun _ _ _ => trivial
  refine tracks_ifTaken (solid_atOperator _) ?_ (tracks_byTest solid_atKeywordArgument.steady ?_
    (TracksWhen.always ?_))
  · exact (nested .test).loose.bind fun _ _ _ => tracks_pure trivial
  · exact (tracks_advance.known solid_atKeywordArgument.rest).bind fun _ _ _ =>
      tracks_advance?.bind fun _ _ _ => (nested .test).loose.bind fun _ _ _ => tracks_pure trivial
  refine (nested .named).bind fun _ _ _ => tracks_ifTest solid_atClause.steady ?_ (tracks_pure trivial)
  exact (tracks_clauses nested).bind fun _ _ _ => tracks_pure trivial

theorem tracks_arguments : Tracks n 1 Any (arguments self) (arguments self) :=
  (tracks_commaList (steady_atOperator _) (tracks_argumentItem nested).loose).before fun _ _ _ =>
    tracks_expectOperator.bind fun _ _ _ => tracks_pure trivial

theorem tracks_sliceFrom {start start' : Token} {lower lower' : Option Expr}
    (same : start.Renamed start') :
    Tracks n 0 Expr.Renamed (sliceFrom self start lower) (sliceFrom self start' lower') := by
  refine (tracks_optional ((steady_atOperator _).or steady_atSliceEnd).not
    (nested .test).loose.always).bind fun _ _ _ => tracks_ifAccept? (steady_atOperator _) ?_ ?_
  · refine (tracks_optional steady_atSliceEnd.not (nested .test).loose.always).bind fun _ _ _ => ?_
    exact tracks_pure (.whole same.position rfl rfl rfl rfl)
  · refine (tracks_pure (V := Any) trivial).bind fun _ _ _ => ?_
    exact tracks_pure (.whole same.position rfl rfl rfl rfl)

theorem tracks_sliceItem : Tracks n 1 Expr.Renamed (sliceItem self) (sliceItem self) := by
  refine tracks_peek.before fun start start' same => tracks_cases (·.atOperator ":") ?_ ?_
  · refine tracks_absent (steady_atOperator _).not (fun c colon => by simpa using colon) ?_
    refine (tracks_accepted (solid_atOperator _)).bind ?_
    rintro _ _ ⟨rfl, rfl⟩
    exact tracks_sliceFrom nested same
  · have lower := tracks_present (steady_atOperator ":").not (nested .starNamed).always
    refine (lower.known fun c none => by simpa using none).bind ?_
    rintro _ _ ⟨index, index', same', rfl, rfl⟩
    refine tracks_acceptOperator.bind ?_
    rintro (_ | _) _ rfl
    · exact tracks_pure same'
    · exact tracks_sliceFrom nested same

theorem tracks_subscript : Tracks (n + 1) 1 Any (subscript self) (subscript self) := by
  refine tracks_expectOperator.next fun _ _ opening => ?_
  refine (tracks_sliceItem nested).loose.bind fun _ _ first => ?_
  have closing {e d : Expr} : Tracks n 0 Any (do let _ ← expectOperator "]"; pure e)
      (do let _ ← expectOperator "]"; pure d) :=
    tracks_expectOperator.loose.bind fun _ _ _ => tracks_pure trivial
  refine tracks_ifTest (steady_atOperator _) ?_ ?_
  · refine (tracks_separatedTail (steady_atOperator _) (tracks_sliceItem nested).loose).bind ?_
    exact fun _ _ _ => (tracks_pure (V := Any) trivial).bind fun _ _ _ => closing
  · exact (tracks_pure (V := Any) trivial).bind fun _ _ _ => closing

theorem tracks_trailer : Tracks (n + 1) 1 Trailer.Renamed (trailer self) (trailer self) := by
  refine tracks_ifAccept (solid_atOperator _) ?_ (tracks_ifAccept (solid_atOperator _) ?_ ?_)
  · exact tracks_expectName.loose.bind fun _ _ _ => tracks_pure .attr
  · exact (tracks_arguments nested).loose.bind fun _ _ _ => tracks_pure .call
  · exact (tracks_subscript nested).map fun _ _ _ => .subscript

/-! What follows an opening bracket takes at least the closing one. -/

theorem tracks_parenthesized {opening opening' : Token} (same : opening.Renamed opening') :
    Tracks n 1 Expr.Renamed (parenthesized self opening) (parenthesized self opening') := by
  have closing {e d : Expr} (h : e.Renamed d) : Tracks n 1 Expr.Renamed
      (do let _ ← expectOperator ")"; pure e) (do let _ ← expectOperator ")"; pure d) :=
    tracks_expectOperator.bind fun _ _ _ => tracks_pure h
  refine tracks_ifTaken (solid_atOperator _) (tracks_pure (.sequence same.position .nil)) ?_
  refine tracks_ifTest (steady_atKeyword _) ?_ ?_
  · exact (tracks_yieldExpr nested).lower.loose.before fun _ _ value => closing value
  refine (nested .starNamed).loose.before fun _ _ first => tracks_ifTest solid_atClause.steady ?_ ?_
  · exact (tracks_clauses nested).before fun _ _ _ => closing (.whole same.position rfl rfl rfl rfl)
  refine tracks_ifTest (steady_atOperator _) ?_ (closing first)
  exact (tracks_separatedTail (steady_atOperator _) (nested .starNamed).loose).before
    fun _ _ others => closing (.sequence same.position (.cons first others))

theorem tracks_elements {opening opening' : Token} {closing : Bytes} {kind : SequenceKind}
    {loop : ComprehensionKind} {first first' : Expr} (same : opening.Renamed opening')
    (h : first.Renamed first') : Tracks n 1 Expr.Renamed
      (elements self opening closing kind loop first) (elements self opening' closing kind loop first') := by
  refine tracks_ifTest solid_atClause.steady ?_ ?_
  · exact (tracks_clauses nested).before fun _ _ _ => tracks_expectOperator.bind
      fun _ _ _ => tracks_pure (.whole same.position rfl rfl rfl rfl)
  · exact (tracks_separatedTail (steady_atOperator _) (nested .starNamed).loose).before
      fun _ _ others => tracks_expectOperator.bind
        fun _ _ _ => tracks_pure (.sequence same.position (.cons h others))

theorem tracks_bracketed {opening opening' : Token} (same : opening.Renamed opening') :
    Tracks n 1 Expr.Renamed (bracketed self opening) (bracketed self opening') :=
  tracks_ifTaken (solid_atOperator _) (tracks_pure (.sequence same.position .nil)) <|
    (nested .starNamed).loose.before fun _ _ first => tracks_elements nested same first

theorem tracks_unpackedEntry : Tracks n 1 Any (unpackedEntry self) (unpackedEntry self) :=
  (nested .binary).bind fun _ _ _ => tracks_pure trivial

theorem tracks_entry : Tracks n 1 Any (entry self) (entry self) := by
  refine tracks_ifTaken (solid_atOperator _) (tracks_unpackedEntry nested).loose ?_
  exact (nested .test).bind fun _ _ _ => tracks_expectOperator.loose.bind fun _ _ _ =>
    (nested .test).loose.bind fun _ _ _ => tracks_pure trivial

theorem tracks_entries {opening opening' : Token} {first first' : Entry Expr}
    (same : opening.Renamed opening') :
    Tracks n 1 Expr.Renamed (entries self opening first) (entries self opening' first') :=
  (tracks_separatedTail (steady_atOperator _) (tracks_entry nested).loose).before fun _ _ _ =>
    tracks_expectOperator.bind fun _ _ _ => tracks_pure (.whole same.position rfl rfl rfl rfl)

theorem tracks_braced {opening opening' : Token} (same : opening.Renamed opening') :
    Tracks n 1 Expr.Renamed (braced self opening) (braced self opening') := by
  refine tracks_ifTaken (solid_atOperator _) (tracks_pure (.whole same.position rfl rfl rfl rfl)) ?_
  refine tracks_ifTaken (solid_atOperator _) ?_ ?_
  · exact (tracks_unpackedEntry nested).loose.bind fun _ _ _ => (tracks_entries nested same).loose
  refine (nested .starNamed).bind fun _ _ first => ?_
  refine tracks_ifAccept? (steady_atOperator _) ?_ (tracks_elements nested same first).loose
  refine (nested .test).loose.bind fun _ _ _ => tracks_ifTest solid_atClause.steady ?_
    (tracks_entries nested same).loose
  exact (tracks_clauses nested).bind fun _ _ _ => tracks_expectOperator.loose.bind
    fun _ _ _ => tracks_pure (.whole same.position rfl rfl rfl rfl)

omit nested in
theorem tracks_stringRun : TracksWhen (·.rest ≠ []) n 1 Expr.Renamed stringRun stringRun := by
  have string : Solid (·.atKind .string) := solid_atKind (by decide)
  refine tracks_advance.bind fun _ _ first => ?_
  exact (tracks_many string.steady (tracks_advance.known string.rest)).bind
    fun _ _ _ => tracks_pure (.whole first.position rfl rfl rfl rfl)

theorem tracks_atom : Tracks (n + 1) 1 Expr.Renamed (atom self) (atom self) := by
  refine tracks_look fun t u same => ?_
  have taken (text : t.kind ≠ .endMarker) :
      TracksWhen (·.peek = t) (n + 1) 1 Token.Renamed advance advance :=
    tracks_advance.known fun c is => rest_ne_nil (is ▸ text)
  rw [← same.kind]
  cases kind : t.kind
  case name => exact (taken (by rw [kind]; decide)).bind fun _ _ _ => tracks_pure (.reference same)
  case number =>
    exact (taken (by rw [kind]; decide)).bind fun _ _ _ =>
      tracks_pure (.whole same.position rfl rfl rfl rfl)
  case string => exact tracks_stringRun.known fun c is => rest_ne_nil (by rw [is, kind]; decide)
  all_goals
    simp only
    rw [← same.constant?]
    cases constant : t.constant? with
    | some value =>
      refine (taken fun last => ?_).bind fun _ _ _ => tracks_pure (.whole same.position rfl rfl rfl rfl)
      simp [Token.constant?, Token.isKeyword, Token.isOperator, last] at constant
    | none =>
      refine .always <| tracks_ifAccept (solid_atOperator _) (tracks_parenthesized nested same).loose ?_
      refine tracks_ifAccept (solid_atOperator _) (tracks_bracketed nested same).loose ?_
      exact tracks_ifAccept (solid_atOperator _) (tracks_braced nested same).loose (tracks_fail (by decide))

theorem tracks_primary : Tracks (n + 1) 1 Expr.Renamed (primary self) (primary self) := by
  refine tracks_byTest (steady_atKeyword _) ?_ (TracksWhen.always ?_)
  · refine (tracks_advance.known (solid_atKeyword _).rest).next fun _ _ start => ?_
    exact (nested .primary).loose.bind fun _ _ _ => tracks_pure (.whole start.position rfl rfl rfl rfl)
  · refine (tracks_atom nested).bind fun base base' same => ?_
    exact (tracks_many solid_atTrailer.steady (tracks_trailer nested).always).bind
      fun _ _ trailers => tracks_pure (foldl_related (fun _ _ _ _ same h => h.apply same) trailers same)

theorem tracks_power : Tracks (n + 1) 1 Expr.Renamed (power self) (power self) := by
  refine (tracks_primary nested).next fun base base' same => ?_
  refine tracks_ifAccept? (steady_atOperator _) ?_ (tracks_pure same)
  exact (nested .unary).loose.bind fun _ _ _ => tracks_pure (.whole same.position rfl rfl rfl rfl)

theorem tracks_unary : Tracks (n + 1) 1 Expr.Renamed (unary self) (unary self) := by
  refine tracks_look fun t u same => ?_
  rw [← same.sign?]
  cases sign : sign? t with
  | none => exact (tracks_power nested).always
  | some op =>
    refine (tracks_advance.known fun c is => rest_ne_nil ?_).next fun _ _ _ => ?_
    · intro last
      simp [sign?, Token.isOperator, ← is, last] at sign
    · exact (nested .unary).loose.bind fun _ _ _ => tracks_pure (.whole same.position rfl rfl rfl rfl)

theorem tracks_binary (depth : Nat) :
    Tracks (n + 1) 1 Expr.Renamed (binary self depth) (binary self depth) := by
  induction depth with
  | zero => exact tracks_unary nested
  | succ depth ih =>
    refine ih.bind fun first first' same => ?_
    refine (tracks_manyKeyed (V := Any) (fun _ _ same => same.peek.levelOp? _) fun op => ?_).bind
      fun _ _ links => tracks_pure (chain_renamed same links)
    exact .always <| tracks_advance?.before fun _ _ _ => ih.bind fun _ _ _ => tracks_pure trivial

theorem tracks_operand : Tracks (n + 1) 1 Expr.Renamed (operand self) (operand self) :=
  tracks_binary nested 6

omit nested in
theorem tracks_comparisonOp : Tracks n 0 Any comparisonOp comparisonOp := by
  refine tracks_advance?.bind fun t u same => ?_
  rw [← same.compareOp?]
  cases t.compareOp? with
  | some op => exact tracks_pure trivial
  | none =>
    simp only [← same.isKeyword]
    refine .ite (tracks_pure trivial) (.ite ?_ ?_)
    · exact tracks_advance?.bind fun _ _ _ => tracks_pure trivial
    · exact tracks_ifAccept? (steady_atKeyword _) (tracks_pure trivial) (tracks_pure trivial)

omit nested in
theorem tracks_oneOrMore {α : Type} {V : α → α → Prop} {xs ys : List α} {e d : Expr} {f g : Form Expr}
    (h : List.Forall₂ V xs ys) (same : e.Renamed d)
    (layer : Expr.Renamed ⟨e.position, f⟩ ⟨d.position, g⟩) :
    Tracks n 0 Expr.Renamed (if xs.isEmpty then pure e else pure ⟨e.position, f⟩)
      (if ys.isEmpty then pure d else pure ⟨d.position, g⟩) := by
  cases h with
  | nil => exact tracks_pure same
  | cons _ _ => exact tracks_pure layer

theorem tracks_comparison : Tracks (n + 1) 1 Expr.Renamed (comparison self) (comparison self) := by
  refine (tracks_operand nested).bind fun left left' same => ?_
  have link : Tracks (n + 1) 1 Any
      (do let op ← comparisonOp; let right ← operand self; pure (op, right))
      (do let op ← comparisonOp; let right ← operand self; pure (op, right)) :=
    tracks_comparisonOp.before fun _ _ _ => (tracks_operand nested).bind fun _ _ _ => tracks_pure trivial
  exact (tracks_many steady_atComparison link.always).bind fun _ _ links =>
    tracks_oneOrMore links same (.whole same.position rfl rfl rfl rfl)

theorem tracks_notTest : Tracks (n + 1) 1 Expr.Renamed (notTest self) (notTest self) := by
  refine tracks_byTest (steady_atKeyword _) ?_ (tracks_comparison nested).always
  refine (tracks_advance.known (solid_atKeyword _).rest).next fun _ _ start => ?_
  exact (nested .notTest).loose.bind fun _ _ _ => tracks_pure (.whole start.position rfl rfl rfl rfl)

omit nested in
theorem tracks_boolean {op : BoolOp} {item : Parser Expr} (each : Tracks n 1 Expr.Renamed item item) :
    Tracks n 1 Expr.Renamed (boolean op item) (boolean op item) := by
  refine each.bind fun first first' same => ?_
  have more : Tracks n 1 Expr.Renamed (do let _ ← advance; item) (do let _ ← advance; item) :=
    tracks_advance?.before fun _ _ _ => each
  exact (tracks_many (steady_atKeyword _) more.always).bind fun _ _ others =>
    tracks_oneOrMore others same (.whole same.position rfl rfl rfl rfl)

theorem tracks_andTest : Tracks (n + 1) 1 Expr.Renamed (andTest self) (andTest self) :=
  tracks_boolean (tracks_notTest nested)

theorem tracks_orTest : Tracks (n + 1) 1 Expr.Renamed (orTest self) (orTest self) :=
  tracks_boolean (tracks_andTest nested)

theorem tracks_lambda : Tracks (n + 1) 1 Expr.Renamed (lambda self) (lambda self) := by
  refine tracks_expectKeyword.next fun _ _ start => (tracks_parameters nested _ _).bind fun _ _ _ => ?_
  exact tracks_expectOperator.loose.bind fun _ _ _ => (nested .test).loose.bind
    fun _ _ _ => tracks_pure (.whole start.position rfl rfl rfl rfl)

theorem tracks_conditional : Tracks (n + 1) 1 Expr.Renamed (conditional self) (conditional self) := by
  refine tracks_ifTest (steady_atKeyword _) (tracks_lambda nested) ?_
  refine (tracks_orTest nested).next fun body body' same => ?_
  refine tracks_ifAccept? (steady_atKeyword _) ?_ (tracks_pure same)
  refine (tracks_orTest nested).lower.loose.bind fun _ _ _ => tracks_expectKeyword.loose.bind ?_
  exact fun _ _ _ => (nested .test).loose.bind
    fun _ _ _ => tracks_pure (.whole same.position rfl rfl rfl rfl)

theorem tracks_named : Tracks (n + 1) 1 Expr.Renamed (named self) (named self) := by
  have starts : Solid fun c => c.atKind .name && c.peekSecond.isOperator ":=" :=
    (solid_atKind (by decide)).and (steady_secondIsOperator _)
  refine tracks_byTest starts.steady ?_ (tracks_conditional nested).always
  refine (tracks_advance.known starts.rest).next fun _ _ name => tracks_advance?.bind fun _ _ _ => ?_
  exact (nested .test).loose.bind fun _ _ _ => tracks_pure (.whole name.position rfl rfl rfl rfl)

theorem tracks_starNamed : Tracks (n + 1) 1 Expr.Renamed (starNamed self) (starNamed self) :=
  tracks_byTest (steady_atOperator _) ((tracks_starred nested .binary).known (solid_atOperator _).rest)
    (tracks_named nested).always

/-- Nested rules are used only once a token is taken, so that the bound is one more. -/
theorem tracks_body (rule : Rule) :
    Tracks (n + 1) 1 Expr.Renamed (rule.body self) (rule.body self) := by
  cases rule with
  | starExprs => exact tracks_tupleOrOne steady_opensExpression.not (tracks_starNamed nested)
  | starNamed => exact tracks_starNamed nested
  | named => exact tracks_named nested
  | test => exact tracks_conditional nested
  | orTest => exact tracks_orTest nested
  | notTest => exact tracks_notTest nested
  | binary => exact tracks_operand nested
  | unary => exact tracks_unary nested
  | primary => exact tracks_primary nested

end Rules

theorem tracks_within (bound : Nat) (rule : Rule) :
    Tracks bound 1 Expr.Renamed (Rule.within bound rule) (Rule.within bound rule) := by
  induction bound generalizing rule with
  | zero => exact fun _ _ _ _ less => (nomatch less)
  | succ bound ih => exact tracks_body ih rule

theorem tracks_parse (rule : Rule) : Tracks n 1 Expr.Renamed rule.parse rule.parse := by
  intro c d _ same _
  unfold Rule.parse
  rw [← same.left]
  exact tracks_within (c.left + 1) rule c d trivial same (Nat.lt_succ_self _)

end Parser

end CodeSmell
