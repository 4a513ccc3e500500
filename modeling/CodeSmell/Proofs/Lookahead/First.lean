import CodeSmell.Proofs.Parser.Expr
import CodeSmell.Proofs.Places.Expr

/-!
First tokens of expressions. Each rule has a set of tokens that it begins with, and the set of a looser
rule has some more. At any other token the rule fails there; at one of the set it takes the token and does
not see where that stands, so that a failure is at a token behind it. `FirstSet S P p` says both, for
tokens behind that are at the places `S`.
-/

namespace CodeSmell

namespace Token

variable {t : Token}

def OpensAtom (t : Token) : Prop :=
  t.kind = .name ∨ t.kind = .number ∨ t.kind = .string ∨ t.constant?.isSome = true ∨
    t.isOperator "(" = true ∨ t.isOperator "[" = true ∨ t.isOperator "\x7b" = true

def OpensPrimary (t : Token) : Prop := t.isKeyword "await" = true ∨ t.OpensAtom

def OpensOperand (t : Token) : Prop := (Parser.sign? t).isSome = true ∨ t.OpensPrimary

def OpensCondition (t : Token) : Prop := t.isKeyword "not" = true ∨ t.OpensOperand

def OpensTest (t : Token) : Prop := t.isKeyword "lambda" = true ∨ t.OpensCondition

theorem opensTest_of_name (h : t.kind = .name) : t.OpensTest :=
  .inr (.inr (.inr (.inr (.inl h))))

theorem isSome_constant? : t.constant?.isSome = (t.isKeyword "None" || t.isKeyword "True" ||
    t.isKeyword "False" || t.isOperator "...") := by
  unfold constant?
  split_ifs <;> simp [*]

theorem isSome_sign? : (Parser.sign? t).isSome =
    (t.isOperator "-" || t.isOperator "+" || t.isOperator "~") := by
  unfold Parser.sign?
  split_ifs <;> simp [*]

theorem opensExpression_iff :
    t.opensExpression = true ↔ t.isOperator "*" = true ∨ t.OpensTest := by
  simp only [OpensTest, OpensCondition, OpensOperand, OpensPrimary, OpensAtom, isSome_constant?,
    isSome_sign?, opensExpression, isKeyword, isOperator]
  cases t.kind <;> simp
  · tauto
  · tauto

end Token

/-! ## Cursors -/

/-- Cursors that differ only in where the next token stands. What is behind it is at the places `S`. -/
structure Cursor.Twins (S : Position → Prop) (c d : Cursor) : Prop where
  kind : d.peek.kind = c.peek.kind
  text : d.peek.text = c.peek.text
  advance : d.advance = c.advance
  placed : c.advance.Placed S c.advance

namespace Cursor.Twins

variable {S : Position → Prop} {c d : Cursor}

theorem isOperator (h : c.Twins S d) (text : Bytes) :
    d.peek.isOperator text = c.peek.isOperator text := by
  rw [Token.isOperator, h.kind, h.text]
  rfl

theorem isKeyword (h : c.Twins S d) (text : Bytes) :
    d.peek.isKeyword text = c.peek.isKeyword text := by
  rw [Token.isKeyword, h.kind, h.text]
  rfl

theorem constant? (h : c.Twins S d) : d.peek.constant? = c.peek.constant? := by
  simp only [Token.constant?, h.isKeyword, h.isOperator]

theorem sign? (h : c.Twins S d) : Parser.sign? d.peek = Parser.sign? c.peek := by
  simp only [Parser.sign?, h.isOperator]

theorem peekSecond (h : c.Twins S d) : d.peekSecond = c.peekSecond := by
  rw [← Parser.peek_advance, h.advance, Parser.peek_advance]

end Cursor.Twins

namespace Parser

open Cursor

variable {α β : Type} {S : Position → Prop} {k : Bool} {V : α → Prop} {p q p' q' : Parser α}
  {c d : Cursor} {t : Cursor → Bool}

/-! ## Runs that end alike -/

/-- Both runs succeed and stop at the same token, or they fail for the same reason at one of the
places `S`. -/
inductive Alike (S : Position → Prop) :
    Except SyntaxError (α × Cursor) → Except SyntaxError (α × Cursor) → Prop
  | ok {x y : α} {c : Cursor} : c.Placed S c → Alike S (.ok (x, c)) (.ok (y, c))
  | error {e : SyntaxError} : S e.position → Alike S (.error e) (.error e)

/-- From the same token the two parsers end alike: they differ in the values that they make. -/
def Interchangeable (S : Position → Prop) (p q : Parser α) : Prop :=
  ∀ c : Cursor, c.Placed S c → Alike S (p c) (q c)

theorem Alike.bind {f g : α → Parser β} (h : Alike S (p c) (q d))
    (rest : ∀ x y, Interchangeable S (f x) (g y)) : Alike S ((p >>= f) c) ((q >>= g) d) := by
  simp only [Bind.bind]
  generalize p c = r, q d = s at h ⊢
  cases h with
  | ok placed => exact rest _ _ _ placed
  | error place => exact .error place

theorem interchangeable_pure {x y : α} : Interchangeable S (pure x) (pure y) := fun _ => .ok

namespace Interchangeable

theorem along {f g : α → Parser β} (h : Keeps S false V p)
    (rest : ∀ x, Interchangeable S (f x) (g x)) : Interchangeable S (p >>= f) (p >>= g) := by
  intro c placed
  have kept := h c c trivial placed
  simp only [Bind.bind]
  generalize p c = r at kept ⊢
  cases kept with
  | ok _ same _ => exact rest _ _ same
  | error place => exact .error place

theorem skip (h : Interchangeable S p q) :
    Interchangeable S (do let _ ← advance; p) (do let _ ← advance; q) :=
  fun c placed => h c.advance placed.advance

theorem ite {b : Prop} [Decidable b] (yes : Interchangeable S p p') (no : Interchangeable S q q') :
    Interchangeable S (if b then p else q) (if b then p' else q') := by
  split
  · exact yes
  · exact no

theorem ifTest (h : Blind t) (yes : Interchangeable S p p') (no : Interchangeable S q q') :
    Interchangeable S (do if ← test t then p else q) (do if ← test t then p' else q') :=
  .along (keeps_test h) fun _ => .ite yes no

theorem ifAccept (h : Blind t) (yes : Interchangeable S p p') (no : Interchangeable S q q') :
    Interchangeable S (do if ← accept t then p else q) (do if ← accept t then p' else q') :=
  .along (keeps_accept h) fun _ => .ite yes no

end Interchangeable

theorem interchangeable_closing {text : Bytes} {x y : α} :
    Interchangeable S (do let _ ← expectOperator text; pure x) (do let _ ← expectOperator text; pure y) :=
  .along keeps_expectOperator fun _ => interchangeable_pure

/-! ## Runs that differ in the place of the next token -/

namespace Alike

theorem skip (twins : c.Twins S d) (h : Interchangeable S p q) :
    Alike S ((do let _ ← advance; p) c) ((do let _ ← advance; q) d) := by
  change Alike S (p c.advance) (q d.advance)
  rw [twins.advance]
  exact h _ twins.placed

theorem ifAccept (twins : c.Twins S d) (same : t d = t c) (yes : Interchangeable S p p')
    (no : t c = false → Alike S (q c) (q' d)) :
    Alike S ((do if ← accept t then p else q) c) ((do if ← accept t then p' else q') d) := by
  cases holds : t c with
  | true =>
    rw [bind_eq (accept_ok.2 ⟨holds, rfl⟩), bind_eq (accept_ok.2 ⟨same.trans holds, rfl⟩)]
    rw [if_pos rfl, if_pos rfl, twins.advance]
    exact yes _ twins.placed
  | false =>
    rw [bind_eq (accept_ok.2 ⟨holds, rfl⟩), bind_eq (accept_ok.2 ⟨same.trans holds, rfl⟩)]
    exact no holds

end Alike

/-- Where `P` holds, the parser takes the next token without a look at its place. -/
def TakesWhen (S : Position → Prop) (P : Cursor → Prop) (p : Parser α) : Prop :=
  ∀ c d : Cursor, P c → c.Twins S d → Alike S (p c) (p d)

variable {P : Cursor → Prop}

theorem TakesWhen.bind {f : α → Parser β} (h : TakesWhen S P p)
    (rest : ∀ x y, Interchangeable S (f x) (f y)) : TakesWhen S P (p >>= f) :=
  fun c d holds twins => (h c d holds twins).bind rest

theorem takesWhen_advance : TakesWhen S P advance := by
  intro c d _ twins
  unfold advance
  rw [twins.advance]
  exact .ok twins.placed

theorem takesWhen_expectKeyword {text : Bytes} :
    TakesWhen S (·.atKeyword text = true) (expectKeyword text) := by
  intro c d holds twins
  have holds' : d.atKeyword text = true := (twins.isKeyword text).trans holds
  rw [expectKeyword, bind_eq (test_ok.2 ⟨holds, rfl⟩), bind_eq (test_ok.2 ⟨holds', rfl⟩)]
  exact takesWhen_advance (P := fun _ => True) c d trivial twins

/-- Of a parser, the tokens that it begins with. -/
structure FirstSet (S : Position → Prop) (P : Token → Prop) (p : Parser α) : Prop where
  refused : ∀ c : Cursor, ¬P c.peek → p c = .error ⟨.invalidSyntax, c.peek.position⟩
  taken : TakesWhen S (P ·.peek) p

namespace FirstSet

variable {P Q : Token → Prop}

theorem bind {f : α → Parser β} (h : FirstSet S P p)
    (rest : ∀ x y, Interchangeable S (f x) (f y)) : FirstSet S P (p >>= f) where
  refused c other := by
    simp only [Bind.bind, h.refused c other]
  taken := h.taken.bind rest

theorem ifTest (same : ∀ {c d}, c.Twins S d → t d = t c)
    (sets : ∀ c : Cursor, P c.peek ↔ t c = true ∨ Q c.peek)
    (yes : TakesWhen S (t · = true) p) (no : FirstSet S Q q) :
    FirstSet S P (do if ← test t then p else q) where
  refused c other := by
    rw [sets, not_or, Bool.not_eq_true] at other
    rw [bind_eq (test_ok.2 ⟨other.1, rfl⟩)]
    exact no.refused c other.2
  taken c d opens twins := by
    change Alike S ((if t c then p else q) c) ((if t d then p else q) d)
    rw [same twins]
    cases holds : t c with
    | true => exact yes c d holds twins
    | false =>
      have other := ((sets c).1 opens).resolve_left (by rw [holds]; exact Bool.false_ne_true)
      exact no.taken c d other twins

end FirstSet

/-! ## The rules -/

section Rules

variable {self : Rule → Parser Expr} (nested : ∀ rule {k : Bool}, Keeps S k (Expr.Placed S) (self rule))

include nested

theorem takesWhen_starred (rule : Rule) : TakesWhen S P (starred (self rule)) :=
  takesWhen_advance.bind fun _ _ => .along (nested rule) fun _ => interchangeable_pure

/-! ### Displays -/

variable {opening opening' : Token}

theorem interchangeable_parenthesized :
    Interchangeable S (parenthesized self opening) (parenthesized self opening') := by
  refine .ifAccept (textual_atOperator _).blind interchangeable_pure ?_
  refine .ifTest (textual_atKeyword _).blind ?_ ?_
  · exact .along (keeps_yieldExpr nested) fun _ => interchangeable_closing
  refine .along (nested .starNamed) fun _ => .ifTest textual_atClause.blind ?_ ?_
  · exact .along (keeps_clauses nested) fun _ => interchangeable_closing
  refine .ifTest (textual_atOperator _).blind ?_ interchangeable_closing
  exact .along (keeps_separatedTail (textual_atOperator _).blind (nested .starNamed)) fun _ =>
    interchangeable_closing

theorem interchangeable_elements {closing : Bytes} {kind : SequenceKind} {loop : ComprehensionKind}
    {first : Expr} : Interchangeable S (elements self opening closing kind loop first)
      (elements self opening' closing kind loop first) := by
  refine .ifTest textual_atClause.blind ?_ ?_
  · exact .along (keeps_clauses nested) fun _ => interchangeable_closing
  · exact .along (keeps_separatedTail (textual_atOperator _).blind (nested .starNamed)) fun _ =>
      interchangeable_closing

theorem interchangeable_bracketed :
    Interchangeable S (bracketed self opening) (bracketed self opening') :=
  .ifAccept (textual_atOperator _).blind interchangeable_pure <|
    .along (nested .starNamed) fun _ => interchangeable_elements nested

theorem interchangeable_entries {first : Entry Expr} :
    Interchangeable S (entries self opening first) (entries self opening' first) :=
  .along (keeps_separatedTail (textual_atOperator _).blind (keeps_entry nested)) fun _ =>
    interchangeable_closing

theorem interchangeable_braced :
    Interchangeable S (braced self opening) (braced self opening') := by
  refine .ifAccept (textual_atOperator _).blind interchangeable_pure ?_
  refine .ifAccept (textual_atOperator _).blind ?_ ?_
  · exact .along (keeps_unpackedEntry nested) fun _ => interchangeable_entries nested
  refine .along (nested .starNamed) fun _ => ?_
  refine .ifAccept (textual_atOperator _).blind ?_ (interchangeable_elements nested)
  refine .along (nested .test) fun _ => .ifTest textual_atClause.blind ?_ (interchangeable_entries nested)
  exact .along (keeps_clauses nested) fun _ => interchangeable_closing

/-! ### Operands -/

omit nested in
theorem takesWhen_stringRun : TakesWhen S P stringRun := by
  have string : Textual (·.atKind .string) := textual_atKind rfl
  exact takesWhen_advance.bind fun _ _ =>
    .along (keeps_many string.blind (keeps_advance.known string.text)) fun _ => interchangeable_pure

theorem firstSet_atom : FirstSet S Token.OpensAtom (atom self) where
  refused c other := by
    simp only [Token.OpensAtom, not_or, Bool.not_eq_true] at other
    obtain ⟨name, number, string, constant, round, square, brace⟩ := other
    rw [Option.isSome_eq_false_iff, Option.isNone_iff_eq_none] at constant
    have refuse {text : Bytes} {p q : Parser Expr} (other : c.peek.isOperator text = false) :
        (do if ← acceptOperator text then p else q) c = q c :=
      bind_eq (x := false) (accept_ok.2 ⟨other, rfl⟩)
    rw [atom, bind_eq (peek_ok.2 ⟨rfl, rfl⟩)]
    cases kind : c.peek.kind
    case name => exact absurd kind name
    case number => exact absurd kind number
    case string => exact absurd kind string
    all_goals
      simp only [constant]
      rw [refuse round, refuse square, refuse brace]
      rfl
  taken c d opens twins := by
    rw [atom, bind_eq (peek_ok.2 ⟨rfl, rfl⟩),
      bind_eq (peek_ok.2 ⟨rfl, rfl⟩), twins.kind, twins.constant?]
    cases kind : c.peek.kind
    case name | number => exact .skip twins interchangeable_pure
    case string => exact takesWhen_stringRun (P := fun _ => True) c d trivial twins
    all_goals
      simp only
      cases constant : c.peek.constant? with
      | some value => exact .skip twins interchangeable_pure
      | none =>
        refine .ifAccept twins (twins.isOperator _) (interchangeable_parenthesized nested) fun round => ?_
        refine .ifAccept twins (twins.isOperator _) (interchangeable_bracketed nested) fun square => ?_
        refine .ifAccept twins (twins.isOperator _) (interchangeable_braced nested) fun brace => ?_
        rw [atOperator] at round square brace
        simp [Token.OpensAtom, kind, constant, round, square, brace] at opens

theorem firstSet_primary : FirstSet S Token.OpensPrimary (primary self) := by
  refine .ifTest (fun twins => twins.isKeyword _) (fun _ => Iff.rfl) ?_ ?_
  · exact takesWhen_advance.bind fun _ _ => .along (nested .primary) fun _ => interchangeable_pure
  · exact (firstSet_atom nested).bind fun _ _ =>
      .along (keeps_many textual_atTrailer.blind (keeps_trailer nested).always) fun _ =>
        interchangeable_pure

theorem firstSet_power : FirstSet S Token.OpensPrimary (power self) :=
  (firstSet_primary nested).bind fun _ _ => .ifAccept (textual_atOperator _).blind
    (.along (nested .unary) fun _ => interchangeable_pure) interchangeable_pure

theorem firstSet_unary : FirstSet S Token.OpensOperand (unary self) where
  refused c other := by
    rw [Token.OpensOperand, not_or, Bool.not_eq_true, Option.isSome_eq_false_iff,
      Option.isNone_iff_eq_none] at other
    rw [unary, bind_eq (peek_ok.2 ⟨rfl, rfl⟩), other.1]
    exact (firstSet_power nested).refused c other.2
  taken c d opens twins := by
    rw [unary, bind_eq (peek_ok.2 ⟨rfl, rfl⟩),
      bind_eq (peek_ok.2 ⟨rfl, rfl⟩), twins.sign?]
    cases sign : sign? c.peek with
    | some op => exact .skip twins (.along (nested .unary) fun _ => interchangeable_pure)
    | none =>
      refine (firstSet_power nested).taken c d (opens.resolve_left ?_) twins
      rw [sign]
      exact Bool.false_ne_true

theorem firstSet_binary (depth : Nat) : FirstSet S Token.OpensOperand (binary self depth) := by
  induction depth with
  | zero => exact firstSet_unary nested
  | succ depth ih =>
    refine ih.bind fun _ _ => .along (keeps_manyKeyed (V := Whatever) ?_ fun op => ?_) fun _ =>
      interchangeable_pure
    · exact fun _ _ _ same => same.peek.levelOp? _
    · exact .always <| keeps_skip <| (keeps_binary nested depth).bind fun _ _ => keeps_pure trivial

/-! ### Conditions -/

theorem firstSet_comparison : FirstSet S Token.OpensOperand (comparison self) := by
  have link : KeepsWhen S (atComparison · = true) false Whatever
      (do let op ← comparisonOp; let right ← operand self; pure (op, right)) :=
    (keeps_comparisonOp.known textual_atComparison.text).bind fun _ _ =>
      (keeps_operand nested).bind fun _ _ => keeps_pure trivial
  exact (firstSet_binary nested 6).bind fun _ _ =>
    .along (keeps_many textual_atComparison.blind link) fun _ =>
      .ite interchangeable_pure interchangeable_pure

theorem firstSet_notTest : FirstSet S Token.OpensCondition (notTest self) := by
  refine .ifTest (fun twins => twins.isKeyword _) (fun _ => Iff.rfl) ?_ (firstSet_comparison nested)
  exact takesWhen_advance.bind fun _ _ => .along (nested .notTest) fun _ => interchangeable_pure

omit nested in
theorem firstSet_boolean {op : BoolOp} {item : Parser Expr} {P : Token → Prop} (h : FirstSet S P item)
    (each : Keeps S false (Expr.Placed S) item) : FirstSet S P (boolean op item) :=
  h.bind fun _ _ =>
    .along (keeps_many (textual_atKeyword _).blind (keeps_skip each).always) fun _ =>
      .ite interchangeable_pure interchangeable_pure

theorem firstSet_orTest : FirstSet S Token.OpensCondition (orTest self) :=
  firstSet_boolean (firstSet_boolean (firstSet_notTest nested) (keeps_notTest nested))
    (keeps_andTest nested)

theorem takesWhen_lambda : TakesWhen S (·.atKeyword "lambda" = true) (lambda self) :=
  takesWhen_expectKeyword.bind fun _ _ => .along (keeps_parameters nested _ _) fun _ =>
    .along keeps_expectOperator fun _ => .along (nested .test) fun _ => interchangeable_pure

theorem firstSet_conditional : FirstSet S Token.OpensTest (conditional self) := by
  refine .ifTest (fun twins => twins.isKeyword _) (fun _ => Iff.rfl) (takesWhen_lambda nested) ?_
  refine (firstSet_orTest nested).bind fun _ _ =>
    .ifAccept (textual_atKeyword _).blind ?_ interchangeable_pure
  exact .along (keeps_orTest nested) fun _ => .along keeps_expectKeyword fun _ =>
    .along (nested .test) fun _ => interchangeable_pure

theorem firstSet_named : FirstSet S Token.OpensTest (named self) := by
  refine .ifTest (fun twins => ?_) (fun c => ?_) ?_ (firstSet_conditional nested)
  · rw [atKind, atKind, twins.kind, twins.peekSecond]
  · refine (or_iff_right_of_imp fun both => ?_).symm
    exact Token.opensTest_of_name (eq_of_beq (Bool.and_eq_true_iff.1 both).1)
  · exact takesWhen_advance.bind fun _ _ => .skip <|
      .along (nested .test) fun _ => interchangeable_pure

theorem firstSet_starNamed : FirstSet S (·.opensExpression = true) (starNamed self) :=
  .ifTest (fun twins => twins.isOperator _) (fun _ => Token.opensExpression_iff)
    (takesWhen_starred nested .binary) (firstSet_named nested)

end Rules

theorem firstSet_within (bound : Nat) :
    FirstSet S (·.opensExpression = true) (starNamed (Rule.within bound)) :=
  firstSet_starNamed fun rule _ => keeps_within bound rule

theorem opensExpression_of_starExprs {e : Expr} {c' : Cursor}
    (eq : Rule.starExprs.parse c = .ok (e, c')) : c.peek.opensExpression = true := by
  obtain ⟨first, c₁, one, -⟩ := bind_ok.1 (show starExprs (Rule.within c.left) c = .ok (e, c') from eq)
  by_contra other
  cases ((firstSet_within (S := fun _ => True) c.left).refused c other).symm.trans one

end Parser
end CodeSmell
