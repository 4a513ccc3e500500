import CodeSmell.Proofs.Grammar.Expr
import CodeSmell.Proofs.Parser.Takes
import CodeSmell.Proofs.RoundTrip.Print

/-!
The rules of expressions by precedence. `Parser.ruleAt` is the rule that reads what holds together at
least as tightly as a place asks for. An expression that a tight rule takes is taken by all looser
rules, unless what follows continues it.
-/

namespace CodeSmell

def Token.rank? (t : Token) : Option Nat :=
  if t.isOperator "." || t.isOperator "(" || t.isOperator "[" then some 14
  else if t.binaryOp?.isSome then t.binaryOp?.map BinaryOp.precedence
  else if t.compareOp?.isSome || t.isKeyword "in" || t.isKeyword "not" || t.isKeyword "is" then some 4
  else if t.isKeyword "and" then some 2
  else if t.isKeyword "or" then some 1
  else if t.isKeyword "if" then some 0
  else none

def Stops (place : Nat) (rest : List Token) : Prop :=
  ∀ rank, (firstOf rest).rank? = some rank → rank < place

theorem Token.rank_of_isOperator {t : Token} {text : Bytes} (h : t.isOperator text = true) :
    t.rank? = (Token.operator text).rank? := by
  obtain ⟨kind, word⟩ := t
  obtain ⟨rfl, rfl⟩ := Token.isOperator_iff.1 h
  rfl

theorem Token.rank_of_isKeyword {t : Token} {text : Bytes} (h : t.isKeyword text = true) :
    t.rank? = (Token.keyword text).rank? := by
  obtain ⟨kind, word⟩ := t
  obtain ⟨rfl, rfl⟩ := Token.isKeyword_iff.1 h
  rfl

theorem BinaryOp.rank (op : BinaryOp) : (Token.operator op.symbol).rank? = some op.precedence := by
  cases op <;> decide

theorem BoolOp.rank (op : BoolOp) : (Token.keyword op.symbol).rank? = some op.precedence := by
  cases op <;> decide

theorem CompareOp.tokens_ne_nil (op : CompareOp) : op.tokens ≠ [] := by
  cases op <;> exact List.cons_ne_nil _ _

theorem firstOf_append {ts us : List Token} (h : ts ≠ []) : firstOf (ts ++ us) = firstOf ts := by
  obtain ⟨t, more, rfl⟩ := List.exists_cons_of_ne_nil h
  rfl

theorem CompareOp.rank (op : CompareOp) (ts : List Token) :
    (firstOf (op.tokens ++ ts)).rank? = some 4 := by
  rw [firstOf_append op.tokens_ne_nil]
  cases op <;> decide

namespace Stops

variable {place tight : Nat} {rest : List Token}

theorem mono (h : Stops place rest) (le : place ≤ tight) : Stops tight rest :=
  fun rank eq => (h rank eq).trans_le le

theorem of_rank {t : Token} (rank : Nat) (eq : t.rank? = some rank) (lt : rank < place) :
    Stops place (t :: rest) := by
  intro other same
  rw [firstOf, List.headD_cons, eq] at same
  cases same
  exact lt

theorem of_none {t : Token} (eq : t.rank? = none) : Stops place (t :: rest) := by
  intro rank same
  rw [firstOf, List.headD_cons, eq] at same
  cases same

theorem operator {text : Bytes} {rank : Nat} (h : Stops place rest) (le : place ≤ rank)
    (eq : (Token.operator text).rank? = some rank) : (firstOf rest).isOperator text = false := by
  by_contra holds
  rw [Bool.not_eq_false] at holds
  exact absurd (h rank ((Token.rank_of_isOperator holds).trans eq)) (Nat.not_lt.2 le)

theorem keyword {text : Bytes} {rank : Nat} (h : Stops place rest) (le : place ≤ rank)
    (eq : (Token.keyword text).rank? = some rank) : (firstOf rest).isKeyword text = false := by
  by_contra holds
  rw [Bool.not_eq_false] at holds
  exact absurd (h rank ((Token.rank_of_isKeyword holds).trans eq)) (Nat.not_lt.2 le)

theorem sign (h : Stops 12 rest) : Stops 11 rest := by
  intro rank eq
  have other : rank ≠ 11 := by
    unfold Token.rank? at eq
    split_ifs at eq
    · cases eq
      decide
    · obtain ⟨op, -, rfl⟩ := Option.map_eq_some_iff.1 eq
      cases op <;> decide
    all_goals
      cases eq
      decide
  have := h rank eq
  omega

theorem trailer {c : Cursor} (h : Stops 14 rest) (shows : c.Shows rest) :
    Parser.atTrailer c = false := by
  have no (text : Bytes) (eq : (Token.operator text).rank? = some 14) : c.atOperator text = false :=
    (shows.atOperator text).trans (h.operator le_rfl eq)
  rw [Parser.atTrailer, no "." (by decide), no "(" (by decide), no "[" (by decide)]
  rfl

theorem comparison {c : Cursor} (h : Stops 4 rest) (shows : c.Shows rest) :
    Parser.atComparison c = false := by
  have notWord (text : Bytes) (eq : (Token.keyword text).rank? = some 4) :
      c.atKeyword text = false :=
    (shows.atKeyword text).trans (h.keyword le_rfl eq)
  have noSign : c.peek.compareOp? = none := by
    by_contra some
    obtain ⟨op, isOp⟩ := Option.ne_none_iff_exists'.1 some
    obtain ⟨symbolic, isOperator⟩ := Token.isOperator_of_compareOp? isOp
    have stops : c.atOperator op.symbol = false := by
      refine (shows.atOperator op.symbol).trans (h.operator le_rfl ?_)
      revert symbolic
      cases op <;> decide
    rw [Cursor.atOperator, isOperator] at stops
    cases stops
  rw [Parser.atComparison, noSign, notWord "in" (by decide), notWord "not" (by decide),
    notWord "is" (by decide)]
  rfl

theorem level {c : Cursor} {level : Nat} (h : Stops (level + 4) rest) (shows : c.Shows rest) :
    Parser.levelOp? level c.peek = none := by
  by_contra some
  obtain ⟨op, isOp⟩ := Option.ne_none_iff_exists'.1 some
  obtain ⟨isOp, isLevel⟩ := Option.filter_eq_some_iff.1 isOp
  rw [beq_iff_eq] at isLevel
  have stops : c.atOperator op.symbol = false := by
    refine (shows.atOperator op.symbol).trans (h.operator ?_ op.rank)
    rw [BinaryOp.precedence, isLevel]
  rw [Cursor.atOperator, Token.isOperator_of_binaryOp? isOp] at stops
  cases stops

end Stops

namespace Token.Opens

variable {place : Nat} {t : Token}

theorem not_lambda (h : t.Opens place) : t.isKeyword "lambda" = false := by
  cases h with
  | name | number => rfl
  | parenthesis | await _ | not _ => decide
  | @sign op _ _ => cases op <;> decide

theorem not_await (h : t.Opens place) (le : 14 ≤ place) :
    t.isKeyword "await" = false := by
  cases h with
  | name | number => rfl
  | parenthesis => decide
  | await bound | sign _ bound | not bound => omega

theorem not_sign (h : t.Opens place) (le : 12 ≤ place) : Parser.sign? t = none := by
  cases h with
  | name | number => rfl
  | parenthesis | await _ => decide
  | sign _ bound | not bound => omega

theorem not_not (h : t.Opens place) (le : 4 ≤ place) :
    t.isKeyword "not" = false := by
  cases h with
  | name | number => rfl
  | parenthesis | await _ => decide
  | @sign op _ _ => cases op <;> decide
  | not bound => omega

end Token.Opens

namespace Parser

variable {self : Rule → Parser Expr} {ts rest : List Token} {X : Expr → Prop}

def postfixed (self : Rule → Parser Expr) : Parser Expr := do
  let base ← atom self
  let trailers ← many atTrailer (trailer self)
  pure (trailers.foldl Trailer.apply base)

/-- The rule for what holds together at least as tightly as a place asks for. -/
def ruleAt (self : Rule → Parser Expr) (place : Nat) : Parser Expr :=
  match place with
  | 0 => conditional self
  | 1 => orTest self
  | 2 => andTest self
  | 3 => notTest self
  | 4 => comparison self
  | 5 | 6 | 7 | 8 | 9 | 10 | 11 => binary self (11 - place)
  | 12 => power self
  | 13 => primary self
  | _ => postfixed self

theorem takes_postfixed (h : (atom self).Takes ts rest X) (stops : Stops 14 rest) :
    (postfixed self).Takes ts rest X := by
  refine Begins.ends (h.begins (Z := fun e more => X e ∧ more = []) fun e holds => ⟨holds, rfl⟩)
    (fun c shows => ?_) fun e more holds => ?_
  · rw [stops.trailer shows]
    rfl
  · obtain ⟨holds, rfl⟩ := holds
    exact takes_pure holds

theorem takes_primary (h : (postfixed self).Takes ts rest X)
    (first : (firstOf (ts ++ rest)).isKeyword "await" = false) : (primary self).Takes ts rest X :=
  Takes.elseTest (fun _ shows => (shows.atKeyword _).trans first) h

theorem takes_power (h : (primary self).Takes ts rest X) (stops : Stops 12 rest) :
    (power self).Takes ts rest X := by
  refine Takes.result h fun e holds => Takes.elseAccept (fun c shows => ?_) (takes_pure holds)
  exact (shows.atOperator _).trans (stops.operator le_rfl (by decide))

theorem takes_unary (h : (power self).Takes ts rest X)
    (first : sign? (firstOf (ts ++ rest)) = none) : (unary self).Takes ts rest X := by
  refine Takes.look fun t eq => ?_
  have none : sign? t = none := by
    rw [← first, ← eq]
    rfl
  rw [none]
  exact h

theorem takes_binary (depth : Nat) (h : (binary self depth).Takes ts rest X)
    (stops : Stops (10 - depth) rest) (le : depth ≤ 5) : (binary self (depth + 1)).Takes ts rest X := by
  refine Begins.ends (h.begins (Z := fun e links => X e ∧ links = []) fun e holds => ⟨holds, rfl⟩)
    (fun c shows => ?_) fun e links holds => ?_
  · refine Stops.level ?_ shows
    rwa [show 6 - depth + 4 = 10 - depth by omega]
  · obtain ⟨holds, rfl⟩ := holds
    exact takes_pure holds

theorem takes_comparison (h : (operand self).Takes ts rest X) (stops : Stops 4 rest) :
    (comparison self).Takes ts rest X := by
  refine Begins.ends (h.begins (Z := fun e links => X e ∧ links = []) fun e holds => ⟨holds, rfl⟩)
    (fun c shows => ?_) fun e links holds => ?_
  · rw [stops.comparison shows]
    rfl
  · obtain ⟨holds, rfl⟩ := holds
    exact takes_pure holds

theorem takes_notTest (h : (comparison self).Takes ts rest X)
    (first : (firstOf (ts ++ rest)).isKeyword "not" = false) : (notTest self).Takes ts rest X :=
  Takes.elseTest (fun _ shows => (shows.atKeyword _).trans first) h

theorem takes_boolean (op : BoolOp) {item : Parser Expr} (h : item.Takes ts rest X)
    (stops : Stops op.precedence rest) : (boolean op item).Takes ts rest X := by
  refine Begins.ends (h.begins (Z := fun e others => X e ∧ others = []) fun e holds => ⟨holds, rfl⟩)
    (fun c shows => ?_) fun e others holds => ?_
  · have ends := (shows.atKeyword op.symbol).trans (stops.keyword le_rfl op.rank)
    simp only [ends]
    rfl
  · obtain ⟨holds, rfl⟩ := holds
    exact takes_pure holds

theorem takes_conditional (h : (orTest self).Takes ts rest X) (stops : Stops 0 rest)
    (first : (firstOf (ts ++ rest)).isKeyword "lambda" = false) :
    (conditional self).Takes ts rest X := by
  refine Takes.elseTest (fun _ shows => (shows.atKeyword _).trans first) (Takes.result h ?_)
  refine fun e holds => Takes.elseAccept (fun c shows => ?_) (takes_pure holds)
  exact (shows.atKeyword _).trans (stops.keyword le_rfl (by decide))

theorem takes_step {place : Nat} (lt : place < 14) (h : (ruleAt self (place + 1)).Takes ts rest X)
    (opens : ∃ t us, ts = t :: us ∧ t.Opens (place + 1)) (stops : Stops place rest) :
    (ruleAt self place).Takes ts rest X := by
  obtain ⟨t, us, rfl, opens⟩ := opens
  match place with
  | 0 => exact takes_conditional h stops opens.not_lambda
  | 1 => exact takes_boolean .or h stops
  | 2 => exact takes_boolean .and h stops
  | 3 => exact takes_notTest h (opens.not_not le_rfl)
  | 4 => exact takes_comparison h stops
  | 5 => exact takes_binary 5 h stops le_rfl
  | 6 => exact takes_binary 4 h stops (by decide)
  | 7 => exact takes_binary 3 h stops (by decide)
  | 8 => exact takes_binary 2 h stops (by decide)
  | 9 => exact takes_binary 1 h stops (by decide)
  | 10 => exact takes_binary 0 h stops (by decide)
  | 11 => exact takes_unary h (opens.not_sign le_rfl)
  | 12 => exact takes_power h stops
  | 13 => exact takes_primary h (opens.not_await le_rfl)
  | more + 14 => omega

theorem takes_looser {place tight : Nat} (le : place ≤ tight) (bound : tight ≤ 14)
    (h : (ruleAt self tight).Takes ts rest X) (opens : ∃ t us, ts = t :: us ∧ t.Opens tight)
    (stops : Stops place rest) : (ruleAt self place).Takes ts rest X := by
  obtain ⟨t, us, same, opens⟩ := opens
  induction tight, le using Nat.le_induction with
  | base => exact h
  | succ tight le ih =>
    have looser := takes_step (by omega) h ⟨t, us, same, opens⟩ (stops.mono le)
    exact ih (by omega) looser (opens.mono (Nat.le_succ tight))

end Parser

end CodeSmell
