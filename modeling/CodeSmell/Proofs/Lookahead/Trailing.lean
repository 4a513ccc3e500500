import CodeSmell.Proofs.Lookahead.First
import CodeSmell.Proofs.Renaming.Progress

/-!
Whether an expression can stand at a cursor. The lookahead for it sees one token only, and it is right: the
rule for an expression fails at that token exactly if the lookahead says so. Hence a comma at the end of a
list, or a `yield` without a value, is one that no expression can follow.
-/

namespace CodeSmell

namespace Cursor

variable {c : Cursor}

/-- The cursor with its next token at another place; where no token is left, that is the end marker. -/
def nextAt (place : Position) : Cursor → Cursor
  | ⟨[], _, lastLine, left, left_eq⟩ => ⟨[], place, lastLine, left, left_eq⟩
  | ⟨t :: rest, stop, lastLine, left, left_eq⟩ =>
    ⟨{ t with position := place } :: rest, stop, lastLine, left, left_eq⟩

theorem nextAt_self (c : Cursor) : c.nextAt c.peek.position = c := by
  obtain ⟨_ | ⟨t, rest⟩, stop, lastLine, left, left_eq⟩ := c <;> rfl

theorem peek_nextAt (c : Cursor) (place : Position) :
    (c.nextAt place).peek = { c.peek with position := place } := by
  obtain ⟨_ | ⟨t, rest⟩, stop, lastLine, left, left_eq⟩ := c <;> rfl

theorem left_nextAt (c : Cursor) (place : Position) : (c.nextAt place).left = c.left := by
  obtain ⟨_ | ⟨t, rest⟩, stop, lastLine, left, left_eq⟩ := c <;> rfl

def Behind (c : Cursor) (place : Position) : Prop := ∃ t ∈ c.visible.tail, place = t.position

theorem placed_of_visible {S : Position → Prop} (h : ∀ t ∈ c.visible, S t.position) : c.Placed S c := by
  refine ⟨List.forall₂_same.2 fun t mem => ⟨.refl t, h t (List.mem_append_left _ mem)⟩, ?_, rfl⟩
  exact h c.endMarker (List.mem_append_right _ List.mem_cons_self)

theorem twins_nextAt (some : c.rest ≠ []) (place : Position) : c.Twins c.Behind (c.nextAt place) := by
  have placed : c.advance.Placed c.Behind c.advance := by
    refine placed_of_visible fun t mem => ⟨t, ?_, rfl⟩
    obtain ⟨_ | ⟨t, rest⟩, stop, lastLine, left, left_eq⟩ := c
    · exact absurd rfl some
    · exact mem
  refine ⟨by rw [peek_nextAt], by rw [peek_nextAt], ?_, placed⟩
  obtain ⟨_ | ⟨t, rest⟩, stop, lastLine, left, left_eq⟩ := c
  · exact absurd rfl some
  · rfl

theorem rest_of_opensExpression (opens : c.peek.opensExpression = true) : c.rest ≠ [] := by
  intro nil
  rw [peek, nil] at opens
  cases opens

end Cursor

namespace Parser

open Cursor

variable {α : Type} {c c' : Cursor} {item : Parser Expr}

/-- The parser fails at the next token, wherever that stands. -/
def FailsAtNext (p : Parser α) (fault : SyntaxFault) (c : Cursor) : Prop :=
  ∀ place, p (c.nextAt place) = .error ⟨fault, place⟩

/-- The parser fails at a token behind the next one, wherever the next one stands. -/
def FailsBehind (p : Parser α) (c : Cursor) : Prop :=
  ∃ e : SyntaxError, e.fault ≠ .stuck ∧ c.Behind e.position ∧
    ∀ place, p (c.nextAt place) = .error e

/-- An expression stands at the cursor, or what stands there goes wrong only behind its first token. -/
def CanStart (c : Cursor) : Prop :=
  (∃ e c', Rule.starNamed.parse c = .ok (e, c')) ∨ FailsBehind Rule.starNamed.parse c

theorem failsAtNext (other : c.peek.opensExpression = false) :
    FailsAtNext Rule.starNamed.parse .invalidSyntax c := by
  intro place
  have same : (c.nextAt place).peek.opensExpression = c.peek.opensExpression := by
    rw [peek_nextAt]
    rfl
  have refused := (firstSet_within (S := fun _ => True) (c.nextAt place).left).refused (c.nextAt place)
    (by rw [same, other]; exact Bool.false_ne_true)
  rwa [peek_nextAt] at refused

theorem FailsAtNext.run {p : Parser α} {fault : SyntaxFault} (h : FailsAtNext p fault c) :
    p c = .error ⟨fault, c.peek.position⟩ := by
  have run := h c.peek.position
  rwa [nextAt_self] at run

theorem FailsAtNext.not_behind {p : Parser α} {fault : SyntaxFault} (h : FailsAtNext p fault c) :
    ¬FailsBehind p c := by
  rintro ⟨e, -, -, behind⟩
  -- the error would be at every place
  have all (place : Position) : place = e.position :=
    congrArg SyntaxError.position (Except.error.inj ((h place).symm.trans (behind place)))
  have lines := congrArg Position.line ((all ⟨0, 0⟩).trans (all ⟨1, 0⟩).symm)
  cases lines

theorem failsBehind (opens : c.peek.opensExpression = true) {e : SyntaxError}
    (failed : Rule.starNamed.parse c = .error e) : FailsBehind Rule.starNamed.parse c := by
  have alike (place : Position) :
      Alike c.Behind (Rule.starNamed.parse c) (Rule.starNamed.parse (c.nextAt place)) := by
    have taken := (firstSet_within (S := c.Behind) c.left).taken c (c.nextAt place) opens
      (twins_nextAt (rest_of_opensExpression opens) place)
    simp only [Rule.parse, Rule.within, Rule.body, left_nextAt]
    exact taken
  have fault : e.fault ≠ .stuck := by
    have progresses : Progresses Rule.starNamed.parse := progresses_of_tracks fun _ => tracks_parse _
    have grammar := progresses c
    rwa [failed] at grammar
  simp only [failed] at alike
  refine ⟨e, fault, ?_, fun place => ?_⟩
  · have alike := alike c.peek.position
    generalize Rule.starNamed.parse (c.nextAt c.peek.position) = r at alike
    cases alike with
    | error place => exact place
  · have alike := alike place
    generalize Rule.starNamed.parse (c.nextAt place) = r at alike ⊢
    cases alike with
    | error => rfl

theorem opensExpression_iff_canStart : c.peek.opensExpression = true ↔ CanStart c := by
  constructor
  · intro opens
    cases run : Rule.starNamed.parse c with
    | ok r => exact .inl ⟨r.1, r.2, run⟩
    | error e => exact .inr (failsBehind opens run)
  · intro starts
    by_contra other
    have fails := failsAtNext (Bool.eq_false_iff.2 other)
    obtain ⟨e, c', run⟩ | behind := starts
    · cases fails.run.symm.trans run
    · exact fails.not_behind behind

theorem canStart_iff : (!c.peek.opensExpression) = true ↔ ¬CanStart c := by
  rw [Bool.not_eq_true', ← Bool.not_eq_true, opensExpression_iff_canStart]

inductive ListTail (item : Parser Expr) : Cursor → List Expr → Cursor → Prop
  | done {c : Cursor} : c.atOperator "," = false → ListTail item c [] c
  | trailing {c : Cursor} : c.atOperator "," = true → ¬CanStart c.advance →
    ListTail item c [] c.advance
  | next {c c₁ c' : Cursor} {e : Expr} {others : List Expr} : c.atOperator "," = true →
    CanStart c.advance → item c.advance = .ok (e, c₁) → ListTail item c₁ others c' →
    ListTail item c (e :: others) c'

def ReadsList (item rule : Parser Expr) : Prop :=
  ∀ c e c', rule c = .ok (e, c') ↔ ∃ first c₁ others, item c = .ok (first, c₁) ∧
    ListTail item c₁ others c' ∧
    e = if c₁.atOperator "," then ⟨first.position, .sequence .tuple (first :: others)⟩ else first

def ReadsYield (value rule : Parser Expr) : Prop :=
  ∀ c e c', c.atKeyword "yield" = true → c.advance.atKeyword "from" = false →
    (rule c = .ok (e, c') ↔
      ¬CanStart c.advance ∧ e = ⟨c.peek.position, .yield none⟩ ∧ c' = c.advance ∨
      CanStart c.advance ∧ ∃ v, value c.advance = .ok (v, c') ∧
        e = ⟨c.peek.position, .yield (some v)⟩)

def Forward (p : Parser α) : Prop := ∀ c x c', p c = .ok (x, c') → c'.left ≤ c.left

theorem forward_of_sound {p : Parser α} {W : α → List Piece → Prop} (h : Sound p W) : Forward p := by
  intro c x c' eq
  obtain ⟨ps, -, reads⟩ := h.reads eq
  rw [c.left_eq, c'.left_eq, reads.rest, List.length_append]
  exact Nat.le_add_left _ _

theorem left_advance_lt {text : Bytes} (h : c.atOperator text = true) :
    c.advance.left < c.left := by
  have moves : c.Moves 1 c.advance := by
    refine .advance fun nil => ?_
    rw [atOperator, Cursor.peek, nil] at h
    cases h
  exact moves.left

theorem tailLoop_iff (forward : Forward item) {bound : Nat} {others : List Expr}
    (enough : c.left < bound) :
    tailLoop "," (!·.peek.opensExpression) item bound c = .ok (others, c') ↔
      ListTail item c others c' := by
  induction bound generalizing c others with
  | zero => exact absurd enough (Nat.not_lt_zero _)
  | succ bound ih =>
    have shorter {c₁ : Cursor} {e : Expr} (comma : c.atOperator "," = true)
        (one : item c.advance = .ok (e, c₁)) : c₁.left < bound := by
      have := forward _ _ _ one
      have := left_advance_lt comma
      omega
    simp only [tailLoop, acceptOperator, bind_ok, accept_ok, ite_ok, test_ok, pure_ok]
    constructor
    · rintro ⟨_, _, ⟨rfl, rfl⟩, ⟨comma, _, _, ⟨rfl, rfl⟩, behind⟩ | ⟨none, rfl, rfl⟩⟩
      · rw [if_pos comma] at behind
        obtain ⟨last, rfl, rfl⟩ | ⟨more, x, c₁, one, xs, c₂, rest, rfl, rfl⟩ := behind
        · exact .trailing comma (canStart_iff.1 last)
        · exact .next comma (not_not.1 (mt canStart_iff.2 more)) one ((ih (shorter comma one)).1 rest)
      · rw [if_neg none]
        exact .done (Bool.eq_false_iff.2 none)
    · intro tail
      cases tail with
      | done none =>
        rw [none]
        exact ⟨false, _, ⟨rfl, rfl⟩, .inr ⟨Bool.false_ne_true, rfl, rfl⟩⟩
      | trailing comma last =>
        rw [comma]
        refine ⟨true, c.advance, ⟨rfl, rfl⟩, .inl ⟨rfl, _, _, ⟨rfl, rfl⟩, .inl ?_⟩⟩
        exact ⟨canStart_iff.2 last, rfl, rfl⟩
      | next comma starts one rest =>
        rw [comma]
        refine ⟨true, c.advance, ⟨rfl, rfl⟩, .inl ⟨rfl, _, _, ⟨rfl, rfl⟩, .inr ?_⟩⟩
        exact ⟨mt canStart_iff.1 (not_not.2 starts), _, _, one, _, _,
          (ih (shorter comma one)).2 rest, rfl, rfl⟩

theorem readsList_tupleOrOne (forward : Forward item) :
    ReadsList item (tupleOrOne (!·.peek.opensExpression) item) := by
  intro c e c'
  simp only [tupleOrOne, bind_ok, ite_ok, test_ok, pure_ok]
  constructor
  · rintro ⟨first, c₁, one, _, _, ⟨rfl, rfl⟩, ⟨comma, others, c₂, more, rfl, rfl⟩ | ⟨none, rfl, rfl⟩⟩
    · exact ⟨first, c₁, others, one, (tailLoop_iff forward (Nat.lt_succ_self _)).1 more,
        (if_pos comma).symm⟩
    · exact ⟨first, c₁, [], one, .done (Bool.eq_false_iff.2 none), (if_neg none).symm⟩
  · rintro ⟨first, c₁, others, one, tail, rfl⟩
    refine ⟨first, c₁, one, _, _, ⟨rfl, rfl⟩, ?_⟩
    by_cases comma : c₁.atOperator "," = true
    · exact .inl ⟨comma, others, c', (tailLoop_iff forward (Nat.lt_succ_self _)).2 tail,
        (if_pos comma).symm, rfl⟩
    · cases tail with
      | done => exact .inr ⟨comma, (if_neg comma).symm, rfl⟩
      | trailing comma' | next comma' => exact absurd comma' comma

theorem readsYield (self : Rule → Parser Expr) : ReadsYield (self .starExprs) (yieldExpr self) := by
  intro c e c' yields single
  have start : expectKeyword "yield" c = .ok (c.peek, c.advance) := by
    rw [expectKeyword, bind_eq (test_ok.2 ⟨yields, rfl⟩)]
    rfl
  have refused : acceptKeyword "from" c.advance = .ok (false, c.advance) :=
    accept_ok.2 ⟨single, rfl⟩
  rw [yieldExpr, bind_eq start, bind_eq refused]
  simp only [Bool.false_eq_true, ↓reduceIte, optional, bind_ok, test_ok, ite_ok, map_ok, pure_ok]
  constructor
  · rintro ⟨_, c₁, ⟨_, _, ⟨rfl, rfl⟩, ⟨opens, v, one, rfl⟩ | ⟨other, rfl, rfl⟩⟩, rfl, rfl⟩
    · exact .inr ⟨opensExpression_iff_canStart.1 opens, v, one, rfl⟩
    · exact .inl ⟨mt opensExpression_iff_canStart.2 other, rfl, rfl⟩
  · rintro (⟨last, rfl, rfl⟩ | ⟨starts, v, one, rfl⟩)
    · have other := mt opensExpression_iff_canStart.1 last
      exact ⟨none, _, ⟨_, _, ⟨rfl, rfl⟩, .inr ⟨other, rfl, rfl⟩⟩, rfl, rfl⟩
    · have opens := opensExpression_iff_canStart.2 starts
      exact ⟨some v, c', ⟨_, _, ⟨rfl, rfl⟩, .inl ⟨opens, v, one, rfl⟩⟩, rfl, rfl⟩

structure EndsExactly (self : Rule → Parser Expr) : Prop where
  starExprs : ReadsList (starNamed self) (starExprs self)
  targetList : ReadsList (do if ← test (·.atOperator "*") then starred (self .binary) else self .binary)
    (targetList self)
  yieldExpr : ReadsYield (self .starExprs) (yieldExpr self)

theorem endsExactly {self : Rule → Parser Expr} (sound : ∀ rule, Sound (self rule) IsExpr) :
    EndsExactly self where
  starExprs := readsList_tupleOrOne (forward_of_sound (sound_starNamed sound))
  targetList := by
    refine readsList_tupleOrOne (forward_of_sound (W := IsExpr) fun c x c' _ eq => ?_)
    simp only [bind_ok, ite_ok, test_ok] at eq
    obtain ⟨_, _, ⟨rfl, rfl⟩, ⟨star, eq⟩ | ⟨-, eq⟩⟩ := eq
    · exact sound_starred (sound .binary) c x c' star eq
    · exact (sound .binary).reads eq
  yieldExpr := readsYield self

/-- The lookahead for expressions is exact: it holds of the next token exactly if the rule for an expression
succeeds there or fails at a token behind, and where it does not hold the rule fails at that token, as
invalid syntax. So a comma is the last of a list, and a `yield` has no value, exactly if no expression can
follow. -/
theorem lookahead_exact :
    (∀ c : Cursor, c.peek.opensExpression = true ↔ CanStart c) ∧
      (∀ c : Cursor, c.peek.opensExpression = false →
        FailsAtNext Rule.starNamed.parse .invalidSyntax c) ∧
      SyntaxFault.invalidSyntax.reason = "invalid syntax" ∧
      EndsExactly Rule.parse ∧ ∀ bound, EndsExactly (Rule.within bound) :=
  ⟨fun _ => opensExpression_iff_canStart, fun _ => failsAtNext, rfl, endsExactly sound_parse,
    fun bound => endsExactly (sound_within bound)⟩

end Parser
end CodeSmell
