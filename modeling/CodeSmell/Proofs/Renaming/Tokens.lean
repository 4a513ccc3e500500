import CodeSmell.Similarity
import CodeSmell.Syntax.Parser.Stmt
import Mathlib.Data.List.Forall2
import Mathlib.Tactic

/-!
Tokens up to a renaming. What a parser looks at is the kind of a token, and its text only where that
is a word of the grammar: at keywords and operators, and at names whether they are `match` or `case`
or nothing at all. Every test of a cursor is steady, that is, it tells two cursors apart only if their
tokens differ in that.
-/

namespace CodeSmell

/-- `u` stands in the place of `t` and means the same to the grammar; names, numbers and strings
may be others. -/
structure Token.Exchanged (t u : Token) : Prop where
  kind : t.kind = u.kind
  position : t.position = u.position
  endLine : t.endLine = u.endLine
  word : t.kind = .keyword ∨ t.kind = .operator → t.text = u.text
  isMatch : t.kind = .name → (t.text = "match" ↔ u.text = "match")
  isCase : t.kind = .name → (t.text = "case" ↔ u.text = "case")

/-- An exchange between names that are both empty or both not. -/
structure Token.Renamed (t u : Token) : Prop extends Token.Exchanged t u where
  isEmpty : t.kind = .name → (t.text = [] ↔ u.text = [])

namespace Token

variable {t u : Token}

theorem Exchanged.refl (t : Token) : t.Exchanged t :=
  ⟨rfl, rfl, rfl, fun _ => rfl, fun _ => Iff.rfl, fun _ => Iff.rfl⟩

theorem Renamed.refl (t : Token) : t.Renamed t := ⟨.refl t, fun _ => Iff.rfl⟩

theorem Renamed.isLayout (h : t.Renamed u) : t.isLayout = u.isLayout := by
  rw [Token.isLayout, h.kind]
  rfl

theorem Renamed.testText {kind : TokenKind} {f : Bytes → Bool} (h : t.Renamed u)
    (same : t.kind = kind → f t.text = f u.text) :
    (t.kind == kind && f t.text) = (u.kind == kind && f u.text) := by
  rw [← h.kind]
  cases is : t.kind == kind with
  | true => exact same (eq_of_beq is)
  | false => rfl

theorem Renamed.isOperator (h : t.Renamed u) (text : Bytes) :
    t.isOperator text = u.isOperator text :=
  h.testText (f := (· == text)) fun operator => by rw [h.word (.inr operator)]

theorem Renamed.isKeyword (h : t.Renamed u) (text : Bytes) :
    t.isKeyword text = u.isKeyword text :=
  h.testText (f := (· == text)) fun keyword => by rw [h.word (.inl keyword)]

theorem Renamed.ofOperator {κ : Type} (h : t.Renamed u) (f : Bytes → κ) (other : κ) :
    (if t.kind == .operator then f t.text else other) =
      if u.kind == .operator then f u.text else other := by
  rw [← h.kind]
  cases is : t.kind == .operator with
  | true => rw [h.word (.inr (eq_of_beq is))]
  | false => rfl

theorem Renamed.binaryOp? (h : t.Renamed u) : t.binaryOp? = u.binaryOp? :=
  h.ofOperator (fun text => BinaryOp.all.find? fun op : BinaryOp => op.symbol == text) none

theorem Renamed.augmentedOp? (h : t.Renamed u) : t.augmentedOp? = u.augmentedOp? :=
  h.ofOperator (fun text => BinaryOp.all.find? fun op : BinaryOp => op.augmented == text) none

theorem Renamed.compareOp? (h : t.Renamed u) : t.compareOp? = u.compareOp? :=
  h.ofOperator (fun text => CompareOp.symbolic.find? fun op : CompareOp => op.symbol == text) none

theorem Renamed.constant? (h : t.Renamed u) : t.constant? = u.constant? := by
  simp only [Token.constant?, h.isKeyword, h.isOperator]

theorem Renamed.sign? (h : t.Renamed u) : Parser.sign? t = Parser.sign? u := by
  simp only [Parser.sign?, h.isOperator]

theorem Renamed.levelOp? (h : t.Renamed u) (level : Nat) :
    Parser.levelOp? level t = Parser.levelOp? level u := by
  rw [Parser.levelOp?, h.binaryOp?]
  rfl

theorem Renamed.opensExpression (h : t.Renamed u) : t.opensExpression = u.opensExpression := by
  unfold Token.opensExpression
  rw [← h.kind]
  cases kind : t.kind with
  | keyword => simp only [h.word (.inl kind)]
  | operator => simp only [h.word (.inr kind)]
  | _ => rfl

theorem Renamed.afterPlainName (h : t.Renamed u) :
    Parser.afterPlainName t = Parser.afterPlainName u := by
  rw [Parser.afterPlainName, h.augmentedOp?, h.testText fun operator => by rw [h.word (.inr operator)]]
  rfl

theorem Renamed.isSoft {soft : Bytes} (h : t.Renamed u)
    (same : t.kind = .name → (t.text = soft ↔ u.text = soft)) :
    (t.kind == .name && t.text == soft) = (u.kind == .name && u.text == soft) :=
  h.testText (f := (· == soft)) fun name => Bool.eq_iff_iff.2 (by simpa using same name)

theorem Renamed.role {previous previous' next next' : Option Token} (h : t.Renamed u)
    (before : Option.Rel Renamed previous previous') (after : Option.Rel Renamed next next')
    (text : t.isLayout = false) : t.role previous next = u.role previous' next' := by
  have point : previous.any (·.isOperator ".") = previous'.any (·.isOperator ".") := by
    cases before with
    | some h => exact h.isOperator "."
    | none => rfl
  have opening : next.any (·.isOperator "(") = next'.any (·.isOperator "(") := by
    cases after with
    | some h => exact h.isOperator "("
    | none => rfl
  unfold Token.role nameRole
  rw [← h.kind, point, opening]
  cases kind : t.kind with
  | keyword => exact h.word (.inl kind)
  | operator => exact h.word (.inr kind)
  | name | number | string => rfl
  | _ =>
    rw [Token.isLayout, kind] at text
    cases text

end Token

variable {ts us : List Token}

theorem head?_renamed (h : List.Forall₂ Token.Renamed ts us) :
    Option.Rel Token.Renamed ts.head? us.head? := by
  cases h with
  | nil => exact .none
  | cons h _ => exact .some h

theorem rolesAfter_eq {previous previous' : Option Token} (h : List.Forall₂ Token.Renamed ts us)
    (before : Option.Rel Token.Renamed previous previous') :
    rolesAfter previous ts = rolesAfter previous' us := by
  induction h generalizing previous previous' with
  | nil => rfl
  | @cons t u ts us h rest ih =>
    unfold rolesAfter
    rw [← h.isLayout]
    cases text : t.isLayout with
    | true => exact ih before
    | false =>
      have role := h.role before (head?_renamed rest) text
      rw [if_neg Bool.false_ne_true, if_neg Bool.false_ne_true, role, ih (.some h)]

theorem tokenRoles_eq (h : List.Forall₂ Token.Renamed ts us) : tokenRoles ts = tokenRoles us :=
  rolesAfter_eq h .none

structure Cursor.Renamed (c d : Cursor) : Prop where
  rest : List.Forall₂ Token.Renamed c.rest d.rest
  stop : c.stop = d.stop
  lastLine : c.lastLine = d.lastLine

namespace Cursor

variable {c d : Cursor}

theorem Renamed.refl (c : Cursor) : c.Renamed c :=
  ⟨List.forall₂_same.2 fun t _ => .refl t, rfl, rfl⟩

theorem Renamed.left (h : c.Renamed d) : c.left = d.left := by
  rw [c.left_eq, d.left_eq, h.rest.length_eq]

theorem headD_renamed {t u : Token} (h : List.Forall₂ Token.Renamed ts us) (last : t.Renamed u) :
    (ts.headD t).Renamed (us.headD u) := by
  cases h with
  | nil => exact last
  | cons h _ => exact h

theorem Renamed.endMarker (h : c.Renamed d) : c.endMarker.Renamed d.endMarker := by
  unfold Cursor.endMarker
  rw [h.stop]
  exact .refl _

theorem Renamed.peek (h : c.Renamed d) : c.peek.Renamed d.peek := headD_renamed h.rest h.endMarker

theorem tail_renamed (h : List.Forall₂ Token.Renamed ts us) :
    List.Forall₂ Token.Renamed ts.tail us.tail := by
  cases h with
  | nil => exact .nil
  | cons _ h => exact h

theorem Renamed.peekSecond (h : c.Renamed d) : c.peekSecond.Renamed d.peekSecond :=
  headD_renamed (tail_renamed h.rest) h.endMarker

theorem Renamed.advance (h : c.Renamed d) : c.advance.Renamed d.advance := by
  obtain ⟨rest, stop, lastLine, left, left_eq⟩ := c
  obtain ⟨rest', stop', lastLine', left', left_eq'⟩ := d
  obtain ⟨tokens, rfl, rfl⟩ := h
  cases tokens with
  | nil => exact ⟨.nil, rfl, rfl⟩
  | cons h rest => exact ⟨rest, rfl, by simp only [advance, h.isLayout, h.endLine]⟩

def Steady {κ : Type} (p : Cursor → κ) : Prop := ∀ ⦃c d : Cursor⦄, c.Renamed d → p c = p d

structure Solid (p : Cursor → Bool) : Prop where
  steady : Steady p
  rest : ∀ c, p c = true → c.rest ≠ []

variable {p q : Cursor → Bool}

theorem Steady.not (h : Steady p) : Steady (!p ·) := fun _ _ same => congrArg _ (h same)

theorem Steady.and (h : Steady p) (h' : Steady q) : Steady (fun c => p c && q c) :=
  fun _ _ same => congrArg₂ _ (h same) (h' same)

theorem Steady.or (h : Steady p) (h' : Steady q) : Steady (fun c => p c || q c) :=
  fun _ _ same => congrArg₂ _ (h same) (h' same)

theorem Solid.and (h : Solid p) (h' : Steady q) : Solid (fun c => p c && q c) :=
  ⟨h.steady.and h', fun c holds => h.rest c (Bool.and_eq_true_iff.1 holds).1⟩

theorem Solid.or (h : Solid p) (h' : Solid q) : Solid (fun c => p c || q c) :=
  ⟨h.steady.or h'.steady, fun c holds => (Bool.or_eq_true_iff.1 holds).elim (h.rest c) (h'.rest c)⟩

theorem steady_atKind (kind : TokenKind) : Steady (·.atKind kind) :=
  fun _ _ same => congrArg (· == kind) same.peek.kind

theorem steady_atOperator (text : Bytes) : Steady (·.atOperator text) :=
  fun _ _ same => same.peek.isOperator text

theorem steady_atKeyword (text : Bytes) : Steady (·.atKeyword text) :=
  fun _ _ same => same.peek.isKeyword text

theorem rest_ne_nil {c : Cursor} (h : c.peek.kind ≠ .endMarker) : c.rest ≠ [] := by
  intro nil
  rw [peek, nil] at h
  exact h rfl

theorem solid_atKind {kind : TokenKind} (text : kind ≠ .endMarker) : Solid (·.atKind kind) :=
  ⟨steady_atKind kind, fun c holds => rest_ne_nil (by rwa [eq_of_beq holds])⟩

theorem solid_atOperator (text : Bytes) : Solid (·.atOperator text) := by
  refine ⟨steady_atOperator text, fun c holds => rest_ne_nil ?_⟩
  rw [eq_of_beq (Bool.and_eq_true_iff.1 holds).1]
  decide

theorem solid_atKeyword (text : Bytes) : Solid (·.atKeyword text) := by
  refine ⟨steady_atKeyword text, fun c holds => rest_ne_nil ?_⟩
  rw [eq_of_beq (Bool.and_eq_true_iff.1 holds).1]
  decide

theorem steady_secondIsOperator (text : Bytes) : Steady (·.peekSecond.isOperator text) :=
  fun _ _ same => same.peekSecond.isOperator text

theorem steady_secondIsKeyword (text : Bytes) : Steady (·.peekSecond.isKeyword text) :=
  fun _ _ same => same.peekSecond.isKeyword text

theorem steady_atLineEnd : Steady atLineEnd := (steady_atKind _).or (steady_atKind _)

theorem steady_atSimpleEnd : Steady atSimpleEnd := steady_atLineEnd.or (steady_atOperator _)

theorem steady_atBlockEnd : Steady atBlockEnd := (steady_atKind _).or (steady_atKind _)

end Cursor

namespace Parser

open Cursor

theorem solid_atClause : Solid atClause :=
  (solid_atKeyword _).or ((solid_atKeyword _).and (steady_secondIsKeyword _))

theorem solid_atKeywordArgument : Solid atKeywordArgument :=
  (solid_atKind (by decide)).and (steady_secondIsOperator _)

theorem steady_atSliceEnd : Steady atSliceEnd := (steady_atOperator _).or (steady_atOperator _)

theorem solid_atTrailer : Solid atTrailer :=
  ((solid_atOperator _).or (solid_atOperator _)).or (solid_atOperator _)

theorem steady_atComparison : Steady atComparison := by
  have operator : Steady fun c => c.peek.compareOp?.isSome :=
    fun _ _ same => congrArg Option.isSome same.peek.compareOp?
  exact ((operator.or (steady_atKeyword _)).or
    ((steady_atKeyword _).and (steady_secondIsKeyword _))).or (steady_atKeyword _)

theorem steady_opensExpression : Steady (·.peek.opensExpression) :=
  fun _ _ same => same.peek.opensExpression

theorem steady_atLiteral : Steady atLiteral :=
  (((((steady_atKind _).or (steady_atKind _)).or (steady_atOperator _)).or
    (steady_atKeyword _)).or (steady_atKeyword _)).or (steady_atKeyword _)

theorem solid_atFiller : Solid atFiller := (solid_atKind (by decide)).or (solid_atKind (by decide))

theorem groupsItems_eq {ts us : List Token} (h : List.Forall₂ Token.Renamed ts us) (depth : Nat)
    (aliased : Bool) : groupsItems depth aliased ts = groupsItems depth aliased us := by
  induction h generalizing depth aliased with
  | nil => rfl
  | @cons t u ts us h rest ih =>
    have colon : ts.head?.any (·.isOperator ":") = us.head?.any (·.isOperator ":") := by
      cases rest with
      | nil => rfl
      | cons h _ => exact h.isOperator ":"
    simp only [groupsItems, h.kind, h.isOperator, h.isKeyword, ih, colon]

theorem solid_atGroupedItems : Solid atGroupedItems :=
  (solid_atOperator _).and fun _ _ same => groupsItems_eq same.rest 0 false

theorem endsWithColon_eq {ts us : List Token} {t u : Token} (h : t.Renamed u)
    (rest : List.Forall₂ Token.Renamed ts us) : endsWithColon t ts = endsWithColon u us := by
  induction rest generalizing t u with
  | nil => exact h.isOperator ":"
  | @cons t' u' ts us h' rest ih => simp only [endsWithColon, h'.kind, h.isOperator, ih h']

theorem solid_atMatch : Solid atMatch := by
  constructor
  · rintro ⟨ts, stop, lastLine, left, left_eq⟩ ⟨us, stop', lastLine', left', left_eq'⟩ ⟨rest, -, -⟩
    unfold atMatch
    cases rest with
    | nil => rfl
    | cons h rest =>
      cases rest with
      | nil => rfl
      | cons h' rest =>
        simp only [h.isSoft h.isMatch, h'.kind, h'.afterPlainName, endsWithColon_eq h' rest]
  · intro c holds nil
    simp [atMatch, nil] at holds

end Parser

end CodeSmell
