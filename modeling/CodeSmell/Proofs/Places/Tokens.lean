import CodeSmell.Proofs.Grammar.Expr
import CodeSmell.Syntax.Parser.Stmt
import Mathlib.Data.List.Forall2
import Mathlib.Tactic

/-!
Places of tokens. A parser does not see where layout stands: two lists of tokens that differ in that
only are the same to every test of a cursor. `S` holds the places where tokens can stand, so that what
is known of them is known of the errors that a parser makes there.
-/

namespace CodeSmell

/-- The same token, though layout can stand elsewhere. -/
structure Token.Shifted (t u : Token) : Prop where
  kind : u.kind = t.kind
  text : u.text = t.text
  same : t.isLayout = false → u = t

theorem Token.Shifted.refl (t : Token) : t.Shifted t := ⟨rfl, rfl, fun _ => rfl⟩

structure Token.Placed (S : Position → Prop) (t u : Token) : Prop extends Token.Shifted t u where
  place : S t.position

namespace Token.Shifted

variable {t u : Token}

theorem isLayout (h : t.Shifted u) : u.isLayout = t.isLayout := by rw [Token.isLayout, h.kind]; rfl

theorem isOperator (h : t.Shifted u) (text : Bytes) : u.isOperator text = t.isOperator text := by
  rw [Token.isOperator, h.kind, h.text]
  rfl

theorem isKeyword (h : t.Shifted u) (text : Bytes) : u.isKeyword text = t.isKeyword text := by
  rw [Token.isKeyword, h.kind, h.text]
  rfl

theorem augmentedOp? (h : t.Shifted u) : u.augmentedOp? = t.augmentedOp? := by
  rw [Token.augmentedOp?, h.kind, h.text]
  rfl

theorem compareOp? (h : t.Shifted u) : u.compareOp? = t.compareOp? := by
  rw [Token.compareOp?, h.kind, h.text]
  rfl

theorem levelOp? (h : t.Shifted u) (level : Nat) : Parser.levelOp? level u = Parser.levelOp? level t := by
  rw [Parser.levelOp?, Token.binaryOp?, h.kind, h.text]
  rfl

theorem opensExpression (h : t.Shifted u) : u.opensExpression = t.opensExpression := by
  rw [Token.opensExpression, h.kind, h.text]
  rfl

theorem afterPlainName (h : t.Shifted u) : Parser.afterPlainName u = Parser.afterPlainName t := by
  rw [Parser.afterPlainName, h.augmentedOp?, h.kind, h.text]
  rfl

end Token.Shifted

structure Cursor.Placed (S : Position → Prop) (c d : Cursor) : Prop where
  rest : List.Forall₂ (Token.Placed S) c.rest d.rest
  stop : S c.stop
  lastLine : d.lastLine = c.lastLine

namespace Cursor

variable {S : Position → Prop} {c d : Cursor}

theorem Placed.left (h : c.Placed S d) : d.left = c.left := by
  rw [c.left_eq, d.left_eq, h.rest.length_eq]

theorem Placed.endMarker (h : c.Placed S d) : c.endMarker.Placed S d.endMarker :=
  ⟨⟨rfl, rfl, fun text => Bool.noConfusion (show true = false from text)⟩, h.stop⟩

theorem headD_placed {ts us : List Token} {t u : Token} (h : List.Forall₂ (Token.Placed S) ts us)
    (last : t.Placed S u) : (ts.headD t).Placed S (us.headD u) := by
  cases h with
  | nil => exact last
  | cons h _ => exact h

theorem Placed.peek (h : c.Placed S d) : c.peek.Placed S d.peek := headD_placed h.rest h.endMarker

theorem tail_placed {ts us : List Token} (h : List.Forall₂ (Token.Placed S) ts us) :
    List.Forall₂ (Token.Placed S) ts.tail us.tail := by
  cases h with
  | nil => exact .nil
  | cons _ h => exact h

theorem Placed.peekSecond (h : c.Placed S d) : c.peekSecond.Placed S d.peekSecond :=
  headD_placed (tail_placed h.rest) h.endMarker

theorem Placed.advance (h : c.Placed S d) : c.advance.Placed S d.advance := by
  obtain ⟨rest, stop, lastLine, left, left_eq⟩ := c
  obtain ⟨rest', stop', lastLine', left', left_eq'⟩ := d
  obtain ⟨tokens, place, line⟩ := h
  cases tokens with
  | nil => exact ⟨.nil, place, line⟩
  | @cons t u ts us one rest =>
    refine ⟨rest, place, ?_⟩
    obtain rfl : lastLine' = lastLine := line
    simp only [Cursor.advance, one.isLayout]
    cases text : t.isLayout with
    | true => rfl
    | false => rw [one.same text]

def AtText (c : Cursor) : Prop := c.peek.isLayout = false

/-- The test does not see where layout stands. -/
def Blind {κ : Type} (p : Cursor → κ) : Prop :=
  ∀ ⦃S : Position → Prop⦄ ⦃c d : Cursor⦄, c.Placed S d → p d = p c

/-- Such a test that holds only where the next token has text. -/
structure Textual (p : Cursor → Bool) : Prop where
  blind : Blind p
  text : ∀ c, p c = true → c.AtText

variable {p q : Cursor → Bool}

theorem Blind.not (h : Blind p) : Blind (!p ·) := fun _ _ _ same => congrArg _ (h same)

theorem Blind.and (h : Blind p) (h' : Blind q) : Blind (fun c => p c && q c) :=
  fun _ _ _ same => congrArg₂ _ (h same) (h' same)

theorem Blind.or (h : Blind p) (h' : Blind q) : Blind (fun c => p c || q c) :=
  fun _ _ _ same => congrArg₂ _ (h same) (h' same)

theorem Textual.and (h : Textual p) (h' : Blind q) : Textual (fun c => p c && q c) :=
  ⟨h.blind.and h', fun c holds => h.text c (Bool.and_eq_true_iff.1 holds).1⟩

theorem Textual.or (h : Textual p) (h' : Textual q) : Textual (fun c => p c || q c) :=
  ⟨h.blind.or h'.blind, fun c holds => (Bool.or_eq_true_iff.1 holds).elim (h.text c) (h'.text c)⟩

theorem blind_const {κ : Type} (x : κ) : Blind fun _ => x := fun _ _ _ _ => rfl

theorem blind_atKind (kind : TokenKind) : Blind (·.atKind kind) :=
  fun _ _ _ same => congrArg (· == kind) same.peek.kind

theorem textual_atKind {kind : TokenKind} (text : kind.isLayout = false) : Textual (·.atKind kind) :=
  ⟨blind_atKind kind, fun c holds => by rw [AtText, Token.isLayout, eq_of_beq holds, text]⟩

theorem textual_atOperator (text : Bytes) : Textual (·.atOperator text) :=
  ⟨fun _ _ _ same => same.peek.isOperator text, fun c => c.peek.not_isLayout_of_isOperator⟩

theorem textual_atKeyword (text : Bytes) : Textual (·.atKeyword text) :=
  ⟨fun _ _ _ same => same.peek.isKeyword text, fun c => c.peek.not_isLayout_of_isKeyword⟩

theorem blind_secondIsOperator (text : Bytes) : Blind (·.peekSecond.isOperator text) :=
  fun _ _ _ same => same.peekSecond.isOperator text

theorem blind_secondIsKeyword (text : Bytes) : Blind (·.peekSecond.isKeyword text) :=
  fun _ _ _ same => same.peekSecond.isKeyword text

theorem blind_atLineEnd : Blind atLineEnd := (blind_atKind _).or (blind_atKind _)

theorem blind_atSimpleEnd : Blind atSimpleEnd := blind_atLineEnd.or (textual_atOperator _).blind

theorem blind_atBlockEnd : Blind atBlockEnd := (blind_atKind _).or (blind_atKind _)

end Cursor

namespace Parser

open Cursor

theorem textual_atClause : Textual atClause :=
  (textual_atKeyword _).or ((textual_atKeyword _).and (blind_secondIsKeyword _))

theorem textual_atKeywordArgument : Textual atKeywordArgument :=
  (textual_atKind rfl).and (blind_secondIsOperator _)

theorem textual_atSliceEnd : Textual atSliceEnd := (textual_atOperator _).or (textual_atOperator _)

theorem textual_atTrailer : Textual atTrailer :=
  ((textual_atOperator _).or (textual_atOperator _)).or (textual_atOperator _)

theorem textual_atComparison : Textual atComparison := by
  have operator : Textual fun c => c.peek.compareOp?.isSome := by
    refine ⟨fun _ _ _ same => congrArg Option.isSome same.peek.compareOp?, fun c holds => ?_⟩
    obtain ⟨op, isOp⟩ := Option.isSome_iff_exists.1 holds
    exact c.peek.not_isLayout_of_isOperator (Token.isOperator_of_compareOp? isOp).2
  exact ((operator.or (textual_atKeyword _)).or
    ((textual_atKeyword _).and (blind_secondIsKeyword _))).or (textual_atKeyword _)

theorem blind_opensExpression : Blind (·.peek.opensExpression) :=
  fun _ _ _ same => same.peek.opensExpression

theorem textual_atLiteral : Textual atLiteral :=
  (((((textual_atKind rfl).or (textual_atKind rfl)).or (textual_atOperator _)).or
    (textual_atKeyword _)).or (textual_atKeyword _)).or (textual_atKeyword _)

theorem blind_atFiller : Blind atFiller := (blind_atKind _).or (blind_atKind _)

section Lists

variable {S : Position → Prop} {ts us : List Token} {t u : Token}

theorem groupsItems_blind (h : List.Forall₂ (Token.Placed S) ts us) (depth : Nat) (aliased : Bool) :
    groupsItems depth aliased us = groupsItems depth aliased ts := by
  induction h generalizing depth aliased with
  | nil => rfl
  | @cons t u ts us h rest ih =>
    have colon : us.head?.any (·.isOperator ":") = ts.head?.any (·.isOperator ":") := by
      cases rest with
      | nil => rfl
      | cons h _ => exact h.isOperator ":"
    simp only [groupsItems, h.kind, h.isOperator, h.isKeyword, ih, colon]

theorem textual_atGroupedItems : Textual atGroupedItems :=
  (textual_atOperator _).and fun _ _ _ same => groupsItems_blind same.rest 0 false

theorem endsWithColon_blind (h : t.Shifted u) (rest : List.Forall₂ (Token.Placed S) ts us) :
    endsWithColon u us = endsWithColon t ts := by
  induction rest generalizing t u with
  | nil => exact h.isOperator ":"
  | @cons t' u' ts us h' rest ih => simp only [endsWithColon, h'.kind, h.isOperator, ih h'.toShifted]

theorem textual_atMatch : Textual atMatch := by
  constructor
  · rintro S ⟨ts, stop, lastLine, left, left_eq⟩ ⟨us, stop', lastLine', left', left_eq'⟩ ⟨rest, -, -⟩
    unfold atMatch
    cases rest with
    | nil => rfl
    | cons h rest =>
      cases rest with
      | nil => rfl
      | cons h' rest =>
        simp only [h.kind, h.text, h'.kind, h'.afterPlainName, endsWithColon_blind h'.toShifted rest]
  · rintro ⟨ts, stop, lastLine, left, left_eq⟩ holds
    unfold atMatch at holds
    split at holds
    · next t next rest is =>
      obtain rfl : ts = t :: next :: rest := is
      simp only [Bool.and_eq_true] at holds
      change t.isLayout = false
      rw [Token.isLayout, eq_of_beq holds.1.1.1]
      rfl
    · cases holds

end Lists

end Parser

end CodeSmell
