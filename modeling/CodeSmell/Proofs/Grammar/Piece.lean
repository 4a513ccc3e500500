import CodeSmell.Syntax.Stmt
import Mathlib.Tactic
import Mathlib.Algebra.BigOperators.Group.List.Basic

/-!
Pieces of a text: tokens, and expressions and statements with the tokens that they are read from. The
grammar says of which pieces one layer of syntax consists; lists of items are given here, over the
pieces of one item.

`total` adds up a value of the pieces. It is additive in the pieces, so that what holds of the items
of a list holds of the list.
-/

namespace CodeSmell

inductive Piece where
  | token (t : Token)
  | expr (e : Expr) (ts : List Token)
  | stmt (s : Stmt) (ts : List Token)

def Piece.tokens : Piece → List Token
  | token t => [t]
  | expr _ ts | stmt _ ts => ts

def tokensOf (ps : List Piece) : List Token := ps.flatMap Piece.tokens

@[simp] theorem tokensOf_nil : tokensOf [] = [] := rfl

@[simp] theorem tokensOf_cons (p : Piece) (ps : List Piece) :
    tokensOf (p :: ps) = p.tokens ++ tokensOf ps := rfl

@[simp] theorem tokensOf_append (ps qs : List Piece) :
    tokensOf (ps ++ qs) = tokensOf ps ++ tokensOf qs :=
  List.flatMap_append

theorem Token.isOperator_iff {t : Token} {text : Bytes} :
    t.isOperator text = true ↔ t.kind = .operator ∧ t.text = text := by
  rw [isOperator, Bool.and_eq_true, beq_iff_eq, beq_iff_eq]

theorem Token.isKeyword_iff {t : Token} {text : Bytes} :
    t.isKeyword text = true ↔ t.kind = .keyword ∧ t.text = text := by
  rw [isKeyword, Bool.and_eq_true, beq_iff_eq, beq_iff_eq]

theorem Token.not_isLayout_of_isOperator {t : Token} {text : Bytes} (h : t.isOperator text = true) :
    t.isLayout = false := by
  rw [isLayout, (isOperator_iff.1 h).1]
  rfl

theorem Token.not_isLayout_of_isKeyword {t : Token} {text : Bytes} (h : t.isKeyword text = true) :
    t.isLayout = false := by
  rw [isLayout, (isKeyword_iff.1 h).1]
  rfl

def Piece.hasText : Piece → Bool
  | token t => !t.isLayout
  | expr _ _ => true
  | stmt _ _ => false

theorem hasText_of_isOperator {t : Token} {text : Bytes} (h : t.isOperator text = true) :
    (Piece.token t).hasText = true := by
  rw [Piece.hasText, t.not_isLayout_of_isOperator h, Bool.not_false]

theorem hasText_of_isKeyword {t : Token} {text : Bytes} (h : t.isKeyword text = true) :
    (Piece.token t).hasText = true := by
  rw [Piece.hasText, t.not_isLayout_of_isKeyword h, Bool.not_false]

theorem hasText_of_kind {t : Token} {kind : TokenKind} (h : t.kind = kind)
    (text : kind.isLayout = false) : (Piece.token t).hasText = true := by
  rw [Piece.hasText, Token.isLayout, h, text, Bool.not_false]

section Items

variable {α : Type} (W : α → List Piece → Prop)

inductive Repeated : List α → List Piece → Prop where
  | nil : Repeated [] []
  | cons {x : α} {xs : List α} {ps qs : List Piece} :
      W x ps → Repeated xs qs → Repeated (x :: xs) (ps ++ qs)

/-- Items after a separator each, and possibly a separator at the end. -/
inductive SeparatedTail (separator : Bytes) : List α → List Piece → Prop where
  | nil : SeparatedTail separator [] []
  | trailing {t : Token} : t.isOperator separator → SeparatedTail separator [] [.token t]
  | cons {t : Token} {x : α} {xs : List α} {ps qs : List Piece} : t.isOperator separator → W x ps →
      SeparatedTail separator xs qs → SeparatedTail separator (x :: xs) (.token t :: (ps ++ qs))

inductive Separated (separator : Bytes) : List α → List Piece → Prop where
  | nil : Separated separator [] []
  | cons {x : α} {xs : List α} {ps qs : List Piece} :
      W x ps → SeparatedTail W separator xs qs → Separated separator (x :: xs) (ps ++ qs)

inductive Optionally : Option α → List Piece → Prop where
  | none : Optionally none []
  | some {x : α} {ps : List Piece} : W x ps → Optionally (some x) ps

inductive Led (lead : Token → Bool) : α → List Piece → Prop where
  | intro {t : Token} {x : α} {ps : List Piece} : lead t → W x ps → Led lead x (.token t :: ps)

end Items

inductive IsExpr : Expr → List Piece → Prop where
  | intro {e : Expr} {ts : List Token} : IsExpr e [.expr e ts]

inductive IsStmt : Stmt → List Piece → Prop where
  | intro {s : Stmt} {ts : List Token} : IsStmt s [.stmt s ts]

/-- A token that is not required, as the line end at the end of a text. -/
inductive Possibly (p : Token → Bool) : List Piece → Prop where
  | absent : Possibly p []
  | present {t : Token} : p t → Possibly p [.token t]

inductive Marked (lead : Token → Bool) : Bool → List Piece → Prop where
  | absent : Marked lead false []
  | present {t : Token} : lead t → Marked lead true [.token t]

theorem Repeated.tokens {P : Token → Prop} {ts : List Token} {ps : List Piece}
    (h : Repeated (fun t ps => P t ∧ ps = [.token t]) ts ps) :
    (∀ t ∈ ts, P t) ∧ ps = ts.map .token := by
  induction h with
  | nil => exact ⟨nofun, rfl⟩
  | cons one _ ih => exact ⟨List.forall_mem_cons.2 ⟨one.1, ih.1⟩, by rw [one.2, ih.2]; rfl⟩

theorem Repeated.map {α β : Type} {W : α → List Piece → Prop} {V : β → List Piece → Prop}
    {xs : List α} {ps : List Piece} {f : α → β} (h : Repeated W xs ps)
    (item : ∀ x ps, W x ps → V (f x) ps) : Repeated V (xs.map f) ps := by
  induction h with
  | nil => exact .nil
  | cons one _ ih => exact .cons (item _ _ one) ih

section Items

variable {α : Type} {W : α → List Piece → Prop} {x : α} {ps : List Piece}

theorem Repeated.mem {xs : List α} (h : Repeated W xs ps) (mem : x ∈ xs) :
    ∃ qs, W x qs ∧ qs.Sublist ps := by
  induction h with
  | nil => cases mem
  | cons one _ ih =>
    rcases List.mem_cons.1 mem with rfl | mem
    · exact ⟨_, one, List.sublist_append_left _ _⟩
    · obtain ⟨qs, holds, within⟩ := ih mem
      exact ⟨qs, holds, within.trans (List.sublist_append_right _ _)⟩

theorem SeparatedTail.mem {separator : Bytes} {xs : List α} (h : SeparatedTail W separator xs ps)
    (mem : x ∈ xs) : ∃ qs, W x qs ∧ qs.Sublist ps := by
  induction h with
  | nil | trailing => cases mem
  | cons _ one _ ih =>
    rcases List.mem_cons.1 mem with rfl | mem
    · exact ⟨_, one, (List.sublist_append_left _ _).cons _⟩
    · obtain ⟨qs, holds, within⟩ := ih mem
      exact ⟨qs, holds, (within.trans (List.sublist_append_right _ _)).cons _⟩

theorem Separated.mem {separator : Bytes} {xs : List α} (h : Separated W separator xs ps)
    (mem : x ∈ xs) : ∃ qs, W x qs ∧ qs.Sublist ps := by
  cases h with
  | nil => cases mem
  | cons one tail =>
    rcases List.mem_cons.1 mem with rfl | mem
    · exact ⟨_, one, List.sublist_append_left _ _⟩
    · obtain ⟨qs, holds, within⟩ := tail.mem mem
      exact ⟨qs, holds, within.trans (List.sublist_append_right _ _)⟩

end Items

section Total

variable {M : Type} [AddCommMonoid M] {φ : Piece → M}

def total (φ : Piece → M) (ps : List Piece) : M := (ps.map φ).sum

@[simp] theorem total_nil : total φ [] = 0 := rfl

@[simp] theorem total_cons (p : Piece) (ps : List Piece) : total φ (p :: ps) = φ p + total φ ps := by
  simp [total]

@[simp] theorem total_append (ps qs : List Piece) : total φ (ps ++ qs) = total φ ps + total φ qs := by
  simp [total]

theorem sum_map_flatMap {α β : Type} (xs : List α) (f : α → List β) (val : β → M) :
    ((xs.flatMap f).map val).sum = (xs.map fun x => ((f x).map val).sum).sum := by
  induction xs with
  | nil => rfl
  | cons x xs ih => simp [ih]

variable {α : Type} {W : α → List Piece → Prop} {g : α → M}

theorem Repeated.total_eq {xs : List α} {ps : List Piece} (h : Repeated W xs ps)
    (item : ∀ x ps, W x ps → total φ ps = g x) : total φ ps = (xs.map g).sum := by
  induction h with
  | nil => rfl
  | cons one _ ih => rw [total_append, item _ _ one, ih, List.map_cons, List.sum_cons]

theorem SeparatedTail.total_eq {separator : Bytes} {xs : List α} {ps : List Piece}
    (h : SeparatedTail W separator xs ps) (silent : ∀ t, t.isOperator separator → φ (.token t) = 0)
    (item : ∀ x ps, W x ps → total φ ps = g x) : total φ ps = (xs.map g).sum := by
  induction h with
  | nil => rfl
  | trailing sep => simp [silent _ sep]
  | cons sep one _ ih =>
    rw [total_cons, silent _ sep, zero_add, total_append, item _ _ one, ih, List.map_cons, List.sum_cons]

theorem Separated.total_eq {separator : Bytes} {xs : List α} {ps : List Piece}
    (h : Separated W separator xs ps) (silent : ∀ t, t.isOperator separator → φ (.token t) = 0)
    (item : ∀ x ps, W x ps → total φ ps = g x) : total φ ps = (xs.map g).sum := by
  cases h with
  | nil => rfl
  | cons one tail =>
    rw [total_append, item _ _ one, tail.total_eq silent item, List.map_cons, List.sum_cons]

theorem Optionally.total_eq {x : Option α} {ps : List Piece} (h : Optionally W x ps)
    (item : ∀ x ps, W x ps → total φ ps = g x) : total φ ps = (x.toList.map g).sum := by
  cases h with
  | none => rfl
  | some one => simpa using item _ _ one

theorem Led.total_eq {lead : Token → Bool} {x : α} {ps : List Piece} (h : Led W lead x ps)
    (silent : ∀ t, lead t → φ (.token t) = 0) (item : ∀ x ps, W x ps → total φ ps = g x) :
    total φ ps = g x := by
  cases h with
  | intro first one => rw [total_cons, silent _ first, zero_add, item _ _ one]

end Total

end CodeSmell
