import CodeSmell.Proofs.Parser.Takes
import CodeSmell.Proofs.Places.Tokens

/-!
Two runs of a parser on tokens of which layout can stand elsewhere. `Keeps S k V p` says that from
cursors at the same token either `p` fails at one of the places `S`, or both runs succeed with the same
value, of which `V` holds. With `k` a success needs that the next token has text: what was read of that
token before, its place included, is then the same in both runs.
-/

namespace CodeSmell.Parser

open Cursor

variable {α β κ : Type} {S : Position → Prop}

inductive Parallel (S : Position → Prop) (k : Bool) (V : α → Prop) (c : Cursor) :
    Except SyntaxError (α × Cursor) → Except SyntaxError (α × Cursor) → Prop where
  | ok {x : α} {c' d' : Cursor} : V x → c'.Placed S d' → (k = true → c.AtText) →
      Parallel S k V c (.ok (x, c')) (.ok (x, d'))
  | error {e : SyntaxError} {s : Except SyntaxError (α × Cursor)} : S e.position →
      Parallel S k V c (.error e) s

/-- The parser keeps its results from cursors where `P` holds. -/
def KeepsWhen (S : Position → Prop) (P : Cursor → Prop) (k : Bool) (V : α → Prop) (p : Parser α) : Prop :=
  ∀ c d : Cursor, P c → c.Placed S d → Parallel S k V c (p c) (p d)

abbrev Keeps (S : Position → Prop) (k : Bool) (V : α → Prop) (p : Parser α) : Prop :=
  KeepsWhen S (fun _ => True) k V p

def Whatever (_ : α) : Prop := True

def Each (V : α → Prop) (xs : List α) : Prop := ∀ x ∈ xs, V x

theorem Each.nil {V : α → Prop} : Each V [] := nofun

theorem Each.cons {V : α → Prop} {x : α} {xs : List α} (h : V x) (h' : Each V xs) : Each V (x :: xs) :=
  List.forall_mem_cons.2 ⟨h, h'⟩

variable {P Q : Cursor → Prop} {k : Bool} {V : α → Prop} {W : β → Prop} {p q : Parser α}

theorem Parallel.told {j : Bool} {c c' : Cursor} {r s : Except SyntaxError (α × Cursor)}
    (h : Parallel S j V c r s) (text : k = true → c'.AtText) : Parallel S k V c' r s := by
  cases h with
  | ok value same _ => exact .ok value same text
  | error place => exact .error place

namespace KeepsWhen

theorem mono {V' : α → Prop} (h : KeepsWhen S P k V p) (implies : ∀ x, V x → V' x) :
    KeepsWhen S P k V' p := by
  intro c d holds same
  have kept := h c d holds same
  generalize p c = r, p d = s at kept ⊢
  cases kept with
  | ok value same text => exact .ok (implies _ value) same text
  | error place => exact .error place

theorem whatever (h : KeepsWhen S P k V p) : KeepsWhen S P k Whatever p := h.mono fun _ _ => trivial

theorem known (h : KeepsWhen S Q k V p) (known : ∀ c, P c → Q c) : KeepsWhen S P k V p :=
  fun c d holds same => h c d (known c holds) same

theorem always (h : Keeps S k V p) : KeepsWhen S P k V p := h.known fun _ _ => trivial

theorem told {j : Bool} (h : KeepsWhen S P j V p) (text : k = true → ∀ c, P c → c.AtText) :
    KeepsWhen S P k V p :=
  fun c d holds same => (h c d holds same).told fun told => text told c holds

theorem loose (h : KeepsWhen S P k V p) : KeepsWhen S P false V p := h.told nofun

theorem bind {f : α → Parser β} (first : KeepsWhen S P k V p)
    (second : ∀ x, V x → Keeps S false W (f x)) : KeepsWhen S P k W (p >>= f) := by
  intro c d holds same
  have kept := first c d holds same
  simp only [Bind.bind]
  generalize p c = r, p d = s at kept ⊢
  cases kept with
  | error place => exact .error place
  | @ok x c' d' value same text =>
    have kept := second x value c' d' trivial same
    simp only
    generalize f x c' = r, f x d' = s at kept ⊢
    cases kept with
    | ok value same _ => exact .ok value same text
    | error place => exact .error place

end KeepsWhen

theorem keeps_pure {x : α} (h : V x) : Keeps S false V (pure x) :=
  fun _ _ _ same => .ok h same nofun

theorem KeepsWhen.map {f : α → β} (h : KeepsWhen S P k V p) (related : ∀ x, V x → W (f x)) :
    KeepsWhen S P k W (f <$> p) :=
  KeepsWhen.bind h fun x value => keeps_pure (related x value)

theorem keeps_fail {fault : SyntaxFault} : Keeps S k V (fail fault) :=
  fun _ _ _ same => .error same.peek.place

theorem keeps_failAt {position : Position} {fault : SyntaxFault} (place : S position) :
    Keeps S k V (failAt position fault) :=
  fun _ _ _ _ => .error place

theorem keeps_look {f : Token → Parser β}
    (h : ∀ t, S t.position → KeepsWhen S (·.peek = t) true W (f t)) : Keeps S k W (peek >>= f) := by
  intro c d _ same
  have kept := h c.peek same.peek.place c d rfl same
  change Parallel S k W c (f c.peek c) (f d.peek d)
  cases text : c.peek.isLayout with
  | false =>
    rw [same.peek.same text]
    exact kept.told fun _ => text
  | true =>
    -- the run cannot succeed, so that the other one does not matter
    generalize f c.peek c = r, f c.peek d = s at kept
    cases kept with
    | ok _ _ atText => exact absurd ((atText rfl).symm.trans text) Bool.false_ne_true
    | error place => exact .error place

theorem keeps_glance {f : Token → Parser β} (blind : ∀ t u : Token, t.Shifted u → f u = f t)
    (h : ∀ t, Keeps S k W (f t)) : Keeps S k W (peek >>= f) := by
  intro c d _ same
  change Parallel S k W c (f c.peek c) (f d.peek d)
  rw [blind _ _ same.peek.toShifted]
  exact h c.peek c d trivial same

theorem keeps_lastLine : Keeps S false Whatever lastLine := by
  intro c d _ same
  unfold lastLine
  rw [same.lastLine]
  exact .ok trivial same nofun

theorem keeps_advance : KeepsWhen S AtText k (fun t => S t.position) advance := by
  intro c d text same
  unfold advance
  rw [same.peek.same text]
  exact .ok same.peek.place same.advance fun _ => text

theorem keeps_skip (h : Keeps S false V p) : Keeps S false V (do let _ ← advance; p) := by
  intro c d _ same
  exact (h c.advance d.advance trivial same.advance).told nofun

section Choices

variable {t : Cursor → Bool}

theorem keeps_test (h : Blind t) : Keeps S false Whatever (test t) := by
  intro c d _ same
  unfold test
  rw [h same]
  exact .ok trivial same nofun

theorem keeps_accept (h : Blind t) : Keeps S false Whatever (accept t) := by
  intro c d _ same
  unfold accept
  rw [h same]
  split_ifs
  · exact .ok trivial same.advance nofun
  · exact .ok trivial same nofun

theorem keeps_byTest (h : Blind t) (yes : KeepsWhen S (t · = true) k V p)
    (no : KeepsWhen S (t · = false) k V q) : Keeps S k V (do if ← test t then p else q) := by
  intro c d _ same
  change Parallel S k V c ((if t c then p else q) c) ((if t d then p else q) d)
  rw [h same]
  cases holds : t c with
  | true => exact yes c d holds same
  | false => exact no c d holds same

theorem keeps_ifTest (h : Blind t) (yes : Keeps S k V p) (no : Keeps S k V q) :
    Keeps S k V (do if ← test t then p else q) :=
  keeps_byTest h yes.always no.always

theorem keeps_chosen (h : Blind t) (text : k = true → ∀ c, t c = true → c.AtText)
    (yes : Keeps S false V p) (no : Keeps S k V q) :
    Keeps S k V (do if ← accept t then p else q) := by
  intro c d _ same
  change Parallel S k V c ((accept t >>= fun b => if b then p else q) c)
    ((accept t >>= fun b => if b then p else q) d)
  have holds' := h same
  cases holds : t c with
  | false =>
    rw [bind_eq (show accept t c = .ok (false, c) by rw [accept, holds]; rfl),
      bind_eq (show accept t d = .ok (false, d) by rw [accept, holds', holds]; rfl)]
    exact no c d trivial same
  | true =>
    rw [bind_eq (show accept t c = .ok (true, c.advance) by rw [accept, holds]; rfl),
      bind_eq (show accept t d = .ok (true, d.advance) by rw [accept, holds', holds]; rfl)]
    exact (yes c.advance d.advance trivial same.advance).told fun told => text told c holds

theorem keeps_ifAccept (h : Textual t) (yes : Keeps S false V p) (no : Keeps S k V q) :
    Keeps S k V (do if ← accept t then p else q) :=
  keeps_chosen h.blind (fun _ => h.text) yes no

theorem keeps_ifAccept? (h : Blind t) (yes : Keeps S false V p) (no : Keeps S false V q) :
    Keeps S false V (do if ← accept t then p else q) :=
  keeps_chosen h nofun yes no

theorem KeepsWhen.ite {b : Prop} [Decidable b] (yes : KeepsWhen S P k V p) (no : KeepsWhen S P k V q) :
    KeepsWhen S P k V (if b then p else q) := by
  split
  · exact yes
  · exact no

theorem keeps_expect (h : Textual t) {fault : SyntaxFault} :
    Keeps S k (fun t => S t.position) (do if ← test t then advance else fail fault) :=
  keeps_byTest h.blind (keeps_advance.known h.text) keeps_fail.always

theorem keeps_expectOperator {text : Bytes} :
    Keeps S k (fun t => S t.position) (expectOperator text) := keeps_expect (textual_atOperator text)

theorem keeps_expectKeyword {text : Bytes} :
    Keeps S k (fun t => S t.position) (expectKeyword text) := keeps_expect (textual_atKeyword text)

theorem keeps_expectName : Keeps S k (fun t => S t.position) expectName :=
  keeps_expect (textual_atKind rfl)

theorem keeps_endStatement : Keeps S false Whatever endStatement :=
  keeps_ifAccept? (blind_atKind _) (keeps_pure trivial)
    (keeps_ifTest (blind_atKind _) (keeps_pure trivial) keeps_fail)

theorem keeps_optional (h : Blind t) (item : KeepsWhen S (t · = true) false V p) :
    Keeps S false Whatever (optional t p) :=
  keeps_byTest h (item.map fun _ _ => trivial) (keeps_pure trivial).always

theorem keeps_absent {f : Option α → Parser β} (h : Blind t) (absent : ∀ c, P c → t c = false)
    (rest : KeepsWhen S P k W (f none)) : KeepsWhen S P k W (optional t p >>= f) := by
  intro c d holds same
  have skipped {c : Cursor} (h : t c = false) : optional t p c = .ok (none, c) := by
    have tested : test t c = .ok (false, c) := by rw [test, h]
    rw [optional, bind_eq tested]
    rfl
  have none := absent c holds
  rw [bind_eq (skipped none), bind_eq (skipped ((h same).trans none))]
  exact rest c d holds same

theorem keeps_present (h : Blind t) (item : KeepsWhen S (t · = true) k V p) :
    KeepsWhen S (t · = true) k (fun x => ∃ a, V a ∧ x = some a) (optional t p) := by
  intro c d holds same
  rw [optional, bind_eq (show test t c = .ok (true, c) by rw [test, holds]),
    bind_eq (show test t d = .ok (true, d) by rw [test, h same, holds])]
  exact (item.map fun x value => ⟨x, value, rfl⟩) c d holds same

end Choices

theorem keeps_manyKeyed {start : Cursor → Option κ} {item : κ → Parser α} (h : Blind start)
    (each : ∀ key, KeepsWhen S (start · = some key) false V (item key)) :
    Keeps S false (Each V) (manyKeyed start item) := by
  have loop (bound : Nat) : Keeps S false (Each V) (manyLoop start item bound) := by
    induction bound with
    | zero => exact keeps_fail
    | succ bound ih =>
      intro c d _ same
      unfold manyLoop
      rw [h same]
      cases started : start c with
      | none => exact .ok .nil same (absurd · Bool.false_ne_true)
      | some key =>
        exact ((each key).bind fun x value => ih.bind fun xs values =>
          keeps_pure (.cons value values)) c d started same
  intro c d _ same
  unfold manyKeyed
  rw [same.left]
  exact loop (c.left + 1) c d trivial same

theorem keeps_many {start : Cursor → Bool} (h : Blind start)
    (each : KeepsWhen S (start · = true) false V p) : Keeps S false (Each V) (many start p) := by
  refine keeps_manyKeyed (fun _ c d same => by rw [h same]) fun key => each.known fun c started => ?_
  by_contra stop
  simp [stop] at started

theorem keeps_separatedTail {separator : Bytes} {stop : Cursor → Bool} (h : Blind stop)
    (each : Keeps S false V p) : Keeps S false (Each V) (separatedTail separator stop p) := by
  have loop (bound : Nat) : Keeps S false (Each V) (tailLoop separator stop p bound) := by
    induction bound with
    | zero => exact keeps_fail
    | succ bound ih =>
      refine keeps_ifAccept (textual_atOperator _) (keeps_ifTest h (keeps_pure .nil) ?_) (keeps_pure .nil)
      exact each.bind fun x value => ih.bind fun xs values => keeps_pure (.cons value values)
  intro c d _ same
  unfold separatedTail
  rw [same.left]
  exact loop (c.left + 1) c d trivial same

theorem keeps_commaSeparated (each : Keeps S k V p) : Keeps S k (Each V) (commaSeparated p) :=
  each.bind fun _ value => (keeps_separatedTail (blind_const _) each.loose).bind fun _ values =>
    keeps_pure (.cons value values)

theorem keeps_commaList {stop : Cursor → Bool} (h : Blind stop) (each : Keeps S false V p) :
    Keeps S false (Each V) (commaList stop p) := by
  refine keeps_ifTest h (keeps_pure .nil) ?_
  exact each.bind fun _ value => (keeps_separatedTail h each).bind fun _ values =>
    keeps_pure (.cons value values)

end CodeSmell.Parser
