import CodeSmell.Syntax.Parser.Basic
import Mathlib.Data.List.Forall2
import Mathlib.Tactic

/-!
What a parser does on given tokens. `Takes p ts rest X` says that where the tokens `ts` come next, and
then `rest`, the parser `p` takes `ts` and gives a value with `X`. The places of tokens are left out,
as no parser looks at them. Loops are put together step by step, with `Begins`.
-/

namespace CodeSmell

def Token.bare (t : Token) : Token := { t with position := ⟨0, 0⟩, endLine := 0 }

def firstOf (ts : List Token) : Token := ts.headD {}

namespace Cursor

variable {c : Cursor} {t : Token} {ts : List Token}

def Shows (c : Cursor) (ts : List Token) : Prop := c.rest.map Token.bare = ts

theorem Shows.peek (h : c.Shows ts) : c.peek.bare = firstOf ts := by
  rw [← h, Cursor.peek, firstOf]
  cases c.rest with
  | nil => rfl
  | cons t rest => rfl

theorem Shows.peekSecond (h : c.Shows ts) : c.peekSecond.bare = firstOf ts.tail := by
  rw [← h, Cursor.peekSecond, firstOf]
  rcases c.rest with _ | ⟨t, _ | ⟨u, rest⟩⟩
  · rfl
  · rfl
  · rfl

theorem Shows.advance (h : c.Shows (t :: ts)) : c.advance.Shows ts := by
  unfold Shows Cursor.advance at *
  split
  · next empty =>
    rw [empty] at h
    cases h
  · next u rest eq =>
    rw [eq] at h
    exact (List.cons.inj h).2

theorem Shows.left (h : c.Shows ts) : c.left = ts.length := by
  rw [c.left_eq, ← h, List.length_map]

theorem Shows.atKind (h : c.Shows ts) (kind : TokenKind) :
    c.atKind kind = ((firstOf ts).kind == kind) := by
  rw [Cursor.atKind, ← h.peek]
  rfl

theorem Shows.atOperator (h : c.Shows ts) (text : Bytes) :
    c.atOperator text = (firstOf ts).isOperator text := by
  rw [Cursor.atOperator, ← h.peek]
  rfl

theorem Shows.atKeyword (h : c.Shows ts) (text : Bytes) :
    c.atKeyword text = (firstOf ts).isKeyword text := by
  rw [Cursor.atKeyword, ← h.peek]
  rfl

theorem Shows.operator {text : Bytes} {b : Bool} (h : c.Shows (t :: ts))
    (eq : t.isOperator text = b) : c.atOperator text = b :=
  (h.atOperator text).trans eq

theorem Shows.keyword {text : Bytes} {b : Bool} (h : c.Shows (t :: ts))
    (eq : t.isKeyword text = b) : c.atKeyword text = b :=
  (h.atKeyword text).trans eq

end Cursor

namespace Parser

variable {α β κ : Type}

def Takes (p : Parser α) (ts rest : List Token) (X : α → Prop) : Prop :=
  ∀ c : Cursor, c.Shows (ts ++ rest) → ∃ x c', p c = .ok (x, c') ∧ c'.Shows rest ∧ X x

variable {p q : Parser α} {t : Token} {ts us rest : List Token} {X : α → Prop} {Y : β → Prop}

theorem bind_eq {f : α → Parser β} {x : α} {c c' : Cursor} (h : p c = .ok (x, c')) :
    (p >>= f) c = f x c' := by
  simp only [bind, h]

theorem takes_pure {x : α} (h : X x) : (pure x : Parser α).Takes [] rest X :=
  fun c shows => ⟨x, c, rfl, shows, h⟩

theorem Takes.bind {f : α → Parser β} (first : p.Takes ts (us ++ rest) X)
    (second : ∀ x, X x → (f x).Takes us rest Y) : (p >>= f).Takes (ts ++ us) rest Y := by
  intro c shows
  rw [List.append_assoc] at shows
  obtain ⟨x, c₁, eq, shows, holds⟩ := first c shows
  obtain ⟨y, c₂, eq', shows, holds⟩ := second x holds c₁ shows
  exact ⟨y, c₂, (bind_eq eq).trans eq', shows, holds⟩

theorem Takes.after {f : α → Parser β} (first : p.Takes [] (ts ++ rest) X)
    (second : ∀ x, X x → (f x).Takes ts rest Y) : (p >>= f).Takes ts rest Y := by
  have both : (p >>= f).Takes ([] ++ ts) rest Y := first.bind second
  exact both

theorem Takes.result {f : α → Parser β} (first : p.Takes ts rest X)
    (second : ∀ x, X x → (f x).Takes [] rest Y) : (p >>= f).Takes ts rest Y := by
  have both : (p >>= f).Takes (ts ++ []) rest Y := first.bind second
  rwa [List.append_nil] at both

theorem Takes.map {f : α → β} (h : p.Takes ts rest X) (holds : ∀ x, X x → Y (f x)) :
    (f <$> p).Takes ts rest Y :=
  Takes.result h fun x hx => takes_pure (holds x hx)

theorem takes_advance : advance.Takes [t] rest fun u => u.bare = t :=
  fun c shows => ⟨c.peek, c.advance, rfl, shows.advance, shows.peek⟩

theorem Takes.next {f : Token → Parser β} (h : ∀ u, u.bare = t → (f u).Takes ts rest Y) :
    (advance >>= f).Takes (t :: ts) rest Y := by
  have both : (advance >>= f).Takes ([t] ++ ts) rest Y := takes_advance.bind h
  exact both

theorem Takes.look {f : Token → Parser β} (h : ∀ u, u.bare = firstOf (ts ++ rest) →
    (f u).Takes ts rest Y) : (peek >>= f).Takes ts rest Y :=
  Takes.after (fun c shows => ⟨c.peek, c, rfl, shows, shows.peek⟩) h

section Choices

variable {holds : Cursor → Bool}

theorem takes_test {b : Bool} (h : ∀ c : Cursor, c.Shows rest → holds c = b) :
    (test holds).Takes [] rest (· = b) :=
  fun c shows => ⟨holds c, c, rfl, shows, h c shows⟩

theorem takes_accept (h : ∀ c : Cursor, c.Shows (t :: rest) → holds c = true) :
    (accept holds).Takes [t] rest (· = true) := by
  intro c shows
  refine ⟨true, c.advance, ?_, shows.advance, rfl⟩
  rw [accept, if_pos (h c shows)]

theorem takes_refuse (h : ∀ c : Cursor, c.Shows rest → holds c = false) :
    (accept holds).Takes [] rest (· = false) := by
  intro c shows
  refine ⟨false, c, ?_, shows, rfl⟩
  rw [accept, h c shows]
  rfl

theorem Takes.ifTest (h : ∀ c : Cursor, c.Shows (ts ++ rest) → holds c = true)
    (yes : p.Takes ts rest X) : (do if ← test holds then p else q).Takes ts rest X :=
  Takes.after (takes_test h) fun _ eq => by rwa [eq]

theorem Takes.elseTest (h : ∀ c : Cursor, c.Shows (ts ++ rest) → holds c = false)
    (no : q.Takes ts rest X) : (do if ← test holds then p else q).Takes ts rest X :=
  Takes.after (takes_test h) fun _ eq => by rwa [eq]

theorem Takes.ifAccept (h : ∀ c : Cursor, c.Shows (t :: (ts ++ rest)) → holds c = true)
    (yes : p.Takes ts rest X) : (do if ← accept holds then p else q).Takes (t :: ts) rest X := by
  have both : (do if ← accept holds then p else q).Takes ([t] ++ ts) rest X :=
    (takes_accept h).bind fun _ eq => by rwa [eq]
  exact both

theorem Takes.elseAccept (h : ∀ c : Cursor, c.Shows (ts ++ rest) → holds c = false)
    (no : q.Takes ts rest X) : (do if ← accept holds then p else q).Takes ts rest X :=
  Takes.after (takes_refuse h) fun _ eq => by rwa [eq]

end Choices

section Words

variable {text : Bytes}

theorem takes_expectOperator (h : t.isOperator text = true) :
    (expectOperator text).Takes [t] rest fun u => u.bare = t :=
  Takes.ifTest (fun _ shows => (shows.atOperator text).trans h) takes_advance

theorem takes_expectKeyword (h : t.isKeyword text = true) :
    (expectKeyword text).Takes [t] rest fun u => u.bare = t :=
  Takes.ifTest (fun _ shows => (shows.atKeyword text).trans h) takes_advance

theorem takes_expectName (h : t.kind = .name) :
    expectName.Takes [t] rest fun u => u.bare = t := by
  refine Takes.ifTest (fun c shows => ?_) takes_advance
  rw [shows.atKind]
  exact beq_iff_eq.2 h

end Words

theorem Takes.optional {holds : Cursor → Bool} (h : p.Takes ts rest X)
    (starts : ∀ c : Cursor, c.Shows (ts ++ rest) → holds c = true) :
    (Parser.optional holds p).Takes ts rest fun x => ∃ y, x = some y ∧ X y :=
  Takes.ifTest starts (h.map fun y holds => ⟨y, rfl, holds⟩)

theorem length_le_flatMap (items : List κ) {f : κ → List α} (h : ∀ i, f i ≠ []) :
    items.length ≤ (items.flatMap f).length := by
  induction items with
  | nil => exact Nat.zero_le _
  | cons i items ih =>
    have := List.length_pos_iff.2 (h i)
    rw [List.flatMap_cons, List.length_cons, List.length_append]
    omega

theorem takes_separatedTail {text : Bytes} (separator : Token) {stop : Cursor → Bool}
    {items : List κ} {tokens : κ → List Token} {X : κ → α → Prop} {Follow : List Token → Prop}
    (isSeparator : separator.isOperator text = true)
    (ending : (firstOf rest).isOperator text = false) (follow : Follow rest)
    (between : ∀ more, Follow (separator :: more))
    (starts : ∀ i ∈ items, ∀ more (c : Cursor), c.Shows (tokens i ++ more) → stop c = false)
    (each : ∀ i ∈ items, ∀ more, Follow more → p.Takes (tokens i) more (X i)) :
    (separatedTail text stop p).Takes (items.flatMap fun i => separator :: tokens i) rest
      (List.Forall₂ X items) := by
  have loop (bound : Nat) (enough : items.length < bound) : (tailLoop text stop p bound).Takes
      (items.flatMap fun i => separator :: tokens i) rest (List.Forall₂ X items) := by
    induction items generalizing bound with
    | nil =>
      cases bound with
      | zero => cases enough
      | succ bound =>
        refine Takes.elseAccept (fun c shows => ?_) (takes_pure .nil)
        exact (shows.atOperator text).trans ending
    | cons i items ih =>
      rw [List.forall_mem_cons] at starts each
      cases bound with
      | zero => cases enough
      | succ bound =>
        have after : Follow ((items.flatMap fun i => separator :: tokens i) ++ rest) := by
          cases items with
          | nil => exact follow
          | cons j items => exact between _
        rw [List.flatMap_cons, List.cons_append]
        refine Takes.ifAccept (fun c shows => ?_) (Takes.elseTest (fun c shows => ?_) ?_)
        · exact (shows.atOperator text).trans isSeparator
        · rw [List.append_assoc] at shows
          exact starts.1 _ c shows
        · refine Takes.bind (each.1 _ after) fun x one => ?_
          refine Takes.result (ih starts.2 each.2 bound (Nat.lt_of_succ_lt_succ enough)) ?_
          exact fun xs more => takes_pure (.cons one more)
  intro c shows
  refine loop (c.left + 1) ?_ c shows
  have count := length_le_flatMap items fun i => List.cons_ne_nil separator (tokens i)
  rw [shows.left, List.length_append]
  omega

section Steps

variable (start : Cursor → Option κ) (item : κ → Parser β)

/-- The loop takes these items on the way from one cursor to another. -/
inductive Steps (c : Cursor) : List β → Cursor → Prop
  | refl : Steps c [] c
  | step {key : κ} {y : β} {ys : List β} {c₁ c₂ : Cursor} : Steps c ys c₁ → start c₁ = some key →
      item key c₁ = .ok (y, c₂) → c₂.left < c₁.left → Steps c (ys ++ [y]) c₂

/-- `first` and items of the loop take `ts`, perhaps with more items to come. -/
def Begins (first : Parser α) (ts rest : List Token) (X : α → List β → Prop) : Prop :=
  ∀ c : Cursor, c.Shows (ts ++ rest) → ∃ x c₀ ys c', first c = .ok (x, c₀) ∧
    Steps start item c₀ ys c' ∧ c'.Shows rest ∧ X x ys

variable {start item}

theorem Steps.count {c c' : Cursor} {ys : List β} (h : Steps start item c ys c') :
    ys.length + c'.left ≤ c.left := by
  induction h with
  | refl => simp
  | step _ _ _ less ih =>
    rw [List.length_append, List.length_singleton]
    omega

theorem Steps.run {c c' : Cursor} {ys : List β} (h : Steps start item c ys c') {bound : Nat}
    {zs : List β} {c'' : Cursor} (more : manyLoop start item bound c' = .ok (zs, c'')) :
    manyLoop start item (ys.length + bound) c = .ok (ys ++ zs, c'') := by
  induction h generalizing bound zs with
  | refl => simpa using more
  | @step key y ys c₁ c₂ _ started one _ ih =>
    rw [List.length_append, List.length_singleton, Nat.add_assoc, Nat.add_comm 1, List.append_assoc]
    refine ih ?_
    simp only [manyLoop, started]
    rw [bind_eq one, bind_eq more]
    rfl

theorem Steps.manyKeyed {c c' : Cursor} {ys : List β} (h : Steps start item c ys c')
    (stops : start c' = none) : manyKeyed start item c = .ok (ys, c') := by
  have count := h.count
  obtain ⟨bound, eq⟩ : ∃ bound, c.left + 1 = ys.length + (bound + 1) :=
    ⟨c.left - ys.length, by omega⟩
  have last : manyLoop start item (bound + 1) c' = .ok ([], c') := by simp only [manyLoop, stops]
  rw [Parser.manyKeyed, eq]
  simpa using h.run last

theorem Takes.begins {Z : α → List β → Prop} (h : p.Takes ts rest X) (holds : ∀ x, X x → Z x []) :
    Begins start item p ts rest Z := by
  intro c shows
  obtain ⟨x, c', eq, shows, hx⟩ := h c shows
  exact ⟨x, c', [], c', eq, .refl, shows, holds x hx⟩

theorem Begins.step {Z W : α → List β → Prop} (key : κ) (h : Begins start item p ts (us ++ rest) Z)
    (started : ∀ c : Cursor, c.Shows (us ++ rest) → start c = some key)
    (one : (item key).Takes us rest Y) (some : us ≠ [])
    (holds : ∀ x ys y, Z x ys → Y y → W x (ys ++ [y])) :
    Begins start item p (ts ++ us) rest W := by
  intro c shows
  rw [List.append_assoc] at shows
  obtain ⟨x, c₀, ys, c₁, first, steps, shows, hz⟩ := h c shows
  obtain ⟨y, c₂, eq, shows', hy⟩ := one c₁ shows
  have less : c₂.left < c₁.left := by
    have := List.length_pos_iff.2 some
    rw [shows.left, shows'.left, List.length_append]
    omega
  exact ⟨x, c₀, _, c₂, first, steps.step (started c₁ shows) eq less, shows', holds x ys y hz hy⟩

theorem Begins.items {γ : Type} {items : List γ} {tokens : γ → List Token} {starts : Cursor → Bool}
    {q : Parser β} {Z : α → Prop} {W : γ → β → Prop} {Follow : List Token → Prop}
    (h : p.Takes ts (items.flatMap tokens ++ rest) Z) (follow : Follow rest)
    (between : ∀ i ∈ items, ∀ more, Follow (tokens i ++ more))
    (started : ∀ i ∈ items, ∀ more (c : Cursor), c.Shows (tokens i ++ more) → starts c = true)
    (one : ∀ i ∈ items, ∀ more, Follow more → q.Takes (tokens i) more (W i))
    (some : ∀ i ∈ items, tokens i ≠ []) :
    Begins (fun c => if starts c then Option.some () else none) (fun _ => q) p
      (ts ++ items.flatMap tokens) rest fun x ys => Z x ∧ List.Forall₂ W items ys := by
  induction items using List.reverseRecOn generalizing rest with
  | nil =>
    rw [List.flatMap_nil, List.append_nil]
    exact h.begins fun x hx => ⟨hx, .nil⟩
  | append_singleton items i ih =>
    rw [List.flatMap_append, List.flatMap_singleton, ← List.append_assoc]
    rw [List.flatMap_append, List.flatMap_singleton, List.append_assoc] at h
    have last : i ∈ items ++ [i] := by simp
    have before {j : γ} (mem : j ∈ items) : j ∈ items ++ [i] := List.mem_append_left _ mem
    have inner := ih h (between i last rest) (fun j mem => between j (before mem))
      (fun j mem => started j (before mem)) (fun j mem => one j (before mem))
      fun j mem => some j (before mem)
    refine inner.step () (fun c shows => if_pos (started i last rest c shows))
      (one i last rest follow) (some i last) ?_
    exact fun x ys y ⟨hx, hys⟩ hy => ⟨hx, List.rel_append hys (.cons hy .nil)⟩

theorem Begins.ends {γ : Type} {Z : α → List β → Prop} {W : γ → Prop} {f : α → List β → Parser γ}
    (h : Begins start item p ts rest Z)
    (stops : ∀ c : Cursor, c.Shows rest → start c = none)
    (result : ∀ x ys, Z x ys → (f x ys).Takes [] rest W) :
    (p >>= fun x => manyKeyed start item >>= f x).Takes ts rest W := by
  intro c shows
  obtain ⟨x, c₀, ys, c₁, first, steps, shows, hz⟩ := h c shows
  obtain ⟨y, c₂, eq, shows', hw⟩ := result x ys hz c₁ shows
  refine ⟨y, c₂, ?_, shows', hw⟩
  rw [bind_eq first, bind_eq (steps.manyKeyed (stops c₁ shows))]
  exact eq

end Steps

end Parser

end CodeSmell
