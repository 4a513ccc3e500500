import CodeSmell.Proofs.Parser.Takes
import CodeSmell.Proofs.Renaming.Tokens

/-!
Two runs of parsers on tokens up to a renaming. `Tracks n k V p q` says that from renamed cursors with
fewer than `n` tokens left `p` and `q` both fail, with the same error, or both succeed with values
that `V` relates; that they are never stuck, and that a success takes at least `k` tokens. The bound
`n` is what a rule with nested rules has in common with them: a token that was taken lowers it.
-/

namespace CodeSmell

/-- From one cursor to another in the same list, over at least `k` tokens. -/
structure Cursor.Moves (c : Cursor) (k : Nat) (c' : Cursor) : Prop where
  rest : c'.rest <:+ c.rest
  stop : c'.stop = c.stop
  left : c'.left + k ≤ c.left

namespace Cursor

variable {c c' c'' : Cursor} {k m : Nat}

theorem Moves.refl (c : Cursor) : c.Moves 0 c := ⟨List.suffix_rfl, rfl, Nat.le_refl _⟩

theorem Moves.trans (h : c.Moves k c') (h' : c'.Moves m c'') : c.Moves (k + m) c'' where
  rest := h'.rest.trans h.rest
  stop := h'.stop.trans h.stop
  left := by have := h.left; have := h'.left; omega

theorem Moves.mono (h : c.Moves k c') (le : m ≤ k) : c.Moves m c' :=
  ⟨h.rest, h.stop, by have := h.left; omega⟩

theorem Moves.advance (h : c.rest ≠ []) : c.Moves 1 c.advance := by
  obtain ⟨rest, stop, lastLine, left, left_eq⟩ := c
  cases rest with
  | nil => exact absurd rfl h
  | cons t rest => exact ⟨List.suffix_cons t rest, rfl, by simp [Cursor.advance, left_eq]⟩

theorem Moves.advance? (c : Cursor) : c.Moves 0 c.advance := by
  by_cases nil : c.rest = []
  · obtain ⟨rest, stop, lastLine, left, left_eq⟩ := c
    obtain rfl : rest = [] := nil
    exact .refl _
  · exact (Moves.advance nil).mono (Nat.zero_le 1)

end Cursor

namespace Parser

open Cursor

variable {α β κ : Type}

inductive Agreed (k : Nat) (V : α → α → Prop) (c : Cursor) :
    Except SyntaxError (α × Cursor) → Except SyntaxError (α × Cursor) → Prop where
  | ok {x y : α} {c' d' : Cursor} : V x y → c'.Renamed d' → c.Moves k c' →
      Agreed k V c (.ok (x, c')) (.ok (y, d'))
  | error {e : SyntaxError} : e.fault ≠ .stuck → Agreed k V c (.error e) (.error e)

variable {k j m n : Nat} {V : α → α → Prop} {W : β → β → Prop}

namespace Agreed

variable {c c' : Cursor} {r s : Except SyntaxError (α × Cursor)}

theorem mono {V' : α → α → Prop} (h : Agreed k V c r s) (le : j ≤ k)
    (implies : ∀ x y, V x y → V' x y) : Agreed j V' c r s := by
  cases h with
  | ok related same moves => exact .ok (implies _ _ related) same (moves.mono le)
  | error fault => exact .error fault

theorem after (moves : c.Moves k c') (h : Agreed j V c' r s) : Agreed (k + j) V c r s := by
  cases h with
  | ok related same moves' => exact .ok related same (moves.trans moves')
  | error fault => exact .error fault

theorem bind {p q : Parser α} {f g : α → Parser β} {d : Cursor} (h : Agreed k V c (p c) (q d))
    (rest : ∀ x y c' d', V x y → c'.Renamed d' → c.Moves k c' → Agreed j W c' (f x c') (g y d')) :
    Agreed (k + j) W c ((p >>= f) c) ((q >>= g) d) := by
  simp only [Bind.bind]
  generalize p c = r, q d = s at h
  cases h with
  | ok related same moves => exact after moves (rest _ _ _ _ related same moves)
  | error fault => exact .error fault

end Agreed

/-- The parsers go together from cursors where `P` holds. -/
def TracksWhen (P : Cursor → Prop) (n k : Nat) (V : α → α → Prop) (p q : Parser α) : Prop :=
  ∀ c d : Cursor, P c → c.Renamed d → c.left < n → Agreed k V c (p c) (q d)

abbrev Tracks (n k : Nat) (V : α → α → Prop) (p q : Parser α) : Prop :=
  TracksWhen (fun _ => True) n k V p q

variable {P Q : Cursor → Prop} {p q p' q' : Parser α}

namespace TracksWhen

theorem mono {V' : α → α → Prop} (h : TracksWhen P n k V p q) (implies : ∀ x y, V x y → V' x y) :
    TracksWhen P n k V' p q :=
  fun c d holds same less => (h c d holds same less).mono (Nat.le_refl k) implies

theorem weaken (h : TracksWhen Q n k V p q) (known : ∀ c, P c → Q c) (bound : m ≤ n) (taken : j ≤ k) :
    TracksWhen P m j V p q :=
  fun c d holds same less =>
    (h c d (known c holds) same (Nat.lt_of_lt_of_le less bound)).mono taken fun _ _ => id

theorem always (h : Tracks n k V p q) : TracksWhen P n k V p q :=
  h.weaken (fun _ _ => trivial) (Nat.le_refl n) (Nat.le_refl k)

theorem known (h : TracksWhen Q n k V p q) (known : ∀ c, P c → Q c) : TracksWhen P n k V p q :=
  h.weaken known (Nat.le_refl n) (Nat.le_refl k)

theorem lower (h : TracksWhen P (n + 1) k V p q) : TracksWhen P n k V p q :=
  h.weaken (fun _ => id) (Nat.le_succ n) (Nat.le_refl k)

theorem loose (h : TracksWhen P n k V p q) : TracksWhen P n 0 V p q :=
  h.weaken (fun _ => id) (Nat.le_refl n) (Nat.zero_le k)

/-- The bound of the second parser is less by the tokens that the first one takes. -/
theorem seq {f g : α → Parser β} (first : TracksWhen P n k V p q) (le : n ≤ m + k)
    (second : ∀ x y, V x y → Tracks m j W (f x) (g y)) :
    TracksWhen P n (k + j) W (p >>= f) (q >>= g) := by
  intro c d holds same less
  refine (first c d holds same less).bind fun x y c' d' related same' moves => ?_
  exact second x y related c' d' trivial same' (by have := moves.left; omega)

/-- Once a token is taken, nested rules can be used. -/
theorem next {f g : α → Parser β} (first : TracksWhen P (n + 1) 1 V p q)
    (second : ∀ x y, V x y → Tracks n 0 W (f x) (g y)) :
    TracksWhen P (n + 1) 1 W (p >>= f) (q >>= g) := first.seq (Nat.le_refl _) second

theorem bind {f g : α → Parser β} (first : TracksWhen P n k V p q)
    (second : ∀ x y, V x y → Tracks n 0 W (f x) (g y)) : TracksWhen P n k W (p >>= f) (q >>= g) :=
  first.seq (Nat.le_add_right n k) second

theorem before {f g : α → Parser β} (first : TracksWhen P n 0 V p q)
    (second : ∀ x y, V x y → Tracks n k W (f x) (g y)) : TracksWhen P n k W (p >>= f) (q >>= g) := by
  have both : TracksWhen P n (0 + k) W (p >>= f) (q >>= g) := first.seq (Nat.le_refl n) second
  rwa [Nat.zero_add] at both

end TracksWhen

theorem tracks_pure {x y : α} (h : V x y) : Tracks n 0 V (pure x) (pure y) :=
  fun c _ _ same _ => .ok h same (.refl c)

theorem TracksWhen.map {f g : α → β} (h : TracksWhen P n k V p q)
    (related : ∀ x y, V x y → W (f x) (g y)) : TracksWhen P n k W (f <$> p) (g <$> q) :=
  TracksWhen.bind h fun x y holds => tracks_pure (related x y holds)

theorem tracks_fail {fault : SyntaxFault} (h : fault ≠ .stuck) :
    Tracks n k V (fail fault) (fail fault) := by
  intro c d _ same _
  have position := same.peek.position
  unfold fail
  rw [position]
  exact .error h

theorem tracks_failAt {position : Position} {fault : SyntaxFault} (h : fault ≠ .stuck) :
    Tracks n k V (failAt position fault) (failAt position fault) :=
  fun _ _ _ _ _ => .error h

theorem tracks_peek : Tracks n 0 Token.Renamed peek peek :=
  fun c _ _ same _ => .ok same.peek same (.refl c)

theorem tracks_look {f g : Token → Parser β}
    (h : ∀ t u, t.Renamed u → TracksWhen (·.peek = t) n k W (f t) (g u)) :
    Tracks n k W (peek >>= f) (peek >>= g) :=
  fun c d _ same less => h c.peek d.peek same.peek c d rfl same less

theorem tracks_lastLine : Tracks n 0 Eq lastLine lastLine :=
  fun c _ _ same _ => .ok same.lastLine same (.refl c)

theorem tracks_taken {R : Token → Token → Prop} (rest : ∀ c, P c → c.rest ≠ [])
    (related : ∀ c d : Cursor, P c → c.Renamed d → R c.peek d.peek) :
    TracksWhen P n 1 R advance advance :=
  fun c d holds same _ => .ok (related c d holds same) same.advance (.advance (rest c holds))

theorem tracks_advance : TracksWhen (·.rest ≠ []) n 1 Token.Renamed advance advance :=
  tracks_taken (fun _ => id) fun _ _ _ same => same.peek

theorem tracks_advance? : Tracks n 0 Token.Renamed advance advance :=
  fun c _ _ same _ => .ok same.peek same.advance (.advance? c)

section Choices

variable {t : Cursor → Bool}

theorem tracks_test (h : Steady t) : Tracks n 0 Eq (test t) (test t) :=
  fun c _ _ same _ => .ok (h same) same (.refl c)

theorem tracks_accept (h : Steady t) : Tracks n 0 Eq (accept t) (accept t) := by
  intro c d _ same _
  unfold accept
  rw [← h same]
  cases t c with
  | true => exact .ok rfl same.advance (.advance? c)
  | false => exact .ok rfl same (.refl c)

theorem tracks_accepted (h : Solid t) :
    TracksWhen (t · = true) n 1 (fun b b' => b = true ∧ b' = true) (accept t) (accept t) := by
  intro c d holds same _
  unfold accept
  rw [← h.steady same, holds]
  exact .ok ⟨rfl, rfl⟩ same.advance (.advance (h.rest c holds))

theorem tracks_cases (t : Cursor → Bool) (yes : TracksWhen (t · = true) n k V p q)
    (no : TracksWhen (t · = false) n k V p q) : Tracks n k V p q := by
  intro c d _ same less
  cases holds : t c with
  | true => exact yes c d holds same less
  | false => exact no c d holds same less

theorem tracks_acceptOperator {text : Bytes} :
    Tracks n 0 Eq (acceptOperator text) (acceptOperator text) := tracks_accept (steady_atOperator text)

theorem tracks_acceptKeyword {text : Bytes} :
    Tracks n 0 Eq (acceptKeyword text) (acceptKeyword text) := tracks_accept (steady_atKeyword text)

theorem TracksWhen.ite {b : Prop} [Decidable b] (yes : TracksWhen P n k V p q)
    (no : TracksWhen P n k V p' q') :
    TracksWhen P n k V (if b then p else p') (if b then q else q') := by
  split
  · exact yes
  · exact no

theorem TracksWhen.iteEq {b b' : Bool} (same : b = b') (yes : TracksWhen P n k V p q)
    (no : TracksWhen P n k V p' q') :
    TracksWhen P n k V (if b then p else p') (if b' then q else q') :=
  same ▸ .ite yes no

theorem tracks_byTest (h : Steady t) (yes : TracksWhen (t · = true) n k V p q)
    (no : TracksWhen (t · = false) n k V p' q') :
    Tracks n k V (do if ← test t then p else p') (do if ← test t then q else q') := by
  intro c d _ same less
  change Agreed k V c ((if t c then p else p') c) ((if t d then q else q') d)
  rw [← h same]
  cases holds : t c with
  | true => exact yes c d holds same less
  | false => exact no c d holds same less

theorem tracks_ifTest (h : Steady t) (yes : Tracks n k V p q) (no : Tracks n k V p' q') :
    Tracks n k V (do if ← test t then p else p') (do if ← test t then q else q') :=
  tracks_byTest h yes.always no.always

theorem tracks_chosen (h : Solid t) (le : k ≤ 1) (bound : n ≤ m + 1) (yes : Tracks m 0 V p q)
    (no : Tracks n k V p' q') :
    Tracks n k V (do if ← accept t then p else p') (do if ← accept t then q else q') := by
  intro c d _ same less
  have holds' := h.steady same
  cases holds : t c with
  | false =>
    have refused : accept t c = .ok (false, c) := by rw [accept, holds]; rfl
    have refused' : accept t d = .ok (false, d) := by rw [accept, ← holds', holds]; rfl
    rw [bind_eq refused, bind_eq refused']
    exact no c d trivial same less
  | true =>
    have moves := Moves.advance (h.rest c holds)
    have taken : accept t c = .ok (true, c.advance) := by rw [accept, holds]; rfl
    have taken' : accept t d = .ok (true, d.advance) := by rw [accept, ← holds', holds]; rfl
    rw [bind_eq taken, bind_eq taken']
    have chosen := yes c.advance d.advance trivial same.advance (by have := moves.left; omega)
    exact (chosen.after moves).mono le fun _ _ => id

theorem tracks_ifAccept (h : Solid t) (yes : Tracks n 0 V p q) (no : Tracks (n + 1) 1 V p' q') :
    Tracks (n + 1) 1 V (do if ← accept t then p else p') (do if ← accept t then q else q') :=
  tracks_chosen h (Nat.le_refl 1) (Nat.le_refl _) yes no

theorem tracks_ifTaken (h : Solid t) (yes : Tracks n 0 V p q) (no : Tracks n 1 V p' q') :
    Tracks n 1 V (do if ← accept t then p else p') (do if ← accept t then q else q') :=
  tracks_chosen h (Nat.le_refl 1) (Nat.le_succ n) yes no

theorem tracks_ifAccept? (h : Steady t) (yes : Tracks n 0 V p q) (no : Tracks n 0 V p' q') :
    Tracks n 0 V (do if ← accept t then p else p') (do if ← accept t then q else q') := by
  refine (tracks_accept h).bind ?_
  rintro b _ rfl
  exact .ite yes no

theorem tracks_expect (h : Solid t) {fault : SyntaxFault} (other : fault ≠ .stuck) :
    Tracks n 1 Token.Renamed (do if ← test t then advance else fail fault)
      (do if ← test t then advance else fail fault) :=
  tracks_byTest h.steady (tracks_advance.known h.rest)
    (tracks_fail other).always

theorem tracks_expectOperator {text : Bytes} :
    Tracks n 1 Token.Renamed (expectOperator text) (expectOperator text) :=
  tracks_expect (solid_atOperator text) nofun

theorem tracks_expectKeyword {text : Bytes} :
    Tracks n 1 Token.Renamed (expectKeyword text) (expectKeyword text) :=
  tracks_expect (solid_atKeyword text) nofun

theorem tracks_expectName : Tracks n 1 Token.Renamed expectName expectName :=
  tracks_expect (solid_atKind (by decide)) (by decide)

theorem tracks_endStatement : Tracks n 0 Eq endStatement endStatement :=
  tracks_ifAccept? (steady_atKind _) (tracks_pure rfl)
    (tracks_ifTest (steady_atKind _) (tracks_pure rfl) (tracks_fail (by decide)))

theorem tracks_optional (h : Steady t) (item : TracksWhen (t · = true) n 0 V p q) :
    Tracks n 0 (Option.Rel V) (optional t p) (optional t q) :=
  tracks_byTest h (item.map fun _ _ => .some) (tracks_pure .none).always

theorem tracks_absent {f g : Option α → Parser β} (h : Steady t) (absent : ∀ c, P c → t c = false)
    (rest : TracksWhen P n k W (f none) (g none)) :
    TracksWhen P n k W (optional t p >>= f) (optional t q >>= g) := by
  intro c d holds same less
  have skipped {p : Parser α} {c : Cursor} (h : t c = false) : optional t p c = .ok (none, c) := by
    have tested : test t c = .ok (false, c) := by rw [test, h]
    rw [optional, bind_eq tested]
    rfl
  have none := absent c holds
  rw [bind_eq (skipped none), bind_eq (skipped ((h same).symm.trans none))]
  exact rest c d holds same less

theorem tracks_present (h : Steady t) (item : TracksWhen (t · = true) n k V p q) :
    TracksWhen (t · = true) n k (fun x y => ∃ a b, V a b ∧ x = some a ∧ y = some b)
      (optional t p) (optional t q) := by
  intro c d holds same less
  have tested : test t c = .ok (true, c) := by rw [test, holds]
  have tested' : test t d = .ok (true, d) := by rw [test, ← h same, holds]
  rw [optional, optional, bind_eq tested, bind_eq tested']
  exact (item.map fun x y related => ⟨x, y, related, rfl, rfl⟩) c d holds same less

end Choices

theorem tracks_manyKeyed {start : Cursor → Option κ} {item item' : κ → Parser α} (h : Steady start)
    (each : ∀ key, TracksWhen (start · = some key) n 1 V (item key) (item' key)) :
    Tracks n 0 (List.Forall₂ V) (manyKeyed start item) (manyKeyed start item') := by
  -- each item takes a token, so that tokens and fuel run down together
  have loop (bound : Nat) : ∀ m, m ≤ n → Tracks (min m bound) 0 (List.Forall₂ V)
      (manyLoop start item bound) (manyLoop start item' bound) := by
    induction bound with
    | zero => exact fun m _ c d _ _ less => by omega
    | succ bound ih =>
      intro m le c d _ same less
      unfold manyLoop
      rw [← h same]
      cases started : start c with
      | none => exact .ok .nil same (.refl c)
      | some key =>
        have first := (each key).weaken (m := min (m - 1) bound + 1) (fun _ => id) (by omega)
          (Nat.le_refl 1)
        have all := first.next fun x y related =>
          (ih (m - 1) (by omega)).bind fun xs ys more => tracks_pure (List.Forall₂.cons related more)
        exact all.loose c d started same (by omega)
  intro c d _ same less
  unfold manyKeyed
  rw [← same.left]
  exact loop (c.left + 1) (c.left + 1) less c d trivial same (by omega)

theorem tracks_many {start : Cursor → Bool} (h : Steady start)
    (each : TracksWhen (start · = true) n 1 V p q) :
    Tracks n 0 (List.Forall₂ V) (many start p) (many start q) := by
  refine tracks_manyKeyed (fun c d same => by rw [h same]) fun key => ?_
  refine each.weaken (fun c started => ?_) (Nat.le_refl n) (Nat.le_refl 1)
  by_contra stop
  simp [stop] at started

theorem tracks_separatedTail {separator : Bytes} {stop : Cursor → Bool} (h : Steady stop)
    (each : Tracks n 0 V p q) : Tracks n 0 (List.Forall₂ V) (separatedTail separator stop p)
      (separatedTail separator stop q) := by
  -- here the separator is the token of each round, and an item may take nothing
  have loop (bound : Nat) : ∀ m, m ≤ n → Tracks (min m bound) 0 (List.Forall₂ V)
      (tailLoop separator stop p bound) (tailLoop separator stop q bound) := by
    induction bound with
    | zero => exact fun m _ c d _ _ less => by omega
    | succ bound ih =>
      intro m le
      cases m with
      | zero => exact fun c d _ _ less => by omega
      | succ m =>
        have item : Tracks (min m bound) 0 V p q :=
          each.weaken (fun _ => id) (by omega) (Nat.le_refl 0)
        have more := item.bind fun x y related =>
          (ih m (by omega)).bind fun xs ys more => tracks_pure (List.Forall₂.cons related more)
        rw [Nat.succ_min_succ]
        exact tracks_chosen (solid_atOperator _) (Nat.zero_le 1) (Nat.le_refl _)
          (tracks_ifTest h (tracks_pure .nil) more) (tracks_pure .nil)
  intro c d _ same less
  unfold separatedTail
  rw [← same.left]
  exact loop (c.left + 1) (c.left + 1) less c d trivial same (by omega)

theorem tracks_commaSeparated (each : Tracks n k V p q) :
    Tracks n k (List.Forall₂ V) (commaSeparated p) (commaSeparated q) :=
  each.bind fun _ _ related =>
    (tracks_separatedTail (fun _ _ _ => rfl) each.loose).bind fun _ _ more =>
      tracks_pure (.cons related more)

theorem tracks_commaList {stop : Cursor → Bool} (h : Steady stop) (each : Tracks n 0 V p q) :
    Tracks n 0 (List.Forall₂ V) (commaList stop p) (commaList stop q) := by
  refine tracks_ifTest h (tracks_pure .nil) ?_
  exact each.bind fun _ _ related =>
    (tracks_separatedTail h each).bind fun _ _ more => tracks_pure (.cons related more)

end Parser

end CodeSmell
