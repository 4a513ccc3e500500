import CodeSmell.Proofs.Parser.Definitions

/-!
Where parsers stop. An expression has no layout within it and does not end with a colon: the colons of
slices, lambdas, annotations and entries all have something behind them. `Walks a p b` follows this
through the grammar. The flags say whether what was taken so far is known to end with something else
than a colon, `a` before `p` and `b` after it.
-/

namespace CodeSmell

structure Token.Firm (t : Token) : Prop where
  text : t.isLayout = false
  other : t.isOperator ":" = false

namespace Token

variable {t : Token} {text : Bytes}

theorem Firm.of_kind (plain : t.kind.isLayout = false) (other : t.kind ≠ .operator) : t.Firm where
  text := plain
  other := by simp [isOperator, other]

theorem Firm.operator (h : t.isOperator text = true) (other : text ≠ ":") : t.Firm where
  text := t.not_isLayout_of_isOperator h
  other := by
    simp [isOperator, (isOperator_iff.1 h).2, other]

theorem Firm.keyword (h : t.isKeyword text = true) : t.Firm := by
  apply Firm.of_kind <;> simp [(isKeyword_iff.1 h).1, TokenKind.isLayout]

theorem Firm.constant {value : Constant} (h : t.constant? = some value) : t.Firm := by
  unfold constant? at h
  split_ifs at h with none yes no ellipsis
  · exact .keyword none
  · exact .keyword yes
  · exact .keyword no
  · exact .operator ellipsis (by decide)

end Token

namespace Cursor

variable {c₀ c c' : Cursor} {a b : Bool} {kind : TokenKind} {text : Bytes}

/-- The tokens between the cursors have text. If `firm`, there are some and the last is no colon. -/
def Passes (c : Cursor) (firm : Bool) (c' : Cursor) : Prop :=
  ∃ ts, c.rest = ts ++ c'.rest ∧ (∀ t ∈ ts, t.isLayout = false) ∧
    (firm = true → ∃ t, ts.getLast? = some t ∧ t.isOperator ":" = false)

namespace Passes

theorem refl (c : Cursor) : c.Passes false c := ⟨[], rfl, nofun, nofun⟩

theorem loose (h : c.Passes a c') (le : b = true → a = true) : c.Passes b c' := by
  obtain ⟨ts, rest, text, last⟩ := h
  exact ⟨ts, rest, text, fun firm => last (le firm)⟩

theorem advance (h : c₀.Passes a c) (text : c.peek.isLayout = false)
    (last : b = true → c.peek.isOperator ":" = false) : c₀.Passes b c.advance := by
  obtain ⟨ts, rest, all, -⟩ := h
  have inner : c.peek.kind ≠ .endMarker := by
    intro marker
    rw [Token.isLayout, marker] at text
    cases text
  refine ⟨ts ++ [c.peek], ?_, ?_, fun firm => ⟨c.peek, by simp, last firm⟩⟩
  · rw [rest, (advance_eq inner).1, List.append_assoc, List.singleton_append]
  · simpa [or_imp, forall_and, text] using all

theorem firm (h : c₀.Passes a c) (firm : c.peek.Firm) : c₀.Passes true c.advance :=
  h.advance firm.text fun _ => firm.other

theorem reads {ps : List Piece} (h : c₀.Passes a c) (reads : c.Reads ps c')
    (firm : ∀ t ∈ tokensOf ps, t.Firm) (some : tokensOf ps ≠ []) : c₀.Passes true c' := by
  obtain ⟨ts, rest, all, -⟩ := h
  refine ⟨ts ++ tokensOf ps, by rw [rest, reads.rest, List.append_assoc], ?_, fun _ => ?_⟩
  · simp only [List.mem_append]
    rintro t (mem | mem)
    · exact all t mem
    · exact (firm t mem).text
  · have last := List.getLast_mem some
    refine ⟨_, ?_, (firm _ last).other⟩
    rw [List.getLast?_append_of_ne_nil _ some, List.getLast?_eq_getLast_of_ne_nil some]

end Passes

theorem firm_atOperator (other : text ≠ ":") (h : c.atOperator text = true) : c.peek.Firm :=
  .operator h other

theorem firm_atKeyword (h : c.atKeyword text = true) : c.peek.Firm := .keyword h

theorem firm_atKind (plain : kind.isLayout = false) (other : kind ≠ .operator)
    (h : c.atKind kind = true) : c.peek.Firm := by
  obtain rfl : c.peek.kind = kind := eq_of_beq h
  exact .of_kind plain other

end Cursor

namespace Parser

open Cursor

variable {α β κ : Type} {P : Cursor → Prop} {p q : Parser α} {a b m : Bool}

def WalksWhen (P : Cursor → Prop) (a : Bool) (p : Parser α) (b : Bool) : Prop :=
  ∀ c₀ : Cursor, Ensures (fun c => c₀.Passes a c ∧ P c) p fun _ => c₀.Passes b

abbrev Walks (a : Bool) (p : Parser α) (b : Bool) : Prop := WalksWhen (fun _ => True) a p b

namespace WalksWhen

theorem always (h : Walks a p b) : WalksWhen P a p b :=
  fun c₀ => (h c₀).weaken fun _ holds => ⟨holds.1, trivial⟩

theorem known {Q : Cursor → Prop} (h : WalksWhen Q a p b) (known : ∀ c, P c → Q c) :
    WalksWhen P a p b :=
  fun c₀ => (h c₀).weaken fun c holds => ⟨holds.1, known c holds.2⟩

theorem loose (h : WalksWhen P a p true) : WalksWhen P a p b :=
  fun c₀ c x c' holds eq => (h c₀ c x c' holds eq).loose fun _ => rfl

theorem firmly (h : WalksWhen P a p b) : WalksWhen P true p b :=
  fun c₀ => (h c₀).weaken fun _ holds => ⟨holds.1.loose fun _ => rfl, holds.2⟩

theorem bind {f : α → Parser β} (first : WalksWhen P a p m) (second : ∀ x, Walks m (f x) b) :
    WalksWhen P a (p >>= f) b :=
  fun c₀ => (first c₀).bind fun x => (second x c₀).weaken fun _ holds => ⟨holds, trivial⟩

theorem map {f : α → β} (h : WalksWhen P a p b) : WalksWhen P a (f <$> p) b := by
  intro c₀ c y c' holds eq
  obtain ⟨x, eq, -⟩ := map_ok.1 eq
  exact h c₀ c x c' holds eq

theorem ite {t : Prop} [Decidable t] (yes : WalksWhen P a p b) (no : WalksWhen P a q b) :
    WalksWhen P a (if t then p else q) b :=
  fun c₀ => .ite (fun _ => yes c₀) fun _ => no c₀

theorem ifTest {t : Cursor → Bool} (yes : WalksWhen (t · = true) a p b) (no : Walks a q b) :
    Walks a (do if ← test t then p else q) b :=
  fun c₀ => .ifTest ((yes c₀).weaken fun _ holds => ⟨holds.1.1, holds.2⟩) (no c₀)

theorem look {f : Token → Parser β} (h : ∀ t, WalksWhen (·.peek = t) a (f t) b) :
    Walks a (peek >>= f) b :=
  fun c₀ => .look fun t => (h t c₀).weaken fun _ holds => ⟨holds.1.1, holds.2⟩

end WalksWhen

theorem walks_pure {x : α} : Walks a (pure x) a := fun _ => .pure fun _ holds => holds.1

theorem walks_fail {fault : SyntaxFault} : WalksWhen P a (fail fault : Parser α) b := fun _ => .fail

theorem walks_failAt {position : Position} {fault : SyntaxFault} :
    WalksWhen P a (failAt position fault : Parser α) b :=
  fun _ _ _ _ _ eq => (failAt_ok.1 eq).elim

theorem walks_advance : WalksWhen (·.peek.Firm) a advance true := by
  intro c₀ c t c' ⟨before, firm⟩ eq
  obtain ⟨-, rfl⟩ := advance_ok.1 eq
  exact before.firm firm

theorem walks_advanceAt {t : Token} (firm : t.Firm) : WalksWhen (·.peek = t) a advance true :=
  walks_advance.known fun _ is => is ▸ firm

theorem walks_colon : WalksWhen (·.atOperator ":" = true) a advance false := by
  intro c₀ c t c' ⟨before, colon⟩ eq
  obtain ⟨-, rfl⟩ := advance_ok.1 eq
  exact before.advance (c.peek.not_isLayout_of_isOperator colon) nofun

theorem walks_pair {f : Token → Parser β} (h : ∀ t, Walks true (f t) b) :
    WalksWhen (fun c => c.peek.Firm ∧ c.peekSecond.Firm) a
      (do let t ← advance; let _ ← advance; f t) b := by
  intro c₀ c y c' ⟨before, first, second⟩ eq
  simp only [bind_ok, advance_ok] at eq
  obtain ⟨t, _, ⟨-, rfl⟩, _, _, ⟨-, rfl⟩, eq⟩ := eq
  rw [← peek_advance] at second
  exact h t c₀ _ y c' ⟨(before.firm first).firm second, trivial⟩ eq

theorem walks_ifAccept {t : Cursor → Bool} (firm : ∀ {c}, t c = true → c.peek.Firm)
    (yes : Walks true p b) (no : Walks a q b) : Walks a (do if ← accept t then p else q) b := by
  rintro c₀ c x c' ⟨before, -⟩ eq
  simp only [bind_ok, ite_ok] at eq
  obtain ⟨taken, c₁, accepted, ⟨rfl, eq⟩ | ⟨refused, eq⟩⟩ := eq
  · obtain ⟨holds, rfl⟩ := accept_ok.1 accepted
    exact yes c₀ _ x c' ⟨before.firm (firm holds), trivial⟩ eq
  · obtain rfl := Bool.eq_false_iff.2 refused
    obtain rfl := eq_of_refused accepted
    exact no c₀ c x c' ⟨before, trivial⟩ eq

theorem walks_accept {t : Cursor → Bool} (text : ∀ {c}, t c = true → c.peek.isLayout = false) :
    Walks a (accept t) false := by
  rintro c₀ c taken c' ⟨before, -⟩ eq
  obtain ⟨rfl, rfl⟩ := accept_ok.1 eq
  split
  · next holds => exact before.advance (text holds) nofun
  · exact before.loose nofun

theorem walks_ifColon (yes : Walks false p b) (no : Walks a q b) :
    Walks a (do if ← acceptOperator ":" then p else q) b := by
  rintro c₀ c x c' ⟨before, -⟩ eq
  simp only [bind_ok, ite_ok] at eq
  obtain ⟨taken, c₁, accepted, ⟨rfl, eq⟩ | ⟨refused, eq⟩⟩ := eq
  · obtain ⟨holds, rfl⟩ := accept_ok.1 accepted
    have after := before.advance (b := false) (c.peek.not_isLayout_of_isOperator holds) nofun
    exact yes c₀ _ x c' ⟨after, trivial⟩ eq
  · obtain rfl := Bool.eq_false_iff.2 refused
    obtain rfl := eq_of_refused accepted
    exact no c₀ c x c' ⟨before, trivial⟩ eq

theorem walks_expectColon : Walks a (expectOperator ":") false :=
  .ifTest walks_colon walks_fail

theorem walks_expectOperator {text : Bytes} (other : text ≠ ":") :
    Walks a (expectOperator text) true :=
  .ifTest (walks_advance.known fun _ => firm_atOperator other) walks_fail

theorem walks_expectKeyword {text : Bytes} : Walks a (expectKeyword text) true :=
  .ifTest (walks_advance.known fun _ => firm_atKeyword) walks_fail

theorem walks_expectName : Walks a expectName true :=
  .ifTest (walks_advance.known fun _ => firm_atKind rfl (by decide)) walks_fail

theorem walks_optional {t : Cursor → Bool} (item : WalksWhen (t · = true) a p a) :
    Walks a (optional t p) a :=
  .ifTest item.map walks_pure

theorem walks_manyKeyed {start : Cursor → Option κ} {item : κ → Parser α}
    (each : ∀ key, WalksWhen (start · = some key) a (item key) a) :
    Walks a (manyKeyed start item) a := by
  have loop (bound : Nat) : Walks a (manyLoop start item bound) a := by
    induction bound with
    | zero => exact walks_fail
    | succ bound ih =>
      rintro c₀ c xs c' ⟨before, -⟩ eq
      unfold manyLoop at eq
      split at eq
      · next key started =>
        have more : WalksWhen (start · = some key) a (do
            let x ← item key
            let xs ← manyLoop start item bound
            pure (x :: xs)) a :=
          (each key).bind fun _ => ih.bind fun _ => walks_pure
        exact more c₀ c xs c' ⟨before, started⟩ eq
      · obtain ⟨-, rfl⟩ := Prod.mk.inj (Except.ok.inj eq)
        exact before
  exact fun c₀ c => loop (c.left + 1) c₀ c

theorem walks_many {start : Cursor → Bool} (each : WalksWhen (start · = true) a p a) :
    Walks a (many start p) a := by
  apply walks_manyKeyed
  intro key
  apply each.known
  intro c started
  by_contra stop
  simp [stop] at started

theorem walks_separatedTail {separator : Bytes} {stop : Cursor → Bool} (other : separator ≠ ":")
    (each : Walks a p a) : Walks a (separatedTail separator stop p) a := by
  have firm {c : Cursor} (h : c.atOperator separator = true) := firm_atOperator other h
  have loop (bound : Nat) : Walks a (tailLoop separator stop p bound) a := by
    induction bound with
    | zero => exact walks_fail
    | succ bound ih =>
      apply walks_ifAccept firm (WalksWhen.ifTest walks_pure.loose.always ?_) walks_pure
      exact (each.bind fun _ => ih.bind fun _ => walks_pure).firmly
  exact fun c₀ c => loop (c.left + 1) c₀ c

theorem walks_commaSeparated (each : ∀ {a}, Walks a p true) : Walks a (commaSeparated p) true :=
  each.bind fun _ => (walks_separatedTail (by decide) each).bind fun _ => walks_pure

theorem walks_commaList {stop : Cursor → Bool} (each : ∀ {a}, Walks a p true) :
    Walks a (commaList stop p) a := by
  apply WalksWhen.ifTest walks_pure.always
  exact each.bind fun _ => ((walks_separatedTail (by decide) each).bind fun _ => walks_pure).loose

end Parser

end CodeSmell
