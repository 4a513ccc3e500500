import CodeSmell.Proofs.Grammar.Strings

/-!
What a successful parser takes. `c.Reads ps c'` says that the tokens between two cursors are those of
the pieces `ps`, each of which spells what it says, and that no run of strings is split. A parser is
sound if its successes read pieces
that make up its value: `Sound p W`. The combinators keep soundness, so that it has to be shown of
the grammar's rules only.
-/

namespace CodeSmell

/-- What is taken as a token by itself: strings are taken in runs, and the end marker stays. -/
def TokenKind.Single (kind : TokenKind) : Prop := kind ≠ .endMarker ∧ kind ≠ .string

instance : DecidablePred TokenKind.Single := fun _ => inferInstanceAs (Decidable (_ ∧ _))

/-- Between the cursors stand the tokens of the pieces, and the pieces are spelled by them. The
strings of the tokens are those in the pieces, and after a string there is no other one. -/
structure Cursor.Reads (c : Cursor) (ps : List Piece) (c' : Cursor) : Prop where
  rest : c.rest = tokensOf ps ++ c'.rest
  stop : c'.stop = c.stop
  lastLine : c'.lastLine = lastLineOf c.lastLine (tokensOf ps)
  spelled : ∀ p ∈ ps, p.Spelled
  strings : Token.strings (tokensOf ps) = stringsOf ps
  apart : Token.Apart (tokensOf ps) c'.rest

namespace Cursor

theorem Reads.refl (c : Cursor) : c.Reads [] c :=
  ⟨rfl, rfl, rfl, fun _ mem => (nomatch mem), rfl, nofun⟩

theorem Reads.trans {c c₁ c₂ : Cursor} {ps qs : List Piece} (h : c.Reads ps c₁)
    (h' : c₁.Reads qs c₂) : c.Reads (ps ++ qs) c₂ where
  rest := by rw [h.rest, h'.rest, tokensOf_append, List.append_assoc]
  stop := h'.stop.trans h.stop
  lastLine := by rw [h'.lastLine, h.lastLine, tokensOf_append, lastLineOf_append]
  spelled p mem := (List.mem_append.1 mem).elim (h.spelled p) (h'.spelled p)
  strings := by
    have apart := h'.rest ▸ h.apart
    rw [tokensOf_append, stringsOf_append, Token.strings_append apart.of_append, h.strings,
      h'.strings]
  apart := by
    rw [tokensOf_append]
    exact h'.apart.append (h'.rest ▸ h.apart)

theorem advance_eq {c : Cursor} (h : c.peek.kind ≠ .endMarker) :
    c.rest = c.peek :: c.advance.rest ∧ c.advance.stop = c.stop ∧
      c.advance.lastLine = lastLineOf c.lastLine [c.peek] := by
  unfold peek at *
  cases eq : c.rest with
  | nil => simp [eq, endMarker] at h
  | cons t rest =>
    unfold Cursor.advance
    split
    · next empty => cases eq.symm.trans empty
    · next u us eq' =>
      obtain ⟨rfl, rfl⟩ := List.cons.inj (eq.symm.trans eq')
      exact ⟨rfl, rfl, rfl⟩

theorem Reads.advance {c : Cursor} (h : c.peek.kind.Single) :
    c.Reads [.token c.peek] c.advance := by
  have other : c.peek.isString = false := beq_eq_false_iff_ne.2 h.2
  obtain ⟨rest, stop, lastLine⟩ := advance_eq h.1
  refine ⟨rest, stop, lastLine, fun p mem => ?_, ?_, Token.apart_of_last fun u last => ?_⟩
  · rw [List.mem_singleton.1 mem]
    trivial
  · rw [stringsOf_token, stringsOf_nil]
    exact Token.strings_singleton other
  · rwa [← Option.some.inj last]

theorem Reads.head {c c' : Cursor} {ps : List Piece} (h : c.Reads ps c')
    (some : tokensOf ps ≠ []) : (tokensOf ps).head? = .some c.peek := by
  obtain ⟨t, rest, tokens⟩ := List.exists_cons_of_ne_nil some
  rw [peek, h.rest, tokens]
  rfl

theorem Reads.merge {c c' : Cursor} {e : Expr} {ps qs : List Piece} (h : c.Reads (ps ++ qs) c')
    (layer : e.Layer ps) (other : e.isString = false) :
    c.Reads (.expr e (tokensOf ps) :: qs) c' where
  rest := by simpa [Piece.tokens] using h.rest
  stop := h.stop
  lastLine := by simpa [Piece.tokens] using h.lastLine
  spelled p mem := by
    cases mem with
    | head => exact .layer layer fun c ts mem => h.spelled _ (List.mem_append_left _ mem)
    | tail _ mem => exact h.spelled p (List.mem_append_right _ mem)
  strings := by simpa [Piece.tokens, layer.strings other] using h.strings
  apart := by simpa [Piece.tokens] using h.apart

theorem Reads.layer {c c' : Cursor} {e : Expr} {ps : List Piece} (h : c.Reads ps c')
    (layer : e.Layer ps) (other : e.isString = false) :
    c.Reads [.expr e (tokensOf ps)] c' :=
  merge (by rwa [List.append_nil]) layer other

theorem Reads.grouped {c c' : Cursor} {e : Expr} {opening closing : Token} {ts : List Token}
    (h : c.Reads [.token opening, .expr e ts, .token closing] c') (open_ : opening.isOperator "(")
    (close : closing.isOperator ")") : c.Reads [.expr e (opening :: (ts ++ [closing]))] c' where
  rest := by simpa [Piece.tokens] using h.rest
  stop := h.stop
  lastLine := by simpa [Piece.tokens] using h.lastLine
  spelled p mem := by
    rw [List.mem_singleton.1 mem]
    have inner : e.Reading ts := h.spelled (.expr e ts) (by simp)
    exact .grouped open_ inner close
  strings := by simpa [Piece.tokens] using h.strings
  apart := by simpa [Piece.tokens] using h.apart

theorem kind_of_isOperator {t : Token} {text : Bytes} (h : t.isOperator text = true) :
    t.kind = .operator := (Token.isOperator_iff.1 h).1

theorem kind_of_isKeyword {t : Token} {text : Bytes} (h : t.isKeyword text = true) :
    t.kind = .keyword := (Token.isKeyword_iff.1 h).1

theorem Reads.operator {c : Cursor} {text : Bytes} (h : c.atOperator text = true) :
    c.Reads [.token c.peek] c.advance :=
  .advance (by rw [kind_of_isOperator h]; decide)

theorem Reads.keyword {c : Cursor} {text : Bytes} (h : c.atKeyword text = true) :
    c.Reads [.token c.peek] c.advance :=
  .advance (by rw [kind_of_isKeyword h]; decide)

theorem Reads.kind {c : Cursor} {kind : TokenKind} (h : c.atKind kind = true)
    (single : kind.Single) : c.Reads [.token c.peek] c.advance :=
  .advance (by rwa [eq_of_beq h])

end Cursor

namespace Parser

variable {α β : Type} {c c' : Cursor}

/-! ## Successes of the primitive parsers -/

theorem bind_ok {p : Parser α} {f : α → Parser β} {y : β} : (p >>= f) c = .ok (y, c') ↔
    ∃ x c₁, p c = .ok (x, c₁) ∧ f x c₁ = .ok (y, c') := by
  simp only [bind]
  cases p c with
  | error e => simp
  | ok r =>
    refine ⟨fun h => ⟨r.1, r.2, rfl, h⟩, ?_⟩
    rintro ⟨x, c₁, eq, h⟩
    rwa [Except.ok.inj eq]

theorem pure_ok {x y : α} : (pure x : Parser α) c = .ok (y, c') ↔ x = y ∧ c = c' := by
  change Except.ok (x, c) = _ ↔ _
  rw [Except.ok.injEq, Prod.mk.injEq]

theorem map_ok {p : Parser α} {f : α → β} {y : β} :
    (f <$> p) c = .ok (y, c') ↔ ∃ x, p c = .ok (x, c') ∧ f x = y := by
  change (p >>= fun x => pure (f x)) c = _ ↔ _
  simp only [bind_ok, pure_ok]
  exact ⟨fun ⟨x, _, h, eq, same⟩ => ⟨x, same ▸ h, eq⟩, fun ⟨x, h, eq⟩ => ⟨x, c', h, eq, rfl⟩⟩

theorem ite_ok {b : Prop} [Decidable b] {p q : Parser α} {r : Except SyntaxError (α × Cursor)} :
    (if b then p else q) c = r ↔ (b ∧ p c = r) ∨ (¬b ∧ q c = r) := by
  by_cases h : b
  · simp only [h, ↓reduceIte, true_and, not_true_eq_false, false_and, or_false]
  · simp only [h, ↓reduceIte, false_and, not_false_eq_true, true_and, false_or]

theorem fail_ok {fault : SyntaxFault} {x : α} : (fail fault : Parser α) c = .ok (x, c') ↔ False :=
  ⟨nofun, False.elim⟩

theorem failAt_ok {position : Position} {fault : SyntaxFault} {x : α} :
    (failAt position fault : Parser α) c = .ok (x, c') ↔ False :=
  ⟨nofun, False.elim⟩

theorem test_ok {p : Cursor → Bool} {b : Bool} : test p c = .ok (b, c') ↔ p c = b ∧ c = c' := by
  rw [test, Except.ok.injEq, Prod.mk.injEq]

theorem peek_ok {t : Token} : peek c = .ok (t, c') ↔ c.peek = t ∧ c = c' := by
  rw [peek, Except.ok.injEq, Prod.mk.injEq]

theorem lastLine_ok {line : Int} : lastLine c = .ok (line, c') ↔ c.lastLine = line ∧ c = c' := by
  rw [lastLine, Except.ok.injEq, Prod.mk.injEq]

theorem advance_ok {t : Token} : advance c = .ok (t, c') ↔ c.peek = t ∧ c.advance = c' := by
  rw [advance, Except.ok.injEq, Prod.mk.injEq]

theorem accept_ok {p : Cursor → Bool} {b : Bool} : accept p c = .ok (b, c') ↔
    p c = b ∧ (if b then c.advance else c) = c' := by
  unfold accept
  cases h : p c <;> cases b <;> simp

theorem eq_of_refused {p : Cursor → Bool} (h : accept p c = .ok (false, c')) : c = c' :=
  (accept_ok.1 h).2

theorem reads_of_acceptOperator {text : Bytes} (h : acceptOperator text c = .ok (true, c')) :
    ∃ t, t.isOperator text = true ∧ c.Reads [.token t] c' := by
  obtain ⟨holds, rfl⟩ := accept_ok.1 h
  exact ⟨c.peek, holds, .operator holds⟩

theorem reads_of_acceptKeyword {text : Bytes} (h : acceptKeyword text c = .ok (true, c')) :
    ∃ t, t.isKeyword text = true ∧ c.Reads [.token t] c' := by
  obtain ⟨holds, rfl⟩ := accept_ok.1 h
  exact ⟨c.peek, holds, .keyword holds⟩

theorem reads_of_expectOperator {text : Bytes} {t : Token}
    (h : expectOperator text c = .ok (t, c')) :
    t.isOperator text = true ∧ c.Reads [.token t] c' := by
  simp only [expectOperator, bind_ok, test_ok, ite_ok, advance_ok, fail_ok, and_false, or_false] at h
  obtain ⟨_, _, ⟨rfl, rfl⟩, holds, rfl, rfl⟩ := h
  exact ⟨holds, .operator holds⟩

theorem reads_of_expectKeyword {text : Bytes} {t : Token}
    (h : expectKeyword text c = .ok (t, c')) :
    t.isKeyword text = true ∧ c.Reads [.token t] c' := by
  simp only [expectKeyword, bind_ok, test_ok, ite_ok, advance_ok, fail_ok, and_false, or_false] at h
  obtain ⟨_, _, ⟨rfl, rfl⟩, holds, rfl, rfl⟩ := h
  exact ⟨holds, .keyword holds⟩

theorem reads_of_expectName {t : Token} (h : expectName c = .ok (t, c')) :
    t.kind = .name ∧ c.Reads [.token t] c' := by
  simp only [expectName, bind_ok, test_ok, ite_ok, advance_ok, fail_ok, and_false, or_false] at h
  obtain ⟨_, _, ⟨rfl, rfl⟩, holds, rfl, rfl⟩ := h
  exact ⟨eq_of_beq holds, .kind holds (by decide)⟩

theorem reads_of_endStatement {u : Unit} (h : endStatement c = .ok (u, c')) :
    ∃ ps, Possibly (·.kind == .newline) ps ∧ c.Reads ps c' := by
  simp only [endStatement, bind_ok, ite_ok, pure_ok, test_ok, fail_ok, and_false, or_false] at h
  obtain ⟨b, c₁, accepted, h⟩ := h
  rcases h with ⟨rfl, -, rfl⟩ | ⟨refused, _, _, ⟨-, rfl⟩, -, -, rfl⟩
  · obtain ⟨holds, rfl⟩ := accept_ok.1 accepted
    exact ⟨_, .present holds, .kind holds (by decide)⟩
  · obtain rfl := Bool.eq_false_iff.2 refused
    obtain rfl := eq_of_refused accepted
    exact ⟨[], .absent, .refl c⟩

/-! ## Loops -/

theorem many_stops (start : Cursor → Bool) {item : Parser α} {xs : List α}
    (eq : many start item c = .ok (xs, c')) : start c' = false := by
  have loop (bound : Nat) : ∀ {c : Cursor} {xs : List α},
      manyLoop (fun c => if start c then some () else none) (fun _ => item) bound c = .ok (xs, c') →
      start c' = false := by
    induction bound with
    | zero => exact fun eq => (fail_ok.1 eq).elim
    | succ bound ih =>
      intro c xs eq
      unfold manyLoop at eq
      cases started : start c with
      | false =>
        simp only [started, Bool.false_eq_true, ↓reduceIte] at eq
        obtain ⟨-, rfl⟩ := Prod.mk.inj (Except.ok.inj eq)
        exact started
      | true =>
        simp only [started, ↓reduceIte, bind_ok, pure_ok] at eq
        obtain ⟨x, c₁, one, xs, c₂, more, -, rfl⟩ := eq
        exact ih more
  exact loop (c.left + 1) eq

/-! ## Values -/

/-- Whatever it reads, the value of a success has the property. -/
def Yields (p : Parser α) (P : α → Prop) : Prop := ∀ c x c', p c = .ok (x, c') → P x

namespace Yields

variable {p : Parser α} {P : α → Prop} {Q : β → Prop}

theorem pure {x : α} (h : P x) : Yields (Pure.pure x) P := by
  intro c y c' eq
  rwa [← (pure_ok.1 eq).1]

theorem fail {fault : SyntaxFault} : Yields (Parser.fail fault) P := fun _ _ _ eq => (fail_ok.1 eq).elim

theorem failAt {position : Position} {fault : SyntaxFault} : Yields (Parser.failAt position fault) P :=
  fun _ _ _ eq => (failAt_ok.1 eq).elim

theorem bind {f : α → Parser β} (h : ∀ x, Yields (f x) Q) : Yields (p >>= f) Q := by
  intro c y c' eq
  obtain ⟨x, c₁, -, eq⟩ := bind_ok.1 eq
  exact h x c₁ y c' eq

theorem map {f : α → β} (h : ∀ x, Q (f x)) : Yields (f <$> p) Q := by
  intro c y c' eq
  obtain ⟨x, -, rfl⟩ := map_ok.1 eq
  exact h x

theorem ite {b : Prop} [Decidable b] {q : Parser α} (h : Yields p P) (h' : Yields q P) :
    Yields (if b then p else q) P := by
  split
  · exact h
  · exact h'

theorem separatedTail {separator : Bytes} {stop : Cursor → Bool} (h : Yields p P) :
    Yields (separatedTail separator stop p) fun xs => ∀ x ∈ xs, P x := by
  have loop (bound : Nat) : Yields (tailLoop separator stop p bound) fun xs => ∀ x ∈ xs, P x := by
    induction bound with
    | zero => exact .fail
    | succ bound ih =>
      refine .bind fun _ => .ite (.bind fun _ => .ite (.pure nofun) ?_) (.pure nofun)
      intro c xs c' eq
      simp only [bind_ok, pure_ok] at eq
      obtain ⟨x, c₁, one, xs, c₂, more, rfl, rfl⟩ := eq
      exact List.forall_mem_cons.2 ⟨h c x c₁ one, ih c₁ xs c₂ more⟩
  exact fun c => loop (c.left + 1) c

end Yields

/-! ## Soundness and the combinators -/

/-- Where `q` holds, what `p` reads makes up its value. -/
def SoundWhen (q : Cursor → Prop) (p : Parser α) (W : α → List Piece → Prop) : Prop :=
  ∀ c x c', q c → p c = .ok (x, c') → ∃ ps, W x ps ∧ c.Reads ps c'

def Sound (p : Parser α) (W : α → List Piece → Prop) : Prop := SoundWhen (fun _ => True) p W

variable {W : α → List Piece → Prop} {item : Parser α}

theorem Sound.reads (h : Sound item W) {x : α} (eq : item c = .ok (x, c')) :
    ∃ ps, W x ps ∧ c.Reads ps c' :=
  h c x c' trivial eq

theorem sound_acceptOperator {text : Bytes} :
    Sound (acceptOperator text) (Marked (·.isOperator text)) := by
  intro c b c' _ eq
  cases b with
  | false =>
    obtain rfl := eq_of_refused eq
    exact ⟨[], .absent, .refl _⟩
  | true =>
    obtain ⟨t, isOperator, reads⟩ := reads_of_acceptOperator eq
    exact ⟨_, .present isOperator, reads⟩

theorem sound_acceptKeyword {text : Bytes} :
    Sound (acceptKeyword text) (Marked (·.isKeyword text)) := by
  intro c b c' _ eq
  cases b with
  | false =>
    obtain rfl := eq_of_refused eq
    exact ⟨[], .absent, .refl _⟩
  | true =>
    obtain ⟨t, isKeyword, reads⟩ := reads_of_acceptKeyword eq
    exact ⟨_, .present isKeyword, reads⟩

theorem sound_optional {q : Cursor → Bool} (h : SoundWhen (q · = true) item W) :
    Sound (optional q item) (Optionally W) := by
  intro c x c' _ eq
  simp only [optional, bind_ok, test_ok, ite_ok, map_ok, pure_ok] at eq
  obtain ⟨b, _, ⟨test, rfl⟩, ⟨rfl, x, eq, rfl⟩ | ⟨-, rfl, rfl⟩⟩ := eq
  · obtain ⟨ps, one, reads⟩ := h c x c' test eq
    exact ⟨ps, .some one, reads⟩
  · exact ⟨[], .none, .refl c⟩

theorem optional_none {q : Cursor → Bool} (h : optional q item c = .ok (none, c')) :
    q c = false ∧ c = c' := by
  simp only [optional, bind_ok, test_ok, ite_ok, map_ok, pure_ok, Bool.not_eq_true] at h
  obtain ⟨b, _, ⟨test, rfl⟩, ⟨-, x, -, eq⟩ | ⟨rfl, -, rfl⟩⟩ := h
  · cases eq
  · exact ⟨test, rfl⟩

theorem sound_manyKeyed {κ : Type} {start : Cursor → Option κ} {item : κ → Parser α}
    (h : ∀ key, SoundWhen (start · = some key) (item key) W) :
    Sound (manyKeyed start item) (Repeated W) := by
  have loop (bound : Nat) : Sound (manyLoop start item bound) (Repeated W) := by
    induction bound with
    | zero => exact fun c xs c' _ eq => (fail_ok.1 eq).elim
    | succ bound ih =>
      intro c xs c' _ eq
      unfold manyLoop at eq
      split at eq
      · next key started =>
        simp only [bind_ok, pure_ok] at eq
        obtain ⟨x, c₁, one, xs, c₂, more, rfl, rfl⟩ := eq
        obtain ⟨ps, holds, reads⟩ := h key c x c₁ started one
        obtain ⟨qs, rest, reads'⟩ := ih.reads more
        exact ⟨ps ++ qs, .cons holds rest, reads.trans reads'⟩
      · obtain ⟨rfl, rfl⟩ := Prod.mk.inj (Except.ok.inj eq)
        exact ⟨[], .nil, .refl c⟩
  intro c xs c' _ eq
  exact (loop (c.left + 1)).reads eq

theorem sound_many {start : Cursor → Bool} (h : SoundWhen (start · = true) item W) :
    Sound (many start item) (Repeated W) := by
  refine sound_manyKeyed fun key c x c' started eq => h c x c' ?_ eq
  by_contra stop
  simp [stop] at started

theorem sound_separatedTail {separator : Bytes} {stop : Cursor → Bool} (h : Sound item W) :
    Sound (separatedTail separator stop item) (SeparatedTail W separator) := by
  have loop (bound : Nat) :
      Sound (tailLoop separator stop item bound) (SeparatedTail W separator) := by
    induction bound with
    | zero => exact fun c xs c' _ eq => (fail_ok.1 eq).elim
    | succ bound ih =>
      intro c xs c' _ eq
      simp only [tailLoop, bind_ok, ite_ok, test_ok, pure_ok] at eq
      obtain ⟨b, c₁, accepted, h'⟩ := eq
      rcases h' with ⟨rfl, b, _, ⟨-, rfl⟩, h'⟩ | ⟨refused, rfl, rfl⟩
      · obtain ⟨t, sep, first⟩ := reads_of_acceptOperator accepted
        rcases h' with ⟨-, rfl, rfl⟩ | ⟨-, x, c₂, one, xs, c₃, more, rfl, rfl⟩
        · exact ⟨_, .trailing sep, first⟩
        · obtain ⟨ps, holds, reads⟩ := h.reads one
          obtain ⟨qs, rest, reads'⟩ := ih.reads more
          exact ⟨_, .cons sep holds rest, first.trans (reads.trans reads')⟩
      · obtain rfl := Bool.eq_false_iff.2 refused
        obtain rfl := eq_of_refused accepted
        exact ⟨[], .nil, .refl c⟩
  intro c xs c' _ eq
  exact (loop (c.left + 1)).reads eq

theorem sound_commaSeparated (h : Sound item W) :
    Sound (commaSeparated item) fun xs ps => xs ≠ [] ∧ Separated W "," xs ps := by
  intro c xs c' _ eq
  simp only [commaSeparated, bind_ok, pure_ok] at eq
  obtain ⟨x, c₁, one, xs, c₂, more, rfl, rfl⟩ := eq
  obtain ⟨ps, holds, reads⟩ := h.reads one
  obtain ⟨qs, tail, reads'⟩ := (sound_separatedTail h).reads more
  exact ⟨_, ⟨List.cons_ne_nil _ _, .cons holds tail⟩, reads.trans reads'⟩

theorem sound_commaList {stop : Cursor → Bool} (h : Sound item W) :
    Sound (commaList stop item) (Separated W ",") := by
  intro c xs c' _ eq
  simp only [commaList, bind_ok, test_ok, ite_ok, pure_ok] at eq
  obtain ⟨_, _, ⟨-, rfl⟩, ⟨-, rfl, rfl⟩ | ⟨-, x, c₁, one, xs, c₂, more, rfl, rfl⟩⟩ := eq
  · exact ⟨[], .nil, .refl c⟩
  · obtain ⟨ps, holds, reads⟩ := h.reads one
    obtain ⟨qs, tail, reads'⟩ := (sound_separatedTail h).reads more
    exact ⟨_, .cons holds tail, reads.trans reads'⟩

end Parser

end CodeSmell
