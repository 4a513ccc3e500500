import CodeSmell.Proofs.Lexer.Tail

/-!
Sources whose lines end in a carriage return and a line feed. Between tokens, in comments, after a
backslash and in triple-quoted strings the carriage return makes no difference. A string between
single quotes may go on after a backslash at the end of its line only if that ends in a line feed
alone: such a token `IsSplit`.
-/

namespace CodeSmell

/-! ## Texts -/

def Bytes.withReturns (s : Bytes) : Bytes :=
  s.flatMap fun b => if b = Ascii.lineFeed then [Ascii.carriageReturn, Ascii.lineFeed] else [b]

namespace Bytes

@[simp] theorem withReturns_nil : withReturns [] = [] := rfl

@[simp] theorem withReturns_feed (s : Bytes) : withReturns (Ascii.lineFeed :: s) =
    Ascii.carriageReturn :: Ascii.lineFeed :: withReturns s := rfl

theorem withReturns_cons {b : UInt8} (h : b ≠ Ascii.lineFeed) (s : Bytes) :
    withReturns (b :: s) = b :: withReturns s := by
  rw [withReturns, List.flatMap_cons, if_neg h]
  rfl

theorem withReturns_append (s t : Bytes) :
    withReturns (s ++ t) = withReturns s ++ withReturns t := List.flatMap_append

theorem withReturns_eq {s : Bytes} (h : Ascii.lineFeed ∉ s) : withReturns s = s := by
  induction s with
  | nil => rfl
  | cons b s ih =>
    rw [List.mem_cons, not_or] at h
    rw [withReturns_cons (Ne.symm h.1), ih h.2]

theorem take_withReturns (s : Bytes) (n : Nat) :
    (withReturns s).take (withReturns (s.take n)).length = withReturns (s.take n) ∧
      (withReturns s).drop (withReturns (s.take n)).length = withReturns (s.drop n) := by
  have split : withReturns s = withReturns (s.take n) ++ withReturns (s.drop n) := by
    rw [← withReturns_append, List.take_append_drop]
  exact ⟨by rw [split, List.take_left], by rw [split, List.drop_left]⟩

theorem firstLine_withReturns (s : Bytes) : firstLine (withReturns s) = firstLine s := by
  induction s with
  | nil => rfl
  | cons b s ih =>
    by_cases feed : b = Ascii.lineFeed
    · rw [feed, withReturns_feed, Lexer.firstLine_break (by decide), Lexer.firstLine_break (by decide)]
    · rw [withReturns_cons feed]
      cases isBreak' : isBreak b with
      | true => rw [Lexer.firstLine_break isBreak', Lexer.firstLine_break isBreak']
      | false => rw [Lexer.firstLine_cons isBreak', Lexer.firstLine_cons isBreak', ih]

end Bytes

theorem Position.after_withReturns (p : Position) (s : Bytes) : p.after s.withReturns = p.after s := by
  induction s generalizing p with
  | nil => rfl
  | cons b s ih =>
    by_cases feed : b = Ascii.lineFeed
    · rw [feed, Bytes.withReturns_feed, after_cons, after_cons, after_cons, ih]
      rfl
    · rw [Bytes.withReturns_cons feed, after_cons, after_cons, ih]

namespace Lexer

def opensTriple : Bytes → Bool
  | [] => false
  | quote :: rest => holdsAt (· == quote) rest 0 && holdsAt (· == quote) rest 1

end Lexer

/-- A string between single quotes that goes on over the end of a line. -/
structure Token.IsSplit (t : Token) : Prop where
  kind : t.kind = .string
  single : Lexer.opensTriple (t.text.dropWhile Lexer.isStringPrefix) = false
  feed : Ascii.lineFeed ∈ t.text

/-- The same token where lines end in two bytes. -/
structure Token.Twin (t u : Token) : Prop where
  kind : u.kind = t.kind
  text : u.text = if t.kind = .string then t.text.withReturns else t.text
  line : u.position.line = t.position.line
  endLine : u.endLine = t.endLine
  column : t.isLayout = false → u.position.column = t.position.column
  value : u.value = t.value
  imaginary : u.imaginary = t.imaginary

theorem Token.Twin.refl_layout {t : Token} (text : t.text = []) : t.Twin t :=
  ⟨rfl, by rw [text]; exact (ite_self _).symm, rfl, rfl, fun _ => rfl, rfl, rfl⟩

theorem Token.not_split_of_text {t : Token} (text : t.text = []) : ¬t.IsSplit := by
  intro split
  have feed := split.feed
  rw [text] at feed
  cases feed

namespace Lexer

open Bytes

/-! ## Strings -/

section Strings

variable {quote : UInt8} {l : Bytes} {m : Nat}

theorem inline_of_isQuote (h : isQuote quote = true) :
    quote ≠ '\\'.toUInt8 ∧ quote ≠ Ascii.lineFeed ∧ quote ≠ Ascii.carriageReturn := by
  refine ⟨?_, ?_, ?_⟩
  all_goals
    rintro rfl
    exact absurd h (by decide)

theorem lineFeed_not_escape : ¬(Ascii.lineFeed == '\\'.toUInt8) = true := by decide

theorem return_not_escape : ¬(Ascii.carriageReturn == '\\'.toUInt8) = true := by decide

theorem singleLength?_withReturns (isQuote : isQuote quote = true) (l : Bytes) :
    singleLength? quote (withReturns l) =
      (singleLength? quote l).filter fun n => Ascii.lineFeed ∉ l.take n := by
  obtain ⟨-, notFeed, notReturn⟩ := inline_of_isQuote isQuote
  have stops (l : Bytes) : singleLength? quote (Ascii.lineFeed :: l) = none := by
    rw [singleLength?.eq_def]
    simp only [if_neg lineFeed_not_escape, beq_self_eq_true, ↓reduceIte]
  have returns (l : Bytes) : singleLength? quote (Ascii.carriageReturn :: Ascii.lineFeed :: l) = none := by
    rw [singleLength?_other return_not_escape (by decide) (by simpa using notReturn.symm), stops]
    rfl
  fun_induction singleLength? quote l with
  | case1 => rfl
  | case2 x escape =>
    rw [withReturns_cons (by rintro rfl; exact lineFeed_not_escape escape), withReturns_nil]
    simp [singleLength?, escape]
  | case3 x escape y l ih =>
    have plain : x ≠ Ascii.lineFeed := by rintro rfl; exact lineFeed_not_escape escape
    rw [withReturns_cons plain, Option.filter_map]
    by_cases feed : y = Ascii.lineFeed
    · rw [feed, withReturns_feed, singleLength?_escaped escape, stops, Option.filter_eq_none_iff.2]
      simp
    · rw [withReturns_cons feed, singleLength?_escaped escape, ih]
      congr 2
      funext n
      simp [plain.symm, Ne.symm feed]
  | case4 x l plain feed =>
    rw [eq_of_beq feed, withReturns_feed, returns]
    rfl
  | case5 x l plain inside same =>
    have other : x ≠ Ascii.lineFeed := by rintro rfl; exact inside (by decide)
    rw [withReturns_cons other, singleLength?.eq_def]
    simp only [if_neg plain, if_neg inside, if_pos same]
    simp [Option.filter, other.symm]
  | case6 x l plain inside other ih =>
    have within : x ≠ Ascii.lineFeed := by rintro rfl; exact inside (by decide)
    rw [withReturns_cons within, singleLength?_other plain inside other, ih, Option.filter_map]
    congr 2
    funext n
    simp [within.symm]

theorem tripleLength?_withReturns (isQuote : isQuote quote = true) (l : Bytes) :
    tripleLength? quote (withReturns l) =
      (tripleLength? quote l).map fun n => (withReturns (l.take n)).length := by
  obtain ⟨-, notFeed, notReturn⟩ := inline_of_isQuote isQuote
  have feed (l : Bytes) : tripleLength? quote (Ascii.lineFeed :: l) =
      (tripleLength? quote l).map (· + 1) := by
    rw [tripleLength?_other lineFeed_not_escape (by simp [notFeed.symm])]
  have returns (l : Bytes) : tripleLength? quote (Ascii.carriageReturn :: l) =
      (tripleLength? quote l).map (· + 1) := by
    rw [tripleLength?_other return_not_escape (by simp [notReturn.symm])]
  have three (l : Bytes) : ∀ x : UInt8, (x == quote && holdsAt (· == quote) (withReturns l) 0 &&
      holdsAt (· == quote) (withReturns l) 1) =
      (x == quote && holdsAt (· == quote) l 0 && holdsAt (· == quote) l 1) := by
    intro x
    rw [Bool.and_assoc, opening_congr (isBreak_of_holds inline_quote isQuote)
      (firstLine_withReturns l), Bool.and_assoc]
  fun_induction tripleLength? quote l with
  | case1 => rfl
  | case2 x escape =>
    rw [withReturns_cons (by rintro rfl; exact lineFeed_not_escape escape), withReturns_nil]
    simp [tripleLength?, escape]
  | case3 x escape y l ih =>
    have plain : x ≠ Ascii.lineFeed := by rintro rfl; exact lineFeed_not_escape escape
    rw [withReturns_cons plain]
    by_cases isFeed : y = Ascii.lineFeed
    · rw [isFeed, withReturns_feed, tripleLength?_escaped escape, feed, ih]
      simp only [Option.map_map]
      congr 1
      funext n
      simp [withReturns_cons plain]
    · rw [withReturns_cons isFeed, tripleLength?_escaped escape, ih]
      simp only [Option.map_map]
      congr 1
      funext n
      simp [withReturns_cons plain, withReturns_cons isFeed]
  | case4 x l plain closes =>
    have within {b : UInt8} (same : (b == quote) = true) : b ≠ Ascii.lineFeed := by
      rw [eq_of_beq same]
      exact notFeed
    obtain ⟨both, third⟩ := Bool.and_eq_true_iff.1 closes
    obtain ⟨first, second⟩ := Bool.and_eq_true_iff.1 both
    rw [withReturns_cons (within first), tripleLength?_three plain (by rwa [three])]
    obtain ⟨y, l, rfl, second⟩ := holdsAt_zero second
    obtain ⟨z, l, rfl, third⟩ := holdsAt_zero (holdsAt_succ .. ▸ third)
    simp [withReturns_cons (within first), withReturns_cons (within second),
      withReturns_cons (within third)]
  | case5 x l plain other ih =>
    by_cases isFeed : x = Ascii.lineFeed
    · rw [isFeed, withReturns_feed, returns, feed, ih]
      simp only [Option.map_map]
      congr 1
    · rw [withReturns_cons isFeed, tripleLength?_other plain (by rwa [three]), ih]
      simp only [Option.map_map]
      congr 1
      funext n
      simp [withReturns_cons isFeed]

theorem drop_withReturns (within : quote ≠ Ascii.lineFeed)
    (triple : (holdsAt (· == quote) l 0 && holdsAt (· == quote) l 1) = true) :
    (withReturns l).drop 2 = withReturns (l.drop 2) ∧
      ∀ n, (withReturns (l.take (n + 2))).length = (withReturns ((l.drop 2).take n)).length + 2 := by
  obtain ⟨first, second⟩ := Bool.and_eq_true_iff.1 triple
  obtain ⟨y, l, rfl, first⟩ := holdsAt_zero first
  obtain ⟨z, l, rfl, second⟩ := holdsAt_zero (holdsAt_succ .. ▸ second)
  rw [eq_of_beq first, eq_of_beq second]
  simp [withReturns_cons within]

theorem quotedLength_withReturns (opens : holdsAt isQuote l 0 = true)
    (h : quotedLength l = .ok m) : quotedLength (withReturns l) =
      if opensTriple l || Ascii.lineFeed ∉ l.take m then .ok (withReturns (l.take m)).length
      else .error .unterminatedString := by
  obtain ⟨quote, l, rfl, isQuote⟩ := holdsAt_zero opens
  have within := (inline_of_isQuote isQuote).2.1
  rw [withReturns_cons within]
  simp only [quotedLength, opensTriple, opening_congr (isBreak_of_holds inline_quote isQuote)
    (firstLine_withReturns l)] at h ⊢
  by_cases triple : (holdsAt (· == quote) l 0 && holdsAt (· == quote) l 1) = true
  · obtain ⟨behind, length⟩ := drop_withReturns within triple
    simp only [triple, ↓reduceIte, behind, tripleLength?_withReturns isQuote] at h ⊢
    split at h
    · next n found =>
      obtain rfl := Except.ok.inj h
      rw [Nat.add_comm 3 n, List.take_succ_cons, withReturns_cons within, List.length_cons, length, found]
      simp
      omega
    · cases h
  · simp only [Bool.eq_false_of_not_eq_true triple, Bool.false_eq_true, ↓reduceIte, Bool.false_or,
      singleLength?_withReturns isQuote] at h ⊢
    split at h
    · next n found =>
      obtain rfl := Except.ok.inj h
      have same : (Ascii.lineFeed ∈ (quote :: l).take (1 + n)) ↔ Ascii.lineFeed ∈ l.take n := by
        simp [Nat.add_comm 1 n, within.symm]
      by_cases split : Ascii.lineFeed ∈ l.take n
      · simp [found, Option.filter, same, split]
      · have length : (withReturns ((quote :: l).take (1 + n))).length = 1 + n := by
          obtain ⟨k, rfl, last⟩ := singleLength?_last found
          have le : 1 + (k + 1) ≤ (quote :: l).length := by
            have := (List.getElem?_eq_some_iff.1 last).1
            rw [List.length_cons]
            omega
          rw [withReturns_eq (mt same.1 split), List.length_take_of_le le]
        simp [found, Option.filter, same, split, length]
    · cases h

theorem quotedLength_withReturns_error {fault : SyntaxFault} (opens : holdsAt isQuote l 0 = true)
    (h : quotedLength l = .error fault) : ∃ fault', quotedLength (withReturns l) = .error fault' := by
  obtain ⟨quote, l, rfl, isQuote⟩ := holdsAt_zero opens
  have within := (inline_of_isQuote isQuote).2.1
  rw [withReturns_cons within]
  simp only [quotedLength, opening_congr (isBreak_of_holds inline_quote isQuote)
    (firstLine_withReturns l)] at h ⊢
  split_ifs at h ⊢ with triple
  · rw [(drop_withReturns within triple).1, tripleLength?_withReturns isQuote]
    split at h
    · cases h
    · next none => simp [none]
  · rw [singleLength?_withReturns isQuote]
    split at h
    · cases h
    · next none => simp [none]

end Strings

theorem opensTriple_take {l : Bytes} {m : Nat} (h : quotedLength l = .ok m) :
    opensTriple (l.take m) = opensTriple l := by
  obtain ⟨m, rfl, -⟩ := quotedLength_last h
  cases l with
  | nil => rfl
  | cons quote l =>
    have within (n : Nat) : holdsAt (· == quote) (l.take m) n =
        (decide (n < m) && holdsAt (· == quote) l n) := by
      rw [holdsAt, holdsAt, List.getElem?_take]
      split_ifs with lt
      · rw [decide_eq_true lt, Bool.true_and]
      · rw [decide_eq_false lt, Bool.false_and]
        rfl
    simp only [List.take_succ_cons, opensTriple, within]
    cases triple : holdsAt (· == quote) l 0 && holdsAt (· == quote) l 1 with
    | true =>
      simp only [quotedLength, triple, ↓reduceIte] at h
      split at h
      · have lengths := Except.ok.inj h
        rw [decide_eq_true (by omega : 0 < m), decide_eq_true (by omega : 1 < m), Bool.true_and,
          Bool.true_and, triple]
      · cases h
    | false => cases decide (0 < m) <;> cases decide (1 < m) <;> simp [triple]

theorem stringPrefix?_letters {s : Bytes} {n : Nat} (h : stringPrefix? s = some n) :
    ∀ b ∈ s.take n, isStringPrefix b = true := by
  unfold stringPrefix? at h
  split_ifs at h with none first one two
  · obtain rfl := Option.some.inj h
    exact nofun
  · obtain rfl := Option.some.inj h
    obtain ⟨b, rest, rfl, first⟩ := holdsAt_zero first
    exact List.forall_mem_singleton.2 first
  · obtain rfl := Option.some.inj h
    obtain ⟨b, rest, rfl, first⟩ := holdsAt_zero first
    obtain ⟨c, rest, rfl, second⟩ := holdsAt_zero (holdsAt_succ .. ▸ (Bool.and_eq_true_iff.1 two).1)
    exact List.forall_mem_cons.2 ⟨first, List.forall_mem_singleton.2 second⟩

/-! ## Tokens -/

def State.withReturns (s : State) : State := s.on s.rest.withReturns

inductive Paired : (x y : Except SyntaxError (List Token × State)) → Prop where
  | fails (e e' : SyntaxError) : Paired (.error e) (.error e')
  | splits {t : Token} {new : List Token} (s' : State) (e : SyntaxError) : t ∈ new → t.IsSplit →
      Paired (.ok (new, s')) (.error e)
  | goes {new new' : List Token} (s' : State) : List.Forall₂ Token.Twin new new' →
      (∀ t ∈ new, ¬t.IsSplit) → Paired (.ok (new, s')) (.ok (new', s'.withReturns))

theorem lexeme_one_line {s s' : State} {t : Token} (h : lexeme s = .ok (t, s'))
    (plain : stringPrefix? s.rest = none) : Ascii.lineFeed ∉ t.text := by
  cases lexeme_cases h with
  | string found => rw [plain] at found; cases found
  | word => exact not_feed_run _ (by decide)
  | number => exact not_feed_number _
  | operator found =>
    have inside : ∀ o ∈ operators, Ascii.lineFeed ∉ o := by decide
    change Ascii.lineFeed ∉ s.rest.take _
    rw [take_operator found]
    exact inside _ (List.mem_of_find?_eq_some found)

theorem State.skip_withReturns {s : State} {n m : Nat}
    (length : (Bytes.withReturns (s.rest.take n)).length = m) :
    s.withReturns.skip m = (s.skip n).withReturns := by
  have ⟨taken, left⟩ := take_withReturns s.rest n
  rw [length] at taken left
  simp only [withReturns, skip, on, taken, left, Position.after_withReturns]

theorem State.take_withReturns (s : State) (n : Nat) (kind : TokenKind) :
    s.withReturns.take (Bytes.withReturns (s.rest.take n)).length kind =
      ({ (s.take n kind).1 with text := Bytes.withReturns (s.rest.take n) },
        (s.take n kind).2.withReturns) := by
  have taken := (Bytes.take_withReturns s.rest n).1
  simp only [take, skip_withReturns rfl]
  simp only [withReturns, on, taken]

section Token

variable {s : State} {n m : Nat}

theorem string_text (found : stringPrefix? s.rest = some n) :
    (s.rest.take (n + m)).dropWhile isStringPrefix = (s.rest.drop n).take m ∧
      (Ascii.lineFeed ∈ s.rest.take (n + m) ↔ Ascii.lineFeed ∈ (s.rest.drop n).take m) ∧
      (Bytes.withReturns (s.rest.take (n + m))).length =
        n + (Bytes.withReturns ((s.rest.drop n).take m)).length := by
  have letters := stringPrefix?_letters found
  have inside : Ascii.lineFeed ∉ s.rest.take n := fun mem => absurd (letters _ mem) (by decide)
  have length : (s.rest.take n).length = n :=
    List.length_take_of_le (holdsAt_lt (stringPrefix?_quote found)).le
  obtain ⟨quote, first, isQuote⟩ := Option.any_eq_true _ _ |>.1 (stringPrefix?_quote found)
  rw [List.take_add]
  refine ⟨?_, ?_, ?_⟩
  · rw [List.dropWhile_append_of_pos letters]
    cases text : (s.rest.drop n).take m with
    | nil => rfl
    | cons b l =>
      have same : b = quote := by
        have head := congrArg List.head? text
        rw [List.head?_take, List.head?_drop, first] at head
        split_ifs at head
        · cases head
        · exact (Option.some.inj head).symm
      have other : isStringPrefix b = false := by
        rw [same]
        rcases Bool.or_eq_true_iff.1 isQuote with one | two
        · rw [eq_of_beq one]; decide
        · rw [eq_of_beq two]; decide
      rw [List.dropWhile_cons, other]
      rfl
  · rw [List.mem_append, or_iff_right inside]
  · rw [withReturns_append, withReturns_eq inside, List.length_append, length]

end Token

theorem string_withReturns (found : stringPrefix? s.rest = some n) :
    Paired ((lexeme s).map fun (t, s') => ([t], s'))
      ((lexeme s.withReturns).map fun (t, s') => ([t], s')) := by
  have found' : stringPrefix? s.withReturns.rest = some n :=
    (stringPrefix?_congr (firstLine_withReturns s.rest)).trans found
  have opens : holdsAt isQuote (s.rest.drop n) 0 = true := by
    simpa [holdsAt] using stringPrefix?_quote found
  have behind : s.withReturns.rest.drop n = Bytes.withReturns (s.rest.drop n) := by
    have letters : (Bytes.withReturns (s.rest.take n)).length = n := by
      simpa using (string_text (m := 0) found).2.2
    have left := (Bytes.take_withReturns s.rest n).2
    rwa [letters] at left
  unfold lexeme
  simp only [found, found', behind]
  cases length : quotedLength (s.rest.drop n) with
  | error fault =>
    obtain ⟨fault', failed⟩ := quotedLength_withReturns_error opens length
    rw [failed]
    exact .fails _ _
  | ok m =>
    obtain ⟨quoted, feed, long⟩ := string_text (m := m) found
    have opening : opensTriple ((s.rest.take (n + m)).dropWhile isStringPrefix) =
        opensTriple (s.rest.drop n) := by
      rw [quoted, opensTriple_take length]
    rw [quotedLength_withReturns opens length]
    split_ifs with inside
    · simp only [← long, State.take_withReturns]
      refine .goes _ (.cons ⟨rfl, rfl, rfl, rfl, fun _ => rfl, rfl, rfl⟩ .nil)
        (List.forall_mem_singleton.2 fun split => ?_)
      rw [opening.symm.trans split.single, Bool.false_or] at inside
      exact of_decide_eq_true inside (feed.1 split.feed)
    · obtain ⟨single, ends⟩ := Bool.or_eq_false_iff.1 (Bool.eq_false_of_not_eq_true inside)
      exact .splits _ _ (List.mem_singleton_self _)
        ⟨rfl, opening.trans single, feed.2 (not_not.1 (of_decide_eq_false ends))⟩

theorem lexeme_withReturns {s : State} (some : firstLine s.rest ≠ []) :
    Paired ((lexeme s).map fun (t, s') => ([t], s'))
      ((lexeme s.withReturns).map fun (t, s') => ([t], s')) := by
  have same := firstLine_withReturns s.rest
  have rest : s.rest ≠ [] := by
    rintro empty
    rw [empty] at some
    exact some rfl
  cases found : stringPrefix? s.rest with
  | some n => exact string_withReturns found
  | none =>
    rw [State.withReturns, lexeme_congr same.symm some found]
    cases lexed : lexeme s with
    | error e => exact .fails e e
    | ok next =>
      obtain ⟨t, s'⟩ := next
      have inside := lexeme_one_line lexed found
      have lexes := lexeme_lexes rest lexed
      simp only [Except.map]
      rw [lexes.takes.rest, withReturns_append, withReturns_eq inside, List.drop_left]
      refine .goes s' (.cons ?_ .nil) (List.forall_mem_singleton.2 fun split => inside split.feed)
      exact ⟨rfl, by rw [withReturns_eq inside, ite_self], rfl, rfl, fun _ => rfl, rfl, rfl⟩

/-! ## Steps -/

section Steps

variable {s : State} {b : UInt8} {r : Bytes}

theorem Paired.after_layout {x y : Except SyntaxError (List Token × State)} (h : Paired x y)
    {layout layout' : List Token} (twins : List.Forall₂ Token.Twin layout layout')
    (whole : ∀ t ∈ layout, ¬t.IsSplit) :
    Paired (x.map fun (new, s') => (layout ++ new, s')) (y.map fun (new, s') => (layout' ++ new, s')) := by
  cases h with
  | fails e e' => exact .fails e e'
  | splits s' e mem split => exact .splits s' e (List.mem_append_right _ mem) split
  | goes s' twins' whole' =>
    refine .goes s' (List.rel_append twins twins') fun t mem => ?_
    rcases List.mem_append.1 mem with mem | mem
    · exact whole t mem
    · exact whole' t mem

theorem lineStep_withReturns (free : Ascii.carriageReturn ∉ s.rest) (rest : s.rest = b :: r)
    (inside : b ≠ Ascii.lineFeed) (code : b ≠ '#'.toUInt8) :
    Paired (lineStep s) (lineStep s.withReturns) := by
  have rest' : s.withReturns.rest = b :: Bytes.withReturns r := by
    rw [State.withReturns, State.on_rest, rest, withReturns_cons inside]
  have notReturn : b ≠ Ascii.carriageReturn := by
    rintro rfl
    exact free (rest ▸ List.mem_cons_self)
  unfold lineStep
  rw [rest, rest']
  simp only [beq_eq_false_iff_ne.2 inside, beq_eq_false_iff_ne.2 code,
    beq_eq_false_iff_ne.2 notReturn, Bool.or_false, Bool.false_eq_true, ↓reduceIte]
  split_ifs with blank escape
  · rw [State.skip_withReturns (n := 1) (by simp [rest, withReturns_cons inside])]
    exact .goes _ .nil nofun
  · cases r with
    | nil => exact .fails _ _
    | cons c r =>
      by_cases feed : c = Ascii.lineFeed
      · rw [feed] at rest ⊢
        have skipped : s.withReturns.skip 3 = (s.skip 2).withReturns :=
          State.skip_withReturns (by simp [rest, withReturns_cons inside])
        have short : continuationLength? (b :: Ascii.lineFeed :: r) = some 2 := rfl
        have long : continuationLength? (b :: Bytes.withReturns (Ascii.lineFeed :: r)) = some 3 := rfl
        simp only [short, long, skipped]
        exact .goes _ .nil nofun
      · have notReturn' : c ≠ Ascii.carriageReturn := by
          rintro rfl
          exact free (rest ▸ List.mem_cons_of_mem _ List.mem_cons_self)
        have none (r : Bytes) : continuationLength? (b :: c :: r) = none := by
          simp [continuationLength?, holdsAt, feed, notReturn']
        rw [withReturns_cons feed]
        simp only [none]
        exact .fails _ _
  · have some : firstLine s.rest ≠ [] := by
      rw [rest, firstLine_cons (by simp [isBreak, inside, notReturn])]
      exact List.cons_ne_nil _ _
    have one (x : Except SyntaxError (Token × State)) :
        (do let (token, next) ← x; .ok ([token], next)) = x.map fun (t, s') => ([t], s') := by
      cases x <;> rfl
    rw [one, one]
    exact lexeme_withReturns some

/-! ## Ends of lines -/

/-- From `s` a run and its twin go past the end of a line. -/
def PassesLine (s : State) : Prop := ∃ new new' s', Runs s new s' ∧ Runs s.withReturns new' s'.withReturns ∧
  List.Forall₂ Token.Twin new new' ∧ (∀ t ∈ new, ¬t.IsSplit) ∧ s'.rest.length < s.rest.length

theorem step_withReturns_feed (rest : s.rest = Ascii.lineFeed :: r) :
    ∃ new', step (s.withReturns.skip 1) = .ok (new', (s.nextLine r).withReturns) ∧
      (s.withReturns.skip 1).rest ≠ [] ∧ List.Forall₂ Token.Twin s.lineEnd new' ∧
      ∀ t ∈ s.lineEnd, ¬t.IsSplit := by
  have rest' : (s.withReturns.skip 1).rest = Ascii.lineFeed :: Bytes.withReturns r := by
    rw [State.skip, State.withReturns, State.on_rest, rest]
    rfl
  have line : (s.withReturns.skip 1).position.line = s.position.line := by
    rw [State.skip, State.withReturns, State.on_rest, rest]
    rfl
  refine ⟨(s.withReturns.skip 1).lineEnd, ?_, by simp [rest'], ?_, ?_⟩
  · rw [step_feed rest']
    simp only [State.nextLine, line]
    rfl
  · have same : (s.withReturns.skip 1).lineEnd = if s.atLineStart || !s.brackets.isEmpty then []
        else [(s.withReturns.skip 1).layout .newline (s.withReturns.skip 1).position.column] := rfl
    rw [same, State.lineEnd]
    split_ifs
    · exact .nil
    · exact .cons ⟨rfl, rfl, line, line, (absurd · Bool.false_ne_true.symm), rfl, rfl⟩ .nil
  · rw [State.lineEnd]
    split_ifs
    · exact List.forall_mem_nil _
    · exact List.forall_mem_singleton.2 (Token.not_split_of_text rfl)

theorem passesLine_feed (rest : s.rest = Ascii.lineFeed :: r) : PassesLine s := by
  obtain ⟨new', stepped, some, twins, whole⟩ := step_withReturns_feed rest
  have rest' : s.withReturns.rest = Ascii.carriageReturn :: Ascii.lineFeed :: Bytes.withReturns r := by
    rw [State.withReturns, State.on_rest, rest, withReturns_feed]
  refine ⟨_, new', _, .one (by simp [rest]) (step_feed rest), ?_, twins, whole, ?_⟩
  · exact (Runs.next (by simp [rest']) (step_return rest') (.one some stepped) :)
  · rw [rest]
    exact Nat.lt_succ_self _

theorem passesLine_comment (rest : s.rest = '#'.toUInt8 :: r) (ended : Ascii.lineFeed ∈ r) :
    PassesLine s := by
  obtain ⟨text, r', rfl, inside⟩ := List.eq_append_cons_of_mem ended
  have line : Ascii.lineFeed ∉ '#'.toUInt8 :: text := by
    rw [List.mem_cons, not_or]
    exact ⟨by decide, inside⟩
  have rest' : s.withReturns.rest =
      '#'.toUInt8 :: text ++ [Ascii.carriageReturn] ++ Ascii.lineFeed :: Bytes.withReturns r' := by
    rw [State.withReturns, State.on_rest, rest, ← List.cons_append, withReturns_append,
      withReturns_eq line]
    simp
  have length : commentLength s.rest = ('#'.toUInt8 :: text).length := by
    rw [rest, ← List.cons_append, commentLength_until line]
  have length' : commentLength s.withReturns.rest = ('#'.toUInt8 :: text).length + 1 := by
    rw [rest', commentLength_until]
    · simp
    · rw [List.mem_append, not_or]
      exact ⟨line, by decide⟩
  have stepped := step_comment rest
  have stepped' := step_comment (s := s.withReturns) rest'
  rw [length] at stepped
  rw [length', ← State.skip_skip, State.skip_withReturns (n := ('#'.toUInt8 :: text).length)
    (by rw [rest, ← List.cons_append, List.take_left, withReturns_eq line])] at stepped'
  have behind : (s.skip ('#'.toUInt8 :: text).length).rest = Ascii.lineFeed :: r' := by
    rw [State.skip, rest, ← List.cons_append, List.drop_left]
  obtain ⟨new', next, some, twins, whole⟩ := step_withReturns_feed behind
  refine ⟨_, _, _, .next (by simp [rest]) stepped (.one (behind ▸ List.cons_ne_nil _ _) (step_feed behind)),
    .next (by simp [rest']) stepped' (.one some next), twins, whole, ?_⟩
  simp [State.nextLine, rest]
  omega

theorem length_le_withReturns (l : Bytes) : l.length ≤ (Bytes.withReturns l).length := by
  induction l with
  | nil => exact Nat.le_refl _
  | cons b l ih =>
    by_cases feed : b = Ascii.lineFeed
    · rw [feed, withReturns_feed]
      simp only [List.length_cons]
      omega
    · rw [withReturns_cons feed]
      simpa using ih

theorem Runs.withReturns_shorter {s s' : State} {new : List Token} (h : Runs s new s')
    (shorter : s'.rest.length < s.rest.length) :
    s'.withReturns.rest.length < s.withReturns.rest.length := by
  obtain ⟨g, takes⟩ := h.takes
  have le := length_le_withReturns g
  rw [takes.rest, List.length_append] at shorter
  simp only [State.withReturns, State.on_rest, takes.rest, withReturns_append, List.length_append]
  omega

theorem blanks_withReturns (s : State) : runLength isBlank s.withReturns.rest = runLength isBlank s.rest ∧
    s.withReturns.rest.take (runLength isBlank s.rest) = s.rest.take (runLength isBlank s.rest) ∧
    s.withReturns.skip (runLength isBlank s.rest) =
      (s.skip (runLength isBlank s.rest)).withReturns := by
  have inline : Inline isBlank := inline_of (by decide) (by decide)
  have same := firstLine_withReturns s.rest
  have le := runLength_firstLine inline ▸ runLength_le isBlank (firstLine s.rest)
  refine ⟨runLength_congr same inline, take_congr same.symm le, State.skip_withReturns ?_⟩
  rw [withReturns_eq (not_feed_run _ (by decide)), List.length_take_of_le (runLength_le _ _)]

theorem passesLine_blanks (start : s.atLineStart = true) (outside : s.brackets = [])
    (rest : (s.skip (runLength isBlank s.rest)).rest = b :: r)
    (ends : b = '#'.toUInt8 ∨ b = Ascii.lineFeed)
    (h : PassesLine (s.skip (runLength isBlank s.rest))) : PassesLine s := by
  have skipped : s.withReturns.skip (runLength isBlank s.withReturns.rest) =
      (s.skip (runLength isBlank s.rest)).withReturns := by
    rw [(blanks_withReturns s).1, (blanks_withReturns s).2.2]
  obtain ⟨new, new', s', runs, runs', twins, whole, shorter⟩ := h
  have some : s.rest ≠ [] := by
    intro empty
    rw [State.skip, empty, List.drop_nil] at rest
    cases rest
  have same := step_blanks start outside rest (by tauto)
  have same' : step s.withReturns = step (s.skip (runLength isBlank s.rest)).withReturns := by
    have rest' : ∃ b' r', (s.skip (runLength isBlank s.rest)).withReturns.rest = b' :: r' ∧
        (b' = '#'.toUInt8 ∨ b' = Ascii.lineFeed ∨ b' = Ascii.carriageReturn) := by
      rw [State.withReturns, State.on_rest, rest]
      rcases ends with rfl | rfl
      · exact ⟨_, _, withReturns_cons (by decide) r, .inl rfl⟩
      · exact ⟨_, _, withReturns_feed r, .inr (.inr rfl)⟩
    obtain ⟨b', r', rest', ends'⟩ := rest'
    rw [← skipped] at rest' ⊢
    exact step_blanks start outside rest' ends'
  refine ⟨new, new', s', runs.of_step_eq same some shorter,
    runs'.of_step_eq same' ?_ (runs.withReturns_shorter shorter), twins, whole, ?_⟩
  · have le := length_le_withReturns s.rest
    have pos := List.length_pos_iff.2 some
    exact List.length_pos_iff.1 (pos.trans_le le)
  · refine shorter.trans_le ?_
    rw [State.skip, List.length_drop]
    omega

theorem State.withReturns_eq (line : Ascii.lineFeed ∉ s.rest) : s.withReturns = s := by
  rw [withReturns, Bytes.withReturns_eq line, on_self]

theorem paired_last_line {s' : State} (line : Ascii.lineFeed ∉ s.rest) (some : s.rest ≠ [])
    (h : step s = .ok ([], s')) : Paired (step s) (step s.withReturns) := by
  obtain ⟨g, takes⟩ := step_takes some h
  have line' : Ascii.lineFeed ∉ s'.rest := fun mem => line (takes.rest ▸ List.mem_append_right g mem)
  have twin := Paired.goes s' .nil nofun
  rw [State.withReturns_eq line'] at twin
  rwa [State.withReturns_eq line, h]

theorem lineStartStep_withReturns (free : Ascii.carriageReturn ∉ s.rest)
    (rest : (s.skip (runLength isBlank s.rest)).rest = b :: r) (inside : b ≠ Ascii.lineFeed)
    (code : b ≠ '#'.toUInt8) : Paired (lineStartStep s) (lineStartStep s.withReturns) := by
  obtain ⟨length, taken, skipped⟩ := blanks_withReturns s
  have free' : Ascii.carriageReturn ∉ (s.skip (runLength isBlank s.rest)).rest :=
    fun mem => free (List.mem_of_mem_drop mem)
  have notReturn : b ≠ Ascii.carriageReturn := by
    rintro rfl
    exact free' (rest ▸ List.mem_cons_self)
  have rest' : (s.skip (runLength isBlank s.rest)).withReturns.rest = b :: Bytes.withReturns r := by
    rw [State.withReturns, State.on_rest, rest, withReturns_cons inside]
  unfold lineStartStep
  simp only [length, taken, skipped, rest, rest', beq_eq_false_iff_ne.2 inside,
    beq_eq_false_iff_ne.2 code, beq_eq_false_iff_ne.2 notReturn, Bool.or_false, Bool.false_eq_true,
    ↓reduceIte]
  generalize s.skip (runLength isBlank s.rest) = s₁ at free' rest ⊢
  rw [State.withReturns, indentStep_on]
  cases indent : indentStep s₁ (indentWidth (s.rest.take (runLength isBlank s.rest))) with
  | error e => exact .fails e e
  | ok found =>
    obtain ⟨layout, s₂⟩ := found
    have indents := indentStep_cases indent
    have line : s₂.on s₁.rest.withReturns = s₂.withReturns := by
      rw [State.withReturns, indents.still.1]
    have texts : ∀ t ∈ layout, t.text = [] := by
      intro t mem
      obtain ⟨kind, -, rfl⟩ := indents.layout t mem
      rfl
    have after (x : Except SyntaxError (List Token × State)) :
        (do let (tokens, s) ← x; .ok (layout ++ tokens, s)) =
          x.map fun (new, s') => (layout ++ new, s') := by
      cases x <;> rfl
    change Paired (do let (tokens, s) ← lineStep s₂; .ok (layout ++ tokens, s))
      (do let (tokens, s) ← lineStep (s₂.on s₁.rest.withReturns); .ok (layout ++ tokens, s))
    rw [after, after, line]
    rw [← indents.still.1] at free' rest
    exact (lineStep_withReturns free' rest inside code).after_layout
      (List.forall₂_same.2 fun t mem => .refl_layout (texts t mem))
      fun t mem => Token.not_split_of_text (texts t mem)

theorem step_withReturns (free : Ascii.carriageReturn ∉ s.rest) (some : s.rest ≠ []) :
    PassesLine s ∨ Paired (step s) (step s.withReturns) := by
  by_cases start : s.atLineStart = true ∧ s.brackets = []
  · obtain ⟨start, outside⟩ := start
    have blanks := not_feed_run (p := isBlank) s.rest (by decide)
    have split : s.rest = s.rest.take (runLength isBlank s.rest) ++
        (s.skip (runLength isBlank s.rest)).rest := (List.take_append_drop _ _).symm
    cases rest : (s.skip (runLength isBlank s.rest)).rest with
    | nil =>
      have line : Ascii.lineFeed ∉ s.rest := by
        rw [split, rest, List.append_nil]
        exact blanks
      have stepped : step s = .ok ([], s.skip (runLength isBlank s.rest)) := by
        rw [step_eq_lineStartStep start outside, lineStartStep]
        simp only [rest]
      exact .inr (paired_last_line line some stepped)
    | cons b r =>
      by_cases feed : b = Ascii.lineFeed
      · rw [feed] at rest
        exact .inl (passesLine_blanks start outside rest (.inr rfl) (passesLine_feed rest))
      by_cases comment : b = '#'.toUInt8
      · rw [comment] at rest
        by_cases ended : Ascii.lineFeed ∈ r
        · exact .inl (passesLine_blanks start outside rest (.inl rfl) (passesLine_comment rest ended))
        · have line : Ascii.lineFeed ∉ s.rest := by
            rw [split, rest, List.mem_append, List.mem_cons, not_or, not_or]
            exact ⟨blanks, by decide, ended⟩
          exact .inr (paired_last_line line some
            ((step_blanks start outside rest (.inl rfl)).trans (step_comment rest)))
      · refine .inr ?_
        rw [step_eq_lineStartStep start outside, step_eq_lineStartStep (s := s.withReturns) start outside]
        exact lineStartStep_withReturns free rest feed comment
  · obtain ⟨b, r, rest⟩ := List.exists_cons_of_ne_nil some
    by_cases feed : b = Ascii.lineFeed
    · exact .inl (passesLine_feed (feed ▸ rest))
    by_cases comment : b = '#'.toUInt8
    · rw [comment] at rest
      by_cases ended : Ascii.lineFeed ∈ r
      · exact .inl (passesLine_comment rest ended)
      · have line : Ascii.lineFeed ∉ s.rest := by
          rw [rest, List.mem_cons, not_or]
          exact ⟨by decide, ended⟩
        exact .inr (paired_last_line line some (step_comment rest))
    · refine .inr ?_
      rw [step_eq_lineStep start, step_eq_lineStep (s := s.withReturns) start]
      exact lineStep_withReturns free rest feed comment

end Steps

/-! ## Runs -/

structure SameTokens (x y : Except SyntaxError (List Token)) : Prop where
  twins : ∀ ts, x = .ok ts → (∀ t ∈ ts, ¬t.IsSplit) → ∃ us, y = .ok us ∧ List.Forall₂ Token.Twin ts us
  whole : ∀ us, y = .ok us → ∃ ts, x = .ok ts ∧ ∀ t ∈ ts, ¬t.IsSplit

theorem closing_text {read final : List Token} {s : State} (closed : closing read s = .ok final) :
    ∀ t ∈ final, t.text = [] := by
  obtain ⟨-, lineEnd, ends, rfl⟩ := closing_cases closed
  refine List.forall_mem_append.2 ⟨List.forall_mem_append.2 ⟨fun t mem => ?_, ?_⟩, ?_⟩
  · rw [ends t mem]
    rfl
  · exact List.forall_mem_map.2 fun _ _ => rfl
  · exact List.forall_mem_singleton.2 rfl

theorem finish_withReturns_end {s : State} (rest : s.rest = []) {read read' : List Token}
    (twins : List.Forall₂ Token.Twin read read') (whole : ∀ t ∈ read, ¬t.IsSplit) :
    SameTokens (finish read s) (finish read' s.withReturns) := by
  have same : read'.head?.map Token.kind = read.head?.map Token.kind := by
    cases twins with
    | nil => rfl
    | cons twin => exact congrArg some twin.kind
  rw [State.withReturns_eq (by simp [rest]), finish_nil rest, finish_nil rest, closing_congr same]
  cases closed : closing read s with
  | error e => exact ⟨nofun, nofun⟩
  | ok final =>
    have texts := closing_text closed
    have twins' := List.rel_append (List.rel_reverse twins)
      (List.forall₂_same.2 fun t mem => Token.Twin.refl_layout (texts t mem))
    refine ⟨fun ts found _ => ⟨_, rfl, Except.ok.inj found ▸ twins'⟩, fun _ _ => ⟨_, rfl, fun t mem => ?_⟩⟩
    rcases List.mem_append.1 mem with mem | mem
    · exact whole t (List.mem_reverse.1 mem)
    · exact Token.not_split_of_text (texts t mem)

theorem finish_withReturns (s : State) (free : Ascii.carriageReturn ∉ s.rest) {read read' : List Token}
    (twins : List.Forall₂ Token.Twin read read') (whole : ∀ t ∈ read, ¬t.IsSplit) :
    SameTokens (finish read s) (finish read' s.withReturns) := by
  by_cases rest : s.rest = []
  · exact finish_withReturns_end rest twins whole
  have later {new : List Token} (whole' : ∀ t ∈ new, ¬t.IsSplit) :
      ∀ t ∈ new.reverse ++ read, ¬t.IsSplit := by
    intro t mem
    rcases List.mem_append.1 mem with mem | mem
    · exact whole' t (List.mem_reverse.1 mem)
    · exact whole t mem
  rcases step_withReturns free rest with
    ⟨new, new', s', runs, runs', twins', whole', shorter⟩ | paired
  · obtain ⟨g, takes⟩ := runs.takes
    rw [runs.finish_eq, runs'.finish_eq]
    exact finish_withReturns s' (fun mem => free (takes.rest ▸ List.mem_append_right g mem))
      (List.rel_append (List.rel_reverse twins') twins) (later whole')
  have rest' : s.withReturns.rest ≠ [] := by
    have le := length_le_withReturns s.rest
    exact List.length_pos_iff.1 ((List.length_pos_iff.2 rest).trans_le le)
  generalize stepped : step s = x at paired
  generalize stepped' : step s.withReturns = y at paired
  cases paired with
  | fails e e' =>
    rw [finish_error rest stepped, finish_error rest' stepped']
    exact ⟨nofun, nofun⟩
  | splits s' e mem split =>
    rw [finish_step rest stepped, finish_error rest' stepped']
    refine ⟨fun ts found none => ?_, nofun⟩
    exact absurd split
      (none _ (mem_of_finish (List.mem_append_left _ (List.mem_reverse.2 mem)) found))
  | goes s' twins' whole' =>
    have shorter := step_length_lt rest stepped
    obtain ⟨g, takes⟩ := step_takes rest stepped
    rw [finish_step rest stepped, finish_step rest' stepped']
    exact finish_withReturns s' (fun mem => free (takes.rest ▸ List.mem_append_right g mem))
      (List.rel_append (List.rel_reverse twins') twins) (later whole')
termination_by s.rest.length

/-- The lines of a text may end in two bytes instead of one if no string between single quotes goes
on over the end of a line. The tokens are the same then but for the line ends in strings and the
columns of layout tokens. -/
theorem tokenize_withReturns {source : Bytes} (free : Ascii.carriageReturn ∉ source) :
    ((∃ us, tokenize source.withReturns = .ok us) ↔
      ∃ ts, tokenize source = .ok ts ∧ ∀ t ∈ ts, ¬t.IsSplit) ∧
    ∀ ts us, tokenize source = .ok ts → tokenize source.withReturns = .ok us →
      List.Forall₂ Token.Twin ts us := by
  have same := finish_withReturns { rest := source } free .nil (List.forall_mem_nil _)
  change SameTokens (tokenize source) (tokenize source.withReturns) at same
  refine ⟨⟨fun ⟨us, lexed⟩ => same.whole us lexed, fun ⟨ts, lexed, whole⟩ => ?_⟩,
    fun ts us lexed lexed' => ?_⟩
  · obtain ⟨us, lexed', -⟩ := same.twins ts lexed whole
    exact ⟨us, lexed'⟩
  · obtain ⟨ts', lexed'', whole⟩ := same.whole us lexed'
    obtain rfl : ts' = ts := Except.ok.inj (lexed''.symm.trans lexed)
    obtain ⟨us', found, twins⟩ := same.twins ts' lexed whole
    obtain rfl : us' = us := Except.ok.inj (found.symm.trans lexed')
    exact twins

theorem tokenize_withReturns_triple :
    ∃ ts us, tokenize "if a: # c\n  b = '''\n'''" = .ok ts ∧
      tokenize (Bytes.withReturns "if a: # c\n  b = '''\n'''") = .ok us ∧
      List.Forall₂ Token.Twin ts us := by
  have free : Ascii.carriageReturn ∉ Bytes.ofString "if a: # c\n  b = '''\n'''" := by decide
  obtain ⟨ts, lexed⟩ : ∃ ts, tokenize "if a: # c\n  b = '''\n'''" = .ok ts := by decide +kernel
  obtain ⟨us, lexed'⟩ : ∃ us, tokenize (Bytes.withReturns "if a: # c\n  b = '''\n'''") = .ok us := by
    decide +kernel
  exact ⟨ts, us, lexed, lexed', (tokenize_withReturns free).2 ts us lexed lexed'⟩

theorem split_string_withReturns : Ascii.carriageReturn ∉ Bytes.ofString "'a\\\nb'\n" ∧
    (∃ ts, tokenize "'a\\\nb'\n" = .ok ts) ∧
    tokenize (Bytes.withReturns "'a\\\nb'\n") = .error ⟨.unterminatedString, ⟨1, 1⟩⟩ :=
  ⟨by decide, ⟨_, rfl⟩, rfl⟩

end Lexer

end CodeSmell
