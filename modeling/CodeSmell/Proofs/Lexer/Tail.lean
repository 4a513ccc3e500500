import CodeSmell.Proofs.Lexer.FirstLine
import CodeSmell.Proofs.Lexer.Lines
import CodeSmell.Proofs.Lexer.Run

/-!
What stands behind the text that a run has taken does not matter to it, as long as the lines that it
reads end where they ended. `State.on` puts another text before a state, and `Runs.tail` exchanges the
text that a run leaves.
-/

namespace CodeSmell.Lexer

open Bytes

def State.on (s : State) (rest : Bytes) : State := { s with rest }

namespace State

variable {s : State} {r c : Bytes} {n : Nat}

@[simp] theorem on_rest (s : State) (r : Bytes) : (s.on r).rest = r := rfl

@[simp] theorem on_brackets (s : State) (r : Bytes) : (s.on r).brackets = s.brackets := rfl

@[simp] theorem on_atLineStart (s : State) (r : Bytes) : (s.on r).atLineStart = s.atLineStart := rfl

@[simp] theorem on_self (s : State) : s.on s.rest = s := rfl

theorem skip_on {t : Bytes} (same : t.take n = s.rest.take n) :
    (s.on t).skip n = (s.skip n).on (t.drop n) := by
  simp only [skip, on, same]

theorem take_on {t : Bytes} {kind : TokenKind} (same : t.take n = s.rest.take n) :
    (s.on t).take n kind = ((s.take n kind).1, (s.take n kind).2.on (t.drop n)) := by
  simp only [take, skip_on same, on_rest, same]
  rfl

end State

/-! ## Words, numbers and operators -/

theorem take_firstLine {s : Bytes} {n : Nat} (le : n ≤ (firstLine s).length) :
    s.take n = (firstLine s).take n := by
  obtain ⟨tail, eq⟩ := prefix_firstLine s
  conv_lhs => rw [← eq]
  exact List.take_append_of_le_length le

section SameLine

variable {s t : Bytes} {n : Nat} (same : firstLine s = firstLine t)

include same

theorem take_congr (le : n ≤ (firstLine s).length) : t.take n = s.take n := by
  rw [take_firstLine le, same, take_firstLine (same ▸ le)]

theorem holdsAt_congr {p : UInt8 → Bool} (h : Inline p) : holdsAt p s 0 = holdsAt p t 0 := by
  rw [← holdsAt_firstLine h, same, holdsAt_firstLine h]

theorem stringPrefix?_congr : stringPrefix? s = stringPrefix? t := by
  rw [← stringPrefix?_firstLine, same, stringPrefix?_firstLine]

theorem runLength_congr {p : UInt8 → Bool} (h : Inline p) : runLength p s = runLength p t := by
  rw [← runLength_firstLine h, same, runLength_firstLine h]

theorem numberLength_congr : numberLength s = numberLength t := by
  rw [← numberLength_firstLine, same, numberLength_firstLine]

theorem isImaginary_congr : isImaginary s = isImaginary t := by
  rw [← isImaginary_firstLine, same, isImaginary_firstLine]

theorem operator?_congr : operator? s = operator? t := by
  rw [← operator?_firstLine, same, operator?_firstLine]

theorem drop_congr (le : n ≤ (firstLine s).length) : firstLine (s.drop n) = firstLine (t.drop n) := by
  rw [firstLine_drop le, same, firstLine_drop (same ▸ le)]

theorem head_congr (some : firstLine s ≠ []) : s.headD 0 = t.headD 0 := by
  obtain ⟨b, l, eq⟩ := List.exists_cons_of_ne_nil some
  obtain ⟨tail, rest⟩ := prefix_firstLine s
  obtain ⟨tail', rest'⟩ := prefix_firstLine t
  rw [eq] at rest
  rw [← same, eq] at rest'
  rw [← rest, ← rest']
  rfl

end SameLine

theorem inline_continuesName : Inline continuesName := inline_of (by decide) (by decide)

theorem inline_startsName : Inline startsName := inline_of (by decide) (by decide)

theorem lexeme_congr {s : State} {t : Bytes} (same : firstLine s.rest = firstLine t)
    (some : firstLine s.rest ≠ []) (plain : stringPrefix? s.rest = none) :
    lexeme (s.on t) = (lexeme s).map fun (token, s') => (token, s'.on (t.drop token.text.length)) := by
  have digits : (holdsAt Ascii.isDigit t 0 ||
        (holdsAt (· == '.'.toUInt8) t 0 && holdsAt Ascii.isDigit t 1)) =
      (holdsAt Ascii.isDigit s.rest 0 ||
        (holdsAt (· == '.'.toUInt8) s.rest 0 && holdsAt Ascii.isDigit s.rest 1)) := by
    have next (u : Bytes) := holdsAt_succ_firstLine (s := u) inline_point
      fun s => holdsAt_firstLine (s := s) inline_digit
    rw [← next t, ← next s.rest, same, holdsAt_congr same inline_digit]
  have length {n : Nat} (le : n ≤ (firstLine s.rest).length) : (s.rest.take n).length = n :=
    List.length_take_of_le (le.trans (prefix_firstLine _).length_le)
  unfold lexeme
  simp only [State.on_rest, ← stringPrefix?_congr same, plain, ← holdsAt_congr same inline_startsName,
    digits, ← runLength_congr same inline_continuesName, ← numberLength_congr same,
    ← isImaginary_congr same, ← operator?_congr same, ← head_congr same some]
  cases holdsAt startsName s.rest 0 with
  | true =>
    have le := runLength_firstLine inline_continuesName ▸ runLength_le continuesName (firstLine s.rest)
    rw [if_pos rfl, if_pos rfl, take_congr same le, State.take_on (take_congr same le)]
    simp only [Except.map, State.take, length le]
  | false =>
    rw [if_neg Bool.false_ne_true, if_neg Bool.false_ne_true]
    split_ifs with number
    · have le := numberLength_firstLine s.rest ▸ numberLength_le (firstLine s.rest)
      rw [State.take_on (take_congr same le)]
      simp only [Except.map, State.take, length le]
    · cases found : operator? s.rest with
      | none => rfl
      | some operator =>
        have le : operator.length ≤ (firstLine s.rest).length := by
          have isPrefix := List.find?_some ((operator?_firstLine s.rest).trans found)
          exact (List.isPrefixOf_iff_prefix.1 isPrefix).length_le
        have opened : brackets (s.on t) operator = brackets s operator := rfl
        simp only [State.take_on (take_congr same le), opened]
        cases brackets s operator with
        | error e => rfl
        | ok bs => simp only [bind, Except.bind, Except.map, State.take, length le]; rfl

/-! ## Strings -/

section Strings

variable {quote x y : UInt8} {l b c : Bytes} {n : Nat}

theorem singleLength?_escaped (escape : (x == '\\'.toUInt8) = true) (y : UInt8) (l : Bytes) :
    singleLength? quote (x :: y :: l) = (singleLength? quote l).map (· + 2) := by
  rw [singleLength?, if_pos escape]

theorem singleLength?_other (plain : ¬(x == '\\'.toUInt8) = true)
    (inside : ¬(x == Ascii.lineFeed) = true) (other : ¬(x == quote) = true) (l : Bytes) :
    singleLength? quote (x :: l) = (singleLength? quote l).map (· + 1) := by
  rw [singleLength?.eq_def]
  simp only [if_neg plain, if_neg inside, if_neg other]

theorem tripleLength?_escaped (escape : (x == '\\'.toUInt8) = true) (y : UInt8) (l : Bytes) :
    tripleLength? quote (x :: y :: l) = (tripleLength? quote l).map (· + 2) := by
  rw [tripleLength?, if_pos escape]

theorem tripleLength?_other (plain : ¬(x == '\\'.toUInt8) = true)
    (other : ¬(x == quote && holdsAt (· == quote) l 0 && holdsAt (· == quote) l 1) = true) :
    tripleLength? quote (x :: l) = (tripleLength? quote l).map (· + 1) := by
  rw [tripleLength?.eq_def]
  simp only [if_neg plain, if_neg other]

theorem tripleLength?_three (plain : ¬(x == '\\'.toUInt8) = true)
    (three : (x == quote && holdsAt (· == quote) l 0 && holdsAt (· == quote) l 1) = true) :
    tripleLength? quote (x :: l) = some 3 := by
  rw [tripleLength?.eq_def]
  simp only [if_neg plain, if_pos three]

theorem singleLength?_tail (h : singleLength? quote (l ++ b) = some n) (le : n ≤ l.length) :
    singleLength? quote (l ++ c) = some n := by
  fun_induction singleLength? quote l generalizing n with
  | case1 =>
    obtain ⟨m, rfl, -⟩ := singleLength?_last h
    simp at le
  | case2 x escape =>
    cases b with
    | nil => simp [singleLength?, escape] at h
    | cons y b =>
      rw [List.singleton_append, singleLength?_escaped escape] at h
      obtain ⟨m, -, rfl⟩ := Option.map_eq_some_iff.1 h
      simp at le
  | case3 x escape y l ih =>
    rw [List.cons_append, List.cons_append, singleLength?_escaped escape] at h ⊢
    obtain ⟨m, found, rfl⟩ := Option.map_eq_some_iff.1 h
    exact Option.map_eq_some_iff.2 ⟨m, ih found (by simpa using le), rfl⟩
  | case4 x l plain feed =>
    rw [List.cons_append, singleLength?.eq_def] at h
    simp only [if_neg plain, if_pos feed] at h
    cases h
  | case5 x l plain inside same =>
    rw [List.cons_append, singleLength?.eq_def] at h ⊢
    simpa only [if_neg plain, if_neg inside, if_pos same] using h
  | case6 x l plain inside other ih =>
    rw [List.cons_append, singleLength?_other plain inside other] at h ⊢
    obtain ⟨m, found, rfl⟩ := Option.map_eq_some_iff.1 h
    exact Option.map_eq_some_iff.2 ⟨m, ih found (by simpa using le), rfl⟩

theorem holdsAt_append {p : UInt8 → Bool} (lt : n < l.length) (b : Bytes) :
    holdsAt p (l ++ b) n = holdsAt p l n := by
  rw [holdsAt, holdsAt, List.getElem?_append_left lt]

theorem three_append (two : 2 ≤ l.length) (b : Bytes) :
    (x == quote && holdsAt (· == quote) (l ++ b) 0 && holdsAt (· == quote) (l ++ b) 1) =
      (x == quote && holdsAt (· == quote) l 0 && holdsAt (· == quote) l 1) := by
  rw [holdsAt_append (by omega), holdsAt_append (by omega)]

theorem three_le_tripleLength? (h : tripleLength? quote l = some n) : 3 ≤ n := by
  fun_induction tripleLength? quote l generalizing n with
  | case1 | case2 => cases h
  | case3 _ _ _ _ ih | case5 _ _ _ _ ih =>
    obtain ⟨m, found, rfl⟩ := Option.map_eq_some_iff.1 h
    exact (ih found).trans (by omega)
  | case4 => exact (Option.some.inj h).le

theorem tripleLength?_tail (h : tripleLength? quote (l ++ b) = some n) (le : n ≤ l.length) :
    tripleLength? quote (l ++ c) = some n := by
  fun_induction tripleLength? quote l generalizing n with
  | case1 =>
    obtain ⟨m, rfl, -⟩ := tripleLength?_last h
    simp at le
  | case2 x escape =>
    cases b with
    | nil => simp [tripleLength?, escape] at h
    | cons y b =>
      rw [List.singleton_append, tripleLength?_escaped escape] at h
      obtain ⟨m, -, rfl⟩ := Option.map_eq_some_iff.1 h
      simp at le
  | case3 x escape y l ih =>
    rw [List.cons_append, List.cons_append, tripleLength?_escaped escape] at h ⊢
    obtain ⟨m, found, rfl⟩ := Option.map_eq_some_iff.1 h
    exact Option.map_eq_some_iff.2 ⟨m, ih found (by simpa using le), rfl⟩
  | case4 x l plain three =>
    have two := holdsAt_lt (Bool.and_eq_true_iff.1 three).2
    rw [← three_append two c] at three
    rw [List.cons_append, tripleLength?_three plain three]
    rw [three_append two, ← three_append two b] at three
    rwa [List.cons_append, tripleLength?_three plain three] at h
  | case5 x l plain other ih =>
    have three := three_le_tripleLength? h
    rw [List.length_cons] at le
    rw [← three_append (by omega) b] at other
    rw [List.cons_append, tripleLength?_other plain other] at h
    rw [three_append (by omega), ← three_append (by omega) c] at other
    rw [List.cons_append, tripleLength?_other plain other]
    obtain ⟨m, found, rfl⟩ := Option.map_eq_some_iff.1 h
    exact Option.map_eq_some_iff.2 ⟨m, ih found (by omega), rfl⟩

theorem quotedLength_le {s : Bytes} (h : quotedLength s = .ok n) : n ≤ s.length := by
  obtain ⟨m, rfl, last⟩ := quotedLength_last h
  cases s with
  | nil => simp [quotedLength] at h
  | cons b s => exact (List.getElem?_eq_some_iff.1 last).1

theorem inline_beq (quote : UInt8) (h : isBreak quote = false) : Inline (· == quote) := by
  intro b isBreak'
  refine beq_eq_false_iff_ne.2 fun same => ?_
  rw [same, h] at isBreak'
  cases isBreak'

theorem opening_congr (inside : isBreak quote = false) (same : firstLine b = firstLine c) :
    (holdsAt (· == quote) b 0 && holdsAt (· == quote) b 1) =
      (holdsAt (· == quote) c 0 && holdsAt (· == quote) c 1) := by
  have next (s : Bytes) := holdsAt_succ_firstLine (s := s) (inline_beq quote inside)
    fun s => holdsAt_firstLine (s := s) (inline_beq quote inside)
  rw [← next b, same, next c]

theorem quotedLength_tail (opens : holdsAt isQuote (l ++ b) 0 = true)
    (same : firstLine (l ++ b) = firstLine (l ++ c)) (h : quotedLength (l ++ b) = .ok n)
    (le : n ≤ l.length) : quotedLength (l ++ c) = .ok n := by
  have pos := quotedLength_pos h
  obtain ⟨quote, l, rfl⟩ := List.exists_cons_of_length_pos (pos.trans_le le)
  have inside := isBreak_of_holds inline_quote (p := isQuote) (b := quote) opens
  rw [List.cons_append, List.cons_append, firstLine_cons inside, firstLine_cons inside] at same
  rw [List.length_cons] at le
  simp only [List.cons_append, quotedLength, opening_congr inside (List.cons.inj same).2] at h ⊢
  split_ifs at h ⊢
  · split at h
    · next m found =>
      obtain rfl := Except.ok.inj h
      rw [List.drop_append_of_le_length (by omega)] at found ⊢
      rw [tripleLength?_tail found (by rw [List.length_drop]; omega)]
    · cases h
  · split at h
    · next m found =>
      obtain rfl := Except.ok.inj h
      rw [singleLength?_tail found (by omega)]
    · cases h

end Strings

/-! ## Steps -/

/-- The texts agree up to the end of the first line. -/
def SameLine (s t : Bytes) : Prop :=
  s.takeWhile (· != Ascii.lineFeed) = t.takeWhile (· != Ascii.lineFeed)

theorem SameLine.firstLine {s t : Bytes} (h : SameLine s t) : firstLine s = firstLine t := by
  have cut (u : Bytes) : Bytes.firstLine u =
      (u.takeWhile (· != Ascii.lineFeed)).takeWhile (· != Ascii.carriageReturn) := by
    rw [List.takeWhile_takeWhile]
    refine congrArg (List.takeWhile · u) (funext fun b => ?_)
    simp only [isBreak, bne, Bool.not_or, Bool.decide_and, Bool.decide_eq_true, Bool.and_comm]
  rw [cut, cut, h]

theorem SameLine.commentLength {s t : Bytes} (h : SameLine s t) : commentLength s = commentLength t :=
  congrArg List.length h

/-- Behind `r` the texts `b` and `c` end the lines alike. -/
def Joins (r b c : Bytes) : Prop := ∀ r', r' <:+ r → r' ≠ [] → SameLine (r' ++ b) (r' ++ c)

namespace Joins

variable {r r' b c : Bytes}

theorem takeWhile_feed (r d : Bytes) : (r ++ Ascii.lineFeed :: d).takeWhile (· != Ascii.lineFeed) =
    r.takeWhile (· != Ascii.lineFeed) := by
  induction r with
  | nil => rfl
  | cons x r ih => rw [List.cons_append, List.takeWhile_cons, List.takeWhile_cons, ih]

theorem feed (r : Bytes) : Joins r [] [Ascii.lineFeed] := by
  intro r' _ _
  rw [SameLine, List.append_nil, takeWhile_feed]

theorem of_last (h : r.getLast? = some Ascii.lineFeed) (b c : Bytes) : Joins r b c := by
  intro r' le some
  obtain ⟨before, rfl⟩ := le
  rw [List.getLast?_append_of_ne_nil _ some] at h
  obtain ⟨line, rfl⟩ := List.getLast?_eq_some_iff.1 h
  simp only [SameLine, List.append_assoc, List.singleton_append, takeWhile_feed]

end Joins

section Tail

variable {s s' : State} {t : Token} {new : List Token} {r r' b c : Bytes} {n : Nat}

theorem skip_tail (eq : s.rest = r ++ b) (le : n ≤ r.length) (c : Bytes) :
    (s.on (r ++ c)).skip n = (s.skip n).on (r.drop n ++ c) := by
  rw [State.skip_on (by rw [eq, List.take_append_of_le_length le, List.take_append_of_le_length le]),
    List.drop_append_of_le_length le]

theorem skip_before (eq : s.rest = r ++ b) (eq' : (s.skip n).rest = r' ++ b)
    (le : n ≤ s.rest.length) (c : Bytes) :
    n ≤ r.length ∧ (s.on (r ++ c)).skip n = (s.skip n).on (r' ++ c) := by
  have lengths := congrArg List.length eq'
  simp only [State.skip, List.length_drop, eq, List.length_append] at lengths le
  have inside : n ≤ r.length := by omega
  have rest : r.drop n = r' := by
    simp only [State.skip, eq, List.drop_append_of_le_length inside] at eq'
    exact List.append_cancel_right eq'
  exact ⟨inside, by rw [skip_tail eq inside, rest]⟩

theorem quotedLength_behind_letters (eq : l = r ++ b) (same : firstLine (r ++ b) = firstLine (r ++ c))
    (found : stringPrefix? l = some n) (length : quotedLength (l.drop n) = .ok m)
    (taken : n + m ≤ r.length) : quotedLength ((r ++ c).drop n) = .ok m := by
  subst eq
  have quote := stringPrefix?_quote found
  have inside : n ≤ (firstLine (r ++ b)).length := by
    rw [← stringPrefix?_firstLine] at found
    exact (holdsAt_lt (stringPrefix?_quote found)).le
  have opens : holdsAt isQuote (r.drop n ++ b) 0 = true := by
    rw [← List.drop_append_of_le_length (by omega)]
    simpa [holdsAt] using quote
  have behind := drop_congr same inside
  rw [List.drop_append_of_le_length (by omega)] at length
  rw [List.drop_append_of_le_length (by omega), List.drop_append_of_le_length (by omega)] at behind
  rw [List.drop_append_of_le_length (by omega)]
  exact quotedLength_tail opens behind length (by rw [List.length_drop]; omega)

theorem lexeme_tail (eq : s.rest = r ++ b) (eq' : s'.rest = r' ++ b)
    (same : firstLine (r ++ b) = firstLine (r ++ c)) (some : firstLine (r ++ b) ≠ [])
    (h : lexeme s = .ok (t, s')) : lexeme (s.on (r ++ c)) = .ok (t, s'.on (r' ++ c)) := by
  have rest : s.rest ≠ [] := by
    intro empty
    rw [← eq, empty] at some
    exact some rfl
  have text : r = t.text ++ r' := by
    have takes := (lexeme_lexes rest h).takes.rest
    rw [eq, eq', ← List.append_assoc] at takes
    exact List.append_cancel_right takes
  cases found : stringPrefix? s.rest with
  | none =>
    rw [lexeme_congr (eq ▸ same) (eq ▸ some) found, h]
    simp only [Except.map]
    rw [text, List.append_assoc, List.drop_left]
  | some n =>
    have quote := stringPrefix?_quote found
    unfold lexeme at h ⊢
    simp only [found, State.on_rest, ← stringPrefix?_congr same, ← eq] at h ⊢
    split at h
    · next m length =>
      obtain ⟨rfl, rfl⟩ := Prod.mk.inj (Except.ok.inj h)
      change r = s.rest.take (n + m) ++ r' at text
      have lt := holdsAt_lt quote
      have le := quotedLength_le length
      rw [List.length_drop] at le
      have taken : n + m ≤ r.length := by
        have lengths := congrArg List.length text
        rw [List.length_append, List.length_take_of_le (by omega)] at lengths
        omega
      have same' : (r ++ c).take (n + m) = s.rest.take (n + m) := by
        rw [eq, List.take_append_of_le_length taken, List.take_append_of_le_length taken]
      have rest' : r.drop (n + m) = r' := by
        rw [text, List.drop_left' (List.length_take_of_le (by omega))]
      rw [quotedLength_behind_letters eq same found length taken]
      simp only [State.take_on same', List.drop_append_of_le_length taken, rest']
      rfl
    · cases h

theorem continuationLength?_tail (h : continuationLength? (r ++ b) = some n) (le : n ≤ r.length)
    (c : Bytes) : continuationLength? (r ++ c) = some n := by
  unfold continuationLength? at h ⊢
  split_ifs at h with feed both
  · obtain rfl := Option.some.inj h
    rw [holdsAt_append (by omega)] at feed ⊢
    rw [if_pos feed]
  · obtain rfl := Option.some.inj h
    rw [holdsAt_append (by omega)] at feed
    rw [holdsAt_append (by omega), holdsAt_append (by omega)] at both
    rw [holdsAt_append (by omega), holdsAt_append (by omega), holdsAt_append (by omega), if_neg feed,
      if_pos both]

theorem continuationLength?_le {s : Bytes} (h : continuationLength? s = some n) : n ≤ s.length := by
  unfold continuationLength? at h
  split_ifs at h with feed both
  · obtain rfl := Option.some.inj h
    exact holdsAt_lt feed
  · obtain rfl := Option.some.inj h
    exact holdsAt_lt (Bool.and_eq_true_iff.1 both).2

theorem lineStep_tail (same : SameLine (r ++ b) (r ++ c)) (some : r ≠ []) (eq : s.rest = r ++ b)
    (eq' : s'.rest = r' ++ b) (h : lineStep s = .ok (new, s')) :
    lineStep (s.on (r ++ c)) = .ok (new, s'.on (r' ++ c)) := by
  obtain ⟨x, l, rfl⟩ := List.exists_cons_of_ne_nil some
  have rest : s.rest = x :: (l ++ b) := eq
  have long : 1 ≤ s.rest.length := by rw [rest, List.length_cons]; omega
  unfold lineStep at h ⊢
  simp only [rest, State.on_rest, State.on_brackets, List.cons_append] at h ⊢
  split_ifs at h ⊢ with blank feed outside comment backslash
  · obtain ⟨rfl, rfl⟩ := Prod.mk.inj (Except.ok.inj h)
    rw [← List.cons_append, (skip_before eq eq' long c).2]
  · obtain ⟨rfl, rfl⟩ := Prod.mk.inj (Except.ok.inj h)
    refine (if_pos outside).trans ?_
    rw [← List.cons_append, (skip_before eq eq' long c).2]
    rfl
  · obtain ⟨rfl, rfl⟩ := Prod.mk.inj (Except.ok.inj h)
    refine (if_neg outside).trans ?_
    rw [← List.cons_append, (skip_before eq eq' long c).2]
  · obtain ⟨rfl, rfl⟩ := Prod.mk.inj (Except.ok.inj h)
    have le : commentLength s.rest ≤ s.rest.length := runLength_le _ _
    rw [← List.cons_append, ← List.cons_append, ← same.commentLength, ← eq,
      (skip_before eq (by rw [rest]; exact eq') le c).2]
  · split at h
    · next n found =>
      obtain ⟨rfl, rfl⟩ := Prod.mk.inj (Except.ok.inj h)
      have le := continuationLength?_le found
      have ⟨inside, skipped⟩ := skip_before eq eq' (rest ▸ le) c
      rw [← List.cons_append] at found ⊢
      simp only [continuationLength?_tail found inside, skipped]
    · cases h
  · obtain ⟨⟨t, s₁⟩, lexed, h⟩ := bind_eq_ok.1 h
    obtain ⟨rfl, rfl⟩ := Prod.mk.inj (Except.ok.inj h)
    have inLine : isBreak x = false := by
      rw [isBreak, Bool.eq_false_of_not_eq_true feed, Bool.false_or]
      exact Bool.eq_false_of_not_eq_true fun same => blank (by rw [same, Bool.or_true])
    have some : firstLine (x :: l ++ b) ≠ [] := by
      rw [List.cons_append, firstLine_cons inLine]
      exact List.cons_ne_nil _ _
    rw [← List.cons_append]
    exact bind_eq_ok.2 ⟨_, lexeme_tail eq eq' same.firstLine some lexed, rfl⟩

theorem indentStep_on (s : State) (t : Bytes) (width : Nat) :
    indentStep (s.on t) width = (indentStep s width).map fun (layout, s') => (layout, s'.on t) := by
  unfold indentStep
  split_ifs with deeper deeper' deeper'
  · rfl
  · exact absurd deeper deeper'
  · exact absurd deeper' deeper
  · dsimp only [State.on]
    split_ifs with known
    · rfl
    · rfl

theorem runLength_append {p : UInt8 → Bool} (stops : ∃ x ∈ r, p x = false) (b : Bytes) :
    runLength p (r ++ b) = runLength p r ∧ runLength p r < r.length := by
  have lt : runLength p r < r.length := by
    refine lt_of_le_of_ne (runLength_le p r) fun all => ?_
    have whole := (List.takeWhile_prefix p).eq_of_length all
    obtain ⟨x, mem, fails⟩ := stops
    rw [← whole] at mem
    rw [List.mem_takeWhile_imp mem] at fails
    cases fails
  refine ⟨?_, lt⟩
  rw [runLength, List.takeWhile_append, if_neg (by exact lt.ne)]
  rfl

theorem lineStartStep_tail (joins : Joins r b c) (inside : ∃ x ∈ r, isBlank x = false)
    (eq : s.rest = r ++ b) (eq' : s'.rest = r' ++ b) (h : lineStartStep s = .ok (new, s')) :
    lineStartStep (s.on (r ++ c)) = .ok (new, s'.on (r' ++ c)) := by
  have lt := (runLength_append inside b).2
  obtain ⟨x, l, past⟩ := List.exists_cons_of_length_pos
    (l := r.drop (runLength isBlank r)) (by rw [List.length_drop]; omega)
  have same := joins _ (List.drop_suffix _ r) (past ▸ List.cons_ne_nil x l)
  have blanks (d : Bytes) : (r ++ d).take (runLength isBlank r) = r.take (runLength isBlank r) :=
    List.take_append_of_le_length lt.le
  have skipped := skip_tail eq lt.le c
  have rest : (s.skip (runLength isBlank r)).rest = x :: l ++ b := by
    simp only [State.skip, eq, List.drop_append_of_le_length lt.le, past]
  unfold lineStartStep at h ⊢
  simp only [State.on_rest, eq, (runLength_append inside _).1, blanks, skipped] at h ⊢
  rw [past] at same ⊢
  generalize s.skip (runLength isBlank r) = s₁ at h rest ⊢
  have long : 1 ≤ s₁.rest.length := by rw [rest, List.cons_append, List.length_cons]; omega
  simp only [rest, List.cons_append] at h ⊢
  split_ifs at h ⊢ with comment lineEnd
  · obtain ⟨rfl, rfl⟩ := Prod.mk.inj (Except.ok.inj h)
    have le : commentLength s₁.rest ≤ s₁.rest.length := runLength_le _ _
    rw [← List.cons_append, ← List.cons_append, ← same.commentLength, ← rest,
      (skip_before rest (by rw [rest]; exact eq') le c).2]
  · obtain ⟨rfl, rfl⟩ := Prod.mk.inj (Except.ok.inj h)
    rw [← List.cons_append, (skip_before rest eq' long c).2]
  · obtain ⟨⟨layout, s₂⟩, indent, h⟩ := bind_eq_ok.1 h
    obtain ⟨⟨tokens, s₃⟩, line, h⟩ := bind_eq_ok.1 h
    obtain ⟨rfl, rfl⟩ := Prod.mk.inj (Except.ok.inj h)
    have rest₂ := (indentStep_cases indent).still.1.trans rest
    have lined := lineStep_tail same (List.cons_ne_nil x l) rest₂ eq' line
    rw [indentStep_on, indent]
    exact bind_eq_ok.2 ⟨_, rfl, bind_eq_ok.2 ⟨_, lined, rfl⟩⟩

theorem step_tail (joins : Joins r b c) (some : r ≠ [])
    (inside : s.atLineStart = true → ∃ x ∈ r, isBlank x = false) (eq : s.rest = r ++ b)
    (eq' : s'.rest = r' ++ b) (h : step s = .ok (new, s')) :
    step (s.on (r ++ c)) = .ok (new, s'.on (r' ++ c)) := by
  unfold step at h ⊢
  rw [State.on_atLineStart, State.on_brackets]
  split_ifs at h ⊢ with start
  · exact lineStartStep_tail joins (inside (Bool.and_eq_true_iff.1 start).1) eq eq' h
  · exact lineStep_tail (joins r (List.suffix_refl r) some) some eq eq' h

theorem Runs.tail (h : Runs s new s') (last : ∀ x ∈ r.getLast?, x = Ascii.lineFeed)
    (eq : s.rest = r ++ s'.rest) (c : Bytes) : Runs (s.on (r ++ c)) new (s'.on c) := by
  induction h generalizing r with
  | refl s =>
    obtain rfl : r = [] := List.append_left_eq_self.1 eq.symm
    exact .refl _
  | @next new later s s₁ s' rest stepped runs ih =>
    obtain ⟨g, takes⟩ := step_takes rest stepped
    obtain ⟨r', takes'⟩ := runs.takes
    have shorter := step_length_lt rest stepped
    obtain rfl : r = g ++ r' := by
      rw [takes.rest, takes'.rest, ← List.append_assoc] at eq
      exact (List.append_cancel_right eq).symm
    have some : g ++ r' ≠ [] := by
      intro empty
      rw [empty, List.nil_append] at eq
      rw [eq, takes'.rest, List.length_append] at shorter
      omega
    obtain ⟨x, found⟩ := Option.ne_none_iff_exists'.1 (mt List.getLast?_eq_none_iff.1 some)
    obtain rfl := last x found
    have stepped' := step_tail (.of_last found _ c) some
      (fun _ => ⟨_, List.mem_of_getLast? found, by decide⟩) eq takes'.rest stepped
    refine .next (List.append_ne_nil_of_left_ne_nil some c) stepped' (ih (fun x mem => last x ?_) takes'.rest)
    rw [List.getLast?_append, mem, Option.some_or]
    rfl

end Tail

end CodeSmell.Lexer
