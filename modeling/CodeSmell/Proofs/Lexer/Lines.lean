import CodeSmell.Model.Module
import CodeSmell.Proofs.Lexer.Layout
import CodeSmell.Proofs.Lexer.Lossless

/-!
The lines of tokens. Every token, layout included, ends before the next one begins, and no token
with text ends after the last line of the source.
-/

namespace CodeSmell

/-- The tokens lie on the lines from `a` to `b`, each ending before the next one begins. -/
inductive Lined : (a : Int) → List Token → (b : Int) → Prop where
  | nil {a b : Int} : a ≤ b → Lined a [] b
  | cons {a b : Int} {t : Token} {ts : List Token} : a ≤ t.position.line →
      t.position.line ≤ t.endLine → Lined t.endLine ts b → Lined a (t :: ts) b

namespace Lined

variable {a b c : Int} {ts us : List Token}

theorem le (h : Lined a ts b) : a ≤ b := by
  induction h with
  | nil le => exact le
  | cons first last _ ih => omega

theorem anti (h : Lined b ts c) (le : a ≤ b) : Lined a ts c := by
  cases h with
  | nil le' => exact .nil (by omega)
  | cons first last rest => exact .cons (by omega) last rest

theorem append (h : Lined a ts b) (h' : Lined b us c) : Lined a (ts ++ us) c := by
  induction h with
  | nil le => exact h'.anti le
  | cons first last _ ih => exact .cons first last (ih h')

theorem left (h : Lined a (ts ++ us) c) : ∃ b, Lined a ts b ∧ Lined b us c := by
  induction ts generalizing a with
  | nil => exact ⟨a, .nil (Int.le_refl a), h⟩
  | cons t ts ih =>
    cases h with
    | cons first last rest =>
      obtain ⟨b, before, after⟩ := ih rest
      exact ⟨b, .cons first last before, after⟩

theorem sublist (h : Lined a ts b) (within : us.Sublist ts) : Lined a us b := by
  induction within generalizing a with
  | slnil => exact h
  | cons t _ ih =>
    cases h with
    | cons first last rest => exact (ih rest).anti (by omega)
  | cons_cons t _ ih =>
    cases h with
    | cons first last rest => exact .cons first last (ih rest)

theorem mem {t : Token} (h : Lined a ts b) (mem : t ∈ ts) :
    a ≤ t.position.line ∧ t.position.line ≤ t.endLine ∧ t.endLine ≤ b := by
  cases h.sublist (List.singleton_sublist.2 mem) with
  | cons first last rest => exact ⟨first, last, rest.le⟩

end Lined

namespace Lexer

theorem singleLength?_last {quote : UInt8} {s : Bytes} {n : Nat}
    (h : singleLength? quote s = some n) : ∃ m, n = m + 1 ∧ s[m]? = some quote := by
  fun_induction singleLength? quote s generalizing n with
  | case1 | case2 | case4 => cases h
  | case3 b _ c rest ih =>
    obtain ⟨n, found, rfl⟩ := Option.map_eq_some_iff.1 h
    obtain ⟨m, rfl, last⟩ := ih found
    exact ⟨m + 2, rfl, by simpa using last⟩
  | case5 b rest _ _ same =>
    obtain rfl := Option.some.inj h
    exact ⟨0, rfl, by simp [eq_of_beq same]⟩
  | case6 b rest _ _ _ ih =>
    obtain ⟨n, found, rfl⟩ := Option.map_eq_some_iff.1 h
    obtain ⟨m, rfl, last⟩ := ih found
    exact ⟨m + 1, rfl, by simpa using last⟩

theorem tripleLength?_last {quote : UInt8} {s : Bytes} {n : Nat}
    (h : tripleLength? quote s = some n) : ∃ m, n = m + 1 ∧ s[m]? = some quote := by
  fun_induction tripleLength? quote s generalizing n with
  | case1 | case2 => cases h
  | case3 b _ c rest ih =>
    obtain ⟨n, found, rfl⟩ := Option.map_eq_some_iff.1 h
    obtain ⟨m, rfl, last⟩ := ih found
    exact ⟨m + 2, rfl, by simpa using last⟩
  | case4 b rest _ three =>
    obtain rfl := Option.some.inj h
    obtain ⟨c, found, same⟩ := Option.any_eq_true _ _ |>.1 (Bool.and_eq_true_iff.1 three).2
    exact ⟨2, rfl, by simpa [eq_of_beq same] using found⟩
  | case5 b rest _ _ ih =>
    obtain ⟨n, found, rfl⟩ := Option.map_eq_some_iff.1 h
    obtain ⟨m, rfl, last⟩ := ih found
    exact ⟨m + 1, rfl, by simpa using last⟩

theorem quotedLength_last {s : Bytes} {n : Nat} (h : quotedLength s = .ok n) :
    ∃ m, n = m + 1 ∧ s[m]? = s[0]? := by
  unfold quotedLength at h
  split at h
  · cases h
  next quote rest =>
  split_ifs at h
  · split at h
    · next k found =>
      obtain ⟨m, rfl, last⟩ := tripleLength?_last found
      obtain rfl := Except.ok.inj h
      refine ⟨m + 3, by omega, ?_⟩
      simpa [Nat.add_comm] using last
    · cases h
  · split at h
    · next k found =>
      obtain ⟨m, rfl, last⟩ := singleLength?_last found
      obtain rfl := Except.ok.inj h
      exact ⟨m + 1, by omega, by simpa using last⟩
    · cases h

theorem stringPrefix?_quote {s : Bytes} {n : Nat} (h : stringPrefix? s = some n) :
    holdsAt isQuote s n = true := by
  unfold stringPrefix? at h
  split_ifs at h with none _ one two
  · obtain rfl := Option.some.inj h
    exact none
  · obtain rfl := Option.some.inj h
    exact one
  · obtain rfl := Option.some.inj h
    exact (Bool.and_eq_true_iff.1 two).2

section Numbers

variable {p : UInt8 → Bool} {s : Bytes}

theorem not_feed_run (s : Bytes) (h : p Ascii.lineFeed = false) :
    Ascii.lineFeed ∉ s.take (runLength p s) := by
  intro mem
  rw [take_runLength] at mem
  rw [List.mem_takeWhile_imp mem] at h
  cases h

theorem not_feed_byte {n : Nat} (holds : holdsAt p s n = true) (h : p Ascii.lineFeed = false) :
    Ascii.lineFeed ∉ (s.drop n).take 1 := by
  obtain ⟨b, found, holds⟩ := Option.any_eq_true _ _ |>.1 holds
  rw [List.take_one, List.head?_drop, found]
  intro mem
  rw [List.mem_singleton.1 mem, holds] at h
  cases h

theorem not_feed_append {m n : Nat} (left : Ascii.lineFeed ∉ s.take m)
    (right : Ascii.lineFeed ∉ (s.drop m).take n) : Ascii.lineFeed ∉ s.take (m + n) := by
  rw [List.take_add, List.mem_append, not_or]
  exact ⟨left, right⟩

theorem not_feed_digits (s : Bytes) : Ascii.lineFeed ∉ s.take (digitRun s) :=
  not_feed_run s (by decide)

theorem not_feed_fraction (s : Bytes) : Ascii.lineFeed ∉ s.take (fractionLength s) := by
  unfold fractionLength
  split_ifs with point
  · exact not_feed_append (not_feed_byte point (by decide)) (not_feed_digits _)
  · simp

theorem not_feed_exponent (s : Bytes) : Ascii.lineFeed ∉ s.take (exponentLength s) := by
  unfold exponentLength
  dsimp only
  split_ifs with sign mark mark
  · have mark := not_feed_byte (Bool.and_eq_true_iff.1 mark).1 (by decide)
    exact not_feed_append (not_feed_append mark (not_feed_byte sign (by decide)))
      (not_feed_digits _)
  · simp
  · exact not_feed_append (not_feed_byte (Bool.and_eq_true_iff.1 mark).1 (by decide))
      (not_feed_digits _)
  · simp

theorem not_feed_real (s : Bytes) : Ascii.lineFeed ∉ s.take (realLength s) := by
  unfold realLength
  split_ifs with based
  · obtain ⟨zero, base⟩ := Bool.and_eq_true_iff.1 based
    exact not_feed_append
      (not_feed_append (m := 1) (n := 1) (not_feed_byte zero (by decide))
        (not_feed_byte base (by decide))) (not_feed_run _ (by decide))
  · exact not_feed_append (not_feed_append (not_feed_digits s) (not_feed_fraction _))
      (not_feed_exponent _)

theorem not_feed_number (s : Bytes) : Ascii.lineFeed ∉ s.take (numberLength s) := by
  unfold numberLength
  split_ifs with mark
  · exact not_feed_append (not_feed_real s) (not_feed_byte mark (by decide))
  · exact not_feed_real s

end Numbers

theorem lexeme_last {s s' : State} {t : Token} (h : lexeme s = .ok (t, s')) :
    t.text.getLast? ≠ some Ascii.lineFeed := by
  have inner {text : Bytes} (none : Ascii.lineFeed ∉ text) :
      text.getLast? ≠ some Ascii.lineFeed := fun last => none (List.mem_of_getLast? last)
  cases lexeme_cases h with
  | @string n _ found length =>
    obtain ⟨m, rfl, last⟩ := quotedLength_last length
    obtain ⟨quote, first, isQuote⟩ := Option.any_eq_true _ _ |>.1 (stringPrefix?_quote found)
    have last : s.rest[n + m]? = some quote := by simpa [first] using last
    have taken : (s.rest.take (n + m + 1)).getLast? = some quote := by
      rw [List.getLast?_take, if_neg (by omega), Nat.add_sub_cancel, last, Option.some_or]
    intro feed
    obtain rfl : quote = Ascii.lineFeed := Option.some.inj (taken.symm.trans feed)
    exact absurd isQuote (by decide)
  | word => exact inner (not_feed_run _ (by decide))
  | number => exact inner (not_feed_number _)
  | operator found =>
    have plain : ∀ o ∈ operators, Ascii.lineFeed ∉ o := by decide
    refine inner ?_
    change Ascii.lineFeed ∉ s.rest.take _
    rw [take_operator found]
    exact plain _ (List.mem_of_find?_eq_some found)

theorem lineCount_append {s : Bytes} (nonempty : s ≠ [])
    (last : s.getLast? ≠ some Ascii.lineFeed) (rest : Bytes) :
    s.count Ascii.lineFeed + 1 ≤ Bytes.lineCount (s ++ rest) := by
  unfold Bytes.lineCount
  rw [List.count_append, List.getLast?_append]
  cases found : rest.getLast? with
  | none =>
    obtain ⟨b, found⟩ := Option.ne_none_iff_exists'.1 (mt List.getLast?_eq_none_iff.1 nonempty)
    have other : b ≠ Ascii.lineFeed := fun same => last (found.trans (congrArg some same))
    simp only [found, Option.none_or, if_neg other]
    omega
  | some b =>
    by_cases feed : b = Ascii.lineFeed
    · have : 0 < rest.count Ascii.lineFeed :=
        List.count_pos_iff.2 (feed ▸ List.mem_of_getLast? found)
      simp only [Option.some_or, if_pos feed]
      omega
    · simp only [Option.some_or, if_neg feed]
      omega

theorem Covers.ends {before rest : Bytes} {ts : List Token} (h : Covers before rest ts)
    (last : ∀ t ∈ ts, t.text.getLast? ≠ some Ascii.lineFeed) :
    ∀ t ∈ ts, t.endLine ≤ Bytes.lineCount (before ++ rest) := by
  induction h with
  | last => exact nofun
  | @token before gap rest t ts _ text stands _ ih =>
    rw [List.forall_mem_cons] at last
    refine List.forall_mem_cons.2 ⟨?_, by simpa using ih last.2⟩
    obtain ⟨b, found⟩ := Option.ne_none_iff_exists'.1 (mt List.getLast?_eq_none_iff.1 text)
    have count := lineCount_append (s := before ++ gap ++ t.text) (by simp [text])
      (by rw [List.getLast?_append, found, Option.some_or, ← found]; exact last.1) rest
    rw [List.count_append] at count
    rw [stands.endLine, stands.line, ← List.append_assoc gap, ← List.append_assoc,
      ← List.append_assoc]
    omega

theorem State.Takes.line_le {s s' : State} {taken : Bytes} (h : s.Takes taken s') :
    s.position.line ≤ s'.position.line := by
  rw [h.position, Position.after_line]
  omega

theorem lined_layout {s : State} {ts : List Token} {b : Int} (le : s.position.line ≤ b)
    (h : ∀ t ∈ ts, ∃ kind column, t = s.layout kind column) : Lined s.position.line ts b := by
  induction ts with
  | nil => exact .nil le
  | cons t ts ih =>
    rw [List.forall_mem_cons] at h
    obtain ⟨kind, column, rfl⟩ := h.1
    exact .cons (Int.le_refl _) (Int.le_refl _) (ih h.2)

theorem State.LineStep.lined {s s' : State} {new : List Token} (h : s.LineStep new s') :
    Lined s.position.line new s'.position.line := by
  cases h with
  | gap => exact .nil (State.Takes.skip s _).line_le
  | lineEnd =>
    refine lined_layout (State.Takes.skip s 1).line_le fun t mem => ?_
    exact ⟨_, _, List.mem_singleton.1 mem⟩
  | lexeme rest lexed =>
    have lexes := lexeme_lexes rest lexed
    have le := lexes.takes.line_le
    refine .cons (by rw [lexes.position]) ?_ (.nil (by rw [lexes.endLine]))
    rw [lexes.position, lexes.endLine]
    exact le

theorem State.Indents.lined {s s' : State} {width : Nat} {new : List Token}
    (h : s.Indents width new s') : Lined s.position.line new s'.position.line := by
  refine lined_layout (by rw [h.still.2.1]) fun t mem => ?_
  obtain ⟨kind, -, same⟩ := h.layout t mem
  exact ⟨kind, 1, same⟩

theorem State.Steps.lined {s s' : State} {new : List Token} (h : s.Steps new s') :
    Lined s.position.line new s'.position.line := by
  cases h with
  | within _ line => exact line.lined
  | start _ _ start =>
    cases start with
    | blank => exact .nil (State.Takes.skip s _).line_le
    | line _ indents line =>
      exact (indents.lined.append line.lined).anti (State.Takes.skip s _).line_le

theorem scan_lined {bound : Nat} {s s' : State} {tokens tokens' : List Token} {a : Int}
    (before : Lined a tokens.reverse s.position.line)
    (h : scan bound tokens s = .ok (tokens', s')) : Lined a tokens'.reverse s'.position.line := by
  refine scan_keeps (I := fun tokens s => Lined a tokens.reverse s.position.line)
    (fun before steps => ?_) before h
  rw [List.reverse_append, List.reverse_reverse]
  exact before.append steps.lined

theorem closing_lined {tokens final : List Token} {s : State} (h : closing tokens s = .ok final) :
    Lined s.position.line final s.position.line := by
  obtain ⟨-, lineEnd, newline, rfl⟩ := closing_cases h
  refine lined_layout (Int.le_refl _) fun t mem => ?_
  simp only [List.mem_append, List.mem_map, List.mem_singleton] at mem
  rcases mem with (line | ⟨-, -, rfl⟩) | rfl
  · exact ⟨_, _, newline t line⟩
  · exact ⟨_, _, rfl⟩
  · exact ⟨_, _, rfl⟩

theorem tokenize_lined {source : Bytes} {tokens : List Token} (h : tokenize source = .ok tokens) :
    ∃ last, Lined 1 tokens last := by
  obtain ⟨read, s, final, scanned, closed, rfl⟩ := tokenize_cases h
  exact ⟨_, (scan_lined (.nil (Int.le_refl 1)) scanned).append (closing_lined closed)⟩

theorem tokenize_ends {source : Bytes} {tokens : List Token} (h : tokenize source = .ok tokens)
    {t : Token} (mem : t ∈ tokens) (text : t.isLayout = false) : t.endLine ≤ source.lineCount := by
  have last : ∀ u ∈ tokens.filter (!·.isLayout), u.text.getLast? ≠ some Ascii.lineFeed := by
    intro u mem
    obtain ⟨mem, text⟩ := List.mem_filter.1 mem
    obtain ⟨inside, marker, rfl, isMarker, inner⟩ := tokenize_inner h
    rcases List.mem_append.1 mem with mem | mem
    · obtain ⟨s, s', lexed⟩ := (inner u mem).lexed (by simpa using text)
      exact lexeme_last lexed
    · rw [List.mem_singleton.1 mem, Token.isLayout, isMarker] at text
      cases text
  exact (tokenize_covers h).ends last t (List.mem_filter.2 ⟨mem, by rw [text]; rfl⟩)

end Lexer

end CodeSmell
