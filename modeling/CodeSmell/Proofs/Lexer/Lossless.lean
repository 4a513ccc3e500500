import CodeSmell.Proofs.Lexer.Step

/-!
Lexing loses nothing: a source text is its gaps and the texts of its tokens in turn, and every token
stands where the text before it ends. The steps are related to the text first, by `Covers`, which
reads the text from the front; `tokenize_lossless` states the whole decomposition at once.
-/

namespace CodeSmell

def Bytes.lastLine (s : Bytes) : Bytes := (s.reverse.takeWhile (· != Ascii.lineFeed)).reverse

theorem Position.after_start (s : Bytes) :
    ({} : Position).after s = ⟨1 + s.count Ascii.lineFeed, 1 + s.lastLine.length⟩ := by
  induction s using List.reverseRecOn with
  | nil => rfl
  | append_singleton s b ih =>
    rw [Position.after_append, ih]
    by_cases feed : b = Ascii.lineFeed
    · subst feed
      simp [Position.next, Bytes.lastLine, List.count_append]
      omega
    · simp [Position.next, Bytes.lastLine, List.count_append, feed]
      omega

theorem Position.after_line (p : Position) (s : Bytes) :
    (p.after s).line = p.line + s.count Ascii.lineFeed := by
  induction s generalizing p with
  | nil => simp
  | cons b rest ih =>
    rw [Position.after_cons, ih, Position.next]
    by_cases feed : b = Ascii.lineFeed
    · simp [feed]
      omega
    · simp [feed]

structure Token.StandsAfter (t : Token) (before : Bytes) : Prop where
  line : t.position.line = 1 + before.count Ascii.lineFeed
  column : t.position.column = 1 + before.lastLine.length
  endLine : t.endLine = t.position.line + t.text.count Ascii.lineFeed

namespace Lexer

/-- Behind the text `before`, `rest` is made up of gaps and the texts of the tokens in turn. -/
inductive Covers : (before rest : Bytes) → List Token → Prop where
  | last {before gap : Bytes} : Gap [] gap → Covers before gap []
  | token {before gap rest : Bytes} {t : Token} {ts : List Token} : Gap (t.text ++ rest) gap →
      t.text ≠ [] → t.StandsAfter (before ++ gap) → Covers (before ++ gap ++ t.text) rest ts →
      Covers before (gap ++ (t.text ++ rest)) (t :: ts)

theorem Covers.after_gap {before gap rest : Bytes} {ts : List Token} (h : Gap rest gap)
    (covers : Covers (before ++ gap) rest ts) : Covers before (gap ++ rest) ts := by
  cases covers with
  | last end_ =>
    rw [← List.append_nil rest] at h
    exact .last (h.append end_)
  | token gap' text stands covers =>
    rw [← List.append_assoc]
    refine .token (h.append gap') text ?_ ?_
    · rwa [← List.append_assoc]
    · rwa [← List.append_assoc before]

theorem State.Lexes.standsAfter {s s' : State} {t : Token} {before : Bytes} (h : s.Lexes t s')
    (position : s.position = ({} : Position).after before) : t.StandsAfter before where
  line := by rw [h.position, position, Position.after_start]
  column := by rw [h.position, position, Position.after_start]
  endLine := by rw [h.endLine, h.takes.position, Position.after_line, h.position]

theorem scan_covers {bound : Nat} {s s' : State} {tokens tokens' : List Token} (before : Bytes)
    (enough : s.rest.length ≤ bound) (position : s.position = ({} : Position).after before)
    (h : scan bound tokens s = .ok (tokens', s')) :
    ∃ new : List Token, tokens' = new.reverse ++ tokens ∧ Covers before s.rest (new.filter (!·.isLayout)) := by
  induction bound generalizing s tokens before with
  | zero =>
    obtain ⟨rfl, rfl⟩ := Prod.mk.inj (Except.ok.inj h)
    rw [List.length_eq_zero_iff.1 (Nat.le_zero.1 enough)]
    exact ⟨[], rfl, .last .nil⟩
  | succ bound ih =>
    unfold scan at h
    split_ifs at h with empty
    · obtain ⟨rfl, rfl⟩ := Prod.mk.inj (Except.ok.inj h)
      rw [List.isEmpty_iff.1 empty]
      exact ⟨[], rfl, .last .nil⟩
    split at h
    · cases h
    next new s₁ stepped =>
    have reads := (step_cases (fun nil => empty (List.isEmpty_iff.2 nil)) stepped).reads
    have shorter := reads.length_lt
    have rest (before : Bytes) (position : s₁.position = ({} : Position).after before) :=
      ih before (by omega) position h
    cases reads with
    | gap takes _ gap silent =>
      obtain ⟨later, rfl, covers⟩ := rest _ (by rw [takes.position, position, ← Position.after_append])
      refine ⟨new ++ later, by simp, ?_⟩
      rw [List.filter_append, silent, List.nil_append, takes.rest]
      exact covers.after_gap gap
    | @token g s₂ _ t takes gap lexes one =>
      have position₂ : s₂.position = ({} : Position).after (before ++ g) := by
        rw [takes.position, position, Position.after_append]
      obtain ⟨later, rfl, covers⟩ :=
        rest _ (by rw [lexes.takes.position, position₂, ← Position.after_append])
      refine ⟨new ++ later, by simp, ?_⟩
      rw [List.filter_append, one, takes.rest, lexes.takes.rest]
      exact .token (lexes.takes.rest ▸ gap) lexes.text (lexes.standsAfter position₂) covers

theorem closing_layout {tokens final : List Token} {s : State} (h : closing tokens s = .ok final) :
    final.filter (!·.isLayout) = [] := by
  obtain ⟨-, lineEnd, newline, rfl⟩ := closing_cases h
  refine List.filter_eq_nil_iff.2 fun t mem => ?_
  simp only [List.mem_append, List.mem_map, List.mem_singleton] at mem
  rcases mem with (line | ⟨-, -, rfl⟩) | rfl
  · rw [newline t line]
    exact Bool.false_ne_true
  all_goals exact Bool.false_ne_true

theorem tokenize_covers {source : Bytes} {tokens : List Token} (h : tokenize source = .ok tokens) :
    Covers [] source (tokens.filter (!·.isLayout)) := by
  obtain ⟨read, s, final, scanned, closed, rfl⟩ := tokenize_cases h
  obtain ⟨new, rfl, covers⟩ := scan_covers [] (Nat.le_refl source.length) rfl scanned
  simpa [closing_layout closed] using covers

def written (pieces : List (Bytes × Token)) : Bytes := pieces.flatMap fun (gap, t) => gap ++ t.text

theorem Covers.pieces {before rest : Bytes} {ts : List Token} (h : Covers before rest ts) :
    ∃ (pieces : List (Bytes × Token)) (last : Bytes), pieces.map Prod.snd = ts ∧ rest = written pieces ++ last ∧ Gap [] last ∧
      ∀ front gap t back, pieces = front ++ (gap, t) :: back →
        Gap (t.text ++ written back ++ last) gap ∧ t.StandsAfter (before ++ written front ++ gap) := by
  induction h with
  | last gap => exact ⟨[], _, rfl, rfl, gap, fun front _ _ _ h => by simp at h⟩
  | @token before gap rest t ts here _ stands _ ih =>
    obtain ⟨pieces, last, rfl, rfl, end_, each⟩ := ih
    refine ⟨(gap, t) :: pieces, last, rfl, by simp [written], end_, ?_⟩
    intro front gap' t' back eq
    cases front with
    | nil =>
      obtain ⟨⟨rfl, rfl⟩, rfl⟩ := by simpa using eq
      exact ⟨by rwa [List.append_assoc], by simpa [written] using stands⟩
    | cons first front =>
      obtain ⟨rfl, rfl⟩ := List.cons.inj eq
      have ⟨gap_, stands_⟩ := each front gap' t' back rfl
      exact ⟨gap_, by simpa [written] using stands_⟩

/-- A source text is gap, text, gap, text, ..., gap with the texts of its tokens, which stand where
the text before them ends. -/
theorem tokenize_lossless {source : Bytes} {tokens : List Token}
    (h : tokenize source = .ok tokens) :
    ∃ (pieces : List (Bytes × Token)) (last : Bytes), pieces.map Prod.snd = tokens.filter (!·.isLayout) ∧
      source = written pieces ++ last ∧ Gap [] last ∧
      ∀ front gap t back, pieces = front ++ (gap, t) :: back →
        Gap (t.text ++ written back ++ last) gap ∧ t.StandsAfter (written front ++ gap) := by
  simpa using (tokenize_covers h).pieces

theorem tokenize_lossless_continued_line :
    ∃ tokens, tokenize "if x:  # y\r\n\ta \\\n+ '''\n'''" = .ok tokens ∧
      ∃ (pieces : List (Bytes × Token)) (last : Bytes),
        pieces.map Prod.snd = tokens.filter (!·.isLayout) ∧
        ("if x:  # y\r\n\ta \\\n+ '''\n'''" : Bytes) = written pieces ++ last ∧ Gap [] last ∧
        ∀ front gap t back, pieces = front ++ (gap, t) :: back →
          Gap (t.text ++ written back ++ last) gap ∧ t.StandsAfter (written front ++ gap) := by
  obtain ⟨tokens, h⟩ : ∃ tokens, tokenize "if x:  # y\r\n\ta \\\n+ '''\n'''" = .ok tokens := ⟨_, rfl⟩
  exact ⟨tokens, h, tokenize_lossless h⟩

end Lexer

end CodeSmell
