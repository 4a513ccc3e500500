import CodeSmell.Proofs.Lexer.LastLine

/-!
Neighbours of layout tokens. A line end stands behind text and an indentation before text, unless the
text of the source has a hollow line: one that begins with a continuation, and has nothing behind it
but blanks, comments and more continuations. Such a line is not blank to the lexer, and what it gives
is a line end without a line.
-/

namespace CodeSmell.Lexer

/-! ## Neighbours -/

structure LinesHaveText (ts : List Token) : Prop where
  first : ∀ t ∈ ts.head?, t.kind ≠ .newline
  behind : ts.IsChain fun u t => t.kind = .newline → u.isLayout = false

def IndentsBeginLines (ts : List Token) : Prop :=
  ts.IsChain fun u t => t.kind = .indent → u.kind = .newline

structure IndentsHaveText (ts : List Token) : Prop where
  last : ∀ t ∈ ts.getLast?, t.kind ≠ .indent
  before : ts.IsChain fun u t => u.kind = .indent → t.isLayout = false

instance : DecidablePred LinesHaveText := fun _ =>
  decidable_of_iff (_ ∧ _) ⟨fun h => ⟨h.1, h.2⟩, fun h => ⟨h.1, h.2⟩⟩

instance : DecidablePred IndentsHaveText := fun _ =>
  decidable_of_iff (_ ∧ _) ⟨fun h => ⟨h.1, h.2⟩, fun h => ⟨h.1, h.2⟩⟩

/-- What is read so far is in order. The last token may be an indentation. -/
structure Neat (ts : List Token) : Prop where
  lines : LinesHaveText ts
  indents : ts.IsChain fun u t => u.kind = .indent → t.isLayout = false

section Neighbours

variable {ts us : List Token} {t : Token}

theorem isChain_concat {R : Token → Token → Prop} :
    (ts ++ [t]).IsChain R ↔ ts.IsChain R ∧ ∀ u ∈ ts.getLast?, R u t := by
  simp [List.isChain_append]

theorem Neat.nil : Neat [] := ⟨⟨nofun, .nil⟩, .nil⟩

theorem Neat.concat (h : Neat ts)
    (line : t.kind = .newline → ∃ u ∈ ts.getLast?, u.isLayout = false)
    (indent : ∀ u ∈ ts.getLast?, u.kind = .indent → t.isLayout = false) : Neat (ts ++ [t]) := by
  refine ⟨⟨?_, isChain_concat.2 ⟨h.lines.behind, ?_⟩⟩, isChain_concat.2 ⟨h.indents, indent⟩⟩
  · cases ts with
    | nil =>
      rintro u mem isLine
      obtain rfl : t = u := by simpa using mem
      obtain ⟨v, mem, -⟩ := line isLine
      cases mem
    | cons v ts => exact h.lines.first
  · intro u mem isLine
    obtain ⟨v, mem', text⟩ := line isLine
    rwa [Option.mem_unique mem mem']

theorem Neat.text (h : Neat ts) (text : t.isLayout = false) : Neat (ts ++ [t]) := by
  apply h.concat
  · intro isLine
    rw [Token.isLayout, isLine] at text
    cases text
  · exact fun _ _ _ => text

theorem Neat.lineEnd {u : Token} (h : Neat ts) (last : ts.getLast? = some u)
    (text : u.isLayout = false) : Neat (ts ++ [t]) := by
  apply h.concat
  · exact fun _ => ⟨u, last, text⟩
  · intro v mem isIndent
    rw [Option.mem_unique mem last] at isIndent
    rw [Token.isLayout, isIndent] at text
    cases text

theorem Neat.layout (h : Neat ts) (last : ∀ t ∈ ts.getLast?, t.kind ≠ .indent)
    (other : ∀ t ∈ us, t.kind = .dedent ∨ t.kind = .endMarker) : Neat (ts ++ us) := by
  induction us using List.reverseRecOn with
  | nil => rwa [List.append_nil]
  | append_singleton us u ih =>
    have outer : ∀ t ∈ us, t.kind = .dedent ∨ t.kind = .endMarker :=
      fun t mem => other t (List.mem_append_left _ mem)
    rw [← List.append_assoc]
    apply (ih outer).concat
    · intro isLine
      rcases other u (by simp) with kind | kind <;> simp [kind] at isLine
    · intro t mem isIndent
      rw [List.getLast?_append] at mem
      cases found : us.getLast? with
      | none =>
        rw [found, Option.none_or] at mem
        exact absurd isIndent (last t mem)
      | some v =>
        rw [found, Option.some_or] at mem
        rcases outer v (List.mem_of_getLast? found) with kind | kind <;>
          simp [← Option.some.inj mem, kind] at isIndent

theorem IndentsBeginLines.append (h : IndentsBeginLines ts) (other : ∀ t ∈ us, t.kind ≠ .indent) :
    IndentsBeginLines (ts ++ us) := by
  apply List.isChain_append.2
  refine ⟨h, ?_, fun u _ t mem isIndent => absurd isIndent (other t (List.mem_of_mem_head? mem))⟩
  apply List.Pairwise.isChain
  exact List.pairwise_of_forall_mem_list fun u _ t mem isIndent => absurd isIndent (other t mem)

end Neighbours

/-! ## Fillers -/

/-- A gap within a line outside brackets, where `after` is the text behind it. -/
inductive Filler (after : Bytes) : Bytes → Prop where
  | nil : Filler after []
  | space {b : UInt8} {gap : Bytes} : (isBlank b || b == Ascii.carriageReturn) = true →
      Filler after gap → Filler after (b :: gap)
  | continuation {gap : Bytes} : Filler after gap →
      Filler after ('\\'.toUInt8 :: Ascii.lineFeed :: gap)
  | continuationReturn {gap : Bytes} : Filler after gap →
      Filler after ('\\'.toUInt8 :: Ascii.carriageReturn :: Ascii.lineFeed :: gap)
  | comment {text gap : Bytes} : Ascii.lineFeed ∉ text →
      (gap ++ after).head?.all (· == Ascii.lineFeed) → Filler after gap →
      Filler after ('#'.toUInt8 :: text ++ gap)

theorem Filler.append {after g₁ g₂ : Bytes} (h₁ : Filler (g₂ ++ after) g₁) (h₂ : Filler after g₂) :
    Filler after (g₁ ++ g₂) := by
  induction h₁ with
  | nil => exact h₂
  | space blank _ ih => exact .space blank ih
  | continuation _ ih => exact .continuation ih
  | continuationReturn _ ih => exact .continuationReturn ih
  | @comment text gap inside ended _ ih =>
    rw [List.append_assoc]
    exact .comment inside (by rwa [List.append_assoc]) ih

theorem Filler.continues {after gap line : Bytes} {b : UInt8} (h : Filler after gap)
    (eq : b :: line = gap ++ after) (starts : startsLine b = true)
    (ended : after.head?.all (· == Ascii.lineFeed)) : gap.head? = some '\\'.toUInt8 := by
  cases h with
  | continuation | continuationReturn => rfl
  | nil =>
    rw [← List.nil_append after, ← eq] at ended
    obtain rfl : b = Ascii.lineFeed := by simpa using ended
    exact absurd starts (by decide)
  | space blank =>
    obtain ⟨rfl, -⟩ := List.cons.inj eq
    simp_all [startsLine]
  | comment =>
    obtain ⟨rfl, -⟩ := List.cons.inj eq
    exact absurd starts (by decide)

structure State.AtLine (s : State) : Prop where
  start : s.atLineStart = true
  outside : s.brackets = []

/-- The line that begins here has a continuation and no text, and it is told apart from a blank line
by its end or by its indentation. -/
structure State.HollowLine (s : State) : Prop where
  atLine : s.AtLine
  hollow : ∃ blanks gap after, s.rest = blanks ++ (gap ++ after) ∧ (∀ b ∈ blanks, isBlank b = true) ∧
    gap.head? = some '\\'.toUInt8 ∧ Filler after gap ∧
    (after.head? = some Ascii.lineFeed ∨ after = [] ∧ indentWidth blanks ≠ s.indent)

/-! ## Steps -/

theorem commentLength_append {text rest : Bytes} (inside : Ascii.lineFeed ∉ text)
    (ended : rest.head?.all (· == Ascii.lineFeed)) : commentLength (text ++ rest) = text.length := by
  have all : ∀ b ∈ text, (b != Ascii.lineFeed) = true :=
    fun b mem => bne_iff_ne.2 fun same => inside (same ▸ mem)
  cases rest with
  | nil => rw [List.append_nil, commentLength, runLength, List.takeWhile_eq_self_iff.2 all]
  | cons b rest => exact runLength_until all (by simpa using ended) rest

theorem comment_filler (tail : Bytes) :
    Filler (('#'.toUInt8 :: tail).drop (commentLength ('#'.toUInt8 :: tail)))
      (('#'.toUInt8 :: tail).take (commentLength ('#'.toUInt8 :: tail))) := by
  obtain ⟨text, inside, taken, ended⟩ := comment_text tail
  rw [taken, ← List.append_nil ('#'.toUInt8 :: text)]
  exact .comment inside ended .nil

theorem continuation_filler {tail : Bytes} {n : Nat}
    (found : continuationLength? ('\\'.toUInt8 :: tail) = some n) :
    Filler (('\\'.toUInt8 :: tail).drop n) (('\\'.toUInt8 :: tail).take n) := by
  rcases continuationLength?_cases found with ⟨rest, rfl, rfl⟩ | ⟨rest, rfl, rfl⟩
  · exact .continuation .nil
  · exact .continuationReturn .nil

section Steps

variable {s s' : State} {new : List Token} {source after gap rest : Bytes} {b : UInt8}

theorem lineStep_filler (outside : s.brackets = []) (some : s.rest ≠ [])
    (h : lineStep s = .ok ([], s')) :
    ∃ gap, s.rest = gap ++ s'.rest ∧ Filler s'.rest gap ∧ s'.brackets = [] ∧
      s'.atLineStart = s.atLineStart := by
  obtain ⟨b, tail, eq⟩ := List.exists_cons_of_ne_nil some
  obtain ⟨n, rfl, passed⟩ := lineStep_silent outside eq h
  refine ⟨_, (List.take_append_drop n s.rest).symm, ?_, outside, rfl⟩
  change Filler (s.rest.drop n) (s.rest.take n)
  rw [eq]
  rcases passed with ⟨blank, rfl⟩ | ⟨rfl, rfl⟩ | ⟨rfl, found⟩
  · exact .space blank .nil
  · exact comment_filler tail
  · exact continuation_filler found

theorem step_within (within : s.atLineStart = false) : step s = lineStep s :=
  step_eq_lineStep fun both => Bool.false_ne_true (within.symm.trans both.1)

theorem lineStep_space (eq : s.rest = b :: rest)
    (blank : (isBlank b || b == Ascii.carriageReturn) = true) : lineStep s = .ok ([], s.skip 1) := by
  unfold lineStep
  simp only [eq]
  rw [if_pos blank]

theorem lineStep_continuation {n : Nat} (eq : s.rest = '\\'.toUInt8 :: rest)
    (found : continuationLength? s.rest = some n) : lineStep s = .ok ([], s.skip n) := by
  rw [eq] at found
  unfold lineStep
  simp only [eq]
  rw [if_neg (by decide), if_neg (by decide), if_neg (by decide), if_pos (by decide), found]

theorem Filler.runs (filler : Filler after gap) (eq : s.rest = gap ++ after)
    (within : s.atLineStart = false) (outside : s.brackets = []) :
    ∃ s', Runs s [] s' ∧ s'.rest = after ∧ s'.atLineStart = false ∧ s'.brackets = [] := by
  induction filler generalizing s with
  | nil => exact ⟨s, .refl s, eq, within, outside⟩
  | @space b gap blank _ ih =>
    obtain ⟨s', runs, result⟩ := ih (s := s.skip 1) (by simp [State.skip, eq]) within outside
    have first := (step_within within).trans (lineStep_space eq blank)
    exact ⟨s', .next (by simp [eq]) first runs, result⟩
  | @continuation gap _ ih =>
    obtain ⟨s', runs, result⟩ := ih (s := s.skip 2) (by simp [State.skip, eq]) within outside
    have first := (step_within within).trans (lineStep_continuation eq (n := 2) (by rw [eq]; rfl))
    exact ⟨s', .next (by simp [eq]) first runs, result⟩
  | @continuationReturn gap _ ih =>
    obtain ⟨s', runs, result⟩ := ih (s := s.skip 3) (by simp [State.skip, eq]) within outside
    have first := (step_within within).trans (lineStep_continuation eq (n := 3) (by rw [eq]; rfl))
    exact ⟨s', .next (by simp [eq]) first runs, result⟩
  | @comment text gap inside ended _ ih =>
    rw [List.append_assoc] at eq
    have mark : Ascii.lineFeed ∉ '#'.toUInt8 :: text := by
      simp only [List.mem_cons, not_or]
      exact ⟨by decide, inside⟩
    have length := commentLength_append mark ended
    have behind := State.skip_append eq
    obtain ⟨s', runs, result⟩ := ih (s := s.skip ('#'.toUInt8 :: text).length)
      (by rw [behind]) within outside
    have first := step_comment eq
    rw [eq, length] at first
    exact ⟨s', .next (by simp [eq]) first runs, result⟩

/-! ## Indentations -/

theorem State.Indents.eq_nil_iff {width : Nat} (h : s.Indents width new s') :
    new = [] ↔ width = s.indent := by
  cases h with
  | indent deeper => simp only [List.cons_ne_nil, false_iff]; omega
  | dedents known =>
    rw [List.map_eq_nil_iff]
    unfold State.indent
    cases indents : s.indents with
    | nil => simpa [indents, eq_comm] using known
    | cons a outer =>
      by_cases closes : width < a
      · simp [closes]; omega
      · simpa [indents, closes, eq_comm] using known

end Steps

/-! ## Runs -/

def NoHollowLine (source : Bytes) : Prop :=
  ∀ before s, Runs { rest := source } before s → ¬s.HollowLine

/-- The line began at `u`, and what the lexer has gone past since then is no text. -/
inductive Opened (source : Bytes) : List Token → State → Prop where
  | intro {before layout : List Token} {u s : State} {blanks gap line : Bytes} {b : UInt8} :
      Runs { rest := source } before u → u.AtLine → LineEnded before.reverse →
      (∀ b ∈ blanks, isBlank b = true) → startsLine b = true → u.rest = blanks ++ b :: line →
      b :: line = gap ++ s.rest → Filler s.rest gap →
      (layout = [] ↔ indentWidth blanks = u.indent) → (∀ t ∈ layout, t.isLayout = true) →
      Opened source (before ++ layout) s

/-- Where in a line the lexer is, by the last token. -/
inductive Phase (source : Bytes) (before : List Token) (s : State) : Prop where
  | start : s.AtLine → LineEnded before.reverse → Phase source before s
  | text {t : Token} : s.atLineStart = false → before.getLast? = some t → t.isLayout = false →
      Phase source before s
  | opened : s.atLineStart = false → s.brackets = [] → Opened source before s →
      Phase source before s

structure Marks (source : Bytes) (before : List Token) (s : State) : Prop where
  phase : Phase source before s
  indents : IndentsBeginLines before
  neat : NoHollowLine source → Neat before

section Runs

variable {source : Bytes} {before new : List Token} {s s' : State}

theorem Opened.hollow (h : Opened source before s) (none : NoHollowLine source)
    (ended : s.rest.head? = some Ascii.lineFeed ∨ s.rest = [] ∧ ¬LineEnded before.reverse) :
    False := by
  cases h with
  | @intro before layout u s blanks gap line b runs atLine lineEnded blank starts rest eq filler
      layoutless layout =>
    apply none before u runs
    refine ⟨atLine, blanks, gap, s.rest, by rw [rest, eq], blank, ?_, filler, ?_⟩
    · apply filler.continues eq starts
      rcases ended with feed | ⟨nil, -⟩
      · simp [feed]
      · simp [nil]
    · apply ended.imp_right
      rintro ⟨nil, unended⟩
      refine ⟨nil, fun same => unended ?_⟩
      rwa [layoutless.2 same, List.append_nil]

theorem Marks.text {t : Token} (h : Marks source before s) (text : t.isLayout = false)
    (within : s'.atLineStart = false) : Marks source (before ++ [t]) s' where
  phase := .text within (List.getLast?_concat ..) text
  indents := by
    apply h.indents.append
    rintro u mem isIndent
    rw [List.mem_singleton.1 mem] at isIndent
    rw [Token.isLayout, isIndent] at text
    cases text
  neat none := (h.neat none).text text

theorem Marks.lineEnd {rest : Bytes} {t : Token} (h : Marks source before s)
    (feed : s.rest = Ascii.lineFeed :: rest) (within : s.atLineStart = false)
    (kind : t.kind = .newline) (atLine : s'.AtLine) : Marks source (before ++ [t]) s' where
  phase := by
    apply Phase.start atLine
    intro u mem
    rw [List.reverse_concat] at mem
    rwa [← Option.some.inj mem]
  indents := by
    apply h.indents.append
    intro u mem
    rw [List.mem_singleton.1 mem, kind]
    decide
  neat none := by
    cases h.phase with
    | start atLine => exact absurd (within.symm.trans atLine.start) (by decide)
    | opened _ _ opened => exact (opened.hollow none (.inl (by rw [feed]; rfl))).elim
    | text _ last text => exact (h.neat none).lineEnd last text

theorem Marks.lineStep (h : Marks source before s) (some : s.rest ≠ [])
    (within : s.atLineStart = false) (stepped : Lexer.lineStep s = .ok (new, s')) :
    Marks source (before ++ new) s' := by
  cases lineStep_cases some stepped with
  | lineEnd feed outside => exact h.lineEnd feed within rfl ⟨rfl, outside⟩
  | lexeme _ lexed =>
    exact h.text (lexeme_lexes some lexed).kind ((lexeme_atLineStart lexed).trans within)
  | @gap n =>
    rw [List.append_nil]
    refine ⟨?_, h.indents, h.neat⟩
    cases h.phase with
    | start atLine => exact absurd (within.symm.trans atLine.start) (by decide)
    | text _ last text => exact .text within last text
    | opened _ outside opened =>
      apply Phase.opened (s := s.skip n) within outside
      obtain ⟨gap', rest, filler', -⟩ := lineStep_filler outside some stepped
      cases opened with
      | intro runs atLine ended blank starts eq split filler layoutless layout =>
        rw [rest] at filler split
        rw [← List.append_assoc] at split
        exact .intro runs atLine ended blank starts eq split (filler.append filler') layoutless layout

theorem Marks.indentation {layout : List Token} {blanks line : Bytes} {b : UInt8}
    (h : Marks source before s) (runs : Runs { rest := source } before s) (atLine : s.AtLine)
    (ended : LineEnded before.reverse) (blank : ∀ b ∈ blanks, isBlank b = true)
    (starts : startsLine b = true) (eq : s.rest = blanks ++ b :: line)
    (indents : (s.skip blanks.length).Indents (indentWidth blanks) layout s') :
    Marks source (before ++ layout) s' := by
  obtain ⟨rest, -, outside, within⟩ := indents.still
  have lineEnd : ∀ u ∈ before.getLast?, u.kind = .newline := by
    intro u mem
    apply ended u
    rwa [List.head?_reverse]
  refine ⟨.opened within (outside.trans atLine.outside) ?_, ?_, fun none => ?_⟩
  · apply Opened.intro runs atLine ended blank starts eq _ .nil
    · exact indents.eq_nil_iff
    · intro t mem
      obtain ⟨kind, rfl | rfl, rfl⟩ := indents.layout t mem
      all_goals rfl
    · rw [rest]
      simp [State.skip, eq]
  · cases indents with
    | indent => exact isChain_concat.2 ⟨h.indents, fun u mem _ => lineEnd u mem⟩
    | dedents =>
      apply h.indents.append
      exact List.forall_mem_map.2 fun _ _ => by simp [State.layout]
  · cases indents with
    | indent =>
      apply (h.neat none).concat
      · simp [State.layout]
      · intro u mem isIndent
        rw [lineEnd u mem] at isIndent
        cases isIndent
    | dedents =>
      apply (h.neat none).layout
      · intro u mem
        rw [lineEnd u mem]
        decide
      · exact List.forall_mem_map.2 fun _ _ => .inl rfl

theorem Marks.step (h : Marks source before s) (runs : Runs { rest := source } before s)
    (some : s.rest ≠ []) (stepped : Lexer.step s = .ok (new, s')) :
    Marks source (before ++ new) s' := by
  cases h.phase with
  | text within => exact h.lineStep some within (step_within within ▸ stepped)
  | opened within => exact h.lineStep some within (step_within within ▸ stepped)
  | start atLine ended =>
    rw [step_eq_lineStartStep atLine.start atLine.outside] at stepped
    obtain ⟨rfl, start, outside⟩ | ⟨blanks, b, line, blank, starts, eq⟩ :=
      lineStartStep_split stepped
    · rw [List.append_nil]
      refine ⟨.start ⟨start.trans atLine.start, outside.trans atLine.outside⟩ ended, h.indents, h.neat⟩
    rw [lineStartStep_line blank starts eq] at stepped
    obtain ⟨⟨layout, s₁⟩, indented, stepped⟩ := bind_eq_ok.1 stepped
    obtain ⟨⟨tokens, s₂⟩, line, stepped⟩ := bind_eq_ok.1 stepped
    obtain ⟨rfl, rfl⟩ := Prod.mk.inj (Except.ok.inj stepped)
    rw [← List.append_assoc]
    have indents := indentStep_cases indented
    have opened := h.indentation runs atLine ended blank starts eq indents
    apply opened.lineStep _ indents.still.2.2.2 line
    rw [indents.still.1]
    simp [State.skip, eq]

theorem Marks.run (h : Runs { rest := source } before s) : Marks source before s := by
  have keeps {later : List Token} {u s : State} (rest : Runs u later s) :
      ∀ {before}, Runs { rest := source } before u → Marks source before u →
        Marks source (before ++ later) s := by
    induction rest with
    | refl =>
      intro before _ marks
      rwa [List.append_nil]
    | next some stepped _ ih =>
      intro before runs marks
      rw [← List.append_assoc]
      exact ih (runs.trans (.one some stepped)) (marks.step runs some stepped)
  exact keeps h (.refl _) ⟨.start ⟨rfl, rfl⟩ nofun, .nil, fun _ => .nil⟩

theorem State.ending_layout (s : State) : ∀ t ∈ s.ending, t.kind = .dedent ∨ t.kind = .endMarker := by
  intro t mem
  rcases List.mem_append.1 mem with mem | mem
  · obtain ⟨-, -, rfl⟩ := List.mem_map.1 mem
    exact .inl rfl
  · rw [List.mem_singleton.1 mem]
    exact .inr rfl

theorem Marks.body {ts : List Token} (h : Marks source before s) (rest : s.rest = [])
    (finished : finish before.reverse s = .ok ts) :
    ∃ body, ts = body ++ s.ending ∧ IndentsBeginLines body ∧ (NoHollowLine source → Neat body) ∧
      ∀ t ∈ body.getLast?, t.kind = .newline := by
  have outside := finish_outside rest finished
  by_cases ended : LineEnded before.reverse
  · rw [finish_ended ended rest outside, List.reverse_reverse] at finished
    refine ⟨before, (Except.ok.inj finished).symm, h.indents, h.neat, fun t mem => ended t ?_⟩
    rwa [List.head?_reverse]
  · rw [finish_unended ended rest outside, List.reverse_reverse] at finished
    refine ⟨before ++ [s.layout .newline s.position.column], ?_, ?_, fun none => ?_, ?_⟩
    · rw [List.append_assoc]
      exact (Except.ok.inj finished).symm
    · apply h.indents.append
      simp [State.layout]
    · cases h.phase with
      | start _ lineEnded => exact absurd lineEnded ended
      | opened _ _ opened => exact (opened.hollow none (.inr ⟨rest, ended⟩)).elim
      | text _ last text => exact (h.neat none).lineEnd last text
    · simp [State.layout]

theorem Marks.finish {ts : List Token} (h : Marks source before s) (rest : s.rest = [])
    (finished : Lexer.finish before.reverse s = .ok ts) :
    IndentsBeginLines ts ∧ (NoHollowLine source → LinesHaveText ts ∧ IndentsHaveText ts) := by
  obtain ⟨body, rfl, indents, neat, last⟩ := h.body rest finished
  have layout := s.ending_layout
  constructor
  · apply indents.append
    intro t mem
    rcases layout t mem with kind | kind <;> simp [kind]
  · intro none
    have all : Neat (body ++ s.ending) := by
      apply (neat none).layout _ layout
      intro t mem
      rw [last t mem]
      decide
    refine ⟨all.lines, ⟨?_, all.indents⟩⟩
    simp [State.ending, ← List.append_assoc, State.layout]

/-! ## Hollow lines -/

theorem not_linesHaveText {body later : List Token} {t : Token} (kind : t.kind = .newline)
    (layout : ∀ u ∈ body.getLast?, u.isLayout = true) : ¬LinesHaveText (body ++ t :: later) := by
  intro h
  cases body using List.reverseRecOn with
  | nil => exact h.first t rfl kind
  | append_singleton body u =>
    have behind := h.behind
    rw [List.append_assoc, List.singleton_append] at behind
    have text := (List.isChain_cons_cons.1 (List.isChain_append.1 behind).2.1).1 kind
    rw [layout u (by simp)] at text
    cases text

theorem runs_of_indentation {layout : List Token} {blanks line : Bytes} {b : UInt8} {s₁ : State}
    (atLine : s.AtLine) (blank : ∀ b ∈ blanks, isBlank b = true) (starts : startsLine b = true)
    (eq : s.rest = blanks ++ b :: line)
    (indented : indentStep (s.skip blanks.length) (indentWidth blanks) = .ok (layout, s₁))
    (runs : Runs s₁ [] s') (shorter : s'.rest.length < s₁.rest.length) : Runs s layout s' := by
  have within := (indentStep_cases indented).still.2.2.2
  generalize silent : ([] : List Token) = none at runs
  cases runs with
  | refl => exact absurd shorter (Nat.lt_irrefl _)
  | @next new later _ s₂ _ some stepped more =>
    obtain ⟨rfl, rfl⟩ := List.append_eq_nil_iff.1 silent.symm
    have first : Lexer.step s = .ok (layout ++ [], s₂) := by
      rw [step_eq_lineStartStep atLine.start atLine.outside, lineStartStep_line blank starts eq,
        indented]
      rw [step_within within] at stepped
      simp [stepped, bind, Except.bind]
    have all := Runs.next (by simp [eq]) first more
    rwa [List.append_nil, List.append_nil] at all

section Layout

variable {layout : List Token} (kinds : ∀ u ∈ layout, u.kind = .indent ∨ u.kind = .dedent)

include kinds

theorem isLayout_getLast? (ended : LineEnded before.reverse) :
    ∀ u ∈ (before ++ layout).getLast?, u.isLayout = true := by
  intro u mem
  rw [List.getLast?_append] at mem
  cases last : layout.getLast? with
  | none =>
    rw [last, Option.none_or, ← List.head?_reverse] at mem
    rw [Token.isLayout, ended u mem]
    rfl
  | some v =>
    rw [last, Option.some_or] at mem
    rw [Token.isLayout, ← Option.some.inj mem]
    rcases kinds v (List.mem_of_getLast? last) with kind | kind <;> rw [kind] <;> rfl

theorem not_lineEnded (some : layout ≠ []) : ¬LineEnded (before ++ layout).reverse := by
  intro ended
  have last := List.getLast?_eq_getLast_of_ne_nil some
  have kind := ended (layout.getLast some) (by simp [last])
  rcases kinds _ (List.getLast_mem some) with isIndent | isDedent
  · rw [kind] at isIndent
    cases isIndent
  · rw [kind] at isDedent
    cases isDedent

end Layout

theorem State.HollowLine.runs {ts : List Token} (h : s.HollowLine)
    (lexed : Lexer.finish before.reverse s = .ok ts) :
    ∃ layout s', Runs s layout s' ∧ (∀ u ∈ layout, u.kind = .indent ∨ u.kind = .dedent) ∧
      s'.atLineStart = false ∧ s'.brackets = [] ∧
      (s'.rest.head? = some Ascii.lineFeed ∨ s'.rest = [] ∧ layout ≠ []) := by
  obtain ⟨atLine, blanks, gap, after, rest, blank, mark, filler, ended⟩ := h
  obtain ⟨gap, rfl⟩ := List.head?_eq_some_iff.1 mark
  have starts : startsLine '\\'.toUInt8 = true := by decide
  cases indented : indentStep (s.skip blanks.length) (indentWidth blanks) with
  | error e =>
    have failed : Lexer.step s = .error e := by
      rw [step_eq_lineStartStep atLine.start atLine.outside, lineStartStep_line blank starts rest,
        indented]
      rfl
    rw [finish_error (by simp [rest]) failed] at lexed
    cases lexed
  | ok found =>
    obtain ⟨layout, s₁⟩ := found
    have indents := indentStep_cases indented
    have rest₁ : s₁.rest = '\\'.toUInt8 :: gap ++ after := by
      rw [indents.still.1]
      simp [State.skip, rest]
    obtain ⟨s', silent, rfl, within, outside⟩ := filler.runs rest₁ indents.still.2.2.2
      (indents.still.2.2.1.trans atLine.outside)
    refine ⟨layout, s', ?_, ?_, within, outside, ended.imp_right ?_⟩
    · apply runs_of_indentation atLine blank starts rest indented silent
      simp [rest₁]
    · intro u mem
      obtain ⟨kind, isIndent, rfl⟩ := indents.layout u mem
      exact isIndent
    · rintro ⟨nil, deeper⟩
      exact ⟨nil, fun none => deeper (indents.eq_nil_iff.1 none)⟩

section Ends

variable {ts : List Token} (runs : Runs { rest := source } before s)
  (noText : ∀ u ∈ before.getLast?, u.isLayout = true) (outside : s.brackets = [])
  (lexed : tokenize source = .ok ts)

include runs noText outside lexed

theorem not_linesHaveText_feed {line : Bytes} (feed : s.rest = Ascii.lineFeed :: line)
    (within : s.atLineStart = false) : ¬LinesHaveText ts := by
  have stepped := step_feed feed
  have single : s.lineEnd = [s.layout .newline s.position.column] := by
    simp [State.lineEnd, within, outside]
  rw [single] at stepped
  have all := runs.trans (.one (by simp [feed]) stepped)
  rw [tokenize_eq_finish, all.finish_eq] at lexed
  obtain ⟨new, _, final, -, -, -, rfl⟩ := runs_of_finish lexed
  simp only [List.append_nil, List.reverse_reverse, List.append_assoc, List.singleton_append]
  exact not_linesHaveText rfl noText

theorem not_linesHaveText_end (rest : s.rest = []) (unended : ¬LineEnded before.reverse) :
    ¬LinesHaveText ts := by
  rw [tokenize_eq_finish, runs.finish_eq, List.append_nil, finish_unended unended rest outside,
    List.reverse_reverse] at lexed
  rw [← Except.ok.inj lexed]
  exact not_linesHaveText rfl noText

end Ends

theorem State.HollowLine.not_linesHaveText {ts : List Token} (h : s.HollowLine)
    (runs : Runs { rest := source } before s) (lexed : tokenize source = .ok ts) :
    ¬LinesHaveText ts := by
  have lineEnded : LineEnded before.reverse := by
    cases (Marks.run runs).phase with
    | start _ ended => exact ended
    | text within | opened within =>
      exact absurd (within.symm.trans h.atLine.start) (by decide)
  have finished : Lexer.finish before.reverse s = .ok ts := by
    rw [tokenize_eq_finish, runs.finish_eq, List.append_nil] at lexed
    exact lexed
  obtain ⟨layout, s', silent, kinds, within, outside, ended⟩ := h.runs finished
  have all := runs.trans silent
  have noText := isLayout_getLast? kinds lineEnded
  rcases ended with feed | ⟨rest, some⟩
  · obtain ⟨line, feed⟩ := List.head?_eq_some_iff.1 feed
    exact not_linesHaveText_feed all noText outside lexed feed within
  · exact not_linesHaveText_end all noText outside lexed rest (not_lineEnded kinds some)

/-- Each indentation stands behind a line end. That each line end stands behind text, and text behind
each indentation, holds of the texts without hollow lines and of no others. -/
theorem tokenize_layout_neighbours {tokens : List Token} (h : tokenize source = .ok tokens) :
    IndentsBeginLines tokens ∧ (LinesHaveText tokens ∧ IndentsHaveText tokens ↔
      ∀ before s, Runs { rest := source } before s → ¬s.HollowLine) := by
  have whole := h
  rw [tokenize_eq_finish] at h
  obtain ⟨new, s, final, runs, rest, finished, -⟩ := runs_of_finish h
  rw [List.append_nil] at finished
  obtain ⟨indents, neat⟩ := (Marks.run runs).finish rest finished
  refine ⟨indents, fun both before u runs hollow => ?_, neat⟩
  exact hollow.not_linesHaveText runs whole both.1

theorem tokenize_layout_neighbours_continued : ∃ tokens,
    tokenize "if a: # b\n  \n\t\\\n c + \\\n # d\n" = .ok tokens ∧ IndentsBeginLines tokens ∧
      LinesHaveText tokens ∧ IndentsHaveText tokens ∧
      ∀ before s, Runs { rest := "if a: # b\n  \n\t\\\n c + \\\n # d\n" } before s →
        ¬s.HollowLine := by
  obtain ⟨tokens, lexed, both⟩ : ∃ tokens,
      tokenize "if a: # b\n  \n\t\\\n c + \\\n # d\n" = .ok tokens ∧
        LinesHaveText tokens ∧ IndentsHaveText tokens := by
    decide +kernel
  obtain ⟨indents, all⟩ := tokenize_layout_neighbours lexed
  exact ⟨tokens, lexed, indents, both.1, both.2, all.1 both⟩

theorem hollow_line_indented : ∃ tokens, tokenize "  \\\n\n" = .ok tokens ∧
    tokens.map Token.kind = [.indent, .newline, .dedent, .endMarker] ∧
      ¬LinesHaveText tokens ∧ ¬IndentsHaveText tokens := by
  decide +kernel

end Runs

end CodeSmell.Lexer
