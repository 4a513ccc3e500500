import CodeSmell.Proofs.Lexer.BlankLines
import CodeSmell.Proofs.Lexer.Breaks
import CodeSmell.Proofs.Places.Tokens

/-!
The line feed at the end of a text. Without it the last line ends all the same, by the token that the
end of the text adds, unless that line continues another one: where nothing but a continuation stands
behind a line end, the end of the text adds no token and a line feed does.
-/

namespace CodeSmell

def Bytes.continued (s : Bytes) : Bool :=
  match s.reverse.dropWhile (· != Ascii.lineFeed) with
  | _ :: b :: before =>
    b == '\\' || b == Ascii.carriageReturn && before.head? == some '\\'.toUInt8
  | _ => false

namespace Lexer

open Bytes

theorem continued_append {line : Bytes} (inside : Ascii.lineFeed ∉ line) (s : Bytes) :
    (s ++ line).continued = s.continued := by
  have all : ∀ b ∈ line.reverse, (b != Ascii.lineFeed) = true := by
    intro b mem
    rw [bne_iff_ne]
    exact fun same => inside (same ▸ List.mem_reverse.1 mem)
  rw [continued, List.reverse_append, List.dropWhile_append_of_pos all]
  rfl

theorem continued_continuation {mark : UInt8} {tail : Bytes} {n : Nat} (isMark : mark = '\\'.toUInt8)
    (found : continuationLength? (mark :: tail) = some n) (s : Bytes) :
    (s ++ (mark :: tail).take n).continued = true := by
  subst isMark
  rcases continuationLength?_cases found with ⟨rest, rfl, rfl⟩ | ⟨rest, rfl, rfl⟩
  · simp [continued]
  · simp [continued]

section Steps

variable {s s' : State} {new read : List Token} {g taken : Bytes}

theorem State.Takes.unique {g' : Bytes} (h : s.Takes g s') (h' : s.Takes g' s') : g = g' :=
  List.append_cancel_right (h.rest.symm.trans h'.rest)

theorem lineStep_gap {b : UInt8} {tail : Bytes} (outside : s.brackets = []) (rest : s.rest = b :: tail)
    (h : lineStep s = .ok ([], s')) (takes : s.Takes g s') :
    s'.brackets = [] ∧ s'.atLineStart = s.atLineStart ∧
      ((isBlank b = true ∨ b = Ascii.carriageReturn ∨ b = '#'.toUInt8) ∧ Ascii.lineFeed ∉ g ∨
        ∀ taken, (taken ++ g).continued = true) := by
  obtain ⟨n, rfl, passed⟩ := lineStep_silent outside rest h
  obtain rfl := takes.unique (.skip s n)
  refine ⟨outside, rfl, ?_⟩
  rw [rest]
  rcases passed with ⟨blank, rfl⟩ | ⟨isMark, rfl⟩ | ⟨isMark, found⟩
  · refine .inl ⟨?_, fun mem => ?_⟩
    · rcases Bool.or_eq_true_iff.1 blank with blank | carriage
      · exact .inl blank
      · exact .inr (.inl (eq_of_beq carriage))
    · rw [← List.mem_singleton.1 mem] at blank
      exact absurd blank (by decide)
  · exact .inl ⟨.inr (.inr isMark), not_feed_run _ (by decide)⟩
  · exact .inr fun taken => continued_continuation isMark found taken

theorem isBlank_behind {l tail : Bytes} {b : UInt8} (eq : l.drop (runLength isBlank l) = b :: tail) :
    isBlank b = false := by
  have stops := List.head?_dropWhile_not isBlank l
  rw [← drop_runLength, eq] at stops
  simpa using stops

/-- Whether a line with this byte behind its blanks is neither blank nor a comment. -/
def startsLine (b : UInt8) : Bool :=
  !(isBlank b || b == '#' || b == Ascii.lineFeed || b == Ascii.carriageReturn)

theorem lineStartStep_line {b : UInt8} {blanks line : Bytes} (blank : ∀ b ∈ blanks, isBlank b = true)
    (starts : startsLine b = true) (eq : s.rest = blanks ++ b :: line) :
    lineStartStep s = (do
      let (layout, s₁) ← indentStep (s.skip blanks.length) (indentWidth blanks)
      let (tokens, s₂) ← lineStep s₁
      .ok (layout ++ tokens, s₂)) := by
  simp only [startsLine, Bool.not_eq_true', Bool.or_eq_false_iff] at starts
  obtain ⟨⟨⟨other, comment⟩, feed⟩, carriage⟩ := starts
  have length : runLength isBlank s.rest = blanks.length := by rw [eq, runLength_until blank other]
  have past : (s.skip blanks.length).rest = b :: line := by simp [State.skip, eq]
  have taken : s.rest.take blanks.length = blanks := by simp [eq]
  unfold lineStartStep
  simp only [length, taken, past, comment, feed, carriage, Bool.or_self, Bool.false_eq_true, ↓reduceIte]

theorem lineStartStep_split (h : lineStartStep s = .ok (new, s')) :
    (new = [] ∧ s'.atLineStart = s.atLineStart ∧ s'.brackets = s.brackets) ∨
      ∃ blanks b line, (∀ b ∈ blanks, isBlank b = true) ∧ startsLine b = true ∧
        s.rest = blanks ++ b :: line := by
  have split : s.rest = s.rest.takeWhile isBlank ++ (s.skip (runLength isBlank s.rest)).rest := by
    rw [State.skip, drop_runLength, List.takeWhile_append_dropWhile]
  unfold lineStartStep at h
  dsimp only at h
  split at h
  · obtain ⟨rfl, rfl⟩ := Prod.mk.inj (Except.ok.inj h)
    exact .inl ⟨rfl, rfl, rfl⟩
  next b line eq =>
  split_ifs at h with comment lineEnd
  · obtain ⟨rfl, rfl⟩ := Prod.mk.inj (Except.ok.inj h)
    exact .inl ⟨rfl, rfl, rfl⟩
  · obtain ⟨rfl, rfl⟩ := Prod.mk.inj (Except.ok.inj h)
    exact .inl ⟨rfl, rfl, rfl⟩
  · refine .inr ⟨_, b, line, fun b mem => List.mem_takeWhile_imp mem, ?_, by rwa [eq] at split⟩
    rw [Bool.not_eq_true] at comment lineEnd
    simp only [startsLine, isBlank_behind eq, comment, Bool.false_or, lineEnd, Bool.not_false]

theorem lineStartStep_gap (outside : s.brackets = [])
    (h : lineStartStep s = .ok ([], s')) (takes : s.Takes g s') :
    s'.brackets = [] ∧ (s'.atLineStart = s.atLineStart ∨ ∀ taken, (taken ++ g).continued = true) := by
  rcases lineStartStep_split h with ⟨-, start, brackets⟩ | ⟨blanks, b, line, blank, starts, eq⟩
  · exact ⟨brackets.trans outside, .inl start⟩
  rw [lineStartStep_line blank starts eq] at h
  obtain ⟨⟨layout, s₁⟩, indent, h⟩ := bind_eq_ok.1 h
  obtain ⟨⟨tokens, s₂⟩, lined, h⟩ := bind_eq_ok.1 h
  obtain ⟨empty, rfl⟩ := Prod.mk.inj (Except.ok.inj h)
  obtain ⟨-, rfl⟩ := List.append_eq_nil_iff.1 empty
  obtain ⟨sameRest, samePosition, sameBrackets, -⟩ := (indentStep_cases indent).still
  have rest₁ : s₁.rest = b :: line := by simp [sameRest, State.skip, eq]
  have takes₁ : s.Takes (s.rest.take blanks.length) s₁ :=
    ⟨sameRest ▸ (State.Takes.skip s blanks.length).rest,
      samePosition.trans (State.Takes.skip s blanks.length).position⟩
  obtain ⟨g', takes₂⟩ := (lineStep_cases (by simp [rest₁]) lined).reads.takes
  obtain ⟨outside₂, -, gap⟩ := lineStep_gap (sameBrackets.trans outside) rest₁ lined takes₂
  refine ⟨outside₂, .inr fun taken => ?_⟩
  rw [takes.unique (takes₁.trans takes₂), ← List.append_assoc]
  -- what begins a line is neither a blank nor a comment nor a line end
  rcases gap with ⟨blank | rfl | rfl, -⟩ | continued
  · simp [startsLine, blank] at starts
  · exact absurd starts (by decide)
  · exact absurd starts (by decide)
  · exact continued _

theorem State.LineStep.last {t : Token} (h : s.LineStep new s') (within : s.atLineStart = false)
    (last : new.getLast? = some t) :
    t.kind ≠ .newline ∧ s'.atLineStart = false ∨
      t.kind = .newline ∧ s'.atLineStart = true ∧ s'.brackets = [] := by
  cases h with
  | gap => cases last
  | lineEnd _ outside =>
    obtain rfl := Option.some.inj last
    exact .inr ⟨rfl, rfl, outside⟩
  | lexeme rest lexed =>
    refine .inl ⟨fun kind => ?_, (lexeme_atLineStart lexed).trans within⟩
    have text := (lexeme_lexes rest lexed).kind
    rw [List.getLast?_singleton] at last
    rw [Option.some.inj last, Token.isLayout, kind] at text
    cases text

theorem State.Steps.last {t : Token} (h : s.Steps new s')
    (start : s.atLineStart = true → s.brackets = []) (last : new.getLast? = some t) :
    t.kind ≠ .newline ∧ s'.atLineStart = false ∨
      t.kind = .newline ∧ s'.atLineStart = true ∧ s'.brackets = [] := by
  cases h with
  | within inner line =>
    exact line.last (Bool.eq_false_of_not_eq_true fun begins => inner ⟨begins, start begins⟩) last
  | start _ _ begins =>
    cases begins with
    | blank => cases last
    | @line n width layout tokens s₁ s' _ indents line =>
      cases found : tokens.getLast? with
      | some u =>
        rw [List.getLast?_append, found] at last
        obtain rfl := Option.some.inj last
        exact line.last indents.still.2.2.2 found
      | none =>
        obtain rfl := List.getLast?_eq_none_iff.1 found
        rw [List.append_nil] at last
        obtain ⟨kind, isIndent, rfl⟩ := indents.layout t (List.mem_of_getLast? last)
        refine .inl ⟨by rcases isIndent with rfl | rfl <;> exact nofun, ?_⟩
        cases line with
        | gap => exact indents.still.2.2.2

end Steps

def LineEnded (read : List Token) : Prop := ∀ t ∈ read.head?, t.kind = .newline

/-- Behind a line end a line begins, or has begun with a continuation. -/
structure State.Told (s : State) (read : List Token) (taken : Bytes) : Prop where
  start : s.atLineStart = true → LineEnded read
  outside : LineEnded read → s.brackets = []
  within : LineEnded read → s.atLineStart = false → taken.continued = true

theorem State.Told.step {s s' : State} {new read : List Token} {g taken : Bytes}
    (told : s.Told read taken) (rest : s.rest ≠ []) (h : step s = .ok (new, s'))
    (takes : s.Takes g s') : s'.Told (new.reverse ++ read) (taken ++ g) := by
  cases found : new.getLast? with
  | some t =>
    have last : (new.reverse ++ read).head? = some t := by
      rw [List.head?_append, List.head?_reverse, found, Option.some_or]
    have ended (h : LineEnded (new.reverse ++ read)) : t.kind = .newline := h t last
    rcases (step_cases rest h).last (fun start => told.outside (told.start start)) found with
      ⟨other, within⟩ | ⟨kind, start, outside⟩
    · refine ⟨fun start => ?_, fun h => absurd (ended h) other, fun h => absurd (ended h) other⟩
      rw [within] at start
      cases start
    · refine ⟨fun _ u mem => ?_, fun _ => outside, fun _ within => ?_⟩
      · rw [last] at mem
        rw [← Option.some.inj mem, kind]
      · rw [start] at within
        cases within
  | none =>
    obtain rfl := List.getLast?_eq_none_iff.1 found
    rw [List.reverse_nil, List.nil_append]
    obtain ⟨b, tail, eq⟩ := List.exists_cons_of_ne_nil rest
    by_cases begins : s.atLineStart = true
    · have ended := told.start begins
      have outside := told.outside ended
      rw [step_eq_lineStartStep begins outside] at h
      obtain ⟨outside', same⟩ := lineStartStep_gap outside h takes
      refine ⟨fun _ => ended, fun _ => outside', fun _ within => ?_⟩
      rcases same with same | continued
      · rw [same, begins] at within
        cases within
      · exact continued taken
    · rw [step_eq_lineStep fun both => begins both.1] at h
      have same : s'.atLineStart = s.atLineStart := by
        cases lineStep_cases rest h
        rfl
      refine ⟨fun start => absurd (same ▸ start) begins, fun ended => ?_, fun ended _ => ?_⟩
      · exact (lineStep_gap (told.outside ended) eq h takes).1
      · rcases (lineStep_gap (told.outside ended) eq h takes).2.2 with ⟨-, line⟩ | continued
        · rw [continued_append line]
          exact told.within ended (Bool.eq_false_of_not_eq_true begins)
        · exact continued taken

def State.ending (s : State) : List Token :=
  (s.indents.map fun _ => s.layout .dedent 1) ++ [s.layout .endMarker s.position.column]

section Ending

variable {read : List Token} {s s' : State}

theorem finish_ended (ended : LineEnded read) (rest : s.rest = []) (outside : s.brackets = []) :
    finish read s = .ok (read.reverse ++ s.ending) := by
  rw [finish_nil rest]
  unfold closing
  rw [outside]
  cases read with
  | nil => rfl
  | cons t read =>
    have kind : (t.kind == .newline) = true := beq_iff_eq.2 (ended t rfl)
    simp only [kind, ↓reduceIte, List.nil_append]
    rfl

theorem finish_unended (unended : ¬LineEnded read) (rest : s.rest = []) (outside : s.brackets = []) :
    finish read s = .ok (read.reverse ++ s.layout .newline s.position.column :: s.ending) := by
  rw [finish_nil rest]
  unfold closing
  rw [outside]
  cases read with
  | nil => exact absurd nofun unended
  | cons t read =>
    have kind : (t.kind == .newline) = false :=
      beq_eq_false_iff_ne.2 fun kind => unended fun u mem => by rw [← Option.some.inj mem, kind]
    simp only [kind, Bool.false_eq_true, ↓reduceIte]
    rfl

theorem finish_outside {ts : List Token} (rest : s.rest = []) (h : finish read s = .ok ts) :
    s.brackets = [] := by
  obtain ⟨final, closed, -⟩ := closing_of_finish rest h
  exact (closing_cases closed).1

theorem ending_shifted (indents : s'.indents = s.indents) (before : List Token) :
    List.Forall₂ Token.Shifted (before ++ s.ending) (before ++ s'.ending) := by
  have layout (kind : TokenKind) (column column' : Int) (isLayout : kind.isLayout = true) :
      (s.layout kind column).Shifted (s'.layout kind column') :=
    ⟨rfl, rfl, fun text => absurd (isLayout.symm.trans text) (by decide)⟩
  refine List.rel_append (List.forall₂_same.2 fun t _ => .refl t)
    (List.rel_append ?_ (.cons (layout _ _ _ rfl) .nil))
  rw [indents, List.forall₂_map_left_iff, List.forall₂_map_right_iff]
  exact List.forall₂_same.2 fun _ _ => layout _ _ _ rfl

end Ending

theorem finish_blanks {read : List Token} {s : State} (start : s.atLineStart = true)
    (outside : s.brackets = []) (blank : ∀ b ∈ s.rest, isBlank b = true) :
    finish read s = finish read (s.skip s.rest.length) := by
  by_cases rest : s.rest = []
  · rw [rest]
    rfl
  · have all : runLength isBlank s.rest = s.rest.length := by
      rw [runLength, List.takeWhile_eq_self_iff.2 blank]
    have none : (s.skip s.rest.length).rest = [] := List.drop_length
    have stepped : step s = .ok ([], s.skip s.rest.length) := by
      rw [step_eq_lineStartStep start outside]
      unfold lineStartStep
      simp only [all, none]
    exact finish_step rest stepped

theorem finish_lineFeed_end {read ts : List Token} {s : State} {taken : Bytes} (told : s.Told read taken)
    (whole : taken.continued = false) (rest : s.rest = []) (within : s.atLineStart = false)
    (h : finish read s = .ok ts) :
    ∃ us, finish read (s.on [Ascii.lineFeed]) = .ok us ∧ List.Forall₂ Token.Shifted ts us := by
  have outside := finish_outside rest h
  have unended : ¬LineEnded read := by
    intro ended
    rw [told.within ended within] at whole
    cases whole
  have stepped : step (s.on [Ascii.lineFeed]) =
      .ok ([s.layout .newline s.position.column], s.nextLine []) := by
    rw [step_feed rfl]
    simp only [State.lineEnd, State.nextLine, State.on, within, outside]
    rfl
  have ended : LineEnded ([s.layout .newline s.position.column].reverse ++ read) := by
    intro t mem
    rw [← Option.some.inj mem]
    rfl
  rw [finish_unended unended rest outside] at h
  rw [← Except.ok.inj h, finish_step (by simp) stepped]
  refine ⟨_, finish_ended ended rfl outside, ?_⟩
  have same : List.Forall₂ Token.Shifted (_ ++ s.ending) (_ ++ (s.nextLine []).ending) :=
    ending_shifted (by rfl) (read.reverse ++ [s.layout .newline s.position.column])
  simpa using same

theorem finish_lineFeed {read ts : List Token} {s : State} {taken : Bytes} (told : s.Told read taken)
    (whole : (taken ++ s.rest).continued = false) (h : finish read s = .ok ts) :
    ∃ us, finish read (s.on (s.rest ++ [Ascii.lineFeed])) = .ok us ∧
      List.Forall₂ Token.Shifted ts us := by
  by_cases last : s.atLineStart = true ∧ ∀ b ∈ s.rest, isBlank b = true
  · obtain ⟨start, blank⟩ := last
    have ended := told.start start
    have outside := told.outside ended
    have runs : Runs (s.on (s.rest ++ [Ascii.lineFeed])) [] ((s.on _).nextLine []) :=
      Blank.runs (.spaces blank) start outside rfl
    rw [finish_blanks start outside blank, finish_ended ended List.drop_length (by exact outside)] at h
    rw [← Except.ok.inj h, runs.finish_eq]
    exact ⟨_, finish_ended ended rfl outside, ending_shifted (by rfl) _⟩
  by_cases rest : s.rest = []
  · have within : s.atLineStart = false :=
      Bool.eq_false_of_not_eq_true fun start => last ⟨start, by simp [rest]⟩
    rw [rest, List.append_nil] at whole
    rw [rest]
    exact finish_lineFeed_end told whole rest within h
  · obtain ⟨new, s', stepped, after⟩ := step_of_finish rest h
    obtain ⟨g, takes⟩ := step_takes rest stepped
    have shorter := step_length_lt rest stepped
    have inside (start : s.atLineStart = true) : ∃ x ∈ s.rest, isBlank x = false := by
      by_contra none
      simp only [not_exists, not_and, Bool.not_eq_false] at none
      exact last ⟨start, none⟩
    have stepped' := step_tail (.feed s.rest) rest inside (List.append_nil _).symm
      (List.append_nil _).symm stepped
    rw [finish_step (by simp) stepped']
    refine finish_lineFeed (told.step rest stepped takes) ?_ after
    rwa [List.append_assoc, ← takes.rest]
termination_by s.rest.length

theorem tokenize_lineFeed {source : Bytes} {ts : List Token} (whole : source.continued = false)
    (h : tokenize source = .ok ts) :
    ∃ us, tokenize (source ++ [Ascii.lineFeed]) = .ok us ∧ List.Forall₂ Token.Shifted ts us := by
  rw [tokenize_eq_finish] at h
  have told : ({ rest := source } : State).Told [] [] := ⟨fun _ => nofun, fun _ => rfl, fun _ => nofun⟩
  exact finish_lineFeed told whole h

end Lexer

end CodeSmell
