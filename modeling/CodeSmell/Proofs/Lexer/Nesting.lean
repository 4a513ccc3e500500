import CodeSmell.Proofs.Lexer.Layout

/-!
How tokens nest. Indentations are closed again and never before they are opened, brackets are closed
by their own kind and innermost first, and the tokens between two brackets have text.

* `Indented m ts n`: the tokens lead from `m` open indentations to `n`.
* `Nested before ts after`: they lead from the open brackets `before` to `after`.
* `Bracketed inside ts`: the brackets among them come in pairs.
-/

namespace CodeSmell

def indents (ts : List Token) : Nat := ts.countP (·.kind == .indent)

def dedents (ts : List Token) : Nat := ts.countP (·.kind == .dedent)

theorem indents_cons (t : Token) (ts : List Token) :
    indents (t :: ts) = indents ts + if t.kind = .indent then 1 else 0 := by
  simp only [indents, List.countP_cons, beq_iff_eq]

theorem dedents_cons (t : Token) (ts : List Token) :
    dedents (t :: ts) = dedents ts + if t.kind = .dedent then 1 else 0 := by
  simp only [dedents, List.countP_cons, beq_iff_eq]

inductive Indented : (m : Nat) → List Token → (n : Nat) → Prop where
  | nil {n : Nat} : Indented n [] n
  | indent {m n : Nat} {t : Token} {ts : List Token} : t.kind = .indent →
      Indented (m + 1) ts n → Indented m (t :: ts) n
  | dedent {m n : Nat} {t : Token} {ts : List Token} : t.kind = .dedent →
      Indented m ts n → Indented (m + 1) (t :: ts) n
  | other {m n : Nat} {t : Token} {ts : List Token} : t.kind ≠ .indent → t.kind ≠ .dedent →
      Indented m ts n → Indented m (t :: ts) n

namespace Indented

variable {m n k : Nat} {ts us : List Token}

theorem append (h : Indented m ts n) (h' : Indented n us k) : Indented m (ts ++ us) k := by
  induction h with
  | nil => exact h'
  | indent kind _ ih => exact .indent kind (ih h')
  | dedent kind _ ih => exact .dedent kind (ih h')
  | other opens closes _ ih => exact .other opens closes (ih h')

theorem left (h : Indented m (ts ++ us) n) : ∃ k, Indented m ts k := by
  induction ts generalizing m with
  | nil => exact ⟨m, .nil⟩
  | cons t ts ih =>
    cases h with
    | indent kind rest => exact (ih rest).imp fun _ => .indent kind
    | dedent kind rest => exact (ih rest).imp fun _ => .dedent kind
    | other opens closes rest => exact (ih rest).imp fun _ => .other opens closes

theorem balance (h : Indented m ts n) : m + indents ts = n + dedents ts := by
  induction h with
  | nil => rfl
  | indent kind _ ih =>
    simp only [indents_cons, dedents_cons, kind, reduceCtorEq, ↓reduceIte]
    omega
  | dedent kind _ ih =>
    simp only [indents_cons, dedents_cons, kind, reduceCtorEq, ↓reduceIte]
    omega
  | other opens closes _ ih =>
    simp only [indents_cons, dedents_cons, opens, closes, ↓reduceIte]
    omega

theorem dedents_le {before : List Token} (h : Indented 0 ts n) (first : before <+: ts) :
    dedents before ≤ indents before := by
  obtain ⟨after, rfl⟩ := first
  obtain ⟨k, h⟩ := h.left
  have := h.balance
  omega

end Indented

def bracketPairs : List (Bytes × Bytes) :=
  [("(", ")"), ("[", "]"), ("\x7b", "\x7d")].map fun pair =>
    (Bytes.ofString pair.1, Bytes.ofString pair.2)

def Token.isBracket (t : Token) : Bool :=
  t.kind == .operator && bracketPairs.any fun pair => t.text == pair.1 || t.text == pair.2

structure Token.Matches (t u : Token) : Prop where
  opening : t.kind = .operator
  closing : u.kind = .operator
  pair : (t.text, u.text) ∈ bracketPairs

/-- The tokens of a text between brackets (`inside`) or outside of them. -/
inductive Bracketed : (inside : Bool) → List Token → Prop where
  | nil {inside : Bool} : Bracketed inside []
  | token {inside : Bool} {t : Token} {ts : List Token} : t.isBracket = false →
      (inside = true → t.isLayout = false) → Bracketed inside ts → Bracketed inside (t :: ts)
  | pair {inside : Bool} {t u : Token} {within ts : List Token} : t.Matches u →
      Bracketed true within → Bracketed inside ts → Bracketed inside (t :: within ++ u :: ts)

namespace Lexer

/-- The open brackets are named by their symbols, the innermost first. -/
inductive Nested : (before : List UInt8) → List Token → (after : List UInt8) → Prop where
  | nil {before : List UInt8} : Nested before [] before
  | token {before after : List UInt8} {t : Token} {ts : List Token} : t.isBracket = false →
      (before ≠ [] → t.isLayout = false) → Nested before ts after → Nested before (t :: ts) after
  | opening {before after : List UInt8} {b : UInt8} {t : Token} {ts : List Token} :
      t.kind = .operator → t.text = [b] → isOpening b = true → Nested (b :: before) ts after →
      Nested before (t :: ts) after
  | closing {before after : List UInt8} {b : UInt8} {t : Token} {ts : List Token} :
      t.kind = .operator → t.text = [closingOf b] → Nested before ts after →
      Nested (b :: before) (t :: ts) after

theorem Nested.append {before between after : List UInt8} {ts us : List Token}
    (h : Nested before ts between) (h' : Nested between us after) :
    Nested before (ts ++ us) after := by
  induction h with
  | nil => exact h'
  | token plain text _ ih => exact .token plain text (ih h')
  | opening kind text opens _ ih => exact .opening kind text opens (ih h')
  | closing kind text _ ih => exact .closing kind text (ih h')

/-- The tokens close the brackets that are open before them, and what they open themselves. -/
inductive Closes : (brackets : List UInt8) → List Token → Prop where
  | none {ts : List Token} : Bracketed false ts → Closes [] ts
  | one {b : UInt8} {outer : List UInt8} {u : Token} {within ts : List Token} :
      Bracketed true within → u.kind = .operator → u.text = [closingOf b] → Closes outer ts →
      Closes (b :: outer) (within ++ u :: ts)

theorem Closes.token {brackets : List UInt8} {t : Token} {ts : List Token}
    (plain : t.isBracket = false) (text : brackets ≠ [] → t.isLayout = false)
    (h : Closes brackets ts) : Closes brackets (t :: ts) := by
  cases h with
  | none rest => exact .none (.token plain nofun rest)
  | one within kind closes rest =>
    exact .one (.token plain (fun _ => text (List.cons_ne_nil _ _)) within) kind closes rest

theorem matches_of_opening {b : UInt8} {t u : Token} (opens : isOpening b = true)
    (kind : t.kind = .operator) (text : t.text = [b]) (kind' : u.kind = .operator)
    (text' : u.text = [closingOf b]) : t.Matches u := by
  refine ⟨kind, kind', ?_⟩
  rw [text, text']
  simp only [isOpening, Bool.or_eq_true, beq_iff_eq] at opens
  rcases opens with (rfl | rfl) | rfl <;> decide

theorem Closes.pair {brackets : List UInt8} {t u : Token} {within ts : List Token}
    (same : t.Matches u) (inner : Bracketed true within) (h : Closes brackets ts) :
    Closes brackets (t :: within ++ u :: ts) := by
  cases h with
  | none rest => exact .none (.pair same inner rest)
  | one outer kind closes rest =>
    have outer := Bracketed.pair same inner outer
    simpa using Closes.one outer kind closes rest

theorem Nested.closes {brackets : List UInt8} {ts : List Token} (h : Nested brackets ts []) :
    Closes brackets ts := by
  generalize none : [] = after at h
  induction h with
  | nil => exact none ▸ .none .nil
  | token plain text _ ih => exact .token plain text (ih none)
  | opening kind text opens _ ih =>
    cases ih none with
    | one within kind' text' rest =>
      exact .pair (matches_of_opening opens kind text kind' text') within rest
  | closing kind text _ ih => exact .one .nil kind text (ih none)

/-- From `s` to `s'` the tokens `new` open and close what the two states have open. -/
structure State.Nests (s : State) (new : List Token) (s' : State) : Prop where
  indented : Indented s.indents.length new s'.indents.length
  nested : Nested (s.brackets.map Bracket.symbol) new (s'.brackets.map Bracket.symbol)

theorem State.Nests.trans {s s₁ s₂ : State} {new₁ new₂ : List Token} (h₁ : s.Nests new₁ s₁)
    (h₂ : s₁.Nests new₂ s₂) : s.Nests (new₁ ++ new₂) s₂ :=
  ⟨h₁.indented.append h₂.indented, h₁.nested.append h₂.nested⟩

theorem State.Nests.still {s s' : State} (indents : s'.indents = s.indents)
    (brackets : s'.brackets = s.brackets) : s.Nests [] s' :=
  ⟨indents ▸ .nil, brackets ▸ .nil⟩

theorem not_bracket_of_kind {t : Token} (h : t.kind ≠ .operator) : t.isBracket = false := by
  rw [Token.isBracket, beq_false_of_ne h, Bool.false_and]

theorem not_bracket_of_text {t : Token}
    (h : ∀ b, t.text = [b] → isOpening b = false ∧ isClosing b = false) : t.isBracket = false := by
  rw [Token.isBracket, Bool.and_eq_false_iff]
  refine .inr (List.any_eq_false.2 fun pair known same => ?_)
  have brackets : ∀ pair ∈ bracketPairs, ∃ b c, pair = ([b], [c]) ∧ isOpening b = true ∧
      isClosing c = true := by
    simp only [bracketPairs, List.map_cons, List.map_nil, List.forall_mem_cons]
    refine ⟨⟨'(', ')', ?_⟩, ⟨'[', ']', ?_⟩, ⟨'{', '}', ?_⟩, nofun⟩ <;> decide
  obtain ⟨b, c, rfl, opens, closes⟩ := brackets pair known
  simp only [Bool.or_eq_true, beq_iff_eq] at same
  rcases same with text | text
  · exact absurd opens (by simp [(h b text).1])
  · exact absurd closes (by simp [(h c text).2])

theorem State.Nests.plain {s s' : State} {t : Token} (kind : t.kind ≠ .operator)
    (text : t.isLayout = false) (indents : s'.indents = s.indents)
    (brackets : s'.brackets = s.brackets) : s.Nests [t] s' where
  indented := by
    rw [indents]
    refine .other ?_ ?_ .nil <;> intro layout <;> rw [Token.isLayout, layout] at text <;> cases text
  nested := brackets ▸ .token (not_bracket_of_kind kind) (fun _ => text) .nil

theorem brackets_nested {s : State} {operator : Bytes} {opened : List Bracket} {t : Token}
    (h : brackets s operator = .ok opened) (kind : t.kind = .operator) (text : t.text = operator) :
    Nested (s.brackets.map Bracket.symbol) [t] (opened.map Bracket.symbol) := by
  have layout : t.isLayout = false := by rw [Token.isLayout, kind]; rfl
  unfold brackets at h
  split at h
  · next b =>
    split_ifs at h with opens closes
    · obtain rfl := Except.ok.inj h
      exact .opening kind text opens .nil
    · split at h
      · cases h
      next outermost outer same =>
      split_ifs at h with closing
      · obtain rfl := Except.ok.inj h
        rw [same]
        exact .closing kind (by rw [text, eq_of_beq closing]) .nil
      · cases h
    · obtain rfl := Except.ok.inj h
      refine .token (not_bracket_of_text fun c same => ?_) (fun _ => layout) .nil
      obtain rfl := List.cons.inj (text.symm.trans same) |>.1
      simp [opens, closes]
  · next other =>
    obtain rfl := Except.ok.inj h
    refine .token (not_bracket_of_text fun b same => ?_) (fun _ => layout) .nil
    exact absurd (text.symm.trans same) (other b)

theorem lexeme_nests {s s' : State} {t : Token} (rest : s.rest ≠ [])
    (h : lexeme s = .ok (t, s')) : s.Nests [t] s' := by
  have text := (lexeme_lexes rest h).kind
  cases lexeme_cases h with
  | string => exact .plain nofun text rfl rfl
  | word _ kind => exact .plain (by rcases kind with rfl | rfl <;> exact nofun) text rfl rfl
  | number => exact .plain nofun text rfl rfl
  | operator found opened =>
    exact ⟨.other nofun nofun .nil, brackets_nested opened rfl (take_operator found)⟩

theorem nested_layout {s : State} {new : List Token} (outside : s.brackets = [])
    (layout : ∀ t ∈ new, t.kind ≠ .operator) :
    Nested (s.brackets.map Bracket.symbol) new (s.brackets.map Bracket.symbol) := by
  rw [outside]
  induction new with
  | nil => exact .nil
  | cons t ts ih =>
    rw [List.forall_mem_cons] at layout
    exact .token (not_bracket_of_kind layout.1) (absurd rfl) (ih layout.2)

theorem State.LineStep.nests {s s' : State} {new : List Token} (h : s.LineStep new s') :
    s.Nests new s' := by
  cases h with
  | gap => exact .still rfl rfl
  | lineEnd _ outside =>
    exact ⟨.other nofun nofun .nil, nested_layout outside (List.forall_mem_singleton.2 nofun)⟩
  | lexeme rest lexed => exact lexeme_nests rest lexed

theorem indented_newlines {n : Nat} {ts : List Token} (h : ∀ t ∈ ts, t.kind = .newline) :
    Indented n ts n := by
  induction ts with
  | nil => exact .nil
  | cons t ts ih =>
    rw [List.forall_mem_cons] at h
    exact .other (by rw [h.1]; exact nofun) (by rw [h.1]; exact nofun) (ih h.2)

theorem indented_dedents {m n : Nat} {ts : List Token} (length : m = ts.length + n)
    (h : ∀ t ∈ ts, t.kind = .dedent) : Indented m ts n := by
  induction ts generalizing m with
  | nil =>
    obtain rfl : m = n := by simpa using length
    exact .nil
  | cons t ts ih =>
    rw [List.forall_mem_cons] at h
    obtain rfl : m = ts.length + n + 1 := by rw [length, List.length_cons]; omega
    exact .dedent h.1 (ih rfl h.2)

theorem State.Indents.nests {s s' : State} {width : Nat} {new : List Token}
    (h : s.Indents width new s') (outside : s.brackets = []) : s.Nests new s' := by
  cases h with
  | indent => exact ⟨.indent rfl .nil, nested_layout outside (List.forall_mem_singleton.2 nofun)⟩
  | dedents =>
    refine ⟨indented_dedents ?_ (List.forall_mem_map.2 fun _ _ => rfl),
      nested_layout outside (List.forall_mem_map.2 fun _ _ => nofun)⟩
    rw [List.length_map, ← List.length_append, List.takeWhile_append_dropWhile]

theorem State.Steps.nests {s s' : State} {new : List Token} (h : s.Steps new s') :
    s.Nests new s' := by
  cases h with
  | within _ line => exact line.nests
  | start _ outside start =>
    cases start with
    | blank => exact .still rfl rfl
    | @line n =>
      next indents line =>
      have blanks : s.Nests [] (s.skip n) := .still rfl rfl
      exact blanks.trans ((indents.nests outside).trans line.nests)

theorem scan_nests {bound : Nat} {s₀ s s' : State} {tokens tokens' : List Token}
    (before : s₀.Nests tokens.reverse s) (h : scan bound tokens s = .ok (tokens', s')) :
    s₀.Nests tokens'.reverse s' := by
  refine scan_keeps (I := fun tokens s => s₀.Nests tokens.reverse s) (fun before steps => ?_) before h
  rw [List.reverse_append, List.reverse_reverse]
  exact before.trans steps.nests

theorem closing_nests {tokens final : List Token} {s : State} (h : closing tokens s = .ok final) :
    Indented s.indents.length final 0 ∧ Nested (s.brackets.map Bracket.symbol) final [] := by
  obtain ⟨outside, lineEnd, newline, rfl⟩ := closing_cases h
  replace newline : ∀ t ∈ lineEnd, t.kind = .newline := fun t mem => by rw [newline t mem]; rfl
  constructor
  · have dedents : Indented s.indents.length (s.indents.map fun _ => s.layout .dedent 1) 0 :=
      indented_dedents (by rw [List.length_map, Nat.add_zero]) (List.forall_mem_map.2 fun _ _ => rfl)
    exact .append (.append (indented_newlines newline) dedents) (.other nofun nofun .nil)
  · suffices layout : ∀ t ∈ lineEnd ++ (s.indents.map fun _ => s.layout .dedent 1) ++
        [s.layout .endMarker s.position.column], t.kind ≠ .operator by
      simpa [outside] using nested_layout outside layout
    simp only [List.forall_mem_append, List.forall_mem_map, List.forall_mem_singleton]
    exact ⟨⟨fun t mem => by rw [newline t mem]; exact nofun, fun _ _ => nofun⟩, nofun⟩

theorem tokenize_nests {source : Bytes} {tokens : List Token} (h : tokenize source = .ok tokens) :
    Indented 0 tokens 0 ∧ Nested [] tokens [] := by
  obtain ⟨read, s, final, scanned, closed, rfl⟩ := tokenize_cases h
  have start : ({ rest := source } : State).Nests [] { rest := source } := .still rfl rfl
  have inside := scan_nests start scanned
  obtain ⟨indented, nested⟩ := closing_nests closed
  exact ⟨inside.indented.append indented, inside.nested.append nested⟩

/-- The layout of a text that is lexed: one end marker, which is the last token; no more dedents
than indents up to any place, and as many in the whole; and brackets in pairs with text alone
between them. -/
theorem tokenize_layout {source : Bytes} {tokens : List Token} (h : tokenize source = .ok tokens) :
    (∃ inside marker, tokens = inside ++ [marker] ∧ marker.kind = .endMarker ∧
      ∀ t ∈ inside, t.kind ≠ .endMarker) ∧
    (∀ before, before <+: tokens → dedents before ≤ indents before) ∧
    dedents tokens = indents tokens ∧
    Bracketed false tokens := by
  obtain ⟨indented, nested⟩ := tokenize_nests h
  have balance := indented.balance
  refine ⟨tokenize_endMarker h, fun before first => indented.dedents_le first, by omega, ?_⟩
  cases nested.closes with
  | none paired => exact paired

theorem tokenize_layout_call : ∃ tokens, tokenize "if a:\n  f([\n1])" = .ok tokens ∧
    tokens.length = 14 ∧ dedents tokens = 1 ∧ indents tokens = 1 ∧ Bracketed false tokens := by
  obtain ⟨tokens, lexed, length, closed⟩ : ∃ tokens, tokenize "if a:\n  f([\n1])" = .ok tokens ∧
      tokens.length = 14 ∧ dedents tokens = 1 := by
    decide +kernel
  obtain ⟨-, -, balance, brackets⟩ := tokenize_layout lexed
  exact ⟨tokens, lexed, length, closed, balance ▸ closed, brackets⟩

end Lexer

end CodeSmell
