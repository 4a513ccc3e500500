import CodeSmell.Proofs.Lexer.Step

/-!
Where the tokens come from. All but the last are lexed or are line ends and indentations, so that the
end marker stands at the end of the tokens and nowhere else.
-/

namespace CodeSmell.Lexer

def Inner (t : Token) : Prop :=
  t.kind ∈ [TokenKind.newline, .indent, .dedent] ∨
    ∃ s s' : State, s.rest ≠ [] ∧ lexeme s = .ok (t, s')

theorem Inner.not_endMarker {t : Token} (h : Inner t) : t.kind ≠ .endMarker := by
  intro marker
  rcases h with layout | ⟨s, s', rest, lexed⟩
  · rw [marker] at layout
    exact absurd layout (by decide)
  · have text := (lexeme_lexes rest lexed).kind
    rw [Token.isLayout, marker] at text
    cases text

theorem Inner.lexed {t : Token} (h : Inner t) (text : t.isLayout = false) :
    ∃ s s' : State, lexeme s = .ok (t, s') := by
  rcases h with layout | ⟨s, s', -, lexed⟩
  · rw [List.mem_cons, List.mem_cons, List.mem_singleton] at layout
    rcases layout with kind | kind | kind
    all_goals
      rw [Token.isLayout, kind] at text
      cases text
  · exact ⟨s, s', lexed⟩

theorem State.LineStep.inner {s s' : State} {new : List Token} (h : s.LineStep new s') :
    ∀ t ∈ new, Inner t := by
  cases h with
  | gap => exact nofun
  | lineEnd => simp [State.layout, Inner]
  | lexeme rest lexed => exact List.forall_mem_singleton.2 (.inr ⟨s, s', rest, lexed⟩)

theorem State.Steps.inner {s s' : State} {new : List Token} (h : s.Steps new s') :
    ∀ t ∈ new, Inner t := by
  cases h with
  | within _ line => exact line.inner
  | start _ _ start =>
    cases start with
    | blank => exact nofun
    | line _ indents line =>
      refine List.forall_mem_append.2 ⟨fun t mem => ?_, line.inner⟩
      obtain ⟨kind, rfl | rfl, rfl⟩ := indents.layout t mem
      all_goals simp [State.layout, Inner]

theorem scan_inner {bound : Nat} {s s' : State} {tokens tokens' : List Token}
    (before : ∀ t ∈ tokens, Inner t) (h : scan bound tokens s = .ok (tokens', s')) :
    ∀ t ∈ tokens', Inner t := by
  refine scan_keeps (I := fun tokens _ => ∀ t ∈ tokens, Inner t) (fun before steps => ?_) before h
  exact List.forall_mem_append.2 ⟨fun t mem => steps.inner t (List.mem_reverse.1 mem), before⟩

theorem closing_inner {tokens final : List Token} {s : State} (h : closing tokens s = .ok final) :
    ∃ layout marker, final = layout ++ [marker] ∧ marker.kind = .endMarker ∧
      ∀ t ∈ layout, Inner t := by
  obtain ⟨-, lineEnd, newline, rfl⟩ := closing_cases h
  refine ⟨_, _, rfl, rfl, List.forall_mem_append.2 ⟨fun t mem => ?_, ?_⟩⟩
  · rw [newline t mem]
    simp [State.layout, Inner]
  · refine List.forall_mem_map.2 fun _ _ => ?_
    simp [State.layout, Inner]

theorem tokenize_inner {source : Bytes} {tokens : List Token} (h : tokenize source = .ok tokens) :
    ∃ inside marker, tokens = inside ++ [marker] ∧ marker.kind = .endMarker ∧
      ∀ t ∈ inside, Inner t := by
  obtain ⟨read, s, final, scanned, closed, rfl⟩ := tokenize_cases h
  obtain ⟨layout, marker, rfl, isMarker, inner⟩ := closing_inner closed
  refine ⟨read.reverse ++ layout, marker, by simp, isMarker, fun t mem => ?_⟩
  rcases List.mem_append.1 mem with mem | mem
  · exact scan_inner (by simp) scanned t (List.mem_reverse.1 mem)
  · exact inner t mem

theorem tokenize_endMarker {source : Bytes} {tokens : List Token}
    (h : tokenize source = .ok tokens) : ∃ inside marker, tokens = inside ++ [marker] ∧
      marker.kind = .endMarker ∧ ∀ t ∈ inside, t.kind ≠ .endMarker := by
  obtain ⟨inside, marker, same, isMarker, inner⟩ := tokenize_inner h
  exact ⟨inside, marker, same, isMarker, fun t mem => (inner t mem).not_endMarker⟩

theorem lexeme_name {s s' : State} {t : Token} (h : lexeme s = .ok (t, s')) (name : t.kind = .name) :
    t.text ≠ [] ∧ ∀ b ∈ t.text, continuesName b = true := by
  cases lexeme_cases h with
  | word starts =>
    obtain ⟨b, tail, eq, starts⟩ := holdsAt_zero starts
    have first : continuesName b = true := by rw [continuesName, starts, Bool.true_or]
    have text : (s.take (runLength continuesName s.rest) .name).1.text =
        s.rest.takeWhile continuesName := take_runLength _ _
    refine ⟨?_, fun c mem => ?_⟩
    · change (s.take _ .name).1.text ≠ []
      rw [text, eq, List.takeWhile_cons, first]
      exact List.cons_ne_nil _ _
    · change c ∈ (s.take _ .name).1.text at mem
      rw [text] at mem
      exact List.mem_takeWhile_imp mem
  | _ => cases name

theorem tokenize_name {source : Bytes} {tokens : List Token} (h : tokenize source = .ok tokens)
    {t : Token} (mem : t ∈ tokens) (name : t.kind = .name) :
    t.text ≠ [] ∧ ∀ b ∈ t.text, continuesName b = true := by
  obtain ⟨inside, marker, rfl, isMarker, inner⟩ := tokenize_inner h
  rcases List.mem_append.1 mem with mem | last
  · rcases inner t mem with layout | ⟨s, s', -, lexed⟩
    · rw [name] at layout
      exact absurd layout (by decide)
    · exact lexeme_name lexed name
  · rw [List.mem_singleton.1 last, isMarker] at name
    cases name

end CodeSmell.Lexer
