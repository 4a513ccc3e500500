import CodeSmell.Proofs.Grammar.Shape
import CodeSmell.Proofs.Lexer.Layout
import CodeSmell.Proofs.Parser.Stmt

/-!
Modules are read to their end: the tree that `parseModule` returns is a reading of all tokens of the
source text, the end marker apart.
-/

namespace CodeSmell

namespace Parser

open Cursor

variable {c c' : Cursor}

theorem sound_moduleBody : Sound (moduleBody block) fun b ps =>
    ∃ bs, b = bs.flatten ∧ Repeated ModuleLine bs ps := by
  intro c x c' _ eq
  simp only [moduleBody, bind_ok (α := List Block), pure_ok] at eq
  obtain ⟨bs, c₁, eq, rfl, rfl⟩ := eq
  obtain ⟨ps, run, reads⟩ := (sound_many (sound_moduleLine sound_block)).reads eq
  exact ⟨ps, ⟨bs, rfl, run⟩, reads⟩

theorem moduleBody_stops {b : Block} (eq : moduleBody block c = .ok (b, c')) :
    c'.peek.kind = .endMarker := by
  simp only [moduleBody, bind_ok (α := List Block), pure_ok] at eq
  obtain ⟨bs, c₁, eq, -, rfl⟩ := eq
  have stopped := many_stops (!·.atKind .endMarker) eq
  simpa [atKind] using stopped

end Parser

theorem parseTokens_ok {tokens : List Token} {b : Block} (h : parseTokens tokens = .ok b) :
    ∃ c', Parser.moduleBody Parser.block (Cursor.ofTokens tokens) = .ok (b, c') := by
  obtain ⟨⟨_, c'⟩, parsed, rfl⟩ := map_eq_ok.1 h
  exact ⟨c', parsed⟩

theorem parseModule_ok {source : Bytes} {b : Block} (h : parseModule source = .ok b) :
    ∃ tokens, tokenize source = .ok tokens ∧ parseTokens tokens = .ok b := bind_eq_ok.1 h

theorem parseTokens_reads {inside : List Token} {marker : Token} {b : Block}
    (isMarker : marker.kind = .endMarker) (text : ∀ t ∈ inside, t.kind ≠ .endMarker)
    (h : parseTokens (inside ++ [marker]) = .ok b) : ∃ bs ps, b = bs.flatten ∧
      Repeated ModuleLine bs ps ∧ inside = tokensOf ps ∧ (∀ p ∈ ps, p.Spelled) ∧
      Token.strings inside = stringsOf ps := by
  have start : Cursor.ofTokens (inside ++ [marker]) = { rest := inside, stop := marker.position } := by
    simp [Cursor.ofTokens, isMarker]
  obtain ⟨c', parsed⟩ := parseTokens_ok h
  rw [start] at parsed
  obtain ⟨ps, ⟨bs, rfl, lines⟩, reads⟩ := Parser.sound_moduleBody.reads parsed
  have rest : c'.rest = [] := by
    have stopped := Parser.moduleBody_stops parsed
    cases left : c'.rest with
    | nil => rfl
    | cons t rest =>
      rw [Cursor.peek, left] at stopped
      have all : inside = _ := reads.rest
      rw [left] at all
      exact absurd stopped (text t (by rw [all]; simp))
  have all : inside = tokensOf ps ++ c'.rest := reads.rest
  rw [rest, List.append_nil] at all
  exact ⟨bs, ps, rfl, lines, all, reads.spelled, all ▸ reads.strings⟩

theorem parseTokens_reading {inside : List Token} {marker : Token} {b : Block}
    (isMarker : marker.kind = .endMarker) (text : ∀ t ∈ inside, t.kind ≠ .endMarker)
    (h : parseTokens (inside ++ [marker]) = .ok b) : ModuleReading b inside := by
  obtain ⟨bs, ps, rfl, lines, rfl, spelled, -⟩ := parseTokens_reads isMarker text h
  exact .intro lines spelled

theorem parseTokens_strings {inside : List Token} {marker : Token} {b : Block}
    (isMarker : marker.kind = .endMarker) (text : ∀ t ∈ inside, t.kind ≠ .endMarker)
    (h : parseTokens (inside ++ [marker]) = .ok b) : Token.strings inside = b.strings := by
  obtain ⟨bs, ps, rfl, lines, -, -, strings⟩ := parseTokens_reads isMarker text h
  rw [strings, stringsOf, lines.total_eq fun _ _ => ModuleLine.strings, Block.strings_flatten]

theorem parseModule_reading {source : Bytes} {b : Block} (h : parseModule source = .ok b) :
    ∃ inside marker, tokenize source = .ok (inside ++ [marker]) ∧ marker.kind = .endMarker ∧
      ModuleReading b inside := by
  obtain ⟨tokens, lexed, parsed⟩ := parseModule_ok h
  obtain ⟨inside, marker, rfl, isMarker, text⟩ := Lexer.tokenize_endMarker lexed
  exact ⟨inside, marker, lexed, isMarker, parseTokens_reading isMarker text parsed⟩

theorem parseTokens_wellFormed {tokens : List Token} {b : Block} (h : parseTokens tokens = .ok b) :
    b.WellFormed := by
  obtain ⟨c', parsed⟩ := parseTokens_ok h
  obtain ⟨ps, ⟨bs, rfl, lines⟩, reads⟩ := Parser.sound_moduleBody.reads parsed
  have reading : ModuleReading bs.flatten (tokensOf ps) := .intro lines reads.spelled
  exact reading.wellFormed

theorem parseTokens_wellFormed_conditions : ∃ tokens b,
    tokenize "if a < b: import c\nelif d and e: lambda p, q: \x7bp: q\x7d\n" = .ok tokens ∧
      parseTokens tokens = .ok b ∧ b.WellFormed := by
  obtain ⟨tokens, lexed, b, parsed⟩ : ∃ tokens,
      tokenize "if a < b: import c\nelif d and e: lambda p, q: \x7bp: q\x7d\n" = .ok tokens ∧
        ∃ b, parseTokens tokens = .ok b := by
    decide +kernel
  exact ⟨tokens, b, lexed, parsed, parseTokens_wellFormed parsed⟩

end CodeSmell
