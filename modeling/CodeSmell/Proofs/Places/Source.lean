import CodeSmell.Model.Module
import CodeSmell.Proofs.Lexer.LastLine
import CodeSmell.Proofs.Lexer.Places
import CodeSmell.Proofs.Places.Stmt

/-!
From the places of tokens to those of a source text: a line feed at the end of the text changes nothing
about its module, and an error stands at a place of the text.
-/

namespace CodeSmell

theorem Bytes.lineCount_lineFeed {source : Bytes} (nonempty : source ≠ [])
    (last : source.getLast? ≠ some Ascii.lineFeed) :
    (source ++ [Ascii.lineFeed]).lineCount = source.lineCount := by
  obtain ⟨b, found⟩ := Option.ne_none_iff_exists'.1 (mt List.getLast?_eq_none_iff.1 nonempty)
  have other : b ≠ Ascii.lineFeed := fun same => last (same ▸ found)
  simp [lineCount, found, other, List.count_append]

theorem parseModule_lineFeed {source : Bytes} {b : Block} (whole : source.continued = false)
    (h : parseModule source = .ok b) : parseModule (source ++ [Ascii.lineFeed]) = .ok b := by
  obtain ⟨ts, lexed, parsed⟩ := bind_eq_ok.1 h
  obtain ⟨us, lexed', same⟩ := Lexer.tokenize_lineFeed whole lexed
  obtain ⟨inside, marker, eq, isMarker, -⟩ := Lexer.tokenize_endMarker lexed
  have placed : List.Forall₂ (Token.Placed fun _ => True) ts us :=
    same.imp fun _ _ shifted => ⟨shifted, trivial⟩
  refine bind_eq_ok.2 ⟨us, lexed', ?_⟩
  rcases parseTokens_placed ⟨inside, marker, eq, isMarker⟩ placed with ⟨b', read, read'⟩ | ⟨e, failed, -⟩
  · exact read'.trans (read.symm.trans parsed)
  · cases failed.symm.trans parsed

theorem parseModule_error_place {source : Bytes} {e : SyntaxError} (h : parseModule source = .error e) :
    source.HasPlace e.position := by
  rcases bind_eq_error.1 h with unread | ⟨ts, lexed, refused⟩
  · exact Lexer.tokenize_error_place unread
  obtain ⟨inside, marker, eq, isMarker, -⟩ := Lexer.tokenize_endMarker lexed
  have placed : List.Forall₂ (Token.Placed source.HasPlace) ts ts :=
    List.forall₂_same.2 fun t mem => ⟨.refl t, Lexer.tokenize_places lexed t mem⟩
  rcases parseTokens_placed ⟨inside, marker, eq, isMarker⟩ placed with ⟨b, read, -⟩ | ⟨e', failed, place⟩
  · cases read.symm.trans refused
  · rwa [← Except.error.inj (failed.symm.trans refused)]

theorem ModuleError.attributed_path (e : SyntaxError) (path : Bytes) :
    (attributed { toSyntaxError := e } path).path = path := by
  unfold attributed
  cases path <;> rfl

theorem ModuleError.attributed_error (e : SyntaxError) (path : Bytes) :
    (attributed { toSyntaxError := e } path).toSyntaxError = e := by
  unfold attributed
  cases path <;> rfl

namespace ModuleModel

/-- A missing line feed at the end does not matter, unless the last line continues the one before. -/
theorem build_lineFeed {path source : Bytes} {m : ModuleModel} (nonempty : source ≠ [])
    (last : source.getLast? ≠ some Ascii.lineFeed) (whole : source.continued = false)
    (h : build path source = .ok m) : build path (source ++ [Ascii.lineFeed]) = .ok m := by
  obtain ⟨b, parsed, made⟩ := bind_eq_ok.1 (mapError_eq_ok.1 h)
  refine mapError_eq_ok.2 (bind_eq_ok.2 ⟨b, parseModule_lineFeed whole parsed, ?_⟩)
  rwa [Bytes.lineCount_lineFeed nonempty last]

def commentedBlock : Bytes := "if a:\n\tx = 1 \\\n\t+ 2\n\tf(x) # g"

theorem build_lineFeed_block : ∃ m, commentedBlock ≠ [] ∧
    commentedBlock.getLast? ≠ some Ascii.lineFeed ∧ commentedBlock.continued = false ∧
    build "m.py" commentedBlock = .ok m ∧ build "m.py" (commentedBlock ++ [Ascii.lineFeed]) = .ok m := by
  obtain ⟨m, built⟩ : ∃ m, build "m.py" commentedBlock = .ok m := by decide +kernel
  exact ⟨m, by decide, by decide, by decide, built,
    build_lineFeed (by decide) (by decide) (by decide) built⟩

/-- An error names the file, and stands behind the first `o` bytes of the text. -/
theorem build_error_place {path source : Bytes} {e : ModuleError} (h : build path source = .error e) :
    e.path = path ∧ ∃ o ≤ source.length,
      e.position.line = 1 + (source.take o).count Ascii.lineFeed ∧
      e.position.column = 1 + (Bytes.lastLine (source.take o)).length := by
  unfold build ofSource at h
  cases read : parseModule source with
  | ok b => rw [read] at h; cases h
  | error e' =>
    rw [read] at h
    obtain rfl := Except.error.inj h
    obtain ⟨before, first, position⟩ := parseModule_error_place read
    refine ⟨ModuleError.attributed_path e' path, before.length, first.length_le, ?_⟩
    rw [← List.prefix_iff_eq_take.1 first, ModuleError.attributed_error, position, Position.after_start]
    exact ⟨rfl, rfl⟩

def assignedCall : Bytes := "if a:\n  x, f() = b\n"

theorem build_error_place_target : ∃ e, build "m.py" assignedCall = .error e ∧
    e.path = "m.py" ∧ ∃ o ≤ assignedCall.length,
      e.position.line = 1 + (assignedCall.take o).count Ascii.lineFeed ∧
      e.position.column = 1 + (Bytes.lastLine (assignedCall.take o)).length := by
  obtain ⟨e, refused⟩ : ∃ e, build "m.py" assignedCall = .error e := by decide +kernel
  exact ⟨e, refused, build_error_place refused⟩

end ModuleModel

end CodeSmell
