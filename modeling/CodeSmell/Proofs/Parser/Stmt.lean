import CodeSmell.Proofs.Parser.Pattern

/-!
The rules of statements are sound: a block that a rule returns is a reading of the tokens that the
rule takes, with the lines of every statement. Rules are shown sound over a sound parser for nested
blocks; `sound_block` closes the recursion, and `reads_of_moduleBody` is about whole modules.
-/

namespace CodeSmell

/-! ## Lines -/

namespace Cursor

variable {c₀ c c' : Cursor} {ps lead main : List Piece}

theorem Reads.lastLine_of_text (h : c.Reads ps c') (text : ps.any Piece.hasText = true) (line : Int) :
    c'.lastLine = lastLineOf line (tokensOf ps) := by
  rw [h.lastLine]
  exact lastLineOf_of_text (text_of_spelled text h.spelled) _ _

theorem Reads.peek (h : c.Reads ps c') (some : tokensOf ps ≠ []) :
    c.peek = (tokensOf ps).headD default := by
  cases tokens : tokensOf ps with
  | nil => exact absurd tokens some
  | cons t rest => rw [Cursor.peek, h.rest, tokens]; rfl

theorem Reads.span (h : c.Reads main c') (text : main.any Piece.hasText = true) :
    spanOf (tokensOf main) = ⟨c.peek.position.line, max c.peek.position.line c'.lastLine⟩ := by
  obtain ⟨t, mem, -⟩ := text_of_spelled text h.spelled
  rw [spanOf, h.peek (List.ne_nil_of_mem mem), h.lastLine_of_text text]

theorem Reads.statement {form : StmtForm Stmt} (h₀ : c₀.Reads lead c) (h : c.Reads main c')
    (layer : form.Layer lead main) : c₀.Reads [.stmt ⟨⟨c.peek.position.line,
      max c.peek.position.line c'.lastLine⟩, form⟩ (tokensOf (lead ++ main))] c' := by
  have whole := h₀.trans h
  rw [← h.span layer.hasText]
  refine ⟨by simpa [Piece.tokens] using whole.rest, whole.stop,
    by simpa [Piece.tokens] using whole.lastLine, fun p mem => ?_, ?_,
    by simpa [Piece.tokens] using whole.apart⟩
  · rw [List.mem_singleton.1 mem]
    exact .intro layer (fun e ts mem => whole.spelled _ mem) fun s ts mem => whole.spelled _ mem
  · rw [stringsOf_stmt, ← layer.strings, ← whole.strings]
    simp [Piece.tokens]

end Cursor

namespace Parser

open Cursor

variable {c c' : Cursor}

theorem linesFrom_ok {line : Int} {lines : LineRange} :
    linesFrom line c = .ok (lines, c') ↔ ⟨line, max line c.lastLine⟩ = lines ∧ c = c' := by
  simp only [linesFrom, bind_ok, lastLine_ok, pure_ok]
  constructor
  · rintro ⟨_, _, ⟨rfl, rfl⟩, rfl, rfl⟩
    exact ⟨rfl, rfl⟩
  · rintro ⟨rfl, rfl⟩
    exact ⟨_, _, ⟨rfl, rfl⟩, rfl, rfl⟩

theorem finish_ok {start : Token} {form : StmtForm Stmt} {s : Stmt} : finish start form c = .ok (s, c') ↔
    ⟨⟨start.position.line, max start.position.line c.lastLine⟩, form⟩ = s ∧ c = c' := by
  simp only [finish, bind_ok, linesFrom_ok, pure_ok]
  constructor
  · rintro ⟨_, _, ⟨rfl, rfl⟩, rfl, rfl⟩
    exact ⟨rfl, rfl⟩
  · rintro ⟨rfl, rfl⟩
    exact ⟨_, _, ⟨rfl, rfl⟩, rfl, rfl⟩

/-! ## Simple statements -/

theorem sound_exprOrYield : Sound exprOrYield IsExpr := by
  intro c x c' _ eq
  simp only [exprOrYield, bind_ok, test_ok, ite_ok] at eq
  obtain ⟨_, _, ⟨-, rfl⟩, ⟨-, eq⟩ | ⟨-, eq⟩⟩ := eq
  · exact (sound_yieldExpr sound_parse).reads eq
  · exact (sound_parse .starExprs).reads eq

def after {α : Type} (lead : Parser Bool) (item : Parser α) : Parser (Option α) := do
  if ← lead then some <$> item else pure none

theorem bind_bind {α β γ : Type} {p : Parser α} {f : α → Parser β} {g : β → Parser γ} :
    p >>= f >>= g = p >>= fun x => f x >>= g := by
  funext c
  simp only [bind]
  cases p c <;> rfl

theorem after_bind {α β : Type} {lead : Parser Bool} {item : Parser α} {k : Option α → Parser β} :
    (lead >>= fun b => if b = true then some <$> item >>= k else pure none >>= k) =
      after lead item >>= k := by
  rw [after, bind_bind]
  congr 1
  funext b
  cases b <;> rfl

theorem sound_after {α : Type} {q : Cursor → Bool} {lead : Token → Bool} {item : Parser α}
    {W : α → List Piece → Prop} (leads : ∀ c, q c = lead c.peek)
    (single : ∀ t, lead t = true → t.kind.Single) (h : Sound item W) :
    Sound (after (accept q) item) (Optionally (Led W lead)) := by
  intro c x c' _ eq
  simp only [after, bind_ok, ite_ok, map_ok, pure_ok, Bool.not_eq_true] at eq
  obtain ⟨b, c₁, accepted, ⟨rfl, x, eq, rfl⟩ | ⟨rfl, rfl, rfl⟩⟩ := eq
  · obtain ⟨holds, rfl⟩ := accept_ok.1 accepted
    rw [leads] at holds
    obtain ⟨ps, one, reads⟩ := h.reads eq
    exact ⟨_, .some (.intro holds one), (Reads.advance (single _ holds)).trans reads⟩
  · obtain rfl := eq_of_refused accepted
    exact ⟨_, .none, .refl _⟩

theorem sound_afterOperator? {α : Type} {text : Bytes} {item : Parser α}
    {W : α → List Piece → Prop} (h : Sound item W) :
    Sound (after (acceptOperator text) item) (Optionally (Led W (·.isOperator text))) :=
  sound_after (fun _ => rfl) (fun t is => by rw [kind_of_isOperator is]; decide) h

theorem sound_afterKeyword? {α : Type} {text : Bytes} {item : Parser α}
    {W : α → List Piece → Prop} (h : Sound item W) :
    Sound (after (acceptKeyword text) item) (Optionally (Led W (·.isKeyword text))) :=
  sound_after (fun _ => rfl) (fun t is => by rw [kind_of_isKeyword is]; decide) h

theorem reads_of_targetLoop (bound : Nat) : ∀ {c₀ c : Cursor} {value : Expr} {ts : List Token}
    {values : List Expr}, c₀.Reads [.expr value ts] c →
    expressionStatement.targetLoop bound value c = .ok (values, c') →
    ∃ targets last us ps, values = targets ++ [last] ∧ Repeated Assigned targets ps ∧
      c₀.Reads (ps ++ [.expr last us]) c' := by
  induction bound with
  | zero => exact fun _ eq => (fail_ok.1 eq).elim
  | succ bound ih =>
    intro c₀ c value ts values first eq
    simp only [expressionStatement.targetLoop, bind_ok, test_ok, ite_ok, checkTarget_ok, advance_ok,
      pure_ok] at eq
    obtain ⟨b, _, ⟨equals, rfl⟩, ⟨rfl, _, _, ⟨good, rfl⟩, _, _, ⟨rfl, rfl⟩, next, c₁, eq, others, c₂,
      more, rfl, rfl⟩ | ⟨-, rfl, rfl⟩⟩ := eq
    · obtain ⟨_, ⟨⟩, reads⟩ := sound_exprOrYield.reads eq
      obtain ⟨targets, last, us, ps, rfl, run, reads'⟩ := ih reads more
      exact ⟨value :: targets, last, us, _, rfl, .cons (.intro good equals) run,
        (first.trans (Reads.operator equals)).trans reads'⟩
    · exact ⟨[], value, ts, [], rfl, .nil, first⟩

theorem sound_expressionStatement : Sound expressionStatement fun form ps => form.Layer [] ps := by
  intro c x c' _ eq
  simp only [expressionStatement, after_bind, bind_ok, ite_ok, failAt_ok, pure_ok, and_false, false_or,
    Bool.not_eq_true] at eq
  obtain ⟨first, c₁, eq, b, c₂, colon, eq'⟩ := eq
  obtain ⟨_, @⟨ts⟩, reads₁⟩ := sound_exprOrYield.reads eq
  rcases eq' with ⟨rfl, target, annotation, c₃, eq, value, c₄, eq', rfl, rfl⟩ | ⟨rfl, eq'⟩
  · obtain ⟨t, isColon, reads₂⟩ := reads_of_acceptOperator colon
    obtain ⟨_, ⟨⟩, reads₃⟩ := (sound_parse .test).reads eq
    obtain ⟨ps, value, reads₄⟩ := (sound_afterOperator? sound_exprOrYield).reads eq'
    exact ⟨_, .annAssign (by simpa using target) isColon value,
      reads₁.trans (reads₂.trans (reads₃.trans reads₄))⟩
  obtain rfl := eq_of_refused colon
  simp only [peek_ok] at eq'
  obtain ⟨_, _, ⟨rfl, rfl⟩, eq'⟩ := eq'
  cases augmented : c₁.peek.augmentedOp? with
  | some op =>
    simp only [augmented, ite_ok, bind_ok, failAt_ok, advance_ok, pure_ok, and_false, false_or] at eq'
    obtain ⟨target, _, _, ⟨rfl, rfl⟩, value, c₂, eq, rfl, rfl⟩ := eq'
    obtain ⟨_, ⟨⟩, reads₂⟩ := sound_exprOrYield.reads eq
    exact ⟨_, .augAssign (by simpa using target) augmented,
      reads₁.trans ((Reads.operator (Token.isOperator_of_augmentedOp? augmented)).trans reads₂)⟩
  | none =>
    simp only [augmented, bind_ok, test_ok, ite_ok, pure_ok, expressionStatement.assignment,
      checkTarget_ok, advance_ok] at eq'
    obtain ⟨b, _, ⟨equals, rfl⟩, ⟨rfl, _, _, ⟨good, rfl⟩, _, _, ⟨rfl, rfl⟩, second, c₂, eq, more⟩ |
      ⟨-, rfl, rfl⟩⟩ := eq'
    · obtain ⟨values, c₃, loop, same⟩ := bind_ok.1 more
      obtain ⟨rfl, rfl⟩ := pure_ok.1 same
      obtain ⟨_, ⟨⟩, reads₂⟩ := sound_exprOrYield.reads eq
      obtain ⟨targets, last, us, ps, rfl, run, reads₃⟩ := reads_of_targetLoop _ reads₂ loop
      have all : Repeated Assigned (first :: targets)
          ([.expr first ts, .token c₁.peek] ++ ps) := .cons (.intro good equals) run
      refine ⟨_, ?_, (reads₁.trans (Reads.operator equals)).trans reads₃⟩
      rw [← List.cons_append, List.dropLast_concat, List.getLast?_concat, Option.getD_some]
      exact .assign (List.cons_ne_nil _ _) all
    · exact ⟨_, .expression, reads₁⟩

theorem sound_name : Sound (Token.text <$> expectName) IsName := by
  intro c x c' _ eq
  obtain ⟨t, eq', rfl⟩ := map_ok.1 eq
  obtain ⟨isName, reads⟩ := reads_of_expectName eq'
  exact ⟨_, .intro isName, reads⟩

theorem sound_dottedName : Sound dottedName DottedName := by
  intro c x c' _ eq
  simp only [dottedName, bind_ok, pure_ok] at eq
  obtain ⟨t, c₁, eq, names, c₂, more, rfl, rfl⟩ := eq
  obtain ⟨isName, reads₁⟩ := reads_of_expectName eq
  have dotted : SoundWhen (·.atOperator "." = true) (do let _ ← advance; Token.text <$> expectName)
      (Led IsName (·.isOperator ".")) := by
    intro c x c' dot eq
    simp only [bind_ok, advance_ok] at eq
    obtain ⟨_, _, ⟨rfl, rfl⟩, eq⟩ := eq
    obtain ⟨ps, one, reads⟩ := sound_name.reads eq
    exact ⟨_, .intro dot one, (Reads.operator dot).trans reads⟩
  obtain ⟨ps, run, reads₂⟩ := (sound_many dotted).reads more
  exact ⟨_, .intro isName run, reads₁.trans reads₂⟩

theorem sound_nameAfter {keyword : Bytes} : Sound (nameAfter keyword) (NameAfter keyword) := by
  intro c x c' _ eq
  simp only [nameAfter, bind_ok, ite_ok, map_ok, pure_ok, Bool.not_eq_true] at eq
  obtain ⟨b, c₁, accepted, ⟨rfl, t, eq, rfl⟩ | ⟨rfl, rfl, rfl⟩⟩ := eq
  · obtain ⟨u, isKeyword, reads⟩ := reads_of_acceptKeyword accepted
    obtain ⟨isName, reads'⟩ := reads_of_expectName eq
    exact ⟨_, .present isKeyword isName, reads.trans reads'⟩
  · obtain rfl := eq_of_refused accepted
    exact ⟨_, .absent, .refl _⟩

theorem sound_importItem {name : Parser Bytes} {W : Bytes → List Piece → Prop} (h : Sound name W) :
    Sound (importItem name) (Alias.Layer W) := by
  intro c x c' _ eq
  simp only [importItem, bind_ok, pure_ok] at eq
  obtain ⟨name, c₁, eq, asName, c₂, eq', rfl, rfl⟩ := eq
  obtain ⟨ps, one, reads⟩ := h.reads eq
  obtain ⟨qs, as, reads'⟩ := sound_nameAfter.reads eq'
  exact ⟨_, .intro one as, reads.trans reads'⟩

theorem sound_moduleName : Sound moduleName ModuleName := by
  intro c x c' _ eq
  simp only [moduleName, bind_ok, test_ok, ite_ok, fail_ok, pure_ok, and_false, false_or] at eq
  obtain ⟨dots, c₁, eq, _, _, ⟨-, rfl⟩, eq'⟩ := eq
  have dot : SoundWhen (fun c => (c.atOperator "." || c.atOperator "...") = true) advance
      fun t ps => (t.isOperator "." = true ∨ t.isOperator "..." = true) ∧ ps = [.token t] := by
    intro c t c' dot eq
    obtain ⟨rfl, rfl⟩ := advance_ok.1 eq
    have dot := Bool.or_eq_true_iff.1 dot
    refine ⟨_, ⟨dot, rfl⟩, .advance ?_⟩
    rcases dot with dot | dots
    · rw [kind_of_isOperator dot]; decide
    · rw [kind_of_isOperator dots]; decide
  obtain ⟨ps, run, reads⟩ := (sound_many dot).reads eq
  obtain ⟨all, rfl⟩ := run.tokens
  rcases eq' with ⟨-, name, c₂, eq, some, rfl, rfl⟩ | ⟨-, _, _, ⟨rfl, rfl⟩, some, rfl, rfl⟩
  · obtain ⟨ps, one, reads'⟩ := sound_dottedName.reads eq
    have named : ModuleName (_ ++ name) _ :=
      @ModuleName.intro _ (Option.some name) _ all (.some one) (mt List.isEmpty_iff.2 some)
    exact ⟨_, named, reads.trans reads'⟩
  · have dotted : ModuleName (_ ++ []) _ :=
      @ModuleName.intro _ none _ all .none (mt List.isEmpty_iff.2 some)
    exact ⟨_, dotted, reads.trans (.refl _)⟩

/-! The forms below come after a keyword that has been taken. -/

theorem sound_importedNames : Sound importFrom fun form ps => ∀ t : Token, t.isKeyword "from" →
    form.Layer [] (.token t :: ps) := by
  intro c x c' _ eq
  simp only [importFrom, bind_ok, ite_ok, map_ok, fail_ok, pure_ok, and_false, false_or,
    Bool.not_eq_true] at eq
  obtain ⟨module, c₁, eq, u, c₂, import_, b, c₃, star, eq'⟩ := eq
  obtain ⟨ps, name, reads₁⟩ := sound_moduleName.reads eq
  obtain ⟨isImport, reads₂⟩ := reads_of_expectKeyword import_
  have item := sound_importItem sound_name
  rcases eq' with ⟨rfl, rfl, rfl⟩ | ⟨rfl, b, c₄, paren, eq'⟩
  · obtain ⟨u, isStar, reads₃⟩ := reads_of_acceptOperator star
    exact ⟨_, fun t isFrom => .importFrom isFrom name isImport (.star isStar),
      reads₁.trans (reads₂.trans reads₃)⟩
  obtain rfl := eq_of_refused star
  rcases eq' with ⟨rfl, names, c₅, eq, closing, c₆, close, some, rfl, rfl⟩ | ⟨rfl, names, eq, rfl⟩
  · obtain ⟨u, isOpening, reads₃⟩ := reads_of_acceptOperator paren
    obtain ⟨qs, list, reads₄⟩ := (sound_commaList item).reads eq
    obtain ⟨isClosing, reads₅⟩ := reads_of_expectOperator close
    have some : names ≠ [] := by simpa using some
    exact ⟨_, fun t isFrom => .importFrom isFrom name isImport (.grouped some isOpening list isClosing),
      reads₁.trans (reads₂.trans (reads₃.trans (reads₄.trans reads₅)))⟩
  · obtain rfl := eq_of_refused paren
    obtain ⟨qs, ⟨some, list⟩, reads₃⟩ := (sound_commaSeparated item).reads eq
    exact ⟨_, fun t isFrom => .importFrom isFrom name isImport (.plain some list),
      reads₁.trans (reads₂.trans reads₃)⟩

theorem sound_deletion : Sound deletion fun form ps => ∀ t : Token, t.isKeyword "del" →
    form.Layer [] (.token t :: ps) := by
  intro c x c' _ eq
  simp only [deletion, bind_ok (α := List Expr), ite_ok, fail_ok, pure_ok, and_false, false_or] at eq
  obtain ⟨targets, c₁, eq, some, rfl, rfl⟩ := eq
  have target : Sound (do let target ← Rule.binary.parse; checkTarget target; pure target) Deleted := by
    intro c x c' _ eq
    simp only [bind_ok, checkTarget_ok, pure_ok] at eq
    obtain ⟨target, c₁, eq, _, _, ⟨good, rfl⟩, rfl, rfl⟩ := eq
    obtain ⟨_, ⟨⟩, reads⟩ := (sound_parse .binary).reads eq
    exact ⟨_, .intro good, reads⟩
  obtain ⟨ps, list, reads⟩ := (sound_commaList target).reads eq
  exact ⟨_, fun t isDel => .delete isDel (by simpa using some) list, reads⟩

theorem sound_raising : Sound raising fun form ps => ∀ t : Token, t.isKeyword "raise" →
    form.Layer [] (.token t :: ps) := by
  intro c x c' _ eq
  simp only [raising, bind_ok, test_ok, ite_ok, pure_ok] at eq
  obtain ⟨_, _, ⟨-, rfl⟩, ⟨-, rfl, rfl⟩ | ⟨-, e, c₁, eq, cause, c₂, eq', rfl, rfl⟩⟩ := eq
  · exact ⟨_, fun t isRaise => .raise isRaise .absent, .refl _⟩
  · obtain ⟨_, ⟨⟩, reads⟩ := (sound_parse .test).reads eq
    obtain ⟨ps, cause, reads'⟩ := (sound_afterKeyword? (sound_parse .test)).reads eq'
    exact ⟨_, fun t isRaise => .raise isRaise (.present cause), reads.trans reads'⟩

theorem sound_assertion : Sound assertion fun form ps => ∀ t : Token, t.isKeyword "assert" →
    form.Layer [] (.token t :: ps) := by
  intro c x c' _ eq
  simp only [assertion, after_bind, bind_ok, pure_ok] at eq
  obtain ⟨test, c₁, eq, message, c₂, eq', rfl, rfl⟩ := eq
  obtain ⟨_, ⟨⟩, reads⟩ := (sound_parse .test).reads eq
  obtain ⟨ps, message, reads'⟩ := (sound_afterOperator? (sound_parse .test)).reads eq'
  exact ⟨_, fun t isAssert => .assert isAssert message, reads.trans reads'⟩

theorem sound_keywordForm {text : Bytes} {form other : Parser (StmtForm Stmt)}
    (h : Sound form fun form ps => ∀ t : Token, t.isKeyword text → form.Layer [] (.token t :: ps))
    (h' : Sound other fun form ps => form.Layer [] ps) :
    Sound (do if ← acceptKeyword text then form else other) fun form ps => form.Layer [] ps := by
  intro c x c' _ eq
  simp only [bind_ok, ite_ok, Bool.not_eq_true] at eq
  obtain ⟨b, c₁, keyword, ⟨rfl, eq⟩ | ⟨rfl, eq⟩⟩ := eq
  · obtain ⟨t, isKeyword, reads⟩ := reads_of_acceptKeyword keyword
    obtain ⟨ps, layer, reads'⟩ := h.reads eq
    exact ⟨_, layer t isKeyword, reads.trans reads'⟩
  · obtain rfl := eq_of_refused keyword
    exact h'.reads eq

theorem sound_map {α β : Type} {item : Parser α} {W : α → List Piece → Prop} {f : α → β}
    {V : β → List Piece → Prop} (h : Sound item W) (map : ∀ x ps, W x ps → V (f x) ps) :
    Sound (f <$> item) V := by
  intro c x c' _ eq
  obtain ⟨x, eq', rfl⟩ := map_ok.1 eq
  obtain ⟨ps, one, reads⟩ := h.reads eq'
  exact ⟨ps, map x ps one, reads⟩

theorem sound_pure {α : Type} {x : α} {W : α → List Piece → Prop} (h : W x []) :
    Sound (pure x : Parser α) W := by
  intro c y c' _ eq
  obtain ⟨rfl, rfl⟩ := pure_ok.1 eq
  exact ⟨[], h, .refl c⟩

theorem sound_simpleForm : Sound simpleForm fun form ps => form.Layer [] ps := by
  refine sound_keywordForm (sound_pure fun t isPass => .pass isPass) ?_
  refine sound_keywordForm (sound_pure fun t isBreak => .breakLoop isBreak) ?_
  refine sound_keywordForm (sound_pure fun t isContinue => .continueLoop isContinue) ?_
  refine sound_keywordForm (sound_map (sound_optionalRule sound_parse _ .starExprs)
    fun _ _ value t isReturn => .ret isReturn value) ?_
  refine sound_keywordForm sound_raising ?_
  refine sound_keywordForm (sound_map (sound_commaSeparated sound_name)
    fun _ _ names t isGlobal => .scope isGlobal names.1 names.2) ?_
  refine sound_keywordForm (sound_map (sound_commaSeparated sound_name)
    fun _ _ names t isNonlocal => .scope isNonlocal names.1 names.2) ?_
  refine sound_keywordForm sound_deletion ?_
  refine sound_keywordForm sound_assertion ?_
  refine sound_keywordForm (sound_map (sound_commaSeparated (sound_importItem sound_dottedName))
    fun _ _ names t isImport => .importNames isImport names.1 names.2) ?_
  exact sound_keywordForm sound_importedNames sound_expressionStatement

theorem sound_simpleStatement : Sound simpleStatement IsStmt := by
  intro c x c' _ eq
  simp only [simpleStatement, bind_ok, peek_ok, finish_ok] at eq
  obtain ⟨_, _, ⟨rfl, rfl⟩, form, c₁, eq, rfl, rfl⟩ := eq
  obtain ⟨ps, layer, reads⟩ := sound_simpleForm.reads eq
  exact ⟨_, .intro, (Reads.refl c).statement reads layer⟩

theorem yields_expressionStatement : Yields expressionStatement (·.isSimple) := by
  refine .bind fun first => .bind fun colon => .ite (.ite .failAt ?_) (.bind fun t => ?_)
  · exact .bind fun _ => .bind fun _ => .ite (.bind fun _ => .pure rfl) (.bind fun _ => .pure rfl)
  · split
    · exact .ite .failAt (.bind fun _ => .bind fun _ => .pure rfl)
    · refine .bind fun equals => .ite ?_ (.pure rfl)
      exact .bind fun _ => .bind fun _ => .bind fun _ => .bind fun _ => .pure rfl

theorem yields_simpleForm : Yields simpleForm (·.isSimple) := by
  have importing : Yields importFrom (·.isSimple) :=
    .bind fun _ => .bind fun _ => .bind fun _ => .ite (.pure rfl) (.bind fun _ => .ite
      (.bind fun _ => .bind fun _ => .ite .fail (.pure rfl)) (.map fun _ => rfl))
  have deleting : Yields deletion (·.isSimple) := .bind fun _ => .ite .fail (.pure rfl)
  have raises : Yields raising (·.isSimple) :=
    .bind fun _ => .ite (.pure rfl) (.bind fun _ => .bind fun _ => .pure rfl)
  have asserts : Yields assertion (·.isSimple) :=
    .bind fun _ => .bind fun _ => .ite (.bind fun _ => .pure rfl) (.bind fun _ => .pure rfl)
  refine .bind fun _ => .ite (.pure rfl) (.bind fun _ => .ite (.pure rfl) (.bind fun _ => .ite
    (.pure rfl) (.bind fun _ => .ite (.map fun _ => rfl) (.bind fun _ => .ite raises ?_))))
  refine .bind fun _ => .ite (.map fun _ => rfl) (.bind fun _ => .ite (.map fun _ => rfl) ?_)
  refine .bind fun _ => .ite deleting (.bind fun _ => .ite asserts (.bind fun _ => .ite
    (.map fun _ => rfl) (.bind fun _ => .ite importing yields_expressionStatement)))

theorem yields_finish {start : Token} {form : StmtForm Stmt} {P : StmtForm Stmt → Prop} (h : P form) :
    Yields (finish start form) fun s => P s.form :=
  .bind fun _ => .pure h

theorem yields_simpleLine : Yields simpleLine fun b => ∀ s ∈ b, s.form.isSimple := by
  have one : Yields simpleStatement (·.form.isSimple) := by
    intro c s c' eq
    simp only [simpleStatement, bind_ok, peek_ok] at eq
    obtain ⟨_, _, ⟨rfl, rfl⟩, form, c₁, read, eq⟩ := eq
    exact yields_finish (P := (·.isSimple)) (yields_simpleForm c form c₁ read) c₁ s c' eq
  intro c b c' eq
  simp only [simpleLine, bind_ok, pure_ok] at eq
  obtain ⟨first, c₁, first_ok, others, c₂, more, _, c₃, -, rfl, rfl⟩ := eq
  exact List.forall_mem_cons.2 ⟨one c first c₁ first_ok, Yields.separatedTail one c₁ others c₂ more⟩

theorem sound_simpleLine : Sound simpleLine Simple := by
  intro c x c' _ eq
  have noElif : ∀ s ∈ x, s.isElif = false :=
    fun s mem => StmtForm.isElif_of_isSimple (yields_simpleLine c x c' eq s mem)
  simp only [simpleLine, bind_ok, pure_ok] at eq
  obtain ⟨first, c₁, eq, others, c₂, more, _, c₃, lineEnd, rfl, rfl⟩ := eq
  obtain ⟨_, @⟨ts⟩, reads₁⟩ := sound_simpleStatement.reads eq
  obtain ⟨qs, tail, reads₂⟩ := (sound_separatedTail sound_simpleStatement).reads more
  obtain ⟨es, ends, reads₃⟩ := reads_of_endStatement lineEnd
  have list : Separated IsStmt ";" (first :: others) ([.stmt first ts] ++ qs) := .cons .intro tail
  exact ⟨_, .intro (List.cons_ne_nil _ _) list ends noElif, (reads₁.trans reads₂).trans reads₃⟩

theorem sound_withItem : Sound withItem WithItem.Layer := by
  intro c x c' _ eq
  simp only [withItem, bind_ok, ite_ok, checkTarget_ok, pure_ok, Bool.not_eq_true] at eq
  obtain ⟨context, c₁, eq, b, c₂, as, eq'⟩ := eq
  obtain ⟨_, ⟨⟩, reads₁⟩ := (sound_parse .test).reads eq
  rcases eq' with ⟨rfl, target, c₃, eq, _, _, ⟨good, rfl⟩, rfl, rfl⟩ | ⟨rfl, rfl, rfl⟩
  · obtain ⟨t, isAs, reads₂⟩ := reads_of_acceptKeyword as
    obtain ⟨_, @⟨ts⟩, reads₃⟩ := (sound_parse .binary).reads eq
    have led : Led IsExpr (·.isKeyword "as") target [.token t, .expr target ts] := .intro isAs .intro
    exact ⟨_, .intro (.some led) (by simpa using good), reads₁.trans (reads₂.trans reads₃)⟩
  · obtain rfl := eq_of_refused as
    exact ⟨_, .intro .none nofun, reads₁⟩

theorem not_groupsItems_empty {t u : Token} {rest : List Token} (opening : t.isOperator "(" = true)
    (closing : u.isOperator ")" = true) : groupsItems 0 false (t :: u :: rest) = false := by
  have symbols : u.isOperator "(" = false ∧ u.isOperator "[" = false ∧
      u.isOperator "\x7b" = false := by
    obtain ⟨kind, text⟩ := Token.isOperator_iff.1 closing
    simp only [Token.isOperator, kind, text]
    decide
  simp [groupsItems, kind_of_isOperator opening, kind_of_isOperator closing, opening, closing, symbols]

theorem groupedItems_nonempty {items : List WithItem} (start : atGroupedItems c = true)
    (eq : commaList (·.atOperator ")") withItem c.advance = .ok (items, c')) : items ≠ [] := by
  simp only [commaList, bind_ok, test_ok, ite_ok, pure_ok] at eq
  obtain ⟨b, _, ⟨closing, rfl⟩, ⟨rfl, -⟩ | ⟨-, x, c₁, -, xs, c₂, -, rfl, -⟩⟩ := eq
  · obtain ⟨opening, groups⟩ := Bool.and_eq_true_iff.1 start
    have taken := (Reads.operator opening).rest
    cases rest : c.advance.rest with
    | nil => simp [atOperator, Cursor.peek, rest, Token.isOperator, endMarker] at closing
    | cons u us =>
      rw [taken, rest] at groups
      have closing : u.isOperator ")" = true := by simpa [atOperator, Cursor.peek, rest] using closing
      rw [show tokensOf [.token c.peek] ++ u :: us = c.peek :: u :: us from rfl,
        not_groupsItems_empty opening closing] at groups
      cases groups
  · exact List.cons_ne_nil x xs

/-! ## Compound statements -/

section Statements

variable {block : Parser Block} (sound : Sound block Block.Layer)

include sound

theorem sound_branch {keyword : Bytes} : SoundWhen (·.atKeyword keyword = true) (branch block)
    fun (line, test, body) ps => ∃ (t : Token) (ts : List Token) (bs : List Piece),
      t.isKeyword keyword = true ∧ line = t.position.line ∧ Block.Layer body bs ∧
        ps = .token t :: .expr test ts :: bs := by
  intro c x c' start eq
  simp only [branch, bind_ok, advance_ok, pure_ok] at eq
  obtain ⟨_, _, ⟨rfl, rfl⟩, test, c₁, eq, body, c₂, eq', rfl, rfl⟩ := eq
  obtain ⟨_, @⟨ts⟩, reads₁⟩ := (sound_parse .named).reads eq
  obtain ⟨bs, layer, reads₂⟩ := sound.reads eq'
  exact ⟨_, ⟨_, ts, bs, start, rfl, layer, rfl⟩, (Reads.keyword start).trans (reads₁.trans reads₂)⟩

theorem sound_blockAfter {keyword : Bytes} : Sound (blockAfter block keyword) (Branch keyword) := by
  intro c x c' _ eq
  simp only [blockAfter, bind_ok, ite_ok, pure_ok, Bool.not_eq_true] at eq
  obtain ⟨b, c₁, accepted, ⟨rfl, eq⟩ | ⟨rfl, rfl, rfl⟩⟩ := eq
  · obtain ⟨t, isKeyword, reads⟩ := reads_of_acceptKeyword accepted
    obtain ⟨bs, layer, reads'⟩ := sound.reads eq
    exact ⟨_, .present isKeyword layer, reads.trans reads'⟩
  · obtain rfl := eq_of_refused accepted
    exact ⟨_, .absent, .refl _⟩

omit sound in
/-- The later conditions of a chain, the last one first: each is a statement in the place of the
block after `else`. All of them end where the chain ends. -/
theorem orElse_of_elifs {elifs : List (Int × Expr × Block)} {orelse : Block} {ps es : List Piece}
    (run : Repeated (fun (line, test, body) ps => ∃ (t : Token) (ts : List Token) (bs : List Piece),
      t.isKeyword "elif" = true ∧ line = t.position.line ∧ Block.Layer body bs ∧
        ps = .token t :: .expr test ts :: bs) elifs ps)
    (rest : OrElse orelse es) {last : Int} :
    ∀ {line : Int}, last = lastLineOf line (tokensOf (ps ++ es)) → (∀ p ∈ ps ++ es, p.Spelled) →
      ∃ qs, OrElse (elifs.foldr (fun (line, test, body) orelse =>
          [⟨⟨line, max line last⟩, .cond test body orelse true⟩]) orelse) qs ∧
        tokensOf qs = tokensOf (ps ++ es) ∧ (∀ q ∈ qs, q.Spelled) ∧
          stringsOf qs = stringsOf (ps ++ es) := by
  induction run with
  | nil => exact fun _ spelled => ⟨es, rest, rfl, spelled, rfl⟩
  | @cons elif elifs ps ps' one _ ih =>
    intro line ends spelled
    obtain ⟨t, ts, bs, isElif, same, layer, rfl⟩ := one
    rw [List.append_assoc] at ends spelled ⊢
    have spelled' := fun p mem => spelled p (List.mem_append_right _ mem)
    rw [tokensOf_append, lastLineOf_append] at ends
    obtain ⟨qs, orelse, tokens, spelledRest, strings⟩ := ih ends spelled'
    let main := .token t :: .expr elif.2.1 ts :: (bs ++ qs)
    have cond : StmtForm.Layer (.cond elif.2.1 elif.2.2 _ true) [] main := .cond isElif layer orelse
    have whole : tokensOf main =
        tokensOf (.token t :: .expr elif.2.1 ts :: bs) ++ tokensOf (ps' ++ es) := by
      simp [main, tokens]
    have spelledMain : ∀ p ∈ main, p.Spelled := by
      intro p mem
      rw [show main = (.token t :: .expr elif.2.1 ts :: bs) ++ qs from rfl] at mem
      exact (List.mem_append.1 mem).elim (fun mem => spelled p (List.mem_append_left _ mem))
        (spelledRest p)
    have span : spanOf (tokensOf main) = ⟨elif.1, max elif.1 last⟩ := by
      rw [ends, ← lastLineOf_append, ← whole, same,
        lastLineOf_of_text (text_of_spelled cond.hasText spelledMain) line 0]
      rfl
    have reading := Stmt.Reading.intro cond (fun _ _ mem => spelledMain _ mem)
      fun _ _ mem => spelledMain _ mem
    rw [span] at reading
    refine ⟨[.stmt _ (tokensOf main)], .elif, ?_, fun q mem => ?_, ?_⟩
    · rw [tokensOf_append, ← whole]
      exact List.append_nil _
    · rw [List.mem_singleton.1 mem]
      exact reading
    · rw [stringsOf_stmt, stringsOf_nil, add_zero, ← cond.strings, List.nil_append,
        stringsOf_append, ← strings, ← stringsOf_append]
      rfl

theorem sound_conditionChain : SoundWhen (·.atKeyword "if" = true) (conditionChain block) IsStmt := by
  intro c x c' start eq
  simp only [conditionChain, bind_ok, lastLine_ok, pure_ok] at eq
  obtain ⟨⟨line, test, body⟩, c₁, eq, elifs, c₂, more, orelse, c₃, other, _, _, ⟨rfl, rfl⟩, rfl, rfl⟩ := eq
  obtain ⟨ps, ⟨t, ts, bs, isIf, rfl, layer, rfl⟩, reads₁⟩ := sound_branch sound c _ c₁ start eq
  obtain ⟨qs, run, reads₂⟩ := (sound_many (sound_branch sound)).reads more
  obtain ⟨es, branch, reads₃⟩ := (sound_blockAfter sound).reads other
  have rest := reads₂.trans reads₃
  obtain ⟨rs, orelse, tokens, spelled, strings⟩ :=
    orElse_of_elifs run (.branch branch) rest.lastLine rest.spelled
  have rest : c₁.Reads rs c₃ :=
    ⟨by rw [tokens]; exact rest.rest, rest.stop, by rw [tokens]; exact rest.lastLine, spelled,
      by rw [tokens, strings]; exact rest.strings, by rw [tokens]; exact rest.apart⟩
  have cond : StmtForm.Layer (.cond test body _ false) [] (.token t :: .expr test ts :: (bs ++ rs)) :=
    .cond isIf layer orelse
  have whole := (Reads.refl c).statement (reads₁.trans rest) cond
  rw [reads₁.peek (by simp [Piece.tokens])] at whole
  exact ⟨_, .intro, whole⟩

theorem sound_whileStatement : SoundWhen (·.atKeyword "while" = true)
    (fun c => whileStatement block c.peek c) IsStmt := by
  intro c x c' _ eq
  simp only [whileStatement, bind_ok, finish_ok] at eq
  obtain ⟨t, c₁, start, test, c₂, eq₁, body, c₃, eq₂, orelse, c₄, eq₃, rfl, rfl⟩ := eq
  obtain ⟨isWhile, reads₁⟩ := reads_of_expectKeyword start
  obtain ⟨_, @⟨ts⟩, reads₂⟩ := (sound_parse .named).reads eq₁
  obtain ⟨bs, layer, reads₃⟩ := sound.reads eq₂
  obtain ⟨es, other, reads₄⟩ := (sound_blockAfter sound).reads eq₃
  have form : StmtForm.Layer (.whileLoop test body orelse) []
    (.token t :: .expr test ts :: (bs ++ es)) := .whileLoop isWhile layer other
  exact ⟨_, .intro,
    (Reads.refl c).statement (reads₁.trans (reads₂.trans (reads₃.trans reads₄))) form⟩

theorem reads_of_forStatement {c₀ : Cursor} {isAsync : Bool} {lead : List Piece} {s : Stmt}
    (async : Marked (·.isKeyword "async") isAsync lead)
    (before : c₀.Reads lead c) (eq : forStatement block isAsync c = .ok (s, c')) :
    ∃ ps, IsStmt s ps ∧ c₀.Reads ps c' := by
  simp only [forStatement, bind_ok, checkTarget_ok, finish_ok] at eq
  obtain ⟨t, c₁, start, target, c₂, eq₁, _, _, ⟨good, rfl⟩, u, c₃, within, iterable, c₄, eq₂, body, c₅,
    eq₃, orelse, c₆, eq₄, rfl, rfl⟩ := eq
  obtain ⟨isFor, reads₁⟩ := reads_of_expectKeyword start
  obtain ⟨_, @⟨ts⟩, reads₂⟩ := (sound_targetList sound_parse).reads eq₁
  obtain ⟨isIn, reads₃⟩ := reads_of_expectKeyword within
  obtain ⟨_, @⟨us⟩, reads₄⟩ := (sound_parse .starExprs).reads eq₂
  obtain ⟨bs, layer, reads₅⟩ := sound.reads eq₃
  obtain ⟨es, other, reads₆⟩ := (sound_blockAfter sound).reads eq₄
  have main := reads₁.trans (reads₂.trans (reads₃.trans (reads₄.trans (reads₅.trans reads₆))))
  have form : StmtForm.Layer (.forEach target iterable body orelse isAsync) lead
    (.token t :: .expr target ts :: .token u :: .expr iterable us :: (bs ++ es)) :=
    .forEach async isFor good isIn layer other
  have whole := before.statement main form
  rw [reads₁.peek (by simp [Piece.tokens])] at whole
  exact ⟨_, .intro, whole⟩

theorem sound_handler : SoundWhen (·.atKeyword "except" = true) (handler block)
    fun h => Handler.Layer h.1 h.2 := by
  intro c x c' start eq
  simp only [handler, bind_ok, ite_ok, test_ok, advance_ok, lastLine_ok, pure_ok, Bool.not_eq_true] at eq
  obtain ⟨_, _, ⟨rfl, rfl⟩, isStar, c₁, star, b, _, ⟨-, rfl⟩, eq⟩ := eq
  obtain ⟨ms, mark, reads₁⟩ := sound_acceptOperator.reads star
  obtain ⟨type, name, ts, ns, body, c₂, types, names, both, reads₂, nested, rfl⟩ :
      ∃ type name ts ns body c₂, Optionally IsExpr type ts ∧ NameAfter "as" name ns ∧
        (type = none → ns = []) ∧ c₁.Reads (ts ++ ns) c₂ ∧ block c₂ = .ok (body, c') ∧
          ({ type, name, body, lines := ⟨c.peek.position.line, c'.lastLine⟩ }, isStar) = x := by
    rcases eq with ⟨-, _, _, ⟨rfl, rfl⟩, body, c₂, eq, _, _, ⟨rfl, rfl⟩, rfl, rfl⟩ |
      ⟨-, type, c₂, eq, name, c₃, as, _, _, ⟨rfl, rfl⟩, body, c₄, eq', _, _, ⟨rfl, rfl⟩, rfl, rfl⟩
    · exact ⟨_, _, _, _, _, _, .none, .absent, fun _ => rfl, .refl _, eq, rfl⟩
    · obtain ⟨_, ⟨⟩, reads⟩ := (sound_parse .test).reads eq
      obtain ⟨ns, names, reads'⟩ := sound_nameAfter.reads as
      exact ⟨_, _, _, _, _, _, .some .intro, names, nofun, reads.trans reads', eq', rfl⟩
  obtain ⟨bs, layer, reads₃⟩ := sound.reads nested
  have main : c.Reads (.token c.peek :: (ms ++ (ts ++ (ns ++ bs)))) c' := by
    have := (Reads.keyword start).trans (reads₁.trans (reads₂.trans reads₃))
    rwa [List.append_assoc] at this
  refine ⟨_, ?_, main⟩
  rw [main.lastLine_of_text (by simp [hasText_of_isKeyword start]) 0]
  exact .intro start mark types names both layer

theorem sound_tryStatement : Sound (tryStatement block) IsStmt := by
  intro c x c' _ eq
  simp only [tryStatement, bind_ok, ite_ok, fail_ok, finish_ok, pure_ok, and_false, false_or,
    List.isEmpty_iff, Bool.and_eq_true] at eq
  obtain ⟨t, c₁, start, body, c₂, eq₁, handlers, c₃, more, eq⟩ := eq
  obtain ⟨orelse, finalBody, c₄, eq₂, eq₃, some, rfl⟩ : ∃ orelse finalBody c₄,
      (∃ es, Branch "else" orelse es ∧ c₃.Reads es c₄ ∧ (handlers = [] → orelse = [])) ∧
        blockAfter block "finally" c₄ = .ok (finalBody, c') ∧ ¬(handlers = [] ∧ finalBody = []) ∧
          ⟨⟨t.position.line, max t.position.line c'.lastLine⟩, .tryExcept body
            (handlers.map Prod.fst) orelse finalBody (handlers.any Prod.snd)⟩ = x := by
    rcases eq with ⟨empty, _, _, ⟨rfl, rfl⟩, finalBody, c₄, eq, some, rfl, rfl⟩ |
      ⟨nonempty, orelse, c₄, eq, finalBody, c₅, eq', some, rfl, rfl⟩
    · exact ⟨_, _, _, ⟨_, .absent, .refl _, fun _ => rfl⟩, eq, some, rfl⟩
    · obtain ⟨es, other, reads⟩ := (sound_blockAfter sound).reads eq
      exact ⟨_, _, _, ⟨_, other, reads, fun empty => absurd empty nonempty⟩, eq', some, rfl⟩
  obtain ⟨isTry, reads₁⟩ := reads_of_expectKeyword start
  obtain ⟨bs, layer, reads₂⟩ := sound.reads eq₁
  obtain ⟨hs, run, reads₃⟩ := (sound_many (sound_handler sound)).reads more
  obtain ⟨es, other, reads₄, without⟩ := eq₂
  obtain ⟨fs, final, reads₅⟩ := (sound_blockAfter sound).reads eq₃
  have form : StmtForm.Layer (.tryExcept body (handlers.map Prod.fst) orelse finalBody
      (handlers.any Prod.snd)) [] (.token t :: (bs ++ (hs ++ (es ++ fs)))) :=
    .tryExcept isTry layer run other final fun empty => ⟨without empty, fun none => some ⟨empty, none⟩⟩
  have whole := (Reads.refl c).statement
    (reads₁.trans (reads₂.trans (reads₃.trans (reads₄.trans reads₅)))) form
  rw [reads₁.peek (by simp [Piece.tokens])] at whole
  exact ⟨_, .intro, whole⟩

theorem reads_of_withStatement {c₀ : Cursor} {isAsync : Bool} {lead : List Piece} {s : Stmt}
    (async : Marked (·.isKeyword "async") isAsync lead)
    (before : c₀.Reads lead c) (eq : withStatement block isAsync c = .ok (s, c')) :
    ∃ ps, IsStmt s ps ∧ c₀.Reads ps c' := by
  simp only [withStatement, bind_ok, ite_ok, finish_ok, pure_ok, Bool.not_eq_true] at eq
  obtain ⟨t, c₁, start, b, c₂, grouped, eq⟩ := eq
  obtain ⟨items, c₃, body, ⟨ps, list, reads₂⟩, nested, rfl⟩ : ∃ items c₃ body,
      (∃ ps, WithItems items ps ∧ c₁.Reads ps c₃) ∧ block c₃ = .ok (body, c') ∧
        ⟨⟨t.position.line, max t.position.line c'.lastLine⟩, .withItems items body isAsync⟩ = s := by
    rcases eq with ⟨rfl, items, c₃, eq, closing, c₄, close, _, _, ⟨rfl, rfl⟩, body, c₅, nested, rfl, rfl⟩ |
      ⟨rfl, items, c₃, eq, body, c₄, nested, rfl, rfl⟩
    · obtain ⟨at_, rfl⟩ := accept_ok.1 grouped
      have isOpening := (Bool.and_eq_true_iff.1 at_).1
      obtain ⟨ps, list, reads⟩ := (sound_commaList sound_withItem).reads eq
      obtain ⟨isClosing, reads'⟩ := reads_of_expectOperator close
      exact ⟨_, _, _, ⟨_, .grouped (groupedItems_nonempty at_ eq) isOpening list isClosing,
        (Reads.operator isOpening).trans (reads.trans reads')⟩, nested, rfl⟩
    · obtain rfl := eq_of_refused grouped
      obtain ⟨ps, ⟨some, list⟩, reads⟩ := (sound_commaSeparated sound_withItem).reads eq
      exact ⟨_, _, _, ⟨_, .plain some list, reads⟩, nested, rfl⟩
  obtain ⟨isWith, reads₁⟩ := reads_of_expectKeyword start
  obtain ⟨bs, layer, reads₃⟩ := sound.reads nested
  have form : StmtForm.Layer (.withItems items body isAsync) lead (.token t :: (ps ++ bs)) :=
    .withItems async isWith list layer
  have whole := before.statement (reads₁.trans (reads₂.trans reads₃)) form
  rw [reads₁.peek (by simp [Piece.tokens])] at whole
  exact ⟨_, .intro, whole⟩

theorem sound_matchCase : Sound (matchCase block) MatchCase.Layer := by
  intro c x c' _ eq
  simp only [matchCase, after_bind, bind_ok, peek_ok, ite_ok, advance_ok, lastLine_ok, fail_ok,
    pure_ok, and_false, or_false, Bool.and_eq_true, beq_iff_eq] at eq
  obtain ⟨_, _, ⟨rfl, rfl⟩, ⟨isName, isCase⟩, _, _, ⟨rfl, rfl⟩, pattern, c₁, eq₁, guard, c₂, eq₂, body,
    c₃, eq₃, _, _, ⟨rfl, rfl⟩, rfl, rfl⟩ := eq
  obtain ⟨_, @⟨ts⟩, reads₁⟩ := sound_casePattern.reads eq₁
  obtain ⟨gs, guards, reads₂⟩ := (sound_afterKeyword? (sound_parse .named)).reads eq₂
  obtain ⟨bs, layer, reads₃⟩ := sound.reads eq₃
  have main : c.Reads (.token c.peek :: .expr pattern ts :: (gs ++ bs)) c₃ :=
    (Reads.kind (beq_iff_eq.2 isName) (by decide)).trans (reads₁.trans (reads₂.trans reads₃))
  refine ⟨_, ?_, main⟩
  rw [main.lastLine_of_text (by simp [Piece.hasText]) 0]
  exact .intro isName isCase guards layer

omit sound in
theorem sound_acceptKind {kind : TokenKind} (single : kind.Single) :
    Sound (accept (·.atKind kind)) fun _ ps => Possibly (·.kind == kind) ps := by
  intro c b c' _ eq
  cases b with
  | false =>
    obtain rfl := eq_of_refused eq
    exact ⟨[], .absent, .refl _⟩
  | true =>
    obtain ⟨holds, rfl⟩ := accept_ok.1 eq
    exact ⟨_, .present holds, .kind holds single⟩

omit sound in
theorem reads_of_expectIndent (lineEnd : c.atKind .newline = true) {u : Unit}
    (eq : expectIndent c = .ok (u, c')) : ∃ t v : Token, t.kind = .newline ∧ v.kind = .indent ∧
      c.Reads [.token t, .token v] c' := by
  simp only [expectIndent, bind_ok, advance_ok, ite_ok, pure_ok, fail_ok, and_false, or_false] at eq
  obtain ⟨_, _, ⟨rfl, rfl⟩, _, c₁, accepted, rfl, -, rfl⟩ := eq
  obtain ⟨indent, rfl⟩ := accept_ok.1 accepted
  exact ⟨_, _, beq_iff_eq.1 lineEnd, beq_iff_eq.1 indent,
    (Reads.kind lineEnd (by decide)).trans (.kind indent (by decide))⟩

theorem sound_matchStatement : SoundWhen (atMatch · = true) (matchStatement block) IsStmt := by
  intro c x c' start eq
  simp only [matchStatement, bind_ok, advance_ok, test_ok, ite_ok, fail_ok, finish_ok, and_false,
    false_or, List.isEmpty_iff] at eq
  obtain ⟨_, _, ⟨rfl, rfl⟩, subject, c₁, eq₁, colon, c₂, eq₂, lineEnd, _, ⟨isLineEnd, rfl⟩, atEnd, _, c₃,
    eq₃, cases, c₄, eq₄, some, _, c₅, eq₅, rfl, rfl⟩ := eq
  have word : c.peek.kind = .name ∧ c.peek.text = "match" := by
    unfold atMatch at start
    split at start
    · next t next rest tokens =>
      simp only [Bool.and_eq_true, beq_iff_eq] at start
      rw [Cursor.peek, tokens]
      exact start.1.1
    · cases start
  have lineEnd : c₂.atKind .newline = true := by
    rw [isLineEnd]
    simpa using atEnd
  obtain ⟨_, @⟨ts⟩, reads₁⟩ := (sound_parse .starExprs).reads eq₁
  obtain ⟨isColon, reads₂⟩ := reads_of_expectOperator eq₂
  obtain ⟨t, u, isNewline, isIndent, reads₃⟩ := reads_of_expectIndent lineEnd eq₃
  obtain ⟨ps, run, reads₄⟩ :=
    (sound_many fun _ _ _ _ eq => (sound_matchCase sound).reads eq).reads eq₄
  obtain ⟨es, dedent, reads₅⟩ := (sound_acceptKind (by decide)).reads eq₅
  have form : StmtForm.Layer (.matchOn subject cases) [] (.token c.peek :: .expr subject ts ::
      .token colon :: .token t :: .token u :: (ps ++ es)) :=
    .matchOn word.1 word.2 isColon isNewline isIndent some run dedent
  exact ⟨_, .intro, (Reads.refl c).statement ((Reads.kind (beq_iff_eq.2 word.1) (by decide)).trans
    (reads₁.trans (reads₂.trans (reads₃.trans (reads₄.trans reads₅))))) form⟩

theorem reads_of_bodyWithTokens {body : Block} {ts : List Token}
    (eq : bodyWithTokens block c = .ok ((body, ts), c')) :
    ∃ bs, Block.Layer body bs ∧ ts = bodyTokensOf bs ∧ c.Reads bs c' := by
  unfold bodyWithTokens at eq
  split at eq
  · next body after nested =>
    cases eq
    obtain ⟨bs, layer, reads⟩ := sound.reads nested
    refine ⟨bs, layer, ?_, reads⟩
    have taken : c.rest.take (c.left - c'.left) = tokensOf bs := by
      rw [c.left_eq, c'.left_eq, reads.rest, List.length_append, Nat.add_sub_cancel, List.take_left]
    rw [takenTokens, taken, bodyTokensOf]
  · cases eq

theorem reads_of_functionDef {c₀ c₁ : Cursor} {decorators : List Expr} {isAsync : Bool}
    {ds as : List Piece} {s : Stmt} (decorated : Repeated Decorator decorators ds)
    (before : c₀.Reads ds c₁)
    (async : Marked (·.isKeyword "async") isAsync as)
    (mark : c₁.Reads as c) (eq : functionDef block decorators isAsync c₁.peek c = .ok (s, c')) :
    ∃ ps, IsStmt s ps ∧ c₀.Reads ps c' := by
  simp only [functionDef, after_bind, bind_ok, linesFrom_ok, pure_ok] at eq
  obtain ⟨t, c₂, eq₁, name, c₃, eq₂, opening, c₄, eq₃, params, c₅, eq₄, closing, c₆, eq₅, returns, c₇,
    eq₆, ⟨body, ts⟩, c₈, eq₇, _, _, ⟨rfl, rfl⟩, rfl, rfl⟩ := eq
  obtain ⟨isDef, reads₁⟩ := reads_of_expectKeyword eq₁
  obtain ⟨isName, reads₂⟩ := reads_of_expectName eq₂
  obtain ⟨isOpening, reads₃⟩ := reads_of_expectOperator eq₃
  obtain ⟨ps, ⟨items, rfl, list⟩, reads₄⟩ := (sound_parameters sound_parse).reads eq₄
  obtain ⟨isClosing, reads₅⟩ := reads_of_expectOperator eq₅
  obtain ⟨rs, arrow, reads₆⟩ := (sound_afterOperator? (sound_parse .test)).reads eq₆
  obtain ⟨bs, layer, rfl, reads₇⟩ := reads_of_bodyWithTokens sound eq₇
  have main : c₁.Reads (as ++ .token t :: .token name :: .token opening ::
      (ps ++ .token closing :: (rs ++ bs))) c₈ :=
    mark.trans (reads₁.trans (reads₂.trans (reads₃.trans (reads₄.trans (reads₅.trans
      (reads₆.trans reads₇))))))
  have form := StmtForm.Layer.function decorated async isDef isName isOpening list isClosing arrow
    layer rfl
  have span := main.span form.hasText
  have whole := before.statement main form
  rw [span] at whole
  exact ⟨_, .intro, whole⟩

theorem reads_of_classDef {c₀ : Cursor} {decorators : List Expr} {ds : List Piece} {s : Stmt}
    (decorated : Repeated Decorator decorators ds) (before : c₀.Reads ds c)
    (eq : classDef block decorators c.peek c = .ok (s, c')) : ∃ ps, IsStmt s ps ∧ c₀.Reads ps c' := by
  simp only [classDef, bind_ok, ite_ok, linesFrom_ok, pure_ok, Bool.not_eq_true] at eq
  obtain ⟨t, c₁, eq₁, name, c₂, eq₂, b, c₃, paren, eq⟩ := eq
  obtain ⟨bases, keywords, c₄, body, ⟨ps, list, reads₃⟩, nested, rfl⟩ : ∃ bases keywords c₄ body,
      (∃ ps, Bases bases keywords ps ∧ c₂.Reads ps c₄) ∧ block c₄ = .ok (body, c') ∧
        (⟨⟨c.peek.position.line, max c.peek.position.line c'.lastLine⟩, .classDef
          { name := name.text, decorators, bases, keywords, body
            lines := ⟨c.peek.position.line, max c.peek.position.line c'.lastLine⟩ }⟩ : Stmt) = s := by
    rcases eq with ⟨rfl, ⟨bases, keywords⟩, c₄, eq, body, c₅, nested, _, _, ⟨rfl, rfl⟩, rfl, rfl⟩ |
      ⟨rfl, _, _, ⟨rfl, rfl⟩, body, c₄, nested, _, _, ⟨rfl, rfl⟩, rfl, rfl⟩
    · obtain ⟨u, isOpening, reads⟩ := reads_of_acceptOperator paren
      obtain ⟨ps, ⟨items, closing, qs, same, list, isClosing, rfl⟩, reads'⟩ :=
        (sound_arguments sound_parse).reads eq
      obtain ⟨rfl, rfl⟩ := Prod.mk.inj same
      exact ⟨_, _, _, _, ⟨_, .present isOpening list isClosing, reads.trans reads'⟩, nested, rfl⟩
    · obtain rfl := eq_of_refused paren
      exact ⟨_, _, _, _, ⟨_, .absent, .refl _⟩, nested, rfl⟩
  obtain ⟨isClass, reads₁⟩ := reads_of_expectKeyword eq₁
  obtain ⟨isName, reads₂⟩ := reads_of_expectName eq₂
  obtain ⟨bs, layer, reads₄⟩ := sound.reads nested
  have main : c.Reads (.token t :: .token name :: (ps ++ bs)) c' :=
    reads₁.trans (reads₂.trans (reads₃.trans reads₄))
  have form := StmtForm.Layer.classDef decorated isClass isName list layer rfl
  have span := main.span form.hasText
  have whole := before.statement main form
  rw [span] at whole
  exact ⟨_, .intro, whole⟩

theorem sound_decorated : Sound (decorated block) IsStmt := by
  intro c x c' _ eq
  simp only [decorated, bind_ok (α := List Expr), peek_ok, test_ok, ite_ok, fail_ok, and_false, or_false,
    bind_ok (α := Token), bind_ok (α := Bool), Bool.not_eq_true] at eq
  obtain ⟨decorators, c₁, eq, _, _, ⟨rfl, rfl⟩, _, _, ⟨-, rfl⟩, eq'⟩ := eq
  have decorator : SoundWhen (·.atOperator "@" = true)
      (do let _ ← advance; let decorator ← Rule.named.parse; endStatement; pure decorator)
      Decorator := by
    intro c x c' at_ eq
    simp only [bind_ok, advance_ok, pure_ok] at eq
    obtain ⟨_, _, ⟨rfl, rfl⟩, e, c₁, eq, _, c₂, lineEnd, rfl, rfl⟩ := eq
    obtain ⟨_, ⟨⟩, reads⟩ := (sound_parse .named).reads eq
    obtain ⟨es, ends, reads'⟩ := reads_of_endStatement lineEnd
    exact ⟨_, .intro at_ ends, (Reads.operator at_).trans (reads.trans reads')⟩
  obtain ⟨ds, run, reads⟩ := (sound_many decorator).reads eq
  rcases eq' with ⟨-, eq⟩ | ⟨-, b, c₂, async, ⟨rfl, eq⟩ | ⟨rfl, _, _, ⟨-, rfl⟩, -, eq⟩⟩
  · exact reads_of_functionDef sound run reads .absent (.refl c₁) eq
  · obtain ⟨both, rfl⟩ := accept_ok.1 async
    have isAsync := (Bool.and_eq_true_iff.1 both).1
    exact reads_of_functionDef sound run reads (.present isAsync) (.keyword isAsync) eq
  · obtain rfl := eq_of_refused async
    exact reads_of_classDef sound run reads eq

theorem sound_asyncStatement : SoundWhen (·.atKeyword "async" = true) (asyncStatement block) IsStmt := by
  intro c x c' start eq
  simp only [asyncStatement, bind_ok, advance_ok, test_ok, ite_ok, fail_ok, and_false, or_false] at eq
  obtain ⟨_, _, ⟨rfl, rfl⟩, _, _, ⟨-, rfl⟩, ⟨-, eq⟩ | ⟨-, _, _, ⟨-, rfl⟩, ⟨-, eq⟩ |
    ⟨-, _, _, ⟨-, rfl⟩, -, eq⟩⟩⟩ := eq
  · exact reads_of_functionDef sound .nil (.refl c) (.present start) (.keyword start) eq
  · exact reads_of_forStatement sound (.present start) (.keyword start) eq
  · exact reads_of_withStatement sound (.present start) (.keyword start) eq

omit sound in
theorem yields_statement : Yields (statement block) fun b => ∀ s ∈ b, s.isElif = false := by
  have one {p : Parser Stmt} (h : Yields p (·.isElif = false)) :
      Yields (statement.one p) fun b => ∀ s ∈ b, s.isElif = false := by
    intro c b c' eq
    simp only [statement.one, bind_ok, pure_ok] at eq
    obtain ⟨s, c₁, eq, rfl, rfl⟩ := eq
    exact List.forall_mem_singleton.2 (h c s c₁ eq)
  have conditions : Yields (conditionChain block) (·.isElif = false) :=
    .bind fun _ => .bind fun _ => .bind fun _ => .bind fun _ => .pure rfl
  have whiles (start : Token) : Yields (whileStatement block start) (·.isElif = false) :=
    .bind fun _ => .bind fun _ => .bind fun _ => .bind fun _ => yields_finish (P := (·.isElif = false)) rfl
  have loops (isAsync : Bool) : Yields (forStatement block isAsync) (·.isElif = false) :=
    .bind fun _ => .bind fun _ => .bind fun _ => .bind fun _ => .bind fun _ => .bind fun _ =>
      .bind fun _ => yields_finish (P := (·.isElif = false)) rfl
  have tries : Yields (tryStatement block) (·.isElif = false) := by
    refine .bind fun _ => .bind fun _ => .bind fun _ => ?_
    exact .ite (.bind fun _ => .bind fun _ => .ite .fail (yields_finish (P := (·.isElif = false)) rfl))
      (.bind fun _ => .bind fun _ => .ite .fail (yields_finish (P := (·.isElif = false)) rfl))
  have withs (isAsync : Bool) : Yields (withStatement block isAsync) (·.isElif = false) := by
    refine .bind fun _ => .bind fun _ => ?_
    exact .ite (.bind fun _ => .bind fun _ => .bind fun _ => .bind fun _ => yields_finish (P := (·.isElif = false)) rfl)
      (.bind fun _ => .bind fun _ => yields_finish (P := (·.isElif = false)) rfl)
  have matches_ : Yields (matchStatement block) (·.isElif = false) := by
    refine .bind fun _ => .bind fun _ => .bind fun _ => .bind fun _ => .ite .fail ?_
    exact .bind fun _ => .bind fun _ => .ite .fail (.bind fun _ => yields_finish (P := (·.isElif = false)) rfl)
  have functions (decorators : List Expr) (isAsync : Bool) (start : Token) :
      Yields (functionDef block decorators isAsync start) (·.isElif = false) := by
    refine .bind fun _ => .bind fun _ => .bind fun _ => .bind fun _ => .bind fun _ => .bind fun _ => ?_
    exact .ite (.bind fun _ => .bind fun (_, _) => .bind fun _ => .pure rfl)
      (.bind fun _ => .bind fun (_, _) => .bind fun _ => .pure rfl)
  have classes (decorators : List Expr) (start : Token) :
      Yields (classDef block decorators start) (·.isElif = false) := by
    refine .bind fun _ => .bind fun _ => .bind fun _ => ?_
    exact .ite (.bind fun (_, _) => .bind fun _ => .bind fun _ => .pure rfl)
      (.bind fun (_, _) => .bind fun _ => .bind fun _ => .pure rfl)
  have decorates : Yields (decorated block) (·.isElif = false) := by
    refine .bind fun _ => .bind fun _ => .bind fun _ => .ite (functions _ _ _) (.bind fun _ => ?_)
    exact .ite (functions _ _ _) (.bind fun _ => .ite (classes _ _) .fail)
  have asyncs : Yields (asyncStatement block) (·.isElif = false) := by
    refine .bind fun _ => .bind fun _ => .ite (functions _ _ _) (.bind fun _ => ?_)
    exact .ite (loops true) (.bind fun _ => .ite (withs true) .fail)
  refine .bind fun start => .ite (one conditions) (.ite (one (whiles start)) (.ite (one (loops false))
    (.ite (one tries) (.ite (one (withs false)) (.ite (one (functions _ _ _)) ?_)))))
  refine .ite (one (classes _ _)) (.ite (one asyncs) (.ite (one decorates) (.bind fun _ => ?_)))
  refine .ite (one matches_) fun c b c' eq s mem => ?_
  exact StmtForm.isElif_of_isSimple (yields_simpleLine c b c' eq s mem)

theorem sound_statement : Sound (statement block) Line := by
  intro c x c' _ eq
  have noElif := yields_statement c x c' eq
  have one {p : Parser Stmt} (h : ∀ s, p c = .ok (s, c') → ∃ ps, IsStmt s ps ∧ c.Reads ps c')
      (eq : statement.one p c = .ok (x, c')) : ∃ ps, Line x ps ∧ c.Reads ps c' := by
    simp only [statement.one, bind_ok, pure_ok] at eq
    obtain ⟨s, _, single, rfl, rfl⟩ := eq
    obtain ⟨_, ⟨⟩, reads⟩ := h s single
    exact ⟨_, .compound (noElif s (.head _)), reads⟩
  simp only [statement, bind_ok, peek_ok, test_ok, ite_ok] at eq
  obtain ⟨_, _, ⟨rfl, rfl⟩, eq⟩ := eq
  rcases eq with ⟨start, eq⟩ | ⟨-, eq⟩
  · exact one (fun s eq => sound_conditionChain sound c s c' start eq) eq
  rcases eq with ⟨start, eq⟩ | ⟨-, eq⟩
  · exact one (fun s eq => sound_whileStatement sound c s c' start eq) eq
  rcases eq with ⟨-, eq⟩ | ⟨-, eq⟩
  · exact one (fun s eq => reads_of_forStatement sound .absent (.refl c) eq) eq
  rcases eq with ⟨-, eq⟩ | ⟨-, eq⟩
  · exact one (fun s eq => (sound_tryStatement sound).reads eq) eq
  rcases eq with ⟨-, eq⟩ | ⟨-, eq⟩
  · exact one (fun s eq => reads_of_withStatement sound .absent (.refl c) eq) eq
  rcases eq with ⟨-, eq⟩ | ⟨-, eq⟩
  · exact one (fun s eq => reads_of_functionDef sound .nil (.refl c) .absent (.refl c) eq) eq
  rcases eq with ⟨-, eq⟩ | ⟨-, eq⟩
  · exact one (fun s eq => reads_of_classDef sound .nil (.refl c) eq) eq
  rcases eq with ⟨start, eq⟩ | ⟨-, eq⟩
  · exact one (fun s eq => sound_asyncStatement sound c s c' start eq) eq
  rcases eq with ⟨-, eq⟩ | ⟨-, _, _, ⟨atMatch, rfl⟩, eq⟩
  · exact one (fun s eq => (sound_decorated sound).reads eq) eq
  rcases eq with ⟨rfl, eq⟩ | ⟨-, eq⟩
  · exact one (fun s eq => sound_matchStatement sound c s c' atMatch eq) eq
  · obtain ⟨ps, simple, reads⟩ := sound_simpleLine.reads eq
    exact ⟨ps, .simple simple, reads⟩

theorem sound_unindented : Sound (unindented block) Line := by
  intro c x c' _ eq
  simp only [unindented, bind_ok, test_ok, ite_ok, fail_ok, and_false, false_or] at eq
  obtain ⟨_, _, ⟨-, rfl⟩, -, eq⟩ := eq
  exact (sound_statement sound).reads eq

theorem sound_blockBody : Sound (blockBody block) Block.Layer := by
  intro c x c' _ eq
  simp only [blockBody, bind_ok, test_ok, ite_ok, pure_ok] at eq
  obtain ⟨colon, c₁, eq₁, b, _, ⟨isLineEnd, rfl⟩, eq⟩ := eq
  obtain ⟨isColon, reads₁⟩ := reads_of_expectOperator eq₁
  rcases eq with ⟨-, eq⟩ | ⟨lineEnd, _, c₂, eq₂, bs, c₃, eq₃, _, c₄, eq₄, rfl, rfl⟩
  · obtain ⟨ps, simple, reads₂⟩ := sound_simpleLine.reads eq
    exact ⟨_, .inline isColon simple, reads₁.trans reads₂⟩
  have lineEnd : c₁.atKind .newline = true := by
    rw [isLineEnd]
    simpa using lineEnd
  obtain ⟨t, u, isNewline, isIndent, reads₂⟩ := reads_of_expectIndent lineEnd eq₂
  obtain ⟨ps, run, reads₃⟩ :=
    (sound_many fun _ _ _ _ eq => (sound_unindented sound).reads eq).reads eq₃
  obtain ⟨es, dedent, reads₄⟩ := (sound_acceptKind (by decide)).reads eq₄
  exact ⟨_, .indented isColon isNewline isIndent run dedent,
    reads₁.trans (reads₂.trans (reads₃.trans reads₄))⟩

theorem sound_moduleLine : SoundWhen ((!·.atKind .endMarker) · = true)
    (do if ← accept atFiller then pure [] else unindented block) ModuleLine := by
  intro c x c' _ eq
  simp only [bind_ok, ite_ok, pure_ok, Bool.not_eq_true] at eq
  obtain ⟨b, c₁, accepted, ⟨rfl, rfl, rfl⟩ | ⟨rfl, eq⟩⟩ := eq
  · obtain ⟨filler, rfl⟩ := accept_ok.1 accepted
    have filler : c.peek.kind = .newline ∨ c.peek.kind = .dedent := by
      simpa [atFiller, atKind] using filler
    refine ⟨_, .filler filler, .advance ?_⟩
    rcases filler with kind | kind
    · rw [kind]; decide
    · rw [kind]; decide
  · obtain rfl := eq_of_refused accepted
    obtain ⟨ps, line, reads⟩ := (sound_unindented sound).reads eq
    exact ⟨ps, .line line, reads⟩

end Statements

theorem sound_blockWithin (bound : Nat) : Sound (blockWithin bound) Block.Layer := by
  induction bound with
  | zero => exact fun _ _ _ _ eq => (fail_ok.1 eq).elim
  | succ bound ih => exact sound_blockBody ih

theorem sound_block : Sound block Block.Layer :=
  fun c _ _ _ eq => (sound_blockWithin (c.left + 1)).reads eq

end Parser

end CodeSmell
