import CodeSmell.Proofs.Places.Pattern
import CodeSmell.Proofs.Renaming.Stmt

/-!
Places of statements. Of a statement the line of its first token and the last line with text are kept,
and of a function the tokens of its body, of which layout is no part.
-/

namespace CodeSmell.Parser

open Cursor

variable {S : Position → Prop} {k : Bool}

theorem keeps_maybe {α β : Type} {t : Cursor → Bool} {V : α → Prop} {W : β → Prop} {item : Parser α}
    {f : Option α → Parser β} (h : Blind t) (each : Keeps S false V item)
    (rest : ∀ x, Keeps S false W (f x)) : Keeps S false W
      (accept t >>= fun b => if b = true then some <$> item >>= f else pure none >>= f) :=
  keeps_ifAccept? h ((each.map (W := Whatever) fun _ _ => trivial).bind fun x _ => rest x)
    ((keeps_pure (V := Whatever) trivial).bind fun x _ => rest x)

theorem keeps_exprOrYield : Keeps S k (Expr.Placed S) exprOrYield :=
  keeps_ifTest (textual_atKeyword _).blind (keeps_yieldExpr fun rule _ => keeps_parse rule)
    (keeps_parse _)

theorem keeps_accessor (keyword : Bytes) : Keeps S false Whatever (accessor keyword) :=
  keeps_ifAccept (textual_atKeyword _) ((keeps_parse _).map fun _ _ => trivial) (keeps_pure trivial)

theorem keeps_targetLoop (bound : Nat) {value : Expr} (h : value.Placed S) :
    Keeps S false Whatever (expressionStatement.targetLoop bound value) := by
  induction bound generalizing value with
  | zero => exact keeps_fail
  | succ bound ih =>
    refine keeps_ifTest (textual_atOperator _).blind ?_ (keeps_pure trivial)
    refine (keeps_checkTarget h).bind fun _ _ => keeps_skip ?_
    exact keeps_exprOrYield.bind fun _ next => (ih next).bind fun _ _ => keeps_pure trivial

theorem keeps_assignment {first : Expr} (h : first.Placed S) :
    Keeps S false Whatever (expressionStatement.assignment first) := by
  refine (keeps_checkTarget h).bind fun _ _ => keeps_skip ?_
  refine keeps_exprOrYield.bind fun second next => ?_
  have targets : Keeps S false Whatever (expressionStatement.manyTargets second) := by
    intro c d _ same
    unfold expressionStatement.manyTargets
    rw [same.left]
    exact keeps_targetLoop (c.left + 1) next c d trivial same
  exact targets.bind fun _ _ => keeps_pure trivial

theorem keeps_expressionStatement : Keeps S k Whatever expressionStatement := by
  refine keeps_exprOrYield.bind fun first place => ?_
  refine keeps_ifAccept (textual_atOperator _) ?_ (keeps_glance (fun t u same => ?_) fun t => ?_)
  · refine .ite (keeps_failAt place.position) ((keeps_parse _).bind fun _ _ => ?_)
    exact keeps_maybe (textual_atOperator _).blind keeps_exprOrYield fun _ => keeps_pure trivial
  · rw [same.augmentedOp?]
  cases t.augmentedOp? with
  | some op =>
    refine .ite (keeps_failAt place.position) (keeps_skip ?_)
    exact keeps_exprOrYield.bind fun _ _ => keeps_pure trivial
  | none =>
    exact keeps_ifTest (textual_atOperator _).blind (keeps_assignment place) (keeps_pure trivial)

theorem keeps_nameAfter (keyword : Bytes) : Keeps S false Whatever (nameAfter keyword) :=
  keeps_ifAccept (textual_atKeyword _) (keeps_expectName.map fun _ _ => trivial) (keeps_pure trivial)

theorem keeps_nameText : Keeps S k Whatever (Token.text <$> expectName) :=
  keeps_expectName.map fun _ _ => trivial

theorem keeps_dottedName : Keeps S k Whatever dottedName :=
  keeps_expectName.bind fun _ _ =>
    (keeps_many (textual_atOperator _).blind (keeps_skip keeps_nameText).always).bind
      fun _ _ => keeps_pure trivial

theorem keeps_importItem {name : Parser Bytes} (h : Keeps S k Whatever name) :
    Keeps S k Whatever (importItem name) :=
  h.bind fun _ _ => (keeps_nameAfter _).bind fun _ _ => keeps_pure trivial

theorem keeps_moduleName : Keeps S false Whatever moduleName := by
  have atDots : Textual fun c => c.atOperator "." || c.atOperator "..." :=
    (textual_atOperator _).or (textual_atOperator _)
  refine (keeps_many atDots.blind (keeps_advance.known atDots.text)).bind fun dots _ => ?_
  have module {name : Bytes} : Keeps S false Whatever
      (if (dots.flatMap Token.text ++ name).isEmpty then fail .invalidSyntax
        else pure (dots.flatMap Token.text ++ name) : Parser Bytes) :=
    .ite keeps_fail (keeps_pure trivial)
  refine keeps_ifTest (blind_atKind _) ?_ ?_
  · exact keeps_dottedName.bind fun _ _ => module
  · exact (keeps_pure (V := Whatever) trivial).bind fun _ _ => module

theorem keeps_importFrom : Keeps S false Whatever importFrom := by
  refine keeps_moduleName.bind fun _ _ => keeps_expectKeyword.bind fun _ _ => ?_
  have item := keeps_importItem (S := S) (keeps_nameText (k := false))
  refine keeps_ifAccept (textual_atOperator _) (keeps_pure trivial)
    (keeps_ifAccept (textual_atOperator _) ?_ ?_)
  · exact (keeps_commaList (textual_atOperator _).blind item).bind fun _ _ =>
      keeps_expectOperator.bind fun _ _ => .ite keeps_fail (keeps_pure trivial)
  · exact (keeps_commaSeparated item).map fun _ _ => trivial

theorem keeps_deletion : Keeps S false Whatever deletion := by
  refine (keeps_commaList (V := Whatever) blind_atSimpleEnd ?_).bind fun _ _ => ?_
  · exact (keeps_parse _).bind fun _ place => (keeps_checkTarget place).bind
      fun _ _ => keeps_pure trivial
  · exact .ite keeps_fail (keeps_pure trivial)

theorem keeps_raising : Keeps S false Whatever raising := by
  refine keeps_ifTest blind_atSimpleEnd (keeps_pure trivial) ?_
  exact (keeps_parse _).bind fun _ _ => (keeps_accessor _).bind fun _ _ => keeps_pure trivial

theorem keeps_assertion : Keeps S false Whatever assertion :=
  (keeps_parse _).bind fun _ _ => keeps_maybe (textual_atOperator _).blind (keeps_parse _)
    fun _ => keeps_pure trivial

theorem keeps_simpleForm : Keeps S k Whatever simpleForm := by
  have keyword {text : Bytes} {p q : Parser (StmtForm Stmt)} (yes : Keeps S false Whatever p)
      (no : Keeps S k Whatever q) : Keeps S k Whatever (do if ← acceptKeyword text then p else q) :=
    keeps_ifAccept (textual_atKeyword text) yes no
  have names {f : List Bytes → StmtForm Stmt} :
      Keeps S false Whatever (f <$> commaSeparated (Token.text <$> expectName)) :=
    (keeps_commaSeparated keeps_nameText).map fun _ _ => trivial
  refine keyword (keeps_pure trivial) (keyword (keeps_pure trivial) (keyword (keeps_pure trivial) ?_))
  refine keyword ?_ (keyword keeps_raising (keyword names (keyword names (keyword keeps_deletion
    (keyword keeps_assertion (keyword ?_ (keyword keeps_importFrom keeps_expressionStatement)))))))
  · exact (keeps_optional blind_atSimpleEnd.not (keeps_parse _).always).map fun _ _ => trivial
  · exact (keeps_commaSeparated (keeps_importItem keeps_dottedName)).map fun _ _ => trivial

theorem keeps_linesFrom (line : Int) : Keeps S false Whatever (linesFrom line) :=
  keeps_lastLine.bind fun _ _ => keeps_pure trivial

theorem keeps_finish (start : Token) (form : StmtForm Stmt) :
    Keeps S false Whatever (finish start form) :=
  (keeps_linesFrom _).bind fun _ _ => keeps_pure trivial

theorem keeps_simpleStatement : Keeps S k Whatever simpleStatement :=
  keeps_look fun _ _ => .always <| keeps_simpleForm.bind fun _ _ => keeps_finish _ _

theorem keeps_simpleLine : Keeps S k Whatever simpleLine :=
  keeps_simpleStatement.bind fun _ _ =>
    (keeps_separatedTail blind_atLineEnd keeps_simpleStatement).bind fun _ _ =>
      keeps_endStatement.bind fun _ _ => keeps_pure trivial

theorem keeps_withItem : Keeps S k Whatever withItem := by
  refine (keeps_parse _).bind fun _ _ => keeps_ifAccept (textual_atKeyword _) ?_ (keeps_pure trivial)
  exact (keeps_parse _).bind fun _ place => (keeps_checkTarget place).bind fun _ _ => keeps_pure trivial

section Statements

variable {block : Parser Block} (nested : Keeps S false Whatever block)

include nested

theorem keeps_branch : KeepsWhen S AtText k Whatever (branch block) :=
  keeps_advance.bind fun _ _ => (keeps_parse _).bind fun _ _ =>
    nested.bind fun _ _ => keeps_pure trivial

theorem keeps_blockAfter (keyword : Bytes) : Keeps S false Whatever (blockAfter block keyword) :=
  keeps_ifAccept (textual_atKeyword _) nested (keeps_pure trivial)

theorem keeps_conditionChain : KeepsWhen S AtText k Whatever (conditionChain block) := by
  have elif : Textual (·.atKeyword "elif") := textual_atKeyword _
  refine (keeps_branch nested).bind fun _ _ => ?_
  refine (keeps_many elif.blind ((keeps_branch nested).known elif.text)).bind fun _ _ => ?_
  exact (keeps_blockAfter nested _).bind fun _ _ => keeps_lastLine.bind fun _ _ => keeps_pure trivial

theorem keeps_whileStatement (start : Token) : Keeps S k Whatever (whileStatement block start) :=
  keeps_expectKeyword.bind fun _ _ => (keeps_parse _).bind fun _ _ => nested.bind fun _ _ =>
    (keeps_blockAfter nested _).bind fun _ _ => keeps_finish _ _

theorem keeps_forStatement (isAsync : Bool) : Keeps S k Whatever (forStatement block isAsync) := by
  refine keeps_expectKeyword.bind fun _ _ => (keeps_targetList fun rule _ => keeps_parse rule).bind ?_
  refine fun _ target => (keeps_checkTarget target).bind fun _ _ => ?_
  refine keeps_expectKeyword.bind fun _ _ => (keeps_parse _).bind fun _ _ => ?_
  exact nested.bind fun _ _ => (keeps_blockAfter nested _).bind fun _ _ => keeps_finish _ _

theorem keeps_handler : KeepsWhen S AtText k Whatever (handler block) := by
  refine keeps_advance.bind fun start _ => (keeps_accept (textual_atOperator _).blind).bind ?_
  intro isStar _
  have caught {x : Option Expr × Option Bytes} : Keeps S false Whatever (do
      let body ← block
      let last ← lastLine
      pure (({ type := x.1, name := x.2, body, lines := ⟨start.position.line, last⟩ } : Handler Stmt),
        isStar)) :=
    nested.bind fun _ _ => keeps_lastLine.bind fun _ _ => keeps_pure trivial
  refine keeps_ifTest (textual_atOperator _).blind ?_ ?_
  · exact (keeps_pure (V := Whatever) trivial).bind fun _ _ => caught
  · refine (keeps_parse _).bind fun _ _ => (keeps_nameAfter _).bind fun _ _ => ?_
    exact (keeps_pure (V := Whatever) trivial).bind fun _ _ => caught

theorem keeps_tryEnd (start : Token) (body : Block) (handlers : List (Handler Stmt × Bool))
    (orelse : Block) : Keeps S false Whatever (tryEnd block start body handlers orelse) :=
  (keeps_blockAfter nested _).bind fun _ _ => .ite keeps_fail (keeps_finish _ _)

theorem keeps_tryStatement : Keeps S k Whatever (tryStatement block) := by
  have except : Textual (·.atKeyword "except") := textual_atKeyword _
  refine keeps_expectKeyword.bind fun _ _ => nested.bind fun _ _ => ?_
  refine (keeps_many except.blind ((keeps_handler nested).known except.text)).bind fun _ _ => ?_
  refine .ite ?_ ?_
  · exact (keeps_pure (V := Whatever) trivial).bind fun _ _ => keeps_tryEnd nested _ _ _ _
  · exact (keeps_blockAfter nested _).bind fun _ _ => keeps_tryEnd nested _ _ _ _

theorem keeps_withStatement (isAsync : Bool) : Keeps S k Whatever (withStatement block isAsync) := by
  refine keeps_expectKeyword.bind fun start _ => ?_
  have body {items : List WithItem} : Keeps S false Whatever
      (do let body ← block; finish start (.withItems items body isAsync)) :=
    nested.bind fun _ _ => keeps_finish _ _
  refine keeps_ifAccept textual_atGroupedItems ?_ ?_
  · refine (keeps_commaList (textual_atOperator _).blind keeps_withItem).bind fun _ _ => ?_
    exact keeps_expectOperator.bind fun _ _ => (keeps_pure (V := Whatever) trivial).bind fun _ _ => body
  · exact (keeps_commaSeparated keeps_withItem).bind fun _ _ => body

omit nested in
theorem keeps_expectIndent : Keeps S false Whatever expectIndent :=
  keeps_skip (keeps_ifAccept? (blind_atKind _) (keeps_pure trivial) keeps_fail)

theorem keeps_matchCase : Keeps S k Whatever (matchCase block) := by
  refine keeps_look fun start _ => ?_
  by_cases case : (start.kind == .name && start.text == "case") = true
  · rw [if_pos case]
    have rest : Keeps S false Whatever (do
        let _ ← advance
        let pattern ← casePattern
        let guard ← if ← acceptKeyword "if" then some <$> Rule.named.parse else pure none
        let body ← block
        let last ← lastLine
        pure ({ pattern, guard, body, lines := ⟨start.position.line, last⟩ } : MatchCase Stmt)) := by
      refine keeps_skip (keeps_casePattern.bind fun _ _ => ?_)
      refine keeps_maybe (textual_atKeyword _).blind (keeps_parse _) fun _ => ?_
      exact nested.bind fun _ _ => keeps_lastLine.bind fun _ _ => keeps_pure trivial
    refine rest.always.told fun _ c is => ?_
    rw [AtText, is, Token.isLayout, eq_of_beq (Bool.and_eq_true_iff.1 case).1]
    rfl
  · rw [if_neg case]
    exact keeps_fail.always

theorem keeps_matchStatement : KeepsWhen S AtText k Whatever (matchStatement block) := by
  refine keeps_advance.bind fun _ _ => (keeps_parse _).bind fun _ _ => ?_
  refine keeps_expectOperator.bind fun _ _ => (keeps_test (blind_atKind _)).bind fun _ _ => ?_
  refine .ite keeps_fail (keeps_expectIndent.bind fun _ _ => ?_)
  refine (keeps_many blind_atBlockEnd.not (keeps_matchCase nested).always).bind fun _ _ => ?_
  exact .ite keeps_fail ((keeps_accept (blind_atKind _)).bind fun _ _ => keeps_finish _ _)

theorem keeps_bodyWithTokens : Keeps S false Whatever (bodyWithTokens block) := by
  intro c d _ same
  unfold bodyWithTokens
  have taken {c' d' : Cursor} (same' : c'.Placed S d') : takenTokens d d' = takenTokens c c' := by
    unfold takenTokens
    rw [same.left, same'.left]
    have all := List.forall₂_take (c.left - c'.left) same.rest
    generalize c.rest.take _ = ts, d.rest.take _ = us at all
    induction all with
    | nil => rfl
    | @cons t u ts us one _ ih =>
      rw [List.filter_cons, List.filter_cons, one.isLayout, ih]
      cases text : t.isLayout with
      | true => rfl
      | false => rw [one.same text]
  have both := nested c d trivial same
  generalize block c = r, block d = s at both
  cases both with
  | ok _ same' _ =>
    simp only [taken same']
    exact .ok trivial same' nofun
  | error place => exact .error place

theorem keeps_functionDef (decorators : List Expr) (isAsync : Bool) (start : Token) :
    Keeps S k Whatever (functionDef block decorators isAsync start) := by
  refine keeps_expectKeyword.bind fun _ _ => keeps_expectName.bind fun _ _ => ?_
  refine keeps_expectOperator.bind fun _ _ =>
    (keeps_parameters (fun rule _ => keeps_parse rule) _ _).bind fun _ _ => ?_
  refine keeps_expectOperator.bind fun _ _ => ?_
  refine keeps_maybe (textual_atOperator _).blind (keeps_parse _) fun _ => ?_
  exact (keeps_bodyWithTokens nested).bind fun _ _ => (keeps_linesFrom _).bind
    fun _ _ => keeps_pure trivial

theorem keeps_classDef (decorators : List Expr) (start : Token) :
    Keeps S k Whatever (classDef block decorators start) := by
  refine keeps_expectKeyword.bind fun _ _ => keeps_expectName.bind fun _ _ => ?_
  have ending {name : Token} {bases : List Expr} {keywords : List (Keyword Expr)} :
      Keeps S false Whatever (classEnd block decorators start name bases keywords) :=
    nested.bind fun _ _ => (keeps_linesFrom _).bind fun _ _ => keeps_pure trivial
  refine keeps_ifAccept (textual_atOperator _) ?_ ?_
  · exact (keeps_arguments fun rule _ => keeps_parse rule).bind fun _ _ => ending
  · exact (keeps_pure (V := Whatever) trivial).bind fun _ _ => ending

theorem keeps_decorated : Keeps S false Whatever (decorated block) := by
  have decorator : Keeps S false Whatever
      (do let _ ← advance; let decorator ← Rule.named.parse; endStatement; pure decorator) :=
    keeps_skip <| (keeps_parse _).bind fun _ _ => keeps_endStatement.bind fun _ _ => keeps_pure trivial
  refine (keeps_many (textual_atOperator _).blind decorator.always).bind fun _ _ => ?_
  refine keeps_look fun start _ => KeepsWhen.always ?_
  refine keeps_ifTest (textual_atKeyword _).blind (keeps_functionDef nested _ false start) ?_
  refine keeps_ifAccept ((textual_atKeyword _).and (blind_secondIsKeyword _))
    (keeps_functionDef nested _ true start) ?_
  exact keeps_ifTest (textual_atKeyword _).blind (keeps_classDef nested _ start) keeps_fail

theorem keeps_asyncStatement : KeepsWhen S AtText k Whatever (asyncStatement block) := by
  refine keeps_advance.bind fun start _ => ?_
  refine keeps_ifTest (textual_atKeyword _).blind (keeps_functionDef nested [] true start) ?_
  refine keeps_ifTest (textual_atKeyword _).blind (keeps_forStatement nested true) ?_
  exact keeps_ifTest (textual_atKeyword _).blind (keeps_withStatement nested true) keeps_fail

theorem keeps_statement : Keeps S k Whatever (statement block) := by
  have one {p : Parser Stmt} {P : Cursor → Prop} (h : KeepsWhen S P true Whatever p) :
      KeepsWhen S P true Whatever (statement.one p) := h.bind fun _ _ => keeps_pure trivial
  refine keeps_look fun start _ => ?_
  -- a keyword that was looked at has text
  have keyword {text : Bytes} {p : Parser Stmt} {q : Parser Block}
      (yes : KeepsWhen S AtText true Whatever p) (no : KeepsWhen S (·.peek = start) true Whatever q) :
      KeepsWhen S (·.peek = start) true Whatever
        (if start.isKeyword text then statement.one p else q) := by
    split_ifs with is
    · exact (one yes).known fun c same => by rw [AtText, same, Token.not_isLayout_of_isKeyword is]
    · exact no
  refine keyword (keeps_conditionChain nested) ?_
  refine keyword (keeps_whileStatement nested start).always ?_
  refine keyword (keeps_forStatement nested false).always ?_
  refine keyword (keeps_tryStatement nested).always ?_
  refine keyword (keeps_withStatement nested false).always ?_
  refine keyword (keeps_functionDef nested [] false start).always ?_
  refine keyword (keeps_classDef nested [] start).always ?_
  refine keyword (keeps_asyncStatement nested) ?_
  split_ifs with sign
  · refine one ((keeps_decorated nested).always.told fun _ c is => ?_)
    rw [AtText, is, Token.not_isLayout_of_isOperator sign]
  · exact .always <| keeps_byTest textual_atMatch.blind
      (one ((keeps_matchStatement nested).known textual_atMatch.text)) keeps_simpleLine.always

theorem keeps_unindented : Keeps S k Whatever (unindented block) :=
  keeps_ifTest (blind_atKind _) keeps_fail (keeps_statement nested)

theorem keeps_blockBody : Keeps S false Whatever (blockBody block) := by
  refine keeps_expectOperator.bind fun _ _ => (keeps_test (blind_atKind _)).bind fun _ _ => ?_
  refine .ite keeps_simpleLine (keeps_expectIndent.bind fun _ _ => ?_)
  refine (keeps_many blind_atBlockEnd.not (keeps_unindented nested).always).bind fun _ _ => ?_
  exact (keeps_accept (blind_atKind _)).bind fun _ _ => keeps_pure trivial

theorem keeps_moduleBody : Keeps S false Whatever (moduleBody block) :=
  (keeps_many (V := Whatever) (blind_atKind _).not <| .always <|
    keeps_ifAccept? blind_atFiller (keeps_pure trivial) (keeps_unindented nested)).bind
      fun _ _ => keeps_pure trivial

end Statements

theorem keeps_blockWithin (bound : Nat) : Keeps S false Whatever (blockWithin bound) := by
  induction bound with
  | zero => exact keeps_fail
  | succ bound ih => exact keeps_blockBody ih

theorem keeps_block : Keeps S false Whatever block := by
  intro c d _ same
  unfold block
  rw [same.left]
  exact keeps_blockWithin (c.left + 1) c d trivial same

end CodeSmell.Parser

namespace CodeSmell

variable {S : Position → Prop} {ts us : List Token}

theorem Cursor.ofTokens_placed {inside : List Token} {marker : Token} (isMarker : marker.kind = .endMarker)
    (h : List.Forall₂ (Token.Placed S) (inside ++ [marker]) us) :
    (Cursor.ofTokens (inside ++ [marker])).Placed S (Cursor.ofTokens us) := by
  have back := List.forall₂_reverse_iff.2 h
  rw [List.reverse_append, List.reverse_singleton, List.singleton_append,
    List.forall₂_cons_left_iff] at back
  obtain ⟨marker', back', last, rest, eq⟩ := back
  obtain rfl : us = back'.reverse ++ [marker'] := by
    rw [← List.reverse_cons, ← eq, List.reverse_reverse]
  have isMarker' : marker'.kind = .endMarker := last.kind.trans isMarker
  unfold ofTokens
  simp only [List.getLast?_append, List.getLast?_singleton, Option.some_or, isMarker, isMarker',
    BEq.rfl, ↓reduceIte, List.dropLast_concat]
  exact ⟨by simpa using List.forall₂_reverse_iff.2 rest, last.place, rfl⟩

theorem parseTokens_placed (last : ∃ inside marker, ts = inside ++ [marker] ∧ marker.kind = .endMarker)
    (h : List.Forall₂ (Token.Placed S) ts us) :
    (∃ b, parseTokens ts = .ok b ∧ parseTokens us = .ok b) ∨
      ∃ e, parseTokens ts = .error e ∧ S e.position := by
  obtain ⟨inside, marker, rfl, isMarker⟩ := last
  have kept := Parser.keeps_moduleBody Parser.keeps_block _ _ trivial (Cursor.ofTokens_placed isMarker h)
  unfold parseTokens
  generalize Parser.moduleBody Parser.block (Cursor.ofTokens (inside ++ [marker])) = r,
    Parser.moduleBody Parser.block (Cursor.ofTokens us) = s at kept ⊢
  cases kept with
  | ok => exact .inl ⟨_, rfl, rfl⟩
  | error place => exact .inr ⟨_, rfl, place⟩

end CodeSmell
