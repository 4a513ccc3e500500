import CodeSmell.Proofs.Renaming.Block
import CodeSmell.Proofs.Renaming.Pattern

/-!
Statements on renamed tokens. Every rule for statements goes together with itself, takes a token if it
succeeds and is never stuck; nested blocks get a lower bound, since a token comes before each.
-/

namespace CodeSmell.Parser

open Cursor

variable {n : Nat}

theorem isEmpty_eq {α : Type} {V : α → α → Prop} {xs ys : List α} (h : List.Forall₂ V xs ys) :
    xs.isEmpty = ys.isEmpty := by
  cases h with
  | nil => rfl
  | cons _ _ => rfl

theorem tracks_maybe {α β : Type} {t : Cursor → Bool} {V : α → α → Prop} {W : β → β → Prop}
    {item : Parser α} {f g : Option α → Parser β} (h : Steady t) (each : Tracks n 0 V item item)
    (rest : ∀ x y, Option.Rel V x y → Tracks n 0 W (f x) (g y)) :
    Tracks n 0 W (accept t >>= fun b => if b = true then some <$> item >>= f else pure none >>= f)
      (accept t >>= fun b => if b = true then some <$> item >>= g else pure none >>= g) :=
  tracks_ifAccept? h ((each.map fun _ _ => .some).bind rest) ((tracks_pure .none).bind rest)

theorem tracks_exprOrYield : Tracks n 1 Expr.Renamed exprOrYield exprOrYield :=
  tracks_ifTest (steady_atKeyword _) (tracks_yieldExpr tracks_parse).lower (tracks_parse _)

theorem tracks_accessor (keyword : Bytes) : Tracks n 0 Any (accessor keyword) (accessor keyword) :=
  tracks_ifAccept? (steady_atKeyword _) ((tracks_parse _).loose.map fun _ _ _ => trivial)
    (tracks_pure trivial)

theorem tracks_targetLoop (bound : Nat) {value value' : Expr} (same : value.Renamed value') :
    Tracks bound 0 (List.Forall₂ Any) (expressionStatement.targetLoop bound value)
      (expressionStatement.targetLoop bound value') := by
  induction bound generalizing value value' with
  | zero => exact fun _ _ _ _ less => (nomatch less)
  | succ bound ih =>
    refine tracks_ifTest (steady_atOperator _) ?_ (tracks_pure (.cons trivial .nil))
    refine (tracks_checkTarget same).bind fun _ _ _ => tracks_advance?.bind fun _ _ _ => ?_
    refine TracksWhen.loose (k := 1) (tracks_exprOrYield.next fun _ _ next => ?_)
    exact (ih next).bind fun _ _ others => tracks_pure (.cons trivial others)

theorem tracks_assignment {first first' : Expr} (same : first.Renamed first') :
    Tracks n 0 StmtForm.Renamed (expressionStatement.assignment first)
      (expressionStatement.assignment first') := by
  refine (tracks_checkTarget same).bind fun _ _ _ => tracks_advance?.bind fun _ _ _ => ?_
  refine tracks_exprOrYield.loose.bind fun second second' same' => ?_
  have targets : Tracks n 0 (List.Forall₂ Any) (expressionStatement.manyTargets second)
      (expressionStatement.manyTargets second') := by
    intro c d _ same _
    unfold expressionStatement.manyTargets
    rw [← same.left]
    exact tracks_targetLoop (c.left + 1) same' c d trivial same (Nat.lt_succ_self _)
  exact targets.bind fun _ _ _ => tracks_pure (.compound (fun _ _ => rfl) .nil rfl rfl)

theorem tracks_expressionStatement :
    Tracks n 1 StmtForm.Renamed expressionStatement expressionStatement := by
  refine tracks_exprOrYield.bind fun first first' same => ?_
  refine tracks_ifAccept? (steady_atOperator _) ?_ (tracks_peek.bind fun t u same' => ?_)
  · refine .iteEq (by rw [same.isPlainTarget]) ?_ ?_
    · rw [same.position]
      exact tracks_failAt (by decide)
    · refine (tracks_parse _).loose.bind fun _ _ _ => ?_
      exact tracks_maybe (steady_atOperator _) tracks_exprOrYield.loose
        fun _ _ _ => tracks_pure (.compound (fun _ _ => rfl) .nil rfl rfl)
  rw [← same'.augmentedOp?]
  cases t.augmentedOp? with
  | some op =>
    simp only [same.isPlainTarget, same.position]
    refine .ite (tracks_failAt (by decide)) ?_
    exact tracks_advance?.bind fun _ _ _ => tracks_exprOrYield.loose.bind
      fun _ _ _ => tracks_pure (.compound (fun _ _ => rfl) .nil rfl rfl)
  | none =>
    exact tracks_ifTest (steady_atOperator _) (tracks_assignment same)
      (tracks_pure (.expression same))

/-! The rules below come after a keyword that has been taken. -/

theorem tracks_nameAfter (keyword : Bytes) : Tracks n 0 Any (nameAfter keyword) (nameAfter keyword) :=
  tracks_ifAccept? (steady_atKeyword _) (tracks_expectName.loose.map fun _ _ _ => trivial)
    (tracks_pure trivial)

theorem tracks_name : Tracks n 1 (fun t u => t.text = [] ↔ u.text = []) expectName expectName :=
  tracks_byTest (steady_atKind _)
    (tracks_taken (solid_atKind (by decide)).rest fun _ _ name same =>
      same.peek.isEmpty (eq_of_beq name))
    (tracks_fail (by decide)).always

theorem tracks_nameText : Tracks n 1 (fun x y => x = [] ↔ y = []) (Token.text <$> expectName)
    (Token.text <$> expectName) :=
  tracks_name.map fun _ _ => id

theorem tracks_dottedName : Tracks n 1 (fun x y => x = [] ↔ y = []) dottedName dottedName := by
  refine tracks_name.bind fun first first' same => ?_
  have name : Tracks n 1 Any (do let _ ← advance; Token.text <$> expectName)
      (do let _ ← advance; Token.text <$> expectName) :=
    tracks_advance?.before fun _ _ _ => tracks_nameText.any
  refine (tracks_many (steady_atOperator _) name.always).bind fun others others' more => ?_
  refine tracks_pure ?_
  have point : Bytes.ofString "." ≠ [] := by decide
  cases more with
  | nil => simpa [Bytes.join] using same
  | cons _ _ => simp [Bytes.join, List.intercalate_cons_cons, point]

theorem tracks_importItem {name : Parser Bytes} {V : Bytes → Bytes → Prop} (h : Tracks n 1 V name name) :
    Tracks n 1 Any (importItem name) (importItem name) :=
  h.bind fun _ _ _ => (tracks_nameAfter _).bind fun _ _ _ => tracks_pure trivial

theorem tracks_moduleName : Tracks n 0 Any moduleName moduleName := by
  have atDots : Solid fun c => c.atOperator "." || c.atOperator "..." :=
    (solid_atOperator _).or (solid_atOperator _)
  have dot : TracksWhen (fun c => (c.atOperator "." || c.atOperator "...") = true) n 1
      (fun t u : Token => t.text = u.text) advance advance := by
    refine tracks_taken atDots.rest fun c d holds same => same.peek.word (.inr ?_)
    rcases Bool.or_eq_true_iff.1 holds with one | three
    · exact eq_of_beq (Bool.and_eq_true_iff.1 one).1
    · exact eq_of_beq (Bool.and_eq_true_iff.1 three).1
  refine (tracks_many atDots.steady dot).bind fun dots dots' same => ?_
  have texts : dots.flatMap Token.text = dots'.flatMap Token.text := by
    induction same with
    | nil => rfl
    | cons one _ ih => rw [List.flatMap_cons, List.flatMap_cons, one, ih]
  have module {name name' : Bytes} (h : name = [] ↔ name' = []) :
      Tracks n 0 Any (if (dots.flatMap Token.text ++ name).isEmpty then fail .invalidSyntax
        else pure (dots.flatMap Token.text ++ name) : Parser Bytes)
      (if (dots'.flatMap Token.text ++ name').isEmpty then fail .invalidSyntax
        else pure (dots'.flatMap Token.text ++ name')) := by
    rw [texts]
    exact .iteEq (Bool.eq_iff_iff.2 (by simp [h])) (tracks_fail (by decide)) (tracks_pure trivial)
  refine tracks_ifTest (steady_atKind _) ?_ ?_
  · exact tracks_dottedName.loose.bind fun _ _ name => module name
  · exact (tracks_pure rfl).bind fun _ _ name => module (by rw [name])

theorem tracks_importFrom : Tracks n 0 StmtForm.Renamed importFrom importFrom := by
  refine tracks_moduleName.bind fun _ _ _ => tracks_expectKeyword.loose.bind fun _ _ _ => ?_
  have item := tracks_importItem (n := n) tracks_nameText
  refine tracks_ifAccept? (steady_atOperator _) ?_ (tracks_ifAccept? (steady_atOperator _) ?_ ?_)
  · exact tracks_pure (.compound (fun _ _ => rfl) .nil rfl rfl)
  · refine (tracks_commaList (steady_atOperator _) item.loose).bind fun _ _ names => ?_
    refine tracks_expectOperator.loose.bind fun _ _ _ => ?_
    exact .iteEq (isEmpty_eq names) (tracks_fail (by decide)) (tracks_pure (.compound (fun _ _ => rfl) .nil rfl rfl))
  · exact (tracks_commaSeparated item.loose).map fun _ _ _ => .compound (fun _ _ => rfl) .nil rfl rfl

theorem tracks_deletion : Tracks n 0 StmtForm.Renamed deletion deletion := by
  refine (tracks_commaList (V := Any) steady_atSimpleEnd ?_).bind fun _ _ targets => ?_
  · exact (tracks_parse _).loose.bind fun _ _ same => (tracks_checkTarget same).bind
      fun _ _ _ => tracks_pure trivial
  · exact .iteEq (isEmpty_eq targets) (tracks_fail (by decide)) (tracks_pure (.compound (fun _ _ => rfl) .nil rfl rfl))

theorem tracks_raising : Tracks n 0 StmtForm.Renamed raising raising := by
  refine tracks_ifTest steady_atSimpleEnd (tracks_pure (.compound (fun _ _ => rfl) .nil rfl rfl)) ?_
  exact (tracks_parse _).loose.bind fun _ _ _ => (tracks_accessor _).bind
    fun _ _ _ => tracks_pure (.compound (fun _ _ => rfl) .nil rfl rfl)

theorem tracks_assertion : Tracks n 0 StmtForm.Renamed assertion assertion :=
  (tracks_parse _).loose.bind fun _ _ _ => tracks_maybe (steady_atOperator _) (tracks_parse _).loose
    fun _ _ _ => tracks_pure (.compound (fun _ _ => rfl) .nil rfl rfl)

theorem tracks_simpleForm : Tracks n 1 StmtForm.Renamed simpleForm simpleForm := by
  have keyword {text : Bytes} {p q : Parser (StmtForm Stmt)} (yes : Tracks n 0 StmtForm.Renamed p p)
      (no : Tracks n 1 StmtForm.Renamed q q) : Tracks n 1 StmtForm.Renamed
        (do if ← acceptKeyword text then p else q) (do if ← acceptKeyword text then p else q) :=
    tracks_ifTaken (solid_atKeyword text) yes no
  refine keyword (tracks_pure (.compound (fun _ _ => rfl) .nil rfl rfl)) ?_
  refine keyword (tracks_pure (.compound (fun _ _ => rfl) .nil rfl rfl)) ?_
  refine keyword (tracks_pure (.compound (fun _ _ => rfl) .nil rfl rfl)) ?_
  refine keyword ?_ (keyword tracks_raising (keyword ?_ (keyword ?_ (keyword tracks_deletion
    (keyword tracks_assertion (keyword ?_ (keyword tracks_importFrom tracks_expressionStatement)))))))
  · exact (tracks_optional steady_atSimpleEnd.not (tracks_parse _).loose.always).map
      fun _ _ _ => .compound (fun _ _ => rfl) .nil rfl rfl
  · exact (tracks_commaSeparated tracks_nameText.loose).map
      fun _ _ _ => .compound (fun _ _ => rfl) .nil rfl rfl
  · exact (tracks_commaSeparated tracks_nameText.loose).map
      fun _ _ _ => .compound (fun _ _ => rfl) .nil rfl rfl
  · exact (tracks_commaSeparated (tracks_importItem tracks_dottedName).loose).map
      fun _ _ _ => .compound (fun _ _ => rfl) .nil rfl rfl

theorem tracks_linesFrom {line line' : Int} (same : line = line') :
    Tracks n 0 Eq (linesFrom line) (linesFrom line') := by
  refine tracks_lastLine.bind fun last _ same' => tracks_pure ?_
  rw [same, same']

theorem tracks_finish {start start' : Token} {form form' : StmtForm Stmt} (h : form.Renamed form') :
    Tracks n 0 Stmt.Renamed (finish start form) (finish start' form') := by
  refine TracksWhen.bind (V := Any) ?_ fun _ _ _ => tracks_pure (h _ _)
  exact tracks_lastLine.bind fun _ _ _ => tracks_pure trivial

theorem tracks_simpleStatement : Tracks n 1 Stmt.Renamed simpleStatement simpleStatement :=
  tracks_peek.before fun _ _ _ => tracks_simpleForm.bind fun _ _ form => tracks_finish form

theorem tracks_simpleLine : Tracks n 1 Block.Renamed simpleLine simpleLine := by
  refine tracks_simpleStatement.bind fun _ _ first => ?_
  refine (tracks_separatedTail steady_atLineEnd tracks_simpleStatement.loose).bind fun _ _ others => ?_
  exact tracks_endStatement.bind fun _ _ _ => tracks_pure (.ofStmts (.cons first others))

theorem tracks_withItem : Tracks n 1 Any withItem withItem := by
  refine (tracks_parse _).bind fun _ _ _ => tracks_ifAccept? (steady_atKeyword _) ?_ (tracks_pure trivial)
  exact (tracks_parse _).loose.bind fun _ _ same => (tracks_checkTarget same).bind
    fun _ _ _ => tracks_pure trivial

def tryEnd (block : Parser Block) (start : Token) (body : Block)
    (handlers : List (Handler Stmt × Bool)) (orelse : Block) : Parser Stmt := do
  let finalBody ← blockAfter block "finally"
  if handlers.isEmpty && finalBody.isEmpty then fail .expectedHandler
  else finish start (.tryExcept body (handlers.map Prod.fst) orelse finalBody (handlers.any Prod.snd))

def classEnd (block : Parser Block) (decorators : List Expr) (start name : Token)
    (bases : List Expr) (keywords : List (Keyword Expr)) : Parser Stmt := do
  let body ← block
  let lines ← linesFrom start.position.line
  pure ⟨lines, .classDef { name := name.text, decorators, bases, keywords, body, lines }⟩

section Statements

variable {block : Parser Block} (nested : Tracks n 1 Block.Renamed block block)

include nested

theorem tracks_branch : Tracks (n + 1) 1 (fun x y => Block.Renamed x.2.2 y.2.2)
    (branch block) (branch block) :=
  tracks_advance?.before fun _ _ _ => (tracks_parse _).next fun _ _ _ =>
    nested.loose.bind fun _ _ body => tracks_pure body

theorem tracks_blockAfter (keyword : Bytes) :
    Tracks n 0 Block.Renamed (blockAfter block keyword) (blockAfter block keyword) :=
  tracks_ifAccept? (steady_atKeyword _) nested.loose (tracks_pure (.refl []))

theorem tracks_conditionChain :
    Tracks (n + 1) 1 Stmt.Renamed (conditionChain block) (conditionChain block) := by
  refine (tracks_branch nested).next ?_
  rintro ⟨line, test, body⟩ ⟨line', test', body'⟩ same
  refine (tracks_many (steady_atKeyword _) (tracks_branch nested).lower.always).bind ?_
  intro elifs elifs' more
  refine (tracks_blockAfter nested _).bind fun orelse orelse' last => ?_
  refine tracks_lastLine.bind fun _ _ _ => tracks_pure ?_
  refine .ofForm (.compound (fun _ _ => rfl) (.cons same (.cons ?_ .nil)) rfl rfl)
  induction more with
  | nil => exact last
  | cons one _ ih =>
    exact Stmt.Renamed.ofForm (.compound (fun _ _ => rfl) (.cons one (.cons ih .nil)) rfl rfl)

theorem tracks_whileStatement {start start' : Token} :
    Tracks (n + 1) 1 Stmt.Renamed (whileStatement block start) (whileStatement block start') := by
  refine tracks_expectKeyword.next fun _ _ _ => (tracks_parse _).loose.bind fun _ _ _ => ?_
  refine nested.loose.bind fun _ _ body => (tracks_blockAfter nested _).bind fun _ _ orelse => ?_
  exact tracks_finish (.compound (fun _ _ => rfl) (.cons body (.cons orelse .nil)) rfl rfl)

theorem tracks_forStatement (isAsync : Bool) :
    Tracks (n + 1) 1 Stmt.Renamed (forStatement block isAsync) (forStatement block isAsync) := by
  refine tracks_expectKeyword.next fun _ _ _ => (tracks_targetList tracks_parse).loose.bind ?_
  refine fun _ _ target => (tracks_checkTarget target).bind fun _ _ _ => ?_
  refine tracks_expectKeyword.loose.bind fun _ _ _ => (tracks_parse _).loose.bind fun _ _ _ => ?_
  refine nested.loose.bind fun _ _ body => (tracks_blockAfter nested _).bind fun _ _ orelse => ?_
  exact tracks_finish (.compound (fun _ _ => rfl) (.cons body (.cons orelse .nil)) rfl rfl)

theorem tracks_handler : Tracks n 1 (fun x y => Block.Renamed x.1.body y.1.body ∧ x.2 = y.2)
    (handler block) (handler block) := by
  refine tracks_advance?.before fun _ _ _ => tracks_acceptOperator.before fun _ _ star => ?_
  have caught {x y : Option Expr × Option Bytes} {start start' : Token} {isStar isStar' : Bool}
      (star : isStar = isStar') : Tracks n 1 (fun x y => Block.Renamed x.1.body y.1.body ∧ x.2 = y.2)
        (do
          let body ← block
          let last ← lastLine
          pure (({ type := x.1, name := x.2, body, lines := ⟨start.position.line, last⟩ } : Handler Stmt),
            isStar))
        (do
          let body ← block
          let last ← lastLine
          pure ({ type := y.1, name := y.2, body, lines := ⟨start'.position.line, last⟩ }, isStar')) :=
    nested.bind fun _ _ body => tracks_lastLine.bind fun _ _ _ => tracks_pure ⟨body, star⟩
  refine tracks_ifTest (steady_atOperator _) ?_ ?_
  · exact (tracks_pure (V := Any) trivial).before fun _ _ _ => caught star
  · refine (tracks_parse _).loose.before fun _ _ _ => (tracks_nameAfter _).before fun _ _ _ => ?_
    exact (tracks_pure (V := Any) trivial).before fun _ _ _ => caught star

theorem tracks_tryEnd {start start' : Token} {body body' orelse orelse' : Block}
    {handlers handlers' : List (Handler Stmt × Bool)} (same : body.Renamed body')
    (more : List.Forall₂ (fun x y => Block.Renamed x.1.body y.1.body ∧ x.2 = y.2) handlers handlers')
    (last : orelse.Renamed orelse') : Tracks n 0 Stmt.Renamed (tryEnd block start body handlers orelse)
      (tryEnd block start' body' handlers' orelse') := by
  have bodies : List.Forall₂ Block.Renamed ((handlers.map Prod.fst).map Handler.body)
      ((handlers'.map Prod.fst).map Handler.body) := by
    simp only [List.forall₂_map_left_iff, List.forall₂_map_right_iff]
    exact more.imp fun _ _ h => h.1
  refine (tracks_blockAfter nested _).bind fun finalBody finalBody' final => ?_
  refine .iteEq (by rw [isEmpty_eq more, final.isEmpty]) (tracks_fail (by decide)) (tracks_finish (.compound (fun _ _ => rfl) ?_ rfl rfl))
  exact .cons same (List.rel_append bodies (.cons last (.cons final .nil)))

theorem tracks_tryStatement :
    Tracks (n + 1) 1 Stmt.Renamed (tryStatement block) (tryStatement block) := by
  refine tracks_expectKeyword.next fun _ _ _ => nested.loose.bind fun _ _ same => ?_
  refine (tracks_many (steady_atKeyword _) (tracks_handler nested).always).bind ?_
  refine fun handlers handlers' more => .iteEq (isEmpty_eq more) ?_ ?_
  · exact (tracks_pure (.refl [])).bind fun _ _ last => tracks_tryEnd nested same more last
  · exact (tracks_blockAfter nested _).bind fun _ _ last => tracks_tryEnd nested same more last

theorem tracks_withStatement (isAsync : Bool) :
    Tracks (n + 1) 1 Stmt.Renamed (withStatement block isAsync) (withStatement block isAsync) := by
  refine tracks_expectKeyword.next fun _ _ _ => ?_
  have body {items items' : List WithItem} {start start' : Token} : Tracks n 0 Stmt.Renamed
      (do let body ← block; finish start (.withItems items body isAsync))
      (do let body ← block; finish start' (.withItems items' body isAsync)) :=
    nested.loose.bind fun _ _ body =>
      tracks_finish (.compound (fun _ _ => rfl) (.cons body .nil) rfl rfl)
  refine tracks_ifAccept? solid_atGroupedItems.steady ?_ ?_
  · refine (tracks_commaList (steady_atOperator _) tracks_withItem.loose).bind fun _ _ _ => ?_
    exact tracks_expectOperator.loose.bind fun _ _ _ => (tracks_pure (V := Any) trivial).bind
      fun _ _ _ => body
  · exact (tracks_commaSeparated tracks_withItem.loose).bind fun _ _ _ => body

omit nested in
theorem tracks_expectIndent : Tracks n 0 Eq expectIndent expectIndent :=
  tracks_advance?.bind fun _ _ _ => tracks_ifAccept? (steady_atKind _) (tracks_pure rfl)
    (tracks_fail (by decide))

theorem tracks_matchCase : Tracks n 1 (fun x y => Block.Renamed x.body y.body)
    (matchCase block) (matchCase block) := by
  refine tracks_peek.before fun t u same => ?_
  refine .iteEq (same.isSoft same.isCase) ?_ (tracks_fail (by decide))
  refine tracks_advance?.before fun _ _ _ => tracks_casePattern.bind fun _ _ _ => ?_
  refine tracks_maybe (steady_atKeyword _) (tracks_parse _).loose fun _ _ _ => ?_
  exact nested.loose.bind fun _ _ body => tracks_lastLine.bind fun _ _ _ => tracks_pure body

theorem tracks_matchStatement :
    Tracks (n + 1) 1 Stmt.Renamed (matchStatement block) (matchStatement block) := by
  refine tracks_advance?.before fun _ _ _ => (tracks_parse _).next fun _ _ _ => ?_
  refine tracks_expectOperator.loose.bind fun _ _ _ => (tracks_test (steady_atKind _)).bind ?_
  rintro newline _ rfl
  refine .ite (tracks_fail (by decide)) (tracks_expectIndent.bind fun _ _ _ => ?_)
  refine (tracks_many steady_atBlockEnd.not (tracks_matchCase nested).always).bind ?_
  refine fun cases cases' same => .iteEq (isEmpty_eq same) (tracks_fail (by decide)) ?_
  refine (tracks_accept (steady_atKind _)).bind fun _ _ _ => tracks_finish (.compound (fun _ _ => ?_) ?_ rfl rfl)
  · simp only [Stmt.tags, Stmt.label, Stmt.form, List.map_const', same.length_eq]
  · simp only [StmtForm.blocks, List.forall₂_map_left_iff, List.forall₂_map_right_iff]
    exact same

theorem tracks_bodyWithTokens : Tracks n 1
    (fun x y => Block.Renamed x.1 y.1 ∧ tokenRoles x.2 = tokenRoles y.2)
    (bodyWithTokens block) (bodyWithTokens block) := by
  intro c d _ same less
  unfold bodyWithTokens
  have taken {c' d' : Cursor} (same' : c'.Renamed d') :
      List.Forall₂ Token.Renamed (takenTokens c c') (takenTokens d d') := by
    have all : List.Forall₂ Token.Renamed (c.rest.take (c.left - c'.left))
        (d.rest.take (d.left - d'.left)) := by
      rw [same.left, same'.left]
      exact List.forall₂_take _ same.rest
    exact List.rel_filter (fun _ _ same => by simp [same.isLayout]) all
  have both := nested c d trivial same less
  generalize block c = r, block d = s at both
  cases both with
  | ok body same' moves => exact .ok ⟨body, tokenRoles_eq (List.forall₂_drop 1 (taken same'))⟩ same' moves
  | error fault => exact .error fault

theorem tracks_functionDef {decorators decorators' : List Expr} (isAsync : Bool) {start start' : Token}
    (same : start.Renamed start') : Tracks (n + 1) 1 Stmt.Renamed
      (functionDef block decorators isAsync start) (functionDef block decorators' isAsync start') := by
  refine tracks_expectKeyword.next fun _ _ _ => tracks_expectName.loose.bind fun _ _ _ => ?_
  refine tracks_expectOperator.loose.bind fun _ _ _ => (tracks_parameters tracks_parse _ _).bind ?_
  refine fun _ _ _ => tracks_expectOperator.loose.bind fun _ _ _ => ?_
  refine tracks_maybe (steady_atOperator _) (tracks_parse _).loose fun _ _ _ => ?_
  refine (tracks_bodyWithTokens nested).loose.bind ?_
  rintro ⟨body, tokens⟩ ⟨body', tokens'⟩ ⟨same', roles⟩
  refine (tracks_linesFrom (by rw [same.position])).bind ?_
  rintro lines _ rfl
  refine tracks_pure (.ofForm (.function ?_ same'))
  simp only [FunctionDef.outline, Signature.ofFunction, roles, same'.tags]

theorem tracks_classDef {decorators decorators' : List Expr} {start start' : Token} :
    Tracks (n + 1) 1 Stmt.Renamed (classDef block decorators start)
      (classDef block decorators' start') := by
  refine tracks_expectKeyword.next fun _ _ _ => tracks_expectName.loose.bind fun _ _ _ => ?_
  have ending {name name' : Token} {bases bases' : List Expr} {keywords keywords' : List (Keyword Expr)} :
      Tracks n 0 Stmt.Renamed (classEnd block decorators start name bases keywords)
        (classEnd block decorators' start' name' bases' keywords') :=
    nested.loose.bind fun _ _ body => TracksWhen.bind (V := Any)
      (tracks_lastLine.bind fun _ _ _ => tracks_pure trivial) fun _ _ _ =>
        tracks_pure (.ofForm (.classDef body))
  refine tracks_ifAccept? (steady_atOperator _) ?_ ?_
  · exact (tracks_arguments tracks_parse).loose.bind fun _ _ _ => ending
  · exact (tracks_pure (V := Any) trivial).bind fun _ _ _ => ending

theorem tracks_decorated : Tracks (n + 1) 1 Stmt.Renamed (decorated block) (decorated block) := by
  have decorator : Tracks (n + 1) 1 Any
      (do let _ ← advance; let decorator ← Rule.named.parse; endStatement; pure decorator)
      (do let _ ← advance; let decorator ← Rule.named.parse; endStatement; pure decorator) :=
    tracks_advance?.before fun _ _ _ => (tracks_parse _).bind fun _ _ _ =>
      tracks_endStatement.bind fun _ _ _ => tracks_pure trivial
  refine (tracks_many (steady_atOperator _) decorator.always).before fun _ _ _ => ?_
  refine tracks_peek.before fun start start' same => ?_
  refine tracks_ifTest (steady_atKeyword _) (tracks_functionDef nested false same) ?_
  refine tracks_ifAccept ((solid_atKeyword _).and (steady_secondIsKeyword _))
    (tracks_functionDef nested true same).lower.loose ?_
  exact tracks_ifTest (steady_atKeyword _) (tracks_classDef nested) (tracks_fail (by decide))

theorem tracks_asyncStatement :
    Tracks (n + 1) 1 Stmt.Renamed (asyncStatement block) (asyncStatement block) := by
  refine tracks_advance?.before fun _ _ same => ?_
  refine tracks_ifTest (steady_atKeyword _) (tracks_functionDef nested true same) ?_
  refine tracks_ifTest (steady_atKeyword _) (tracks_forStatement nested true) ?_
  exact tracks_ifTest (steady_atKeyword _) (tracks_withStatement nested true) (tracks_fail (by decide))

theorem tracks_statement : Tracks (n + 1) 1 Block.Renamed (statement block) (statement block) := by
  have one {p q : Parser Stmt} (h : Tracks (n + 1) 1 Stmt.Renamed p q) :
      Tracks (n + 1) 1 Block.Renamed (statement.one p) (statement.one q) :=
    h.bind fun _ _ same => tracks_pure same
  refine tracks_peek.before fun start start' same => ?_
  refine .iteEq (same.isKeyword _) (one (tracks_conditionChain nested)) ?_
  refine .iteEq (same.isKeyword _) (one (tracks_whileStatement nested)) ?_
  refine .iteEq (same.isKeyword _) (one (tracks_forStatement nested false)) ?_
  refine .iteEq (same.isKeyword _) (one (tracks_tryStatement nested)) ?_
  refine .iteEq (same.isKeyword _) (one (tracks_withStatement nested false)) ?_
  refine .iteEq (same.isKeyword _) (one (tracks_functionDef nested false same)) ?_
  refine .iteEq (same.isKeyword _) (one (tracks_classDef nested)) ?_
  refine .iteEq (same.isKeyword _) (one (tracks_asyncStatement nested)) ?_
  refine .iteEq (same.isOperator _) (one (tracks_decorated nested)) ?_
  exact tracks_ifTest solid_atMatch.steady (one (tracks_matchStatement nested)) tracks_simpleLine

theorem tracks_unindented : Tracks (n + 1) 1 Block.Renamed (unindented block) (unindented block) :=
  tracks_ifTest (steady_atKind _) (tracks_fail (by decide)) (tracks_statement nested)

theorem tracks_blockBody : Tracks (n + 1) 1 Block.Renamed (blockBody block) (blockBody block) := by
  refine tracks_expectOperator.next fun _ _ _ => (tracks_test (steady_atKind _)).bind ?_
  rintro newline _ rfl
  refine .ite tracks_simpleLine.loose (tracks_expectIndent.bind fun _ _ _ => ?_)
  refine (tracks_many steady_atBlockEnd.not (tracks_unindented nested).lower.always).bind ?_
  exact fun _ _ statements => (tracks_accept (steady_atKind _)).bind
    fun _ _ _ => tracks_pure (.flatten statements)

theorem tracks_moduleBody : Tracks n 0 Block.Renamed (moduleBody block) (moduleBody block) := by
  refine (tracks_many (V := Block.Renamed) (steady_atKind _).not (TracksWhen.always ?_)).bind ?_
  · exact tracks_ifTaken solid_atFiller (tracks_pure (.refl [])) (tracks_unindented nested).lower
  · exact fun _ _ statements => tracks_pure (.flatten statements)

end Statements

theorem tracks_blockWithin (bound : Nat) :
    Tracks bound 1 Block.Renamed (blockWithin bound) (blockWithin bound) := by
  induction bound with
  | zero => exact fun _ _ _ _ less => (nomatch less)
  | succ bound ih => exact tracks_blockBody ih

theorem tracks_block : Tracks n 1 Block.Renamed block block := by
  intro c d _ same _
  unfold block
  rw [← same.left]
  exact tracks_blockWithin (c.left + 1) c d trivial same (Nat.lt_succ_self _)

end CodeSmell.Parser
