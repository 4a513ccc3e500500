import CodeSmell.Proofs.RoundTrip.Operators
import CodeSmell.Syntax.Parser.Stmt

/-!
A printed expression on a line of its own. No rule for statements but that of expressions begins at
its first token, and no colon, equals sign or line end is inside it, so that `parseTokens` reads one
expression statement back.
-/

open CodeSmell.Parser

namespace CodeSmell

def Token.lineEnd : Token := { kind := .newline }

def Token.textEnd : Token := { kind := .endMarker }

namespace Parser

theorem endsWithColon_eq_false {previous : Token} {ts : List Token}
    (h : ∀ t ∈ previous :: ts, t.isOperator ":" = false) : endsWithColon previous ts = false := by
  induction ts generalizing previous with
  | nil => exact h previous (.head _)
  | cons t rest ih =>
    rw [List.forall_mem_cons] at h
    rw [endsWithColon]
    split
    · exact h.1
    · exact ih h.2

variable {α : Type} {p : Parser α} {ts rest : List Token} {X : α → Prop}

theorem takes_parse {rule : Rule} {X : Expr → Prop}
    (h : (Rule.within ((ts ++ rest).length + 1) rule).Takes ts rest X) : rule.parse.Takes ts rest X := by
  intro c shows
  rw [Rule.parse, shows.left]
  exact h c shows

theorem takes_moduleBody {block : Parser Block} {X : Block → Prop}
    (h : (unindented block).Takes ts [] X) (nonempty : ts ≠ [])
    (starts : ∀ c : Cursor, c.Shows ts → c.atKind .endMarker = false ∧ atFiller c = false) :
    (moduleBody block).Takes ts [] X := by
  have item : (do if ← accept atFiller then pure [] else unindented block).Takes ts [] X :=
    Takes.elseAccept (fun c shows => (starts c (by simpa using shows)).2) h
  intro c shows
  have shown : c.Shows ts := by simpa using shows
  obtain ⟨b, c', eq, shows', holds⟩ := item c shows
  have ends : c'.atKind .endMarker = true := shows'.atKind .endMarker
  have last (bound : Nat) : manyLoop (fun c => if !c.atKind .endMarker then some () else none)
      (fun _ => do if ← accept atFiller then pure [] else unindented block) (bound + 1) c' =
        .ok ([], c') := by
    simp only [manyLoop, ends, Bool.not_true, Bool.false_eq_true, ↓reduceIte]
  have loop : many (!·.atKind .endMarker)
      (do if ← accept atFiller then pure [] else unindented block) c = .ok ([b], c') := by
    have some := List.length_pos_iff.2 nonempty
    obtain ⟨bound, left⟩ : ∃ bound, c.left = bound + 1 := ⟨ts.length - 1, by rw [shown.left]; omega⟩
    rw [many, manyKeyed, left, manyLoop]
    simp only [(starts c shown).1, Bool.not_false, ↓reduceIte]
    rw [bind_eq eq, bind_eq (last _)]
    rfl
  refine ⟨b, c', ?_, shows', holds⟩
  rw [moduleBody, bind_eq loop, List.flatten_singleton]
  rfl

end Parser

def Expr.Alone (e : Expr) (form : StmtForm Stmt) : Prop := ∃ d, form = .expression d ∧ e.Alike d

namespace Expr.Plain

variable {e : Expr} {rest : List Token}

theorem takes_starExprs (h : e.Plain) :
    Rule.starExprs.parse.Takes e.render (.lineEnd :: rest) e.Alike := by
  have silent : Token.lineEnd.rank? = none := by decide
  refine takes_parse ?_
  rw [List.length_append, List.length_cons, ← Nat.add_assoc]
  refine Takes.result (X := e.Alike) (Takes.elseTest (fun c shows => ?_) ?_) fun d alike => ?_
  · exact h.notOperator shows (by decide)
  · exact (h.read.place 0 (by decide)).named h (by omega) (.of_none silent) rfl
  · exact Takes.elseTest (fun c shows => shows.operator rfl) (takes_pure alike)

theorem takes_expressionStatement (h : e.Plain) :
    expressionStatement.Takes e.render (.lineEnd :: rest) e.Alone := by
  have value : exprOrYield.Takes e.render (.lineEnd :: rest) e.Alike :=
    Takes.elseTest (fun c shows => h.notKeyword shows (by decide)) h.takes_starExprs
  refine Takes.result value fun d alike => ?_
  refine Takes.elseAccept (fun c shows => shows.operator rfl) (Takes.look fun t shown => ?_)
  have none : t.augmentedOp? = none := by
    change t.bare.augmentedOp? = none
    rw [shown]
    rfl
  rw [none]
  exact Takes.elseTest (fun c shows => shows.operator rfl) (takes_pure ⟨d, rfl, alike⟩)

theorem takes_simpleForm (h : e.Plain) :
    simpleForm.Takes e.render (.lineEnd :: rest) e.Alone := by
  have other {text : Bytes} {p q : Parser (StmtForm Stmt)} {X : StmtForm Stmt → Prop}
      (word : text ∉ List.map Bytes.ofString ["await", "not"])
      (no : q.Takes e.render (.lineEnd :: rest) X) :
      (do if ← acceptKeyword text then p else q).Takes e.render (.lineEnd :: rest) X :=
    Takes.elseAccept (fun c shows => h.notKeyword shows word) no
  refine other (by decide) (other (by decide) (other (by decide) (other (by decide) ?_)))
  refine other (by decide) (other (by decide) (other (by decide) (other (by decide) ?_)))
  exact other (by decide) (other (by decide) (other (by decide) h.takes_expressionStatement))

theorem takes_simpleLine (h : e.Plain) : simpleLine.Takes (e.render ++ [.lineEnd]) rest
    fun b => ∃ lines d, b = [⟨lines, .expression d⟩] ∧ e.Alike d := by
  have statement : simpleStatement.Takes e.render ([.lineEnd] ++ rest)
      fun s => ∃ lines d, s = ⟨lines, .expression d⟩ ∧ e.Alike d := by
    refine Takes.look fun start _ => Takes.result h.takes_simpleForm ?_
    rintro form ⟨d, rfl, alike⟩
    exact fun c shows => ⟨_, c, rfl, shows, _, d, rfl, alike⟩
  refine Takes.bind statement ?_
  rintro s ⟨lines, d, rfl, alike⟩
  have alone : (separatedTail ";" Cursor.atLineEnd simpleStatement).Takes [] ([.lineEnd] ++ rest)
      (· = []) := by
    intro c shows
    have stops : c.atOperator ";" = false := shows.operator rfl
    refine ⟨[], c, ?_, shows, rfl⟩
    have refused : acceptOperator ";" c = .ok (false, c) := by
      rw [acceptOperator, accept, stops]
      rfl
    rw [separatedTail, tailLoop, bind_eq refused]
    rfl
  refine Takes.after alone ?_
  rintro _ rfl
  have ends : endStatement.Takes [.lineEnd] rest fun _ => True :=
    Takes.ifAccept (fun c shows => shows.atKind .newline) (takes_pure trivial)
  exact Takes.result ends fun _ _ => takes_pure ⟨lines, d, rfl, alike⟩

/-- An expression is no match statement, since no colon ends its line. -/
theorem not_atMatch (h : e.Plain) {c : Cursor} (shows : c.Shows (e.render ++ [.lineEnd])) :
    atMatch c = false := by
  have silent : ∀ t ∈ c.rest, t.isOperator ":" = false := by
    intro t mem
    have mem : t.bare ∈ e.render ++ [.lineEnd] := by
      rw [← shows]
      exact List.mem_map_of_mem mem
    change t.bare.isOperator ":" = false
    rcases List.mem_append.1 mem with inside | ends
    · have inner := h.inner _ inside
      simp only [Token.isOuter, Bool.or_eq_false_iff] at inner
      exact inner.1.1.2
    · rw [List.mem_singleton.1 ends]
      rfl
  unfold atMatch
  split
  · next t next more eq =>
    rw [eq, List.forall_mem_cons] at silent
    rw [endsWithColon_eq_false silent.2, Bool.and_false]
  · rfl

theorem takes_statement (h : e.Plain) (block : Parser Block) :
    (statement block).Takes (e.render ++ [.lineEnd]) []
      fun b => ∃ lines d, b = [⟨lines, .expression d⟩] ∧ e.Alike d := by
  refine Takes.look fun t shown => ?_
  obtain ⟨u, us, eq, opens⟩ := h.opens
  have first : t.bare = u := by rw [shown, eq]; rfl
  have word {text : Bytes} (other : text ∉ List.map Bytes.ofString ["await", "not"]) :
      t.isKeyword text = false := by
    by_contra holds
    rw [Bool.not_eq_false] at holds
    refine other (opens.keyword_mem ?_)
    rw [← first]
    exact holds
  have sign : t.isOperator "@" = false := by
    by_contra holds
    rw [Bool.not_eq_false] at holds
    have isOperator : u.isOperator "@" = true := by
      rw [← first]
      exact holds
    exact absurd (opens.operator_mem isOperator) (by decide)
  have other {text : Bytes} {p q : Parser Block} {ts : List Token} {X : Block → Prop}
      (silent : text ∉ List.map Bytes.ofString ["await", "not"]) (no : q.Takes ts [] X) :
      (if t.isKeyword text then p else q).Takes ts [] X := by
    rwa [word silent]
  refine other (by decide) (other (by decide) (other (by decide) (other (by decide) ?_)))
  refine other (by decide) (other (by decide) (other (by decide) (other (by decide) ?_)))
  rw [sign]
  exact Takes.elseTest (fun c shows => h.not_atMatch (by simpa using shows)) h.takes_simpleLine

theorem notKind (h : e.Plain) {c : Cursor} (shows : c.Shows (e.render ++ rest)) {kind : TokenKind}
    (layout : kind.isLayout = true) : c.atKind kind = false := by
  obtain ⟨t, ts, eq, -⟩ := h.opens
  have inner := h.inner t (by rw [eq]; exact .head _)
  simp only [Token.isOuter, Bool.or_eq_false_iff] at inner
  rw [shows.atKind, eq]
  by_contra holds
  rw [Bool.not_eq_false, beq_iff_eq] at holds
  have same : t.isLayout = kind.isLayout := congrArg TokenKind.isLayout holds
  rw [same, layout] at inner
  exact absurd inner.1.1.1 (by decide)

theorem takes_module (h : e.Plain) (block : Parser Block) :
    (moduleBody block).Takes (e.render ++ [.lineEnd]) []
      fun b => ∃ lines d, b = [⟨lines, .expression d⟩] ∧ e.Alike d := by
  refine takes_moduleBody ?_ (by simp) fun c shows => ⟨h.notKind shows rfl, ?_⟩
  · refine Takes.elseTest (fun c shows => ?_) (h.takes_statement block)
    rw [List.append_assoc] at shows
    exact h.notKind shows rfl
  · rw [atFiller, h.notKind shows rfl, h.notKind shows rfl]
    rfl

end Expr.Plain

/-- Printing and then parsing an expression gives one statement with the same expression, up to
positions. -/
theorem parseTokens_render {e : Expr} {tokens : List Token} (plain : e.Plain)
    (printed : tokens.map Token.bare = e.render ++ [.lineEnd, .textEnd]) :
    ∃ lines d, parseTokens tokens = .ok [⟨lines, .expression d⟩] ∧ e.Alike d := by
  have split : tokens.map Token.bare = (e.render ++ [.lineEnd]) ++ [.textEnd] := by
    rw [printed, List.append_assoc]
    rfl
  obtain ⟨inside, last, rfl, before, ends⟩ := List.map_eq_append_iff.1 split
  obtain ⟨marker, rfl, isMarker⟩ := List.map_eq_singleton_iff.1 ends
  have isMarker : marker.kind = .endMarker := congrArg Token.kind isMarker
  have start : Cursor.ofTokens (inside ++ [marker]) = { rest := inside, stop := marker.position } := by
    simp [Cursor.ofTokens, isMarker]
  have shows : (Cursor.ofTokens (inside ++ [marker])).Shows (e.render ++ [.lineEnd] ++ []) := by
    rw [start, List.append_nil]
    exact before
  obtain ⟨_, c, eq, -, lines, d, rfl, alike⟩ := plain.takes_module block _ shows
  refine ⟨lines, d, ?_, alike⟩
  rw [parseTokens, eq]
  rfl

theorem parseTokens_render_nested :
    let name (id : Bytes) : Expr := ⟨⟨1, 1⟩, .name id⟩
    let at_ (form : Form Expr) : Expr := ⟨⟨1, 1⟩, form⟩
    let choice := at_ (.conditional (name "c") (name "b") (name "d"))
    let power := at_ (.binary .pow (name "a") (at_ (.subscript choice (at_ (.number 1 "1" false)))))
    let either := at_ (.boolean .or [at_ (.call (name "f") [name "x"] []), name "y"])
    let difference := at_ (.binary .sub (name "p") (at_ (.binary .sub (name "q") (name "r"))))
    let e := at_ (.boolean .and [at_ (.compare (at_ (.unary .minus power)) [(.le, either)]),
      at_ (.unary .not difference)])
    let tokens := [.operator "-", .ofName "a", .operator "**", .operator "(", .ofName "b",
      .keyword "if", .ofName "c", .keyword "else", .ofName "d", .operator ")", .operator "[",
      .ofNumber 1 "1" false, .operator "]", .operator "<=", .operator "(", .ofName "f",
      .operator "(", .ofName "x", .operator ")", .keyword "or", .ofName "y", .operator ")",
      .keyword "and", .keyword "not", .ofName "p", .operator "-", .operator "(", .ofName "q",
      .operator "-", .ofName "r", .operator ")", .lineEnd, .textEnd]
    e.Plain ∧ tokens.map Token.bare = e.render ++ [.lineEnd, .textEnd] ∧
      ∃ lines d, parseTokens tokens = .ok [⟨lines, .expression d⟩] ∧ e.Alike d := by
  intro name at_ choice power either difference e tokens
  have plain : e.Plain := by
    refine .boolean (List.forall_mem_cons.2 ⟨.compare (.unary (.binary .name (.subscript
      (.conditional .name .name .name) .number))) ?_ (by decide), ?_⟩) (by decide)
    · exact List.forall_mem_singleton.2 (.boolean (List.forall_mem_cons.2 ⟨.call .name
        (List.forall_mem_singleton.2 .name), List.forall_mem_singleton.2 .name⟩) (by decide))
    · exact List.forall_mem_singleton.2 (.unary (.binary .name (.binary .name .name)))
  have printed : tokens.map Token.bare = e.render ++ [.lineEnd, .textEnd] := by
    simp only [e, either, difference, power, choice, at_, name, Expr.render_boolean,
      Expr.render_compare, Expr.render_sign, Expr.render_not, Expr.render_binary,
      Expr.render_subscript, Expr.render_call, Expr.render_conditional, Expr.render_name,
      Expr.render_number, Expr.renderAt, Expr.placed, List.map_cons, List.map_nil,
      List.flatMap_cons, List.flatMap_nil, ne_eq, reduceCtorEq, not_false_eq_true]
    rfl
  exact ⟨plain, printed, parseTokens_render plain printed⟩

end CodeSmell
