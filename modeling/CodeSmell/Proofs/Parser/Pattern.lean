import CodeSmell.Proofs.Parser.Expr
import CodeSmell.Syntax.Parser.Pattern

/-!
The rules of patterns are sound, as those of expressions are: a pattern is read into an expression,
and the tokens that it takes are those of the expression.
-/

namespace CodeSmell.Parser

open Cursor

variable {c c' : Cursor}

theorem sound_capture : Sound capture fun e ps =>
    ∃ t : Token, t.kind = .name ∧ e = t.reference ∧ ps = [.expr e [t]] := by
  intro c x c' _ eq
  simp only [capture, map_ok] at eq
  obtain ⟨t, eq, rfl⟩ := eq
  obtain ⟨isName, reads⟩ := reads_of_expectName eq
  exact ⟨_, ⟨t, isName, rfl, rfl⟩, reads.layer (.name isName) rfl⟩

theorem separatedTail_stops {separator : Bytes} {stop : Cursor → Bool} {α : Type} {item : Parser α}
    {xs : List α} (h : c.atOperator separator = false)
    (eq : separatedTail separator stop item c = .ok (xs, c')) : xs = [] ∧ c = c' := by
  simp only [separatedTail, tailLoop, acceptOperator, bind_ok, accept_ok, ite_ok, pure_ok, h] at eq
  obtain ⟨b, _, ⟨rfl, rfl⟩, ⟨impossible, -⟩ | ⟨-, rfl, rfl⟩⟩ := eq
  · cases impossible
  · exact ⟨rfl, rfl⟩

section PatternRules

variable {self : PatternRule → Parser Expr} (sound : ∀ rule, Sound (self rule) IsExpr)

include sound

theorem sound_patternList {closing : Bytes} : Sound (patternList self closing) fun r ps =>
    ∃ qs t, t.isOperator closing = true ∧ ps = qs ++ [.token t] ∧ Separated IsExpr "," r.1 qs ∧
      ∀ e, r = ([e], false) → ∃ ts, qs = [.expr e ts] := by
  intro c x c' _ eq
  simp only [patternList, bind_ok, ite_ok, test_ok, pure_ok, Bool.not_eq_true] at eq
  obtain ⟨b, c₁, empty, eq⟩ := eq
  rcases eq with ⟨rfl, rfl, rfl⟩ | ⟨rfl, e, c₂, eq, comma, _, ⟨hasComma, rfl⟩, others, c₃, more, t, c₄,
    close, rfl, rfl⟩
  · obtain ⟨t, isClosing, reads⟩ := reads_of_acceptOperator empty
    exact ⟨_, ⟨[], t, isClosing, rfl, .nil, nofun⟩, reads⟩
  obtain rfl := eq_of_refused empty
  obtain ⟨_, @⟨ts⟩, reads₁⟩ := (sound .alternatives).reads eq
  obtain ⟨isClosing, reads₃⟩ := reads_of_expectOperator close
  cases comma with
  | false =>
    obtain ⟨rfl, rfl⟩ := separatedTail_stops hasComma more
    have one : Separated IsExpr "," [e] ([.expr e ts] ++ []) := .cons .intro .nil
    refine ⟨_, ⟨_, t, isClosing, rfl, one, fun e' same => ?_⟩, reads₁.trans reads₃⟩
    obtain ⟨rfl, -⟩ := List.cons.inj (Prod.mk.inj same).1
    exact ⟨ts, rfl⟩
  | true =>
    obtain ⟨qs, tail, reads₂⟩ := (sound_separatedTail (sound .alternatives)).reads more
    have list : Separated IsExpr "," (e :: others) ([.expr e ts] ++ qs) := .cons .intro tail
    exact ⟨_, ⟨_, t, isClosing, rfl, list, nofun⟩, (reads₁.trans reads₂).trans reads₃⟩

theorem sound_mappingEntry : Sound (mappingEntry self) Entry.Layer := by
  intro c x c' _ eq
  simp only [mappingEntry, bind_ok, ite_ok, pure_ok, Bool.not_eq_true] at eq
  obtain ⟨b, c₁, stars, ⟨rfl, value, c₂, eq, rfl, rfl⟩ |
    ⟨rfl, key, c₂, eq, colon, c₃, eq', value, c₄, eq'', rfl, rfl⟩⟩ := eq
  · obtain ⟨t, isStars, reads⟩ := reads_of_acceptOperator stars
    obtain ⟨_, ⟨name, -, -, rfl⟩, reads'⟩ := sound_capture.reads eq
    exact ⟨_, .unpacked isStars, reads.trans reads'⟩
  · obtain rfl := eq_of_refused stars
    obtain ⟨_, ⟨⟩, reads₁⟩ := (sound .closed).reads eq
    obtain ⟨isColon, reads₂⟩ := reads_of_expectOperator eq'
    obtain ⟨_, ⟨⟩, reads₃⟩ := (sound .alternatives).reads eq''
    exact ⟨_, .keyed isColon, reads₁.trans (reads₂.trans reads₃)⟩

theorem sound_classPatternItem : Sound (classPatternItem self) ArgumentItem.Layer := by
  intro c x c' _ eq
  simp only [classPatternItem, bind_ok, ite_ok, test_ok, map_ok, advance_ok, pure_ok] at eq
  obtain ⟨b, _, ⟨keyword, rfl⟩, ⟨rfl, _, _, ⟨rfl, rfl⟩, _, _, ⟨rfl, rfl⟩, value, c₁, eq, rfl, rfl⟩ |
    ⟨-, value, eq, rfl⟩⟩ := eq
  · obtain ⟨isName, isEquals, reads⟩ := reads_of_atKeywordArgument keyword
    obtain ⟨_, ⟨⟩, reads'⟩ := (sound .alternatives).reads eq
    exact ⟨_, .keyword isName isEquals, reads.trans reads'⟩
  · obtain ⟨_, ⟨⟩, reads⟩ := (sound .alternatives).reads eq
    exact ⟨_, .argument, reads⟩

omit sound in
theorem reads_of_attributes {p : Position} {names : List Token} {ps : List Piece}
    (run : Repeated (fun name ps => ∃ dot : Token, dot.isOperator "." = true ∧ name.kind = .name ∧
      ps = [.token dot, .token name]) names ps) :
    ∀ {e ts}, e.position = p → c.Reads (.expr e ts :: ps) c' → ∃ value us,
      names.foldl (fun e name => ⟨p, .attr e name.text⟩) e = value ∧ value.position = p ∧
        c.Reads [.expr value us] c' := by
  induction run with
  | nil => exact fun same first => ⟨_, _, rfl, same, first⟩
  | cons one _ ih =>
    obtain ⟨dot, isDot, isName, rfl⟩ := one
    rintro e ts rfl reads
    exact ih rfl (reads.merge (.attr isDot isName) rfl)

theorem sound_valuePattern : SoundWhen (·.atKind .name = true) (valuePattern self) IsExpr := by
  intro c x c' name eq
  simp only [valuePattern, bind_ok, ite_ok, advance_ok, pure_ok, Bool.not_eq_true] at eq
  obtain ⟨_, _, ⟨rfl, rfl⟩, names, c₁, more, b, c₂, paren, eq⟩ := eq
  have start : c.Reads [.expr c.peek.reference [c.peek]] c.advance :=
    (Reads.kind name (by decide)).layer (.name (beq_iff_eq.1 name)) rfl
  have dotted : SoundWhen (·.atOperator "." = true) (do let _ ← advance; expectName)
      fun name ps => ∃ dot : Token, dot.isOperator "." = true ∧ name.kind = .name ∧
        ps = [.token dot, .token name] := by
    intro c t c' dot eq
    simp only [bind_ok, advance_ok] at eq
    obtain ⟨_, _, ⟨rfl, rfl⟩, eq⟩ := eq
    obtain ⟨isName, reads⟩ := reads_of_expectName eq
    exact ⟨_, ⟨_, dot, isName, rfl⟩, (Reads.operator dot).trans reads⟩
  obtain ⟨ps, run, reads⟩ := (sound_many dotted).reads more
  obtain ⟨value, us, same, position, whole⟩ := reads_of_attributes run rfl (start.trans reads)
  have same : names.foldl (fun e name => ⟨c.peek.position, .attr e name.text⟩) c.peek.reference =
    value := same
  rw [same] at eq
  rcases eq with ⟨rfl, items, c₃, eq, closing, c₄, close, rfl, rfl⟩ | ⟨rfl, rfl, rfl⟩
  · obtain ⟨t, isOpening, reads₁⟩ := reads_of_acceptOperator paren
    obtain ⟨qs, list, reads₂⟩ := (sound_commaList (sound_classPatternItem sound)).reads eq
    obtain ⟨isClosing, reads₃⟩ := reads_of_expectOperator close
    refine ⟨_, .intro, (whole.trans (reads₁.trans (reads₂.trans reads₃))).layer ?_ rfl⟩
    rw [← show value.position = c.peek.position from position]
    exact .call isOpening list isClosing
  · obtain rfl := eq_of_refused paren
    exact ⟨_, .intro, whole⟩

theorem sound_closedPattern : Sound (closedPattern self) IsExpr := by
  intro c x c' _ eq
  simp only [closedPattern, bind_ok, peek_ok, ite_ok, test_ok, fail_ok, pure_ok, and_false, or_false,
    Bool.not_eq_true] at eq
  obtain ⟨_, _, ⟨rfl, rfl⟩, b, c₁, star, eq⟩ := eq
  rcases eq with ⟨rfl, name, c₂, eq, rfl, rfl⟩ | ⟨rfl, b, c₂, paren, eq⟩
  · obtain ⟨isStar, rfl⟩ := accept_ok.1 star
    obtain ⟨_, ⟨name, -, rfl, rfl⟩, reads⟩ := sound_capture.reads eq
    exact ⟨_, .intro, ((Reads.operator isStar).trans reads).layer (.starred isStar) rfl⟩
  obtain rfl := eq_of_refused star
  rcases eq with ⟨rfl, ⟨items, comma⟩, c₃, eq, eq'⟩ | ⟨rfl, b, c₃, bracket, eq⟩
  · obtain ⟨isOpening, rfl⟩ := accept_ok.1 paren
    obtain ⟨ps, ⟨qs, closing, isClosing, rfl, list, single⟩, reads⟩ :=
      (sound_patternList sound).reads eq
    have whole := (Reads.operator isOpening).trans reads
    have read : (∃ e, (items, comma) = ([e], false) ∧ e = x ∧ c₃ = c') ∨
        (⟨c.peek.position, .sequence .tuple items⟩ : Expr) = x ∧ c₃ = c' := by
      rcases items with _ | ⟨e, _ | ⟨e', rest⟩⟩ <;> cases comma
      case cons.nil.false => exact .inl ⟨e, rfl, pure_ok.1 eq'⟩
      all_goals exact .inr (pure_ok.1 eq')
    rcases read with ⟨e, same, rfl, rfl⟩ | ⟨rfl, rfl⟩
    · obtain ⟨ts, rfl⟩ := single e same
      exact ⟨_, .intro, whole.grouped isOpening isClosing⟩
    · have layer : Expr.Layer ⟨c.peek.position, .sequence .tuple items⟩ _ :=
        .sequence isOpening list isClosing
      exact ⟨_, .intro, whole.layer layer rfl⟩
  obtain rfl := eq_of_refused paren
  rcases eq with ⟨rfl, ⟨items, comma⟩, c₄, eq, rfl, rfl⟩ | ⟨rfl, b, c₄, brace, eq⟩
  · obtain ⟨isOpening, rfl⟩ := accept_ok.1 bracket
    obtain ⟨ps, ⟨qs, closing, isClosing, rfl, list, -⟩, reads⟩ := (sound_patternList sound).reads eq
    have layer : Expr.Layer ⟨c.peek.position, .sequence .list items⟩ _ :=
      .sequence isOpening list isClosing
    exact ⟨_, .intro, ((Reads.operator isOpening).trans reads).layer layer rfl⟩
  obtain rfl := eq_of_refused bracket
  rcases eq with ⟨rfl, entries, c₅, eq, closing, c₆, close, rfl, rfl⟩ | ⟨rfl, b, _, ⟨-, rfl⟩, eq⟩
  · obtain ⟨isOpening, rfl⟩ := accept_ok.1 brace
    obtain ⟨ps, list, reads⟩ := (sound_commaList (sound_mappingEntry sound)).reads eq
    obtain ⟨isClosing, reads'⟩ := reads_of_expectOperator close
    have layer : Expr.Layer ⟨c.peek.position, .dict entries⟩ _ := .dict isOpening list isClosing
    exact ⟨_, .intro, ((Reads.operator isOpening).trans (reads.trans reads')).layer layer rfl⟩
  obtain rfl := eq_of_refused brace
  rcases eq with ⟨-, eq⟩ | ⟨-, b, _, ⟨name, rfl⟩, rfl, eq⟩
  · exact (sound_binary sound_parse 2).reads eq
  · exact sound_valuePattern sound _ _ _ name eq

theorem sound_alternatives : Sound (alternatives self) IsExpr := by
  intro c x c' _ eq
  simp only [alternatives, bind_ok, ite_ok, pure_ok, Bool.not_eq_true] at eq
  obtain ⟨first, c₁, eq, others, c₂, more, b, c₃, as, eq'⟩ := eq
  obtain ⟨_, ⟨⟩, reads₁⟩ := (sound_closedPattern sound).reads eq
  have bar : SoundWhen (·.atOperator "|" = true) (do let _ ← advance; closedPattern self)
      (Led IsExpr (·.isOperator BinaryOp.bitOr.symbol)) :=
    @sound_afterOperator (fun _ => closedPattern self) (fun _ => sound_closedPattern sound) _ .test
  obtain ⟨ps, run, reads₂⟩ := (sound_many bar).reads more
  have links : Repeated (fun link => Led IsExpr (·.isOperator link.1.symbol) link.2)
      (others.map (BinaryOp.bitOr, ·)) ps := run.map fun _ _ one => one
  obtain ⟨us, pattern⟩ := reads_of_chain links (reads₁.trans reads₂)
  rcases eq' with ⟨rfl, name, c₄, eq, rfl, rfl⟩ | ⟨rfl, rfl, rfl⟩
  · obtain ⟨t, isAs, reads₃⟩ := reads_of_acceptKeyword as
    obtain ⟨_, ⟨name, isName, rfl, rfl⟩, reads₄⟩ := sound_capture.reads eq
    exact ⟨_, .intro, (pattern.trans (reads₃.trans reads₄)).layer (.capture isName isAs) rfl⟩
  · obtain rfl := eq_of_refused as
    exact ⟨_, .intro, pattern⟩

end PatternRules

theorem sound_patternWithin (bound : Nat) : ∀ rule, Sound (PatternRule.within bound rule) IsExpr := by
  induction bound with
  | zero => exact fun _ _ _ _ _ eq => (fail_ok.1 eq).elim
  | succ bound ih =>
    intro rule
    cases rule with
    | alternatives => exact sound_alternatives ih
    | closed => exact sound_closedPattern ih

theorem sound_patternParse (rule : PatternRule) : Sound rule.parse IsExpr :=
  fun c _ _ _ eq => (sound_patternWithin (c.left + 1) rule).reads eq

theorem sound_casePattern : Sound casePattern IsExpr := by
  intro c x c' _ eq
  simp only [casePattern, bind_ok, peek_ok, ite_ok, test_ok, failAt_ok, pure_ok, and_false,
    false_or] at eq
  obtain ⟨_, _, ⟨rfl, rfl⟩, _, _, ⟨-, rfl⟩, -, first, c₁, one, _, _, ⟨-, rfl⟩, eq⟩ := eq
  obtain ⟨_, @⟨ts⟩, reads⟩ := (sound_patternParse .alternatives).reads one
  rcases eq with ⟨-, others, c₂, more, rfl, rfl⟩ | ⟨-, rfl, rfl⟩
  · obtain ⟨qs, tail, reads'⟩ :=
      (sound_separatedTail (sound_patternParse .alternatives)).reads more
    obtain ⟨t, mem, -⟩ := Expr.Reading.text (reads.spelled _ (.head _))
    have whole := reads.trans reads'
    have start := whole.head (List.append_ne_nil_of_left_ne_nil (List.ne_nil_of_mem mem) _)
    exact ⟨_, .intro, whole.layer (.bareTuple (.cons .intro tail) (.inr ⟨_, start, rfl⟩)) rfl⟩
  · exact ⟨_, .intro, reads⟩

end CodeSmell.Parser
