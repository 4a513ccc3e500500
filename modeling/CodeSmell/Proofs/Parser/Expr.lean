import CodeSmell.Proofs.Parser.Reads

/-!
The rules of expressions are sound: an expression that a rule returns is a reading of the tokens that
the rule takes. Each rule is shown sound over sound parsers for what is nested in it, and
`sound_parse` closes the recursion.
-/

namespace CodeSmell.Parser

open Cursor

variable {c c' : Cursor}

theorem sound_starred {item : Parser Expr} (h : Sound item IsExpr) :
    SoundWhen (·.atOperator "*" = true) (starred item) IsExpr := by
  intro c x c' star eq
  simp only [starred, bind_ok, advance_ok, pure_ok] at eq
  obtain ⟨_, _, ⟨rfl, rfl⟩, value, c₁, eq, rfl, rfl⟩ := eq
  obtain ⟨_, ⟨⟩, reads⟩ := h.reads eq
  exact ⟨_, .intro, ((Reads.operator star).trans reads).layer (.starred star) rfl⟩

theorem sound_tupleOrOne {stop : Cursor → Bool} {item : Parser Expr} (h : Sound item IsExpr) :
    Sound (tupleOrOne stop item) IsExpr := by
  intro c x c' _ eq
  simp only [tupleOrOne, bind_ok, test_ok, ite_ok, pure_ok] at eq
  obtain ⟨first, c₁, one, _, _, ⟨-, rfl⟩, eq⟩ := eq
  obtain ⟨_, ⟨⟩, reads⟩ := h.reads one
  rcases eq with ⟨-, others, c₂, more, rfl, rfl⟩ | ⟨-, rfl, rfl⟩
  · obtain ⟨qs, tail, reads'⟩ := (sound_separatedTail h).reads more
    exact ⟨_, .intro, (reads.trans reads').layer (.bareTuple (.cons .intro tail) (.inl rfl)) rfl⟩
  · exact ⟨_, .intro, reads⟩

theorem checkTarget_ok {e : Expr} {u : Unit} :
    checkTarget e c = .ok (u, c') ↔ e.badTarget? = none ∧ c = c' := by
  unfold checkTarget
  cases e.badTarget? with
  | none => simp [pure_ok]
  | some position => simp [failAt_ok]

theorem peek_advance : c.advance.peek = c.peekSecond := by
  unfold Cursor.advance Cursor.peek Cursor.peekSecond endMarker
  split
  · next empty => simp [empty]
  · next t rest eq => simp [eq]

theorem reads_of_atKeywordArgument (h : atKeywordArgument c = true) :
    c.peek.kind = .name ∧ c.advance.peek.isOperator "=" = true ∧
      c.Reads [.token c.peek, .token c.advance.peek] c.advance.advance := by
  obtain ⟨name, equals⟩ := Bool.and_eq_true_iff.1 h
  rw [← peek_advance] at equals
  exact ⟨eq_of_beq name, equals, (Reads.kind name (by decide)).trans (.operator equals)⟩

theorem ne_nil_of_many {α : Type} {start : Cursor → Bool} {item : Parser α} {xs : List α}
    (starts : start c = true) (eq : many start item c = .ok (xs, c')) : xs ≠ [] := by
  simp only [many, manyKeyed, manyLoop, starts, ↓reduceIte, bind_ok, pure_ok] at eq
  obtain ⟨x, _, -, xs, _, -, rfl, -⟩ := eq
  exact List.cons_ne_nil x xs

section Rules

variable {self : Rule → Parser Expr} (sound : ∀ rule, Sound (self rule) IsExpr)

include sound

/-! ## Targets, clauses and yields -/

theorem sound_targetList : Sound (targetList self) IsExpr := by
  refine sound_tupleOrOne fun c x c' _ eq => ?_
  simp only [bind_ok, test_ok, ite_ok] at eq
  obtain ⟨b, _, ⟨star, rfl⟩, ⟨rfl, eq⟩ | ⟨-, eq⟩⟩ := eq
  · exact sound_starred (sound .binary) c x c' star eq
  · exact (sound .binary).reads eq

theorem sound_afterKeyword {text : Bytes} (rule : Rule) :
    SoundWhen (·.atKeyword text = true) (do let _ ← advance; self rule)
      (Led IsExpr (·.isKeyword text)) := by
  intro c x c' start eq
  simp only [bind_ok, advance_ok] at eq
  obtain ⟨_, _, ⟨rfl, rfl⟩, eq⟩ := eq
  obtain ⟨ps, one, reads⟩ := (sound rule).reads eq
  exact ⟨_, .intro start one, (Reads.keyword start).trans reads⟩

theorem sound_afterOperator {text : Bytes} (rule : Rule) :
    SoundWhen (·.atOperator text = true) (do let _ ← advance; self rule)
      (Led IsExpr (·.isOperator text)) := by
  intro c x c' start eq
  simp only [bind_ok, advance_ok] at eq
  obtain ⟨_, _, ⟨rfl, rfl⟩, eq⟩ := eq
  obtain ⟨ps, one, reads⟩ := (sound rule).reads eq
  exact ⟨_, .intro start one, (Reads.operator start).trans reads⟩

theorem sound_clause : Sound (clause self) Clause.Layer := by
  intro c x c' _ eq
  simp only [clause, bind_ok, checkTarget_ok, pure_ok] at eq
  obtain ⟨isAsync, c₁, async, loop, c₂, for_, target, c₃, targets, _, _, ⟨good, rfl⟩, within, c₄, in_,
    iterable, c₅, iter, conditions, c₆, ifs, rfl, rfl⟩ := eq
  obtain ⟨as, mark, reads₁⟩ := sound_acceptKeyword.reads async
  obtain ⟨isFor, reads₂⟩ := reads_of_expectKeyword for_
  obtain ⟨_, ⟨⟩, reads₃⟩ := (sound_targetList sound).reads targets
  obtain ⟨isIn, reads₄⟩ := reads_of_expectKeyword in_
  obtain ⟨_, ⟨⟩, reads₅⟩ := (sound .orTest).reads iter
  obtain ⟨ps, conds, reads₆⟩ := (sound_many (sound_afterKeyword sound .orTest)).reads ifs
  exact ⟨_, .intro mark isFor isIn good conds,
    reads₁.trans (reads₂.trans (reads₃.trans (reads₄.trans (reads₅.trans reads₆))))⟩

theorem sound_clauses : SoundWhen (atClause · = true) (clauses self)
    fun cs ps => cs ≠ [] ∧ Repeated Clause.Layer cs ps := by
  intro c x c' loop eq
  have some := ne_nil_of_many loop eq
  obtain ⟨ps, loops, reads⟩ := (sound_many fun _ _ _ _ eq => (sound_clause sound).reads eq).reads eq
  exact ⟨ps, ⟨some, loops⟩, reads⟩

theorem sound_yieldExpr : Sound (yieldExpr self) IsExpr := by
  intro c x c' _ eq
  simp only [yieldExpr, bind_ok, ite_ok, pure_ok] at eq
  obtain ⟨start, c₁, yields, b, c₂, from_, eq⟩ := eq
  obtain ⟨isYield, reads₁⟩ := reads_of_expectKeyword yields
  rcases eq with ⟨rfl, value, c₃, eq, rfl, rfl⟩ | ⟨refused, value, c₃, eq, rfl, rfl⟩
  · obtain ⟨t, isFrom, reads₂⟩ := reads_of_acceptKeyword from_
    obtain ⟨_, ⟨⟩, reads₃⟩ := (sound .test).reads eq
    exact ⟨_, .intro, (reads₁.trans (reads₂.trans reads₃)).layer (.yieldFrom isYield isFrom) rfl⟩
  · obtain rfl := Bool.eq_false_iff.2 refused
    obtain rfl := eq_of_refused from_
    obtain ⟨ps, value, reads₂⟩ :=
      (sound_optional fun _ _ _ _ eq => (sound .starExprs).reads eq).reads eq
    exact ⟨_, .intro, (reads₁.trans reads₂).layer (.yield isYield value) rfl⟩

/-! ## Parameters and arguments -/

theorem sound_parameter {mark : List Piece} {kind : ParameterKind} {annotated : Bool}
    {p : Parameter Expr} (marked : kind.Mark mark) (eq : parameter self kind annotated c = .ok (p, c')) :
    ∃ ps, c.Reads ps c' ∧ p.default = none ∧ ∀ {default ds},
      Optionally (Led IsExpr (·.isOperator "=")) default ds →
        ParameterItem.Layer (.parameter { p with default }) (mark ++ (ps ++ ds)) := by
  simp only [parameter, bind_ok, pure_ok] at eq
  obtain ⟨name, c₁, named, annotation, c₂, eq, rfl, rfl⟩ := eq
  obtain ⟨isName, reads₁⟩ := reads_of_expectName named
  have annotations : SoundWhen (fun c => (annotated && c.atOperator ":") = true)
      (do let _ ← advance; self .test) (Led IsExpr (·.isOperator ":")) :=
    fun c x c' at_ eq => sound_afterOperator sound .test c x c' (Bool.and_eq_true_iff.1 at_).2 eq
  obtain ⟨ps, annotation, reads₂⟩ := (sound_optional annotations).reads eq
  exact ⟨_, reads₁.trans reads₂, rfl, fun default => .parameter marked isName annotation default⟩

theorem sound_parameterItem {annotated : Bool} :
    Sound (parameterItem self annotated) ParameterItem.Layer := by
  intro c x c' _ eq
  simp only [parameterItem, bind_ok, ite_ok, test_ok, map_ok, pure_ok, Bool.not_eq_true] at eq
  obtain ⟨b, c₁, slash, eq⟩ := eq
  rcases eq with ⟨rfl, rfl, rfl⟩ | ⟨rfl, b, c₂, star, eq⟩
  · obtain ⟨t, isSlash, reads⟩ := reads_of_acceptOperator slash
    exact ⟨_, .slash isSlash, reads⟩
  obtain rfl := eq_of_refused slash
  rcases eq with ⟨rfl, b, _, ⟨-, rfl⟩, eq⟩ | ⟨rfl, b, c₃, stars, eq⟩
  · obtain ⟨t, isStar, reads⟩ := reads_of_acceptOperator star
    rcases eq with ⟨rfl, p, eq, rfl⟩ | ⟨rfl, rfl, rfl⟩
    · obtain ⟨ps, reads', plain, layer⟩ := sound_parameter sound (.varPositional isStar) eq
      have item := layer .none
      rw [List.append_nil, ← plain] at item
      exact ⟨_, item, reads.trans reads'⟩
    · exact ⟨_, .star isStar, reads⟩
  obtain rfl := eq_of_refused star
  rcases eq with ⟨rfl, p, eq, rfl⟩ | ⟨rfl, p, c₄, eq, fallback, c₅, default, rfl, rfl⟩
  · obtain ⟨t, isStars, reads⟩ := reads_of_acceptOperator stars
    obtain ⟨ps, reads', plain, layer⟩ := sound_parameter sound (.varKeyword isStars) eq
    have item := layer .none
    rw [List.append_nil, ← plain] at item
    exact ⟨_, item, reads.trans reads'⟩
  · obtain rfl := eq_of_refused stars
    obtain ⟨ps, reads, -, layer⟩ := sound_parameter sound .regular eq
    obtain ⟨ds, default, reads'⟩ :=
      (sound_optional (sound_afterOperator sound .test)).reads default
    exact ⟨_, layer default, reads.trans reads'⟩

theorem sound_parameters {closing : Bytes} {annotated : Bool} :
    Sound (parameters self closing annotated) fun params ps =>
      ∃ items, params = parametersOf items ∧ Separated ParameterItem.Layer "," items ps := by
  intro c x c' _ eq
  simp only [parameters, map_ok] at eq
  obtain ⟨items, eq, rfl⟩ := eq
  obtain ⟨ps, items', reads⟩ := (sound_commaList (sound_parameterItem sound)).reads eq
  exact ⟨ps, ⟨items, rfl, items'⟩, reads⟩

theorem sound_argumentItem : Sound (argumentItem self) ArgumentItem.Layer := by
  intro c x c' _ eq
  simp only [argumentItem, bind_ok, ite_ok, test_ok, map_ok, pure_ok, advance_ok, Bool.not_eq_true]
    at eq
  obtain ⟨b, _, ⟨star, rfl⟩, eq⟩ := eq
  rcases eq with ⟨rfl, e, eq, rfl⟩ | ⟨rfl, b, c₁, stars, eq⟩
  · obtain ⟨_, ⟨⟩, reads⟩ := sound_starred (sound .test) c e c' star eq
    exact ⟨_, .argument, reads⟩
  rcases eq with ⟨rfl, e, c₂, eq, rfl, rfl⟩ | ⟨rfl, b, _, ⟨keyword, rfl⟩, eq⟩
  · obtain ⟨t, isStars, reads⟩ := reads_of_acceptOperator stars
    obtain ⟨_, ⟨⟩, reads'⟩ := (sound .test).reads eq
    exact ⟨_, .unpacked isStars, reads.trans reads'⟩
  obtain rfl := eq_of_refused stars
  rcases eq with ⟨rfl, _, _, ⟨rfl, rfl⟩, _, _, ⟨rfl, rfl⟩, e, c₂, eq, rfl, rfl⟩ |
    ⟨rfl, e, c₂, eq, b, _, ⟨loop, rfl⟩, more⟩
  · obtain ⟨isName, isEquals, reads⟩ := reads_of_atKeywordArgument keyword
    obtain ⟨_, ⟨⟩, reads'⟩ := (sound .test).reads eq
    exact ⟨_, .keyword isName isEquals, reads.trans reads'⟩
  · obtain ⟨_, ⟨⟩, reads⟩ := (sound .named).reads eq
    rcases more with ⟨rfl, cs, c₃, eq, rfl, rfl⟩ | ⟨-, rfl, rfl⟩
    · obtain ⟨ps, ⟨some, loops⟩, reads'⟩ := sound_clauses sound _ _ _ loop eq
      exact ⟨_, .argument, (reads.trans reads').layer (.bareGenerator some loops) rfl⟩
    · exact ⟨_, .argument, reads⟩

theorem sound_arguments : Sound (arguments self) fun args ps => ∃ items closing qs,
    args = (items.filterMap ArgumentItem.argument?, items.filterMap ArgumentItem.keyword?) ∧
    Separated ArgumentItem.Layer "," items qs ∧ closing.isOperator ")" = true ∧
    ps = qs ++ [.token closing] := by
  intro c x c' _ eq
  simp only [arguments, bind_ok, pure_ok] at eq
  obtain ⟨items, c₁, eq, closing, c₂, close, rfl, rfl⟩ := eq
  obtain ⟨ps, list, reads⟩ := (sound_commaList (sound_argumentItem sound)).reads eq
  obtain ⟨isClosing, reads'⟩ := reads_of_expectOperator close
  exact ⟨_, ⟨items, closing, ps, rfl, list, isClosing, rfl⟩, reads.trans reads'⟩

/-! ## Trailers -/

theorem sound_optionalRule (q : Cursor → Bool) (rule : Rule) :
    Sound (optional q (self rule)) (Optionally IsExpr) :=
  sound_optional fun _ _ _ _ eq => (sound rule).reads eq

theorem sound_sliceItem : Sound (sliceItem self) IsExpr := by
  intro c x c' _ eq
  simp only [sliceItem, bind_ok, peek_ok] at eq
  obtain ⟨_, _, ⟨rfl, rfl⟩, lower, c₁, low, b, c₂, colon, eq⟩ := eq
  obtain ⟨ls, lowers, reads₁⟩ := (sound_optionalRule sound _ .starNamed).reads low
  split at eq
  · obtain ⟨rfl, rfl⟩ := pure_ok.1 eq
    obtain rfl := eq_of_refused colon
    cases lowers with
    | some one => exact ⟨_, one, reads₁⟩
  next index =>
  simp only [bind_ok, ite_ok, pure_ok] at eq
  obtain ⟨upper, c₃, up, again, c₄, second, eq⟩ := eq
  have first : ∃ t, t.isOperator ":" = true ∧ c₁.Reads [.token t] c₂ := by
    cases b with
    | true => exact reads_of_acceptOperator colon
    | false =>
      cases lower with
      | none =>
        -- without a lower bound the slice begins at the colon
        obtain ⟨at_, rfl⟩ := optional_none low
        have refused := (accept_ok.1 colon).1
        rw [refused] at at_
        cases at_
      | some e => exact (index e rfl rfl).elim
  obtain ⟨t, isColon, reads₂⟩ := first
  obtain ⟨us, uppers, reads₃⟩ := (sound_optionalRule sound _ .test).reads up
  rcases eq with ⟨rfl, step, c₅, eq, rfl, rfl⟩ | ⟨refused, step, _, ⟨rfl, rfl⟩, rfl, rfl⟩
  · obtain ⟨u, isSecond, reads₄⟩ := reads_of_acceptOperator second
    obtain ⟨ss, steps, reads₅⟩ := (sound_optionalRule sound _ .test).reads eq
    have reads := reads₁.trans (reads₂.trans (reads₃.trans (reads₄.trans reads₅)))
    have layer := Expr.Layer.slice lowers isColon uppers (.present isSecond steps) rfl
      (reads.head (by simp [Piece.tokens]))
    exact ⟨_, .intro, reads.layer layer rfl⟩
  · obtain rfl := Bool.eq_false_iff.2 refused
    obtain rfl := eq_of_refused second
    have reads := reads₁.trans (reads₂.trans (reads₃.trans (.refl _)))
    have layer := Expr.Layer.slice lowers isColon uppers .absent rfl (reads.head (by simp [Piece.tokens]))
    exact ⟨_, .intro, reads.layer layer rfl⟩

theorem sound_subscript : Sound (subscript self) Expr.Index := by
  intro c x c' _ eq
  simp only [subscript, bind_ok, ite_ok, test_ok, pure_ok] at eq
  obtain ⟨opening, c₁, open_, first, c₂, item, b, _, ⟨-, rfl⟩, eq⟩ := eq
  obtain ⟨isOpening, reads₁⟩ := reads_of_expectOperator open_
  obtain ⟨_, @⟨ts⟩, reads₂⟩ := (sound_sliceItem sound).reads item
  rcases eq with ⟨-, others, c₃, more, _, _, ⟨rfl, rfl⟩, closing, c₄, close, rfl, rfl⟩ |
    ⟨-, _, _, ⟨rfl, rfl⟩, closing, c₄, close, rfl, rfl⟩
  · obtain ⟨qs, tail, reads₃⟩ := (sound_separatedTail (sound_sliceItem sound)).reads more
    obtain ⟨isClosing, reads₄⟩ := reads_of_expectOperator close
    have layer : Expr.Layer ⟨opening.position, .sequence .tuple (first :: others)⟩ _ :=
      .indexTuple isOpening (List.cons_ne_nil _ _) (.cons (@IsExpr.intro first ts) tail) isClosing
    have reads := (reads₁.trans ((reads₂.trans reads₃).trans reads₄)).layer layer rfl
    refine ⟨_, ?_, reads⟩
    rw [List.singleton_append, tokensOf_cons, tokensOf_append]
    exact .several isOpening isClosing
  · obtain ⟨isClosing, reads₄⟩ := reads_of_expectOperator close
    exact ⟨_, .one isOpening isClosing, reads₁.trans (reads₂.trans reads₄)⟩

theorem sound_trailer : SoundWhen (atTrailer · = true) (trailer self) fun t ps =>
    ∀ e ts, (t.apply e).Layer (.expr e ts :: ps) := by
  intro c x c' _ eq
  simp only [trailer, bind_ok, ite_ok, map_ok, pure_ok, Bool.not_eq_true] at eq
  obtain ⟨b, c₁, dot, eq⟩ := eq
  rcases eq with ⟨rfl, name, c₂, eq, rfl, rfl⟩ | ⟨rfl, b, c₂, open_, eq⟩
  · obtain ⟨t, isDot, reads₁⟩ := reads_of_acceptOperator dot
    obtain ⟨isName, reads₂⟩ := reads_of_expectName eq
    exact ⟨_, fun e ts => .attr isDot isName, reads₁.trans reads₂⟩
  obtain rfl := eq_of_refused dot
  rcases eq with ⟨rfl, ⟨args, keywords⟩, c₃, eq, rfl, rfl⟩ | ⟨rfl, index, eq, rfl⟩
  · obtain ⟨t, isOpening, reads₁⟩ := reads_of_acceptOperator open_
    obtain ⟨ps, ⟨items, closing, qs, same, list, isClosing, rfl⟩, reads₂⟩ :=
      (sound_arguments sound).reads eq
    obtain ⟨rfl, rfl⟩ := Prod.mk.inj same
    exact ⟨_, fun e ts => .call isOpening list isClosing, reads₁.trans reads₂⟩
  · obtain rfl := eq_of_refused open_
    obtain ⟨ps, brackets, reads⟩ := (sound_subscript sound).reads eq
    exact ⟨_, fun e ts => .subscript brackets, reads⟩

/-! ## Displays -/

theorem sound_parenthesized {opening : Token} (isOpening : opening.isOperator "(")
    (first : c.Reads [.token opening] c') {x : Expr} {c'' : Cursor}
    (eq : parenthesized self opening c' = .ok (x, c'')) : ∃ ps, IsExpr x ps ∧ c.Reads ps c'' := by
  simp only [parenthesized, bind_ok, ite_ok, test_ok, pure_ok, Bool.not_eq_true] at eq
  obtain ⟨b, c₁, close, eq⟩ := eq
  rcases eq with ⟨rfl, rfl, rfl⟩ | ⟨rfl, b, _, ⟨yields, rfl⟩, eq⟩
  · obtain ⟨t, isClosing, reads⟩ := reads_of_acceptOperator close
    have layer : Expr.Layer ⟨opening.position, .sequence .tuple []⟩ _ :=
      .sequence isOpening .nil isClosing
    exact ⟨_, .intro, (first.trans reads).layer layer rfl⟩
  obtain rfl := eq_of_refused close
  rcases eq with ⟨rfl, value, c₂, eq, closing, c₃, close, rfl, rfl⟩ |
    ⟨rfl, e, c₂, eq, b, _, ⟨loop, rfl⟩, eq'⟩
  · obtain ⟨_, ⟨⟩, reads⟩ := (sound_yieldExpr sound).reads eq
    obtain ⟨isClosing, reads'⟩ := reads_of_expectOperator close
    exact ⟨_, .intro, (first.trans (reads.trans reads')).grouped isOpening isClosing⟩
  obtain ⟨_, @⟨ts⟩, reads⟩ := (sound .starNamed).reads eq
  rcases eq' with ⟨rfl, cs, c₃, eq, closing, c₄, close, rfl, rfl⟩ | ⟨rfl, b, _, ⟨-, rfl⟩, eq'⟩
  · obtain ⟨ps, ⟨some, loops⟩, reads'⟩ := sound_clauses sound _ _ _ loop eq
    obtain ⟨isClosing, reads''⟩ := reads_of_expectOperator close
    exact ⟨_, .intro, (first.trans (reads.trans (reads'.trans reads''))).layer
      (.comprehension isOpening some loops isClosing) rfl⟩
  rcases eq' with ⟨-, others, c₃, eq, closing, c₄, close, rfl, rfl⟩ |
    ⟨-, closing, c₃, close, rfl, rfl⟩
  · obtain ⟨ps, tail, reads'⟩ := (sound_separatedTail (sound .starNamed)).reads eq
    obtain ⟨isClosing, reads''⟩ := reads_of_expectOperator close
    have layer : Expr.Layer ⟨opening.position, .sequence .tuple (e :: others)⟩ _ :=
      .sequence isOpening (.cons (@IsExpr.intro e ts) tail) isClosing
    exact ⟨_, .intro, (first.trans ((reads.trans reads').trans reads'')).layer layer rfl⟩
  · obtain ⟨isClosing, reads'⟩ := reads_of_expectOperator close
    exact ⟨_, .intro, (first.trans (reads.trans reads')).grouped isOpening isClosing⟩

theorem sound_elements (kind : SequenceKind) {opening : Token} {closing : Bytes}
    {loop : ComprehensionKind} {first : Expr} {ts : List Token}
    (isOpening : opening.isOperator kind.brackets.1) (closes : kind.brackets.2 = closing)
    (same : loop.brackets = kind.brackets)
    (start : c.Reads [.token opening, .expr first ts] c') {x : Expr} {c'' : Cursor}
    (eq : elements self opening closing kind loop first c' = .ok (x, c'')) :
    ∃ ps, IsExpr x ps ∧ c.Reads ps c'' := by
  simp only [elements, bind_ok, ite_ok, test_ok, pure_ok, Bool.not_eq_true] at eq
  subst closes
  obtain ⟨b, _, ⟨atLoop, rfl⟩, eq⟩ := eq
  rcases eq with ⟨rfl, cs, c₁, eq, t, c₂, close, rfl, rfl⟩ | ⟨-, others, c₁, eq, t, c₂, close, rfl, rfl⟩
  · obtain ⟨ps, ⟨some, loops⟩, reads⟩ := sound_clauses sound _ _ _ atLoop eq
    obtain ⟨isClosing, reads'⟩ := reads_of_expectOperator close
    rw [← same] at isOpening isClosing
    exact ⟨_, .intro, (start.trans (reads.trans reads')).layer
      (.comprehension isOpening some loops isClosing) rfl⟩
  · obtain ⟨ps, tail, reads⟩ := (sound_separatedTail (sound .starNamed)).reads eq
    obtain ⟨isClosing, reads'⟩ := reads_of_expectOperator close
    have layer : Expr.Layer ⟨opening.position, .sequence kind (first :: others)⟩ _ :=
      .sequence isOpening (.cons (@IsExpr.intro first ts) tail) isClosing
    exact ⟨_, .intro, ((start.trans reads).trans reads').layer layer rfl⟩

theorem sound_bracketed {opening : Token} (isOpening : opening.isOperator "[")
    (first : c.Reads [.token opening] c') {x : Expr} {c'' : Cursor}
    (eq : bracketed self opening c' = .ok (x, c'')) : ∃ ps, IsExpr x ps ∧ c.Reads ps c'' := by
  simp only [bracketed, bind_ok, ite_ok, pure_ok, Bool.not_eq_true] at eq
  obtain ⟨b, c₁, close, eq⟩ := eq
  rcases eq with ⟨rfl, rfl, rfl⟩ | ⟨rfl, e, c₂, eq, eq'⟩
  · obtain ⟨t, isClosing, reads⟩ := reads_of_acceptOperator close
    have layer : Expr.Layer ⟨opening.position, .sequence .list []⟩ _ :=
      .sequence isOpening .nil isClosing
    exact ⟨_, .intro, (first.trans reads).layer layer rfl⟩
  · obtain rfl := eq_of_refused close
    obtain ⟨_, ⟨⟩, reads⟩ := (sound .starNamed).reads eq
    exact sound_elements sound .list isOpening rfl rfl (first.trans reads) eq'

theorem sound_unpackedEntry {t : Token} (isStars : t.isOperator "**")
    (first : c.Reads [.token t] c') {x : Entry Expr} {c'' : Cursor}
    (eq : unpackedEntry self c' = .ok (x, c'')) : ∃ ps, x.Layer ps ∧ c.Reads ps c'' := by
  simp only [unpackedEntry, bind_ok, pure_ok] at eq
  obtain ⟨value, c₁, eq, rfl, rfl⟩ := eq
  obtain ⟨_, ⟨⟩, reads⟩ := (sound .binary).reads eq
  exact ⟨_, .unpacked isStars, first.trans reads⟩

theorem sound_entry : Sound (entry self) Entry.Layer := by
  intro c x c' _ eq
  simp only [entry, bind_ok, ite_ok, pure_ok, Bool.not_eq_true] at eq
  obtain ⟨b, c₁, stars, ⟨rfl, eq⟩ | ⟨rfl, key, c₂, eq, colon, c₃, eq', value, c₄, eq'', rfl, rfl⟩⟩ := eq
  · obtain ⟨t, isStars, reads⟩ := reads_of_acceptOperator stars
    exact sound_unpackedEntry sound isStars reads eq
  · obtain rfl := eq_of_refused stars
    obtain ⟨_, ⟨⟩, reads₁⟩ := (sound .test).reads eq
    obtain ⟨isColon, reads₂⟩ := reads_of_expectOperator eq'
    obtain ⟨_, ⟨⟩, reads₃⟩ := (sound .test).reads eq''
    exact ⟨_, .keyed isColon, reads₁.trans (reads₂.trans reads₃)⟩

theorem sound_entries {opening : Token} {first : Entry Expr} {ps : List Piece}
    (isOpening : opening.isOperator "\x7b") (one : first.Layer ps)
    (start : c.Reads (.token opening :: ps) c') {x : Expr} {c'' : Cursor}
    (eq : entries self opening first c' = .ok (x, c'')) : ∃ ps, IsExpr x ps ∧ c.Reads ps c'' := by
  simp only [entries, bind_ok, pure_ok] at eq
  obtain ⟨others, c₁, eq, closing, c₂, close, rfl, rfl⟩ := eq
  obtain ⟨qs, tail, reads⟩ := (sound_separatedTail (sound_entry sound)).reads eq
  obtain ⟨isClosing, reads'⟩ := reads_of_expectOperator close
  have layer : Expr.Layer ⟨opening.position, .dict (first :: others)⟩ _ :=
    .dict isOpening (.cons one tail) isClosing
  exact ⟨_, .intro, ((start.trans reads).trans reads').layer layer rfl⟩

theorem sound_braced {opening : Token} (isOpening : opening.isOperator "\x7b")
    (first : c.Reads [.token opening] c') {x : Expr} {c'' : Cursor}
    (eq : braced self opening c' = .ok (x, c'')) : ∃ ps, IsExpr x ps ∧ c.Reads ps c'' := by
  simp only [braced, bind_ok, ite_ok, test_ok, pure_ok, Bool.not_eq_true] at eq
  obtain ⟨b, c₁, close, eq⟩ := eq
  rcases eq with ⟨rfl, rfl, rfl⟩ | ⟨rfl, b, c₂, stars, eq⟩
  · obtain ⟨t, isClosing, reads⟩ := reads_of_acceptOperator close
    have layer : Expr.Layer ⟨opening.position, .dict []⟩ _ := .dict isOpening .nil isClosing
    exact ⟨_, .intro, (first.trans reads).layer layer rfl⟩
  obtain rfl := eq_of_refused close
  rcases eq with ⟨rfl, entry, c₃, eq, eq'⟩ | ⟨rfl, key, c₃, eq, b, c₄, colon, eq'⟩
  · obtain ⟨t, isStars, reads⟩ := reads_of_acceptOperator stars
    obtain ⟨ps, one, reads'⟩ := sound_unpackedEntry sound isStars reads eq
    exact sound_entries sound isOpening one (first.trans reads') eq'
  obtain rfl := eq_of_refused stars
  obtain ⟨_, ⟨⟩, reads₁⟩ := (sound .starNamed).reads eq
  rcases eq' with ⟨rfl, value, c₅, eq, b, _, ⟨loop, rfl⟩, eq'⟩ | ⟨rfl, eq'⟩
  · obtain ⟨t, isColon, reads₂⟩ := reads_of_acceptOperator colon
    obtain ⟨_, ⟨⟩, reads₃⟩ := (sound .test).reads eq
    rcases eq' with ⟨rfl, cs, c₆, eq, closing, c₇, close, rfl, rfl⟩ | ⟨rfl, eq'⟩
    · obtain ⟨ps, ⟨some, loops⟩, reads₄⟩ := sound_clauses sound _ _ _ loop eq
      obtain ⟨isClosing, reads₅⟩ := reads_of_expectOperator close
      exact ⟨_, .intro,
        (first.trans (reads₁.trans (reads₂.trans (reads₃.trans (reads₄.trans reads₅))))).layer
          (.dictComprehension isOpening isColon some loops isClosing) rfl⟩
    · exact sound_entries sound isOpening (.keyed isColon)
        (first.trans (reads₁.trans (reads₂.trans reads₃))) eq'
  · obtain rfl := eq_of_refused colon
    exact sound_elements sound .set isOpening rfl rfl (first.trans reads₁) eq'

/-! ## Atoms and primaries -/

omit sound in
theorem strings_of_many {ts : List Token} (eq : many (·.atKind .string) advance c = .ok (ts, c')) :
    c.rest = ts ++ c'.rest ∧ c'.stop = c.stop ∧ c'.lastLine = lastLineOf c.lastLine ts ∧
      (∀ t ∈ ts, t.kind = .string) ∧ c'.atKind .string = false := by
  have loop (bound : Nat) : ∀ {c : Cursor} {ts : List Token}, manyLoop
      (fun c => if c.atKind .string then some () else none) (fun _ => advance) bound c =
        .ok (ts, c') → c.rest = ts ++ c'.rest ∧ c'.stop = c.stop ∧
          c'.lastLine = lastLineOf c.lastLine ts ∧ ∀ t ∈ ts, t.kind = .string := by
    induction bound with
    | zero => exact fun eq => (fail_ok.1 eq).elim
    | succ bound ih =>
      intro c ts eq
      unfold manyLoop at eq
      cases string : c.atKind .string with
      | false =>
        simp only [string, Bool.false_eq_true, ↓reduceIte] at eq
        obtain ⟨rfl, rfl⟩ := Prod.mk.inj (Except.ok.inj eq)
        exact ⟨rfl, rfl, rfl, List.forall_mem_nil _⟩
      | true =>
        simp only [string, ↓reduceIte, bind_ok, advance_ok, pure_ok] at eq
        obtain ⟨_, _, ⟨rfl, rfl⟩, ts, c₁, more, rfl, rfl⟩ := eq
        have kind : c.peek.kind = .string := eq_of_beq string
        obtain ⟨rest, stop, lastLine⟩ := advance_eq (by rw [kind]; decide)
        obtain ⟨rest', stop', lastLine', all⟩ := ih more
        refine ⟨?_, stop'.trans stop, ?_, List.forall_mem_cons.2 ⟨kind, all⟩⟩
        · rw [rest, rest', List.cons_append]
        · rw [lastLine', lastLine, ← lastLineOf_append, List.singleton_append]
  obtain ⟨rest, stop, lastLine, all⟩ := loop (c.left + 1) eq
  exact ⟨rest, stop, lastLine, all, many_stops (·.atKind .string) eq⟩

omit sound in
theorem sound_stringRun : SoundWhen (·.atKind .string = true) stringRun IsExpr := by
  intro c x c' string eq
  simp only [stringRun, bind_ok, advance_ok, pure_ok] at eq
  obtain ⟨_, _, ⟨rfl, rfl⟩, others, c₁, eq, rfl, rfl⟩ := eq
  have kind : c.peek.kind = .string := eq_of_beq string
  obtain ⟨rest, stop, lastLine⟩ := advance_eq (by rw [kind]; decide)
  obtain ⟨rest', stop', lastLine', all, ends⟩ := strings_of_many eq
  have run : ∀ t ∈ c.peek :: others, t.isString = true :=
    List.forall_mem_cons.2 ⟨string, fun t mem => beq_iff_eq.2 (all t mem)⟩
  have layer : Expr.Layer ⟨c.peek.position, _⟩ _ := .string kind all
  have tokens : tokensOf ((c.peek :: others).map .token) = c.peek :: others := by
    simp [tokensOf, List.flatMap_map, Piece.tokens]
  refine ⟨_, @IsExpr.intro _ (c.peek :: others), ?_, stop'.trans stop, ?_, ?_, ?_, ?_⟩
  · simp [Piece.tokens, rest, rest']
  · rw [lastLine', lastLine, ← lastLineOf_append]
    simp [Piece.tokens]
  · have reading := Expr.Reading.layer layer fun c ts mem => by simp at mem
    intro p mem
    rw [List.mem_singleton.1 mem]
    rwa [tokens] at reading
  · rw [stringsOf_expr, stringsOf_nil, Expr.strings_string, tokensOf_cons, tokensOf_nil,
      List.append_nil]
    exact Token.strings_run run
  · intro t _ u first
    obtain ⟨more, first⟩ := List.head?_eq_some_iff.1 first
    have other : u.isString = false := by
      rw [atKind, Cursor.peek, first] at ends
      exact ends
    rw [other, Bool.and_false]

omit sound in
theorem kind_of_constant? {t : Token} {constant : Constant} (h : t.constant? = some constant) :
    t.kind.Single := by
  constructor
  · intro marker
    simp [Token.constant?, Token.isKeyword, Token.isOperator, marker] at h
  · intro string
    simp [Token.constant?, Token.isKeyword, Token.isOperator, string] at h

theorem sound_atom : Sound (atom self) IsExpr := by
  intro c x c' _ eq
  simp only [atom, bind_ok, peek_ok] at eq
  obtain ⟨_, _, ⟨rfl, rfl⟩, eq⟩ := eq
  cases kind : c.peek.kind with
  | name =>
    simp only [kind, bind_ok, advance_ok, pure_ok] at eq
    obtain ⟨_, _, ⟨rfl, rfl⟩, rfl, rfl⟩ := eq
    exact ⟨_, .intro, (Reads.advance (by rw [kind]; decide)).layer (.name kind) rfl⟩
  | number =>
    simp only [kind, bind_ok, advance_ok, pure_ok] at eq
    obtain ⟨_, _, ⟨rfl, rfl⟩, rfl, rfl⟩ := eq
    exact ⟨_, .intro, (Reads.advance (by rw [kind]; decide)).layer (.number kind) rfl⟩
  | string =>
    simp only [kind] at eq
    exact sound_stringRun c x c' (beq_iff_eq.2 kind) eq
  | _ =>
    cases isConstant : c.peek.constant? with
    | some constant =>
      simp only [kind, isConstant, bind_ok, advance_ok, pure_ok] at eq
      obtain ⟨_, _, ⟨rfl, rfl⟩, rfl, rfl⟩ := eq
      exact ⟨_, .intro, (Reads.advance (kind_of_constant? isConstant)).layer (.constant isConstant) rfl⟩
    | none =>
      simp only [kind, isConstant, bind_ok, ite_ok, fail_ok, and_false, or_false,
        Bool.not_eq_true] at eq
      obtain ⟨b, c₁, paren, ⟨rfl, eq⟩ | ⟨rfl, b, c₂, bracket, eq⟩⟩ := eq
      · obtain ⟨isOpening, rfl⟩ := accept_ok.1 paren
        exact sound_parenthesized sound isOpening (.operator isOpening) eq
      obtain rfl := eq_of_refused paren
      rcases eq with ⟨rfl, eq⟩ | ⟨rfl, b, c₃, brace, rfl, eq⟩
      · obtain ⟨isOpening, rfl⟩ := accept_ok.1 bracket
        exact sound_bracketed sound isOpening (.operator isOpening) eq
      · obtain rfl := eq_of_refused bracket
        obtain ⟨isOpening, rfl⟩ := accept_ok.1 brace
        exact sound_braced sound isOpening (.operator isOpening) eq

omit sound in
theorem reads_of_trailers {trailers : List Trailer} {ps : List Piece}
    (run : Repeated (fun t ps => ∀ e ts, (t.apply e).Layer (.expr e ts :: ps)) trailers ps) :
    ∀ {e ts}, c.Reads (.expr e ts :: ps) c' →
      ∃ us, c.Reads [.expr (trailers.foldl Trailer.apply e) us] c' := by
  induction run with
  | nil => exact fun base => ⟨_, base⟩
  | @cons t _ _ _ one _ ih =>
    exact fun reads => ih (reads.merge (one _ _) (by cases t <;> rfl))

theorem sound_primary : Sound (primary self) IsExpr := by
  intro c x c' _ eq
  simp only [primary, bind_ok, ite_ok, test_ok, advance_ok, pure_ok] at eq
  obtain ⟨b, _, ⟨await, rfl⟩, eq⟩ := eq
  rcases eq with ⟨rfl, _, _, ⟨rfl, rfl⟩, value, c₁, eq, rfl, rfl⟩ |
    ⟨-, base, c₁, eq, trailers, c₂, more, rfl, rfl⟩
  · obtain ⟨_, ⟨⟩, reads⟩ := (sound .primary).reads eq
    exact ⟨_, .intro, ((Reads.keyword await).trans reads).layer (.await await) rfl⟩
  · obtain ⟨_, ⟨⟩, reads⟩ := (sound_atom sound).reads eq
    obtain ⟨ps, run, reads'⟩ := (sound_many (sound_trailer sound)).reads more
    obtain ⟨us, reads''⟩ := reads_of_trailers run (reads.trans reads')
    exact ⟨_, .intro, reads''⟩

/-! ## Operators -/

theorem sound_power : Sound (power self) IsExpr := by
  intro c x c' _ eq
  simp only [power, bind_ok, ite_ok, pure_ok, Bool.not_eq_true] at eq
  obtain ⟨base, c₁, eq, b, c₂, stars, eq'⟩ := eq
  obtain ⟨_, ⟨⟩, reads⟩ := (sound_primary sound).reads eq
  rcases eq' with ⟨rfl, exponent, c₃, eq, rfl, rfl⟩ | ⟨rfl, rfl, rfl⟩
  · obtain ⟨t, isStars, reads'⟩ := reads_of_acceptOperator stars
    obtain ⟨_, ⟨⟩, reads''⟩ := (sound .unary).reads eq
    exact ⟨_, .intro, (reads.trans (reads'.trans reads'')).layer (.binary isStars) rfl⟩
  · obtain rfl := eq_of_refused stars
    exact ⟨_, .intro, reads⟩

omit sound in
theorem kind_of_sign? {t : Token} {op : UnaryOp} (h : sign? t = some op) : t.kind = .operator := by
  unfold sign? at h
  split_ifs at h with minus plus invert
  · exact kind_of_isOperator minus
  · exact kind_of_isOperator plus
  · exact kind_of_isOperator invert

theorem sound_unary : Sound (unary self) IsExpr := by
  intro c x c' _ eq
  simp only [unary, bind_ok, peek_ok] at eq
  obtain ⟨_, _, ⟨rfl, rfl⟩, eq⟩ := eq
  cases sign : sign? c.peek with
  | none =>
    simp only [sign] at eq
    exact (sound_power sound).reads eq
  | some op =>
    simp only [sign, bind_ok, advance_ok, pure_ok] at eq
    obtain ⟨_, _, ⟨rfl, rfl⟩, operand, c₁, eq, rfl, rfl⟩ := eq
    obtain ⟨_, ⟨⟩, reads⟩ := (sound .unary).reads eq
    have first : c.Reads [.token c.peek] c.advance :=
      .advance (by rw [kind_of_sign? sign]; decide)
    exact ⟨_, .intro, (first.trans reads).layer (.unary sign) rfl⟩

omit sound in
theorem isOperator_of_levelOp? {level : Nat} {t : Token} {op : BinaryOp}
    (h : levelOp? level t = some op) : t.isOperator op.symbol = true ∧ op.level? = some level := by
  obtain ⟨found, atLevel⟩ := Option.filter_eq_some_iff.1 h
  exact ⟨Token.isOperator_of_binaryOp? found, beq_iff_eq.1 atLevel⟩

omit sound in
theorem reads_of_chain {links : List (BinaryOp × Expr)} {ps : List Piece}
    (run : Repeated (fun link => Led IsExpr (·.isOperator link.1.symbol) link.2) links ps) :
    ∀ {e ts}, c.Reads (.expr e ts :: ps) c' → ∃ us, c.Reads [.expr (chain e links) us] c' := by
  induction run with
  | nil => exact fun first => ⟨_, first⟩
  | cons one _ ih =>
    obtain ⟨op, ⟨right⟩⟩ := one
    exact fun reads => ih (reads.merge (.binary op) rfl)

theorem sound_binary (depth : Nat) : Sound (binary self depth) IsExpr := by
  induction depth with
  | zero => exact sound_unary sound
  | succ depth ih =>
    intro c x c' _ eq
    simp only [binary, bind_ok, pure_ok] at eq
    obtain ⟨first, c₁, eq, links, c₂, more, rfl, rfl⟩ := eq
    obtain ⟨_, ⟨⟩, reads⟩ := ih.reads eq
    have link (op : BinaryOp) : SoundWhen (fun c => levelOp? (6 - depth) c.peek = some op)
        (do let _ ← advance; let right ← binary self depth; pure (op, right))
        fun link => Led IsExpr (·.isOperator link.1.symbol) link.2 := by
      intro c x c' found eq
      simp only [bind_ok, advance_ok, pure_ok] at eq
      obtain ⟨_, _, ⟨rfl, rfl⟩, right, c₁, eq, rfl, rfl⟩ := eq
      obtain ⟨ps, one, reads⟩ := ih.reads eq
      have isOp := (isOperator_of_levelOp? found).1
      exact ⟨_, .intro isOp one, (Reads.operator isOp).trans reads⟩
    obtain ⟨ps, run, reads'⟩ := (sound_manyKeyed link).reads more
    obtain ⟨us, reads''⟩ := reads_of_chain run (reads.trans reads')
    exact ⟨_, .intro, reads''⟩

omit sound in
theorem sound_comparisonOp : SoundWhen (atComparison · = true) comparisonOp CompareOp.Spelling := by
  intro c x c' start eq
  simp only [comparisonOp, bind_ok, advance_ok] at eq
  obtain ⟨_, _, ⟨rfl, rfl⟩, eq⟩ := eq
  cases symbolic : c.peek.compareOp? with
  | some op =>
    simp only [symbolic, pure_ok] at eq
    obtain ⟨rfl, rfl⟩ := eq
    exact ⟨_, .symbolic symbolic, .operator (Token.isOperator_of_compareOp? symbolic).2⟩
  | none =>
    simp only [symbolic, ite_ok, bind_ok, advance_ok, pure_ok, Bool.not_eq_true] at eq
    rcases eq with ⟨isIn, rfl, rfl⟩ | ⟨notIn, eq⟩
    · exact ⟨_, .isIn isIn, .keyword isIn⟩
    -- a comparison that starts at `not` has `in` after it
    have start : (c.atKeyword "not" && c.peekSecond.isKeyword "in" || c.atKeyword "is") = true := by
      have notIn : c.atKeyword "in" = false := notIn
      simpa only [atComparison, symbolic, notIn, Option.isSome_none, Bool.false_or] using start
    rcases eq with ⟨isNot, _, _, ⟨rfl, rfl⟩, rfl, rfl⟩ | ⟨notNot, b, c₁, not, eq⟩
    · have within : c.advance.atKeyword "in" = true := by
        rcases Bool.or_eq_true_iff.1 start with both | is
        · rw [atKeyword, peek_advance]
          exact (Bool.and_eq_true_iff.1 both).2
        · have is := (Token.isKeyword_iff.1 is).2
          have isNot := (Token.isKeyword_iff.1 isNot).2
          exact absurd (is.symm.trans isNot) (by decide)
      exact ⟨_, .notIn isNot within, (Reads.keyword isNot).trans (.keyword within)⟩
    · have is : c.atKeyword "is" = true := by
        have notNot : c.atKeyword "not" = false := notNot
        simpa only [notNot, Bool.false_and, Bool.false_or] using start
      rcases eq with ⟨rfl, rfl, rfl⟩ | ⟨rfl, rfl, rfl⟩
      · obtain ⟨t, isNot, reads⟩ := reads_of_acceptKeyword not
        exact ⟨_, .isNot is isNot, (Reads.keyword is).trans reads⟩
      · obtain rfl := eq_of_refused not
        exact ⟨_, .is is, .keyword is⟩

theorem sound_comparison : Sound (comparison self) IsExpr := by
  intro c x c' _ eq
  simp only [comparison, bind_ok, ite_ok, pure_ok] at eq
  obtain ⟨left, c₁, eq, links, c₂, more, eq'⟩ := eq
  obtain ⟨_, ⟨⟩, reads⟩ := (sound_binary sound 6).reads eq
  have link : SoundWhen (atComparison · = true)
      (do let op ← comparisonOp; let right ← operand self; pure (op, right)) CompareOp.Link := by
    intro c x c' start eq
    simp only [bind_ok, pure_ok] at eq
    obtain ⟨op, c₁, eq, right, c₂, eq', rfl, rfl⟩ := eq
    obtain ⟨ps, spelling, reads⟩ := sound_comparisonOp c op c₁ start eq
    obtain ⟨_, ⟨⟩, reads'⟩ := (sound_binary sound 6).reads eq'
    exact ⟨_, .intro spelling, reads.trans reads'⟩
  obtain ⟨ps, run, reads'⟩ := (sound_many link).reads more
  rcases eq' with ⟨empty, rfl, rfl⟩ | ⟨some, rfl, rfl⟩
  · obtain rfl := List.isEmpty_iff.1 empty
    cases run
    exact ⟨_, .intro, by simpa using reads.trans reads'⟩
  · exact ⟨_, .intro, (reads.trans reads').layer (.compare (mt List.isEmpty_iff.2 some) run) rfl⟩

theorem sound_notTest : Sound (notTest self) IsExpr := by
  intro c x c' _ eq
  simp only [notTest, bind_ok, ite_ok, test_ok, advance_ok, pure_ok] at eq
  obtain ⟨b, _, ⟨not, rfl⟩, ⟨rfl, _, _, ⟨rfl, rfl⟩, value, c₁, eq, rfl, rfl⟩ | ⟨-, eq⟩⟩ := eq
  · obtain ⟨_, ⟨⟩, reads⟩ := (sound .notTest).reads eq
    exact ⟨_, .intro, ((Reads.keyword not).trans reads).layer (.not not) rfl⟩
  · exact (sound_comparison sound).reads eq

omit sound in
theorem sound_boolean {op : BoolOp} {item : Parser Expr} (h : Sound item IsExpr) :
    Sound (boolean op item) IsExpr := by
  intro c x c' _ eq
  simp only [boolean, bind_ok, ite_ok, pure_ok] at eq
  obtain ⟨first, c₁, eq, others, c₂, more, eq'⟩ := eq
  obtain ⟨_, ⟨⟩, reads⟩ := h.reads eq
  have link : SoundWhen (·.atKeyword op.symbol = true) (do let _ ← advance; item)
      (Led IsExpr (·.isKeyword op.symbol)) :=
    @sound_afterKeyword (fun _ => item) (fun _ => h) op.symbol .test
  obtain ⟨ps, run, reads'⟩ := (sound_many link).reads more
  rcases eq' with ⟨empty, rfl, rfl⟩ | ⟨some, rfl, rfl⟩
  · obtain rfl := List.isEmpty_iff.1 empty
    cases run
    exact ⟨_, .intro, by simpa using reads.trans reads'⟩
  · exact ⟨_, .intro, (reads.trans reads').layer (.boolean (mt List.isEmpty_iff.2 some) run) rfl⟩

theorem sound_orTest : Sound (orTest self) IsExpr :=
  sound_boolean (sound_boolean (sound_notTest sound))

/-! ## The loosest rules -/

theorem sound_lambda : Sound (lambda self) IsExpr := by
  intro c x c' _ eq
  simp only [lambda, bind_ok, pure_ok] at eq
  obtain ⟨start, c₁, eq₁, params, c₂, eq₂, colon, c₃, eq₃, body, c₄, eq₄, rfl, rfl⟩ := eq
  obtain ⟨isLambda, reads₁⟩ := reads_of_expectKeyword eq₁
  obtain ⟨ps, ⟨items, rfl, list⟩, reads₂⟩ := (sound_parameters sound).reads eq₂
  obtain ⟨isColon, reads₃⟩ := reads_of_expectOperator eq₃
  obtain ⟨_, ⟨⟩, reads₄⟩ := (sound .test).reads eq₄
  exact ⟨_, .intro, (reads₁.trans (reads₂.trans (reads₃.trans reads₄))).layer
    (.lambda isLambda list isColon) rfl⟩

theorem sound_conditional : Sound (conditional self) IsExpr := by
  intro c x c' _ eq
  simp only [conditional, bind_ok, ite_ok, test_ok, pure_ok, Bool.not_eq_true] at eq
  obtain ⟨b, _, ⟨-, rfl⟩, ⟨-, eq⟩ | ⟨-, body, c₁, eq₁, b, c₂, if_, eq⟩⟩ := eq
  · exact (sound_lambda sound).reads eq
  obtain ⟨_, ⟨⟩, reads₁⟩ := (sound_orTest sound).reads eq₁
  rcases eq with ⟨rfl, condition, c₃, eq₂, other, c₄, else_, orelse, c₅, eq₃, rfl, rfl⟩ |
    ⟨rfl, rfl, rfl⟩
  · obtain ⟨t, isIf, reads₂⟩ := reads_of_acceptKeyword if_
    obtain ⟨_, ⟨⟩, reads₃⟩ := (sound_orTest sound).reads eq₂
    obtain ⟨isElse, reads₄⟩ := reads_of_expectKeyword else_
    obtain ⟨_, ⟨⟩, reads₅⟩ := (sound .test).reads eq₃
    exact ⟨_, .intro, (reads₁.trans (reads₂.trans (reads₃.trans (reads₄.trans reads₅)))).layer
      (.conditional isIf isElse) rfl⟩
  · obtain rfl := eq_of_refused if_
    exact ⟨_, .intro, reads₁⟩

theorem sound_named : Sound (named self) IsExpr := by
  intro c x c' _ eq
  simp only [named, bind_ok, ite_ok, test_ok, advance_ok, pure_ok] at eq
  obtain ⟨b, _, ⟨both, rfl⟩, eq⟩ := eq
  rcases eq with ⟨rfl, _, _, ⟨rfl, rfl⟩, _, _, ⟨rfl, rfl⟩, value, c₁, eq, rfl, rfl⟩ | ⟨-, eq⟩
  · obtain ⟨name, walrus⟩ := Bool.and_eq_true_iff.1 both
    rw [← peek_advance] at walrus
    have target : c.Reads [.expr c.peek.reference [c.peek]] c.advance :=
      (Reads.kind name (by decide)).layer (.name (beq_iff_eq.1 name)) rfl
    obtain ⟨_, ⟨⟩, reads⟩ := (sound .test).reads eq
    exact ⟨_, .intro, (target.trans ((Reads.operator walrus).trans reads)).layer
      (.named (beq_iff_eq.1 name) walrus) rfl⟩
  · exact (sound_conditional sound).reads eq

theorem sound_starNamed : Sound (starNamed self) IsExpr := by
  intro c x c' _ eq
  simp only [starNamed, bind_ok, ite_ok, test_ok] at eq
  obtain ⟨b, _, ⟨star, rfl⟩, ⟨rfl, eq⟩ | ⟨-, eq⟩⟩ := eq
  · exact sound_starred (sound .binary) c x c' star eq
  · exact (sound_named sound).reads eq

theorem sound_body (rule : Rule) : Sound (rule.body self) IsExpr := by
  cases rule with
  | starExprs => exact sound_tupleOrOne (sound_starNamed sound)
  | starNamed => exact sound_starNamed sound
  | named => exact sound_named sound
  | test => exact sound_conditional sound
  | orTest => exact sound_orTest sound
  | notTest => exact sound_notTest sound
  | binary => exact sound_binary sound 6
  | unary => exact sound_unary sound
  | primary => exact sound_primary sound

end Rules

theorem sound_within (bound : Nat) : ∀ rule, Sound (Rule.within bound rule) IsExpr := by
  induction bound with
  | zero => exact fun _ _ _ _ _ eq => (fail_ok.1 eq).elim
  | succ bound ih => exact sound_body ih

theorem sound_parse (rule : Rule) : Sound rule.parse IsExpr :=
  fun c _ _ _ eq => (sound_within (c.left + 1) rule).reads eq

end CodeSmell.Parser
