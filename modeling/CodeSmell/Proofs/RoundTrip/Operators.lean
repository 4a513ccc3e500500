import CodeSmell.Proofs.RoundTrip.Trailers

/-!
Operators. A sign, a `not`, an `await` and a power are read by their own rules; the left-associative
operators are one more link of a chain; comparisons and `and` and `or` are flat chains of operands.
`Expr.Plain.read` puts all forms together.
-/

open CodeSmell.Parser

namespace CodeSmell.Expr

variable {e value operand left right : Expr} {p : Position} {bound : Nat} {rest : List Token}

theorem Read.await (h : value.Read) : Read ⟨p, .await value⟩ := by
  refine .of_rule 13 (.await h.plain) rfl (by decide) fun bound rest length stops => ?_
  rw [render_await] at length ⊢
  refine Takes.ifTest (fun c shows => shows.keyword (by decide)) (Takes.next fun t _ => ?_)
  have inner := (h.place 13 (by decide)).within .primary h.plain (fun _ => rfl)
    (Nat.le_of_succ_le_succ length) stops
  exact Takes.result inner fun d alike => takes_pure (.await alike)

theorem Read.not (h : operand.Read) : Read ⟨p, .unary .not operand⟩ := by
  refine .of_rule 3 (.unary h.plain) rfl (by decide) fun bound rest length stops => ?_
  rw [render_not] at length ⊢
  refine Takes.ifTest (fun c shows => shows.keyword (by decide)) (Takes.next fun t _ => ?_)
  have inner := (h.place 3 (by decide)).within .notTest h.plain (fun _ => rfl)
    (Nat.le_of_succ_le_succ length) stops
  exact Takes.result inner fun d alike => takes_pure (.unary alike)

theorem Read.sign {op : UnaryOp} (h : operand.Read) (sign : op ≠ .not) :
    Read ⟨p, .unary op operand⟩ := by
  have eq : (⟨p, .unary op operand⟩ : Expr).precedence = 11 := by
    cases op <;> first | contradiction | rfl
  refine .of_rule 11 (.unary h.plain) eq (by decide) fun bound rest length stops => ?_
  rw [render_sign sign] at length ⊢
  refine Takes.look fun t shown => ?_
  have isSign : sign? t = some op := by
    change sign? t.bare = some op
    rw [shown]
    change sign? (Token.operator op.symbol) = some op
    cases op <;> first | contradiction | decide
  rw [isSign]
  refine Takes.next fun u _ => ?_
  have inner := (h.place 11 (by decide)).within .unary h.plain (fun _ => rfl)
    (Nat.le_of_succ_le_succ length) stops
  exact Takes.result inner fun d alike => takes_pure (.unary alike)

theorem Read.power (h : left.Read) (h' : right.Read) : Read ⟨p, .binary .pow left right⟩ := by
  refine .of_rule 12 (.binary h.plain h'.plain) rfl (by decide) fun bound rest length stops => ?_
  have some := h.plain.length_pos 13
  have render : render ⟨p, .binary .pow left right⟩ =
      left.renderAt 13 ++ .operator "**" :: right.renderAt 11 := render_binary
  rw [render] at length ⊢
  rw [List.length_append, List.length_cons] at length
  have base := h.place 13 (by decide) bound (.operator "**" :: (right.renderAt 11 ++ rest))
    (by omega) (.of_rank 12 (by decide) (by decide))
  refine Takes.bind base fun d alike => ?_
  refine Takes.ifAccept (fun c shows => shows.operator (by decide)) ?_
  have short : (right.renderAt 11).length ≤ bound := by omega
  have exponent := (h'.place 11 (by decide)).within .unary h'.plain (fun _ => rfl) short stops.sign
  exact Takes.result exponent fun d' alike' => takes_pure (.binary alike alike')

theorem Token.binaryOp?_symbol (op : BinaryOp) : (Token.operator op.symbol).binaryOp? = some op := by
  cases op <;> decide

theorem Read.link {op : BinaryOp} {depth : Nat} (h : left.Read) (h' : right.Read) (le : depth ≤ 5)
    (isLevel : op.level? = some (6 - depth)) : Read ⟨p, .binary op left right⟩ := by
  have precedence : op.precedence = 10 - depth := by
    rw [BinaryOp.precedence, isLevel]
    simp only
    omega
  have notPow : op ≠ .pow := by
    rintro rfl
    cases isLevel
  have leftPlace : op.leftPlace = 10 - depth := (if_neg notPow).trans precedence
  have rightPlace : op.rightPlace = 11 - depth := by
    rw [BinaryOp.rightPlace, if_neg notPow, precedence]
    omega
  refine .of_links (.binary h.plain h'.plain) le precedence fun bound rest length stops => ?_
  have render : renderAt (10 - depth) ⟨p, .binary op left right⟩ =
      left.renderAt (10 - depth) ++ .operator op.symbol :: right.renderAt (11 - depth) := by
    rw [renderAt_of_le precedence.ge, render_binary, leftPlace, rightPlace]
  have rule : ruleAt (Rule.within bound) (11 - depth) = Parser.binary (Rule.within bound) depth := by
    interval_cases depth <;> rfl
  have pos := h.plain.length_pos (10 - depth)
  rw [render] at length ⊢
  rw [List.length_append, List.length_cons] at length
  have first := h.links depth le bound (.operator op.symbol :: (right.renderAt (11 - depth) ++ rest))
    (by omega) (.of_rank _ op.rank (by omega))
  have second := h'.place (11 - depth) (by omega) bound rest (by omega) stops
  rw [rule] at second
  refine Begins.step (Y := fun link => link.1 = op ∧ right.Alike link.2) op first
    (fun c shows => ?_) ?_ (List.cons_ne_nil _ _) fun d links link before one => ?_
  · have isOp : c.peek.binaryOp? = some op := by
      change c.peek.bare.binaryOp? = some op
      rw [shows.peek]
      exact Token.binaryOp?_symbol op
    rw [levelOp?, isOp, Option.filter_some, isLevel, beq_self_eq_true, if_pos rfl]
  · exact Takes.next fun t _ => Takes.result second fun d alike => takes_pure ⟨rfl, alike⟩
  · obtain ⟨rfl, alike⟩ := one
    rw [chain, List.foldl_append]
    exact .binary before alike

theorem takes_comparisonOp (op : CompareOp) (h : ∃ t ts, rest = t :: ts ∧ t.Opens 5) :
    comparisonOp.Takes op.tokens rest (· = op) := by
  obtain ⟨next, more, rfl, opens⟩ := h
  have word {text : Bytes} {t : Token} (eq : t.bare = .keyword text) :
      t.compareOp? = none ∧ ∀ other, t.isKeyword other = (Token.keyword text).isKeyword other := by
    refine ⟨?_, fun other => ?_⟩
    · change t.bare.compareOp? = none
      rw [eq]
      rfl
    · rw [← eq]
      rfl
  cases op with
  | isIn =>
    refine Takes.next fun t eq => ?_
    obtain ⟨notSign, isWord⟩ := word eq
    rw [notSign, isWord]
    exact takes_pure rfl
  | notIn =>
    refine Takes.next fun t eq => ?_
    obtain ⟨notSign, isWord⟩ := word eq
    rw [notSign, isWord, isWord]
    exact Takes.next fun _ _ => takes_pure rfl
  | is =>
    refine Takes.next fun t eq => ?_
    obtain ⟨notSign, isWord⟩ := word eq
    rw [notSign, isWord, isWord]
    refine Takes.elseAccept (fun c shows => ?_) (takes_pure rfl)
    exact (shows.atKeyword "not").trans (opens.not_not (by decide))
  | isNot =>
    refine Takes.next fun t eq => ?_
    obtain ⟨notSign, isWord⟩ := word eq
    rw [notSign, isWord, isWord]
    exact Takes.ifAccept (fun c shows => shows.keyword (by decide)) (takes_pure rfl)
  | _ =>
    refine Takes.next fun t eq => ?_
    have sign : t.compareOp? = t.bare.compareOp? := rfl
    rw [sign, eq]
    exact takes_pure rfl

theorem atComparison_of_tokens {c : Cursor} (op : CompareOp)
    (shows : c.Shows (op.tokens ++ rest)) : atComparison c = true := by
  have sign : c.peek.compareOp? = (firstOf (op.tokens ++ rest)).compareOp? := by
    rw [← shows.peek]
    rfl
  have second : c.peekSecond.isKeyword "in" =
      (firstOf (op.tokens ++ rest).tail).isKeyword "in" := by
    rw [← shows.peekSecond]
    rfl
  rw [atComparison, sign, shows.atKeyword, shows.atKeyword, shows.atKeyword, second]
  cases op <;> rfl

def linkTokens (link : CompareOp × Expr) : List Token := link.1.tokens ++ link.2.renderAt 5

theorem stops_linkTokens (link : CompareOp × Expr) (more : List Token) :
    Stops 5 (linkTokens link ++ more) := by
  intro rank eq
  rw [linkTokens, List.append_assoc, link.1.rank] at eq
  cases eq
  decide

theorem Read.comparisonLink {link : CompareOp × Expr} {more : List Token} (h : link.2.Read)
    (length : (linkTokens link).length ≤ bound + 1) (stops : Stops 5 more) : (do
      let op ← comparisonOp
      let right ← Parser.operand (Rule.within bound)
      pure (op, right)).Takes (linkTokens link) more fun read =>
        link.1 = read.1 ∧ link.2.Alike read.2 := by
  rw [linkTokens, List.length_append] at length
  have right := h.place 5 (by decide) bound more (by omega) stops
  obtain ⟨t, ts, eq, opens⟩ := Plain.opensAt 5 h.plain.opens
  refine Takes.bind (takes_comparisonOp link.1 ⟨t, ts ++ more, by rw [eq]; rfl, opens⟩) ?_
  rintro op rfl
  exact Takes.result right fun d alike => takes_pure ⟨rfl, alike⟩

theorem Read.compare {links : List (CompareOp × Expr)} (h : left.Read)
    (h' : ∀ link ∈ links, link.2.Read) (nonempty : links ≠ []) :
    Read ⟨p, .compare left links⟩ := by
  have plain : Plain ⟨p, .compare left links⟩ :=
    .compare h.plain (fun link mem => (h' link mem).plain) nonempty
  refine .of_rule 4 plain rfl (by decide) fun bound rest length stops => ?_
  have render : render ⟨p, .compare left links⟩ = left.renderAt 5 ++ links.flatMap linkTokens :=
    render_compare
  rw [render] at length ⊢
  rw [List.length_append] at length
  have before : Stops 5 (links.flatMap linkTokens ++ rest) := by
    obtain ⟨link, more, rfl⟩ := List.exists_cons_of_ne_nil nonempty
    rw [List.flatMap_cons, List.append_assoc]
    exact stops_linkTokens link _
  have first := h.place 5 (by decide) bound _ (by omega) before
  have started (link : CompareOp × Expr) (_ : link ∈ links) (more : List Token) (c : Cursor)
      (shows : c.Shows (linkTokens link ++ more)) : atComparison c = true := by
    rw [linkTokens, List.append_assoc] at shows
    exact atComparison_of_tokens link.1 shows
  have one (link : CompareOp × Expr) (mem : link ∈ links) (more : List Token)
      (stops : Stops 5 more) := by
    have fits : (linkTokens link).length ≤ _ := length_le_flatMap_of_mem mem
    exact @comparisonLink bound link more (h' link mem) (by omega) stops
  have chain := Begins.items first (stops.mono (by decide)) (fun link _ => stops_linkTokens link)
    started one fun link _ => by simp [linkTokens, link.1.tokens_ne_nil]
  refine chain.ends (fun c shows => ?_) fun d read alike => ?_
  · rw [stops.comparison shows]
    rfl
  · obtain ⟨alike, pairs⟩ := alike
    have some : read.isEmpty = false := by
      cases pairs with
      | nil => exact absurd rfl nonempty
      | cons => rfl
    rw [some]
    have signs : List.Forall₂ (· = ·) (links.map Prod.fst) (read.map Prod.fst) :=
      List.forall₂_map_left_iff.2 (List.forall₂_map_right_iff.2 (pairs.imp fun _ _ both => both.1))
    have operands : List.Forall₂ Alike (links.map Prod.snd) (read.map Prod.snd) :=
      List.forall₂_map_left_iff.2 (List.forall₂_map_right_iff.2 (pairs.imp fun _ _ both => both.2))
    rw [List.forall₂_eq_eq_eq] at signs
    exact takes_pure (.compare alike signs operands)

theorem ruleAt_boolean (self : Rule → Parser Expr) (op : BoolOp) :
    ruleAt self op.precedence = Parser.boolean op (ruleAt self (op.precedence + 1)) := by
  cases op <;> rfl

theorem Read.boolean {op : BoolOp} {values : List Expr} (h : ∀ v ∈ values, v.Read)
    (two : 2 ≤ values.length) : Read ⟨p, .boolean op values⟩ := by
  have plain : Plain ⟨p, .boolean op values⟩ := .boolean (fun v mem => (h v mem).plain) two
  have le : op.precedence + 1 ≤ 14 := by cases op <;> decide
  refine .of_rule op.precedence plain rfl (.inl (by cases op <;> decide))
    fun bound rest length stops => ?_
  rw [ruleAt_boolean]
  obtain ⟨first, others, rfl⟩ := List.exists_cons_of_length_pos (by omega : 0 < values.length)
  rw [List.forall_mem_cons] at h
  let tokens (v : Expr) : List Token := .keyword op.symbol :: v.renderAt (op.precedence + 1)
  have render : render ⟨p, .boolean op (first :: others)⟩ =
      first.renderAt (op.precedence + 1) ++ others.flatMap tokens := by
    rw [render_boolean, List.map_cons, joinedBy, List.flatMap_map]
  rw [render] at length ⊢
  rw [List.length_append] at length
  -- an operand stops at the word after it
  have follow (more : List Token) : Stops (op.precedence + 1) (.keyword op.symbol :: more) :=
    .of_rank _ op.rank (Nat.lt_succ_self _)
  have before : Stops (op.precedence + 1) (others.flatMap tokens ++ rest) := by
    cases others with
    | nil => exact stops.mono (Nat.le_succ _)
    | cons v more => exact follow _
  have first := h.1.place _ le bound _ (by omega) before
  have started (v : Expr) (_ : v ∈ others) (more : List Token) (c : Cursor)
      (shows : c.Shows (tokens v ++ more)) : c.atKeyword op.symbol = true :=
    shows.keyword (by cases op <;> decide)
  have one (v : Expr) (mem : v ∈ others) (more : List Token) (stops : Stops (op.precedence + 1) more) : (do
      let _ ← advance
      ruleAt (Rule.within bound) (op.precedence + 1)).Takes (tokens v) more v.Alike := by
    have fits : (tokens v).length ≤ _ := length_le_flatMap_of_mem mem
    rw [List.length_cons] at fits
    exact Takes.next fun _ _ => (h.2 v mem).place _ le bound more (by omega) stops
  have chain := Begins.items first (stops.mono (Nat.le_succ _)) (fun v _ more => follow _) started
    one fun v _ => List.cons_ne_nil _ _
  refine chain.ends (fun c shows => ?_) fun d read alike => ?_
  · have ends := (shows.atKeyword op.symbol).trans (stops.keyword le_rfl op.rank)
    simp only [ends]
    rfl
  · obtain ⟨alike, pairs⟩ := alike
    have some : read.isEmpty = false := by
      cases pairs with
      | nil => simp at two
      | cons => rfl
    rw [some]
    exact takes_pure (.boolean (.cons alike pairs))

theorem Read.conditional {test body orelse : Expr} (h : test.Read) (h' : body.Read)
    (h'' : orelse.Read) : Read ⟨p, .conditional test body orelse⟩ := by
  refine .of_rule 0 (.conditional h.plain h'.plain h''.plain) rfl (by decide)
    fun bound rest length stops => ?_
  rw [render_conditional] at length ⊢
  rw [List.length_append, List.length_cons, List.length_append, List.length_cons] at length
  have isIf : (Token.keyword "if").rank? = some 0 := by decide
  have isElse : (Token.keyword "else").rank? = none := by decide
  refine Takes.elseTest (fun c shows => ?_) ?_
  · obtain ⟨t, ts, eq, opens⟩ := Plain.opensAt 1 h'.plain.opens
    rw [eq] at shows
    exact shows.keyword opens.not_lambda
  have same : orelse.renderAt 0 = orelse.render := renderAt_of_le (Nat.zero_le _)
  rw [← same] at length ⊢
  refine Takes.bind (h'.place 1 (by decide) bound _ (by omega) (.of_rank 0 isIf (by decide)))
    fun b alike => Takes.ifAccept (fun c shows => shows.keyword (by decide)) ?_
  refine Takes.bind (h.place 1 (by decide) bound _ (by omega) (.of_none isElse)) fun t alike' => ?_
  have other : (Rule.within bound .test).Takes (orelse.renderAt 0) rest orelse.Alike :=
    (h''.place 0 (by decide)).within .test h''.plain (fun _ => rfl) (by omega) stops
  refine Takes.bind (takes_expectKeyword (by decide)) fun _ _ => ?_
  exact Takes.result other fun o alike'' => takes_pure (.conditional alike' alike alike'')

theorem Plain.read (h : e.Plain) : e.Read := by
  induction h with
  | name => exact .name
  | number => exact .number
  | attr _ ih => exact ih.attr
  | subscript _ _ ih ih' => exact ih.subscript ih'
  | call _ _ ih ih' => exact ih.call ih'
  | await _ ih => exact ih.await
  | @unary p op operand _ ih =>
    by_cases not : op = .not
    · subst not
      exact ih.not
    · exact ih.sign not
  | @binary p op left right _ _ ih ih' =>
    cases isLevel : op.level? with
    | none =>
      obtain rfl : op = .pow := by cases op <;> first | rfl | cases isLevel
      exact ih.power ih'
    | some level =>
      have bounds : 1 ≤ level ∧ level ≤ 6 := by
        cases op <;> cases isLevel <;> decide
      have same : 6 - (6 - level) = level := by omega
      exact ih.link ih' (by omega : 6 - level ≤ 5) (by rw [isLevel, same])
  | compare _ _ nonempty ih ih' => exact ih.compare ih' nonempty
  | boolean _ two ih => exact .boolean ih two
  | conditional _ _ _ ih ih' ih'' => exact ih.conditional ih' ih''

end CodeSmell.Expr
