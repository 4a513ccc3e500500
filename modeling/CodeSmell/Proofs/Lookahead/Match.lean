import CodeSmell.Proofs.Lookahead.Expr
import CodeSmell.Proofs.Lookahead.First

/-!
The soft keyword `match`. A line of simple statements ends with a token that is no colon, and a subject
begins with one that may begin an expression, so that one token of lookahead and the last token of the
line tell the two apart: no statement is lost to the guess.
-/

namespace CodeSmell.Parser

open Cursor

variable {α : Type} {a b : Bool} {c c' : Cursor}

theorem walks_finish {start : Token} {form : StmtForm Stmt} : Walks a (finish start form) a := by
  rintro c₀ c s c' ⟨before, -⟩ eq
  obtain ⟨-, rfl⟩ := finish_ok.1 eq
  exact before

theorem walks_exprOrYield : Walks a exprOrYield true :=
  .ifTest (walks_yieldExpr walks_parse).always (walks_parse _)

theorem walks_accessor {keyword : Bytes} : Walks true (accessor keyword) true :=
  walks_ifAccept firm_atKeyword (walks_parse _).map walks_pure

theorem walks_assigned {value : Expr} {f : Expr → Parser α} (rest : ∀ e, Walks true (f e) true) :
    WalksWhen (·.atOperator "=" = true) a
      (do checkTarget value; let _ ← advance; let next ← exprOrYield; f next) true := by
  rintro c₀ c x c' ⟨before, equals⟩ eq
  simp only [bind_ok, checkTarget_ok, advance_ok] at eq
  obtain ⟨_, _, ⟨-, rfl⟩, _, _, ⟨-, rfl⟩, next, c₁, value, eq⟩ := eq
  have behind := before.firm (.operator equals (by decide))
  exact rest next c₀ c₁ x c' ⟨walks_exprOrYield c₀ _ next c₁ ⟨behind, trivial⟩ value, trivial⟩ eq

theorem walks_targetLoop (bound : Nat) (value : Expr) :
    Walks true (expressionStatement.targetLoop bound value) true := by
  induction bound generalizing value with
  | zero => exact walks_fail
  | succ bound ih =>
    apply WalksWhen.ifTest _ walks_pure
    exact walks_assigned fun next => (ih next).bind fun _ => walks_pure

theorem firm_of_augmentedOp? {t : Token} {op : BinaryOp} (h : t.augmentedOp? = some op) : t.Firm := by
  apply Token.Firm.operator (Token.isOperator_of_augmentedOp? h)
  cases op <;> decide

theorem walks_expressionStatement : Walks a expressionStatement true := by
  apply walks_exprOrYield.bind
  intro first
  apply walks_ifColon
  · apply WalksWhen.ite walks_failAt
    apply (walks_parse _).bind
    intro _
    apply walks_ifAccept (firm_atOperator (by decide))
    · exact walks_exprOrYield.map.bind fun _ => walks_pure
    · exact walks_pure.bind fun _ => walks_pure
  apply WalksWhen.look
  intro t
  cases augmented : t.augmentedOp? with
  | some op =>
    apply WalksWhen.ite walks_failAt
    apply (walks_advanceAt (firm_of_augmentedOp? augmented)).bind
    exact fun _ => walks_exprOrYield.bind fun _ => walks_pure
  | none =>
    apply WalksWhen.always
    apply WalksWhen.ifTest _ walks_pure
    apply walks_assigned
    intro second
    apply WalksWhen.bind (m := true) _ fun _ => walks_pure
    exact fun c₀ c => walks_targetLoop (c.left + 1) second c₀ c

theorem walks_dottedName : Walks a dottedName true := by
  have dot : WalksWhen (·.atOperator "." = true) true advance true :=
    walks_advance.known fun _ => firm_atOperator (by decide)
  apply walks_expectName.bind
  intro _
  apply (walks_many (dot.bind fun _ => walks_expectName.map)).bind
  exact fun _ => walks_pure

theorem walks_importItem {name : Parser Bytes} (h : ∀ {a}, Walks a name true) :
    Walks a (importItem name) true := by
  apply h.bind
  intro _
  apply (walks_ifAccept firm_atKeyword walks_expectName.map walks_pure).bind
  exact fun _ => walks_pure

theorem walks_moduleName : Walks true moduleName true := by
  have dots : WalksWhen (fun c => (c.atOperator "." || c.atOperator "...") = true) true advance
      true := by
    apply walks_advance.known
    intro c either
    obtain one | three := Bool.or_eq_true_iff.1 either
    · exact firm_atOperator (by decide) one
    · exact firm_atOperator (by decide) three
  apply (walks_many dots).bind
  intro _
  apply WalksWhen.ifTest
  · exact (walks_dottedName.bind fun _ => .ite walks_fail walks_pure).always
  · exact walks_pure.bind fun _ => .ite walks_fail walks_pure

theorem walks_importFrom : Walks true importFrom true := by
  have item : ∀ {a}, Walks a (importItem (Token.text <$> expectName)) true :=
    walks_importItem walks_expectName.map
  apply walks_moduleName.bind
  intro _
  apply walks_expectKeyword.bind
  intro _
  apply walks_ifAccept (firm_atOperator (by decide)) walks_pure
  apply walks_ifAccept (firm_atOperator (by decide)) _ (walks_commaSeparated item).map
  apply (walks_commaList item).bind
  intro _
  exact (walks_expectOperator (by decide)).bind fun _ => .ite walks_fail walks_pure

theorem walks_deletion : Walks true deletion true := by
  have target {a : Bool} : Walks a (do
      let target ← Rule.binary.parse
      checkTarget target
      pure target) true :=
    (walks_parse _).bind fun _ => walks_checkTarget.bind fun _ => walks_pure
  exact (walks_commaList target).bind fun _ => .ite walks_fail walks_pure

theorem walks_raising : Walks true raising true := by
  apply WalksWhen.ifTest walks_pure.always
  exact (walks_parse _).bind fun _ => walks_accessor.bind fun _ => walks_pure

theorem walks_assertion : Walks a assertion true := by
  apply (walks_parse _).bind
  intro _
  apply walks_ifAccept (firm_atOperator (by decide))
  · exact (walks_parse _).map.bind fun _ => walks_pure
  · exact walks_pure.bind fun _ => walks_pure

theorem walks_simpleForm : Walks a simpleForm true := by
  have names {a : Bool} : Walks a (commaSeparated (Token.text <$> expectName)) true :=
    walks_commaSeparated walks_expectName.map
  apply walks_ifAccept firm_atKeyword walks_pure
  apply walks_ifAccept firm_atKeyword walks_pure
  apply walks_ifAccept firm_atKeyword walks_pure
  apply walks_ifAccept firm_atKeyword (walks_rules walks_parse _).map
  apply walks_ifAccept firm_atKeyword walks_raising
  apply walks_ifAccept firm_atKeyword names.map
  apply walks_ifAccept firm_atKeyword names.map
  apply walks_ifAccept firm_atKeyword walks_deletion
  apply walks_ifAccept firm_atKeyword walks_assertion
  apply walks_ifAccept firm_atKeyword
  · exact (walks_commaSeparated (walks_importItem walks_dottedName)).map
  exact walks_ifAccept firm_atKeyword walks_importFrom walks_expressionStatement

theorem walks_simpleStatement : Walks a simpleStatement true := by
  apply WalksWhen.look
  intro start
  exact (walks_simpleForm.bind fun _ => walks_finish).always

theorem passes_of_simpleLine {block : Block} (eq : simpleLine c = .ok (block, c')) :
    ∃ c₁, c.Passes true c₁ ∧ c₁.atLineEnd = true := by
  simp only [simpleLine, bind_ok, pure_ok] at eq
  obtain ⟨first, c₁, one, others, c₂, more, _, c₃, ends, -⟩ := eq
  have passes := walks_simpleStatement c c first c₁ ⟨.refl c, trivial⟩ one
  have tail := walks_separatedTail (by decide) walks_simpleStatement c c₁ others c₂
    ⟨passes, trivial⟩ more
  refine ⟨c₂, tail, ?_⟩
  simp only [endStatement, bind_ok, ite_ok, pure_ok, test_ok, fail_ok, and_false, or_false] at ends
  obtain ⟨taken, c₄, accepted, ⟨rfl, -⟩ | ⟨refused, _, _, ⟨rfl, rfl⟩, marker, -⟩⟩ := ends
  · exact Bool.or_eq_true_iff.2 (.inl (accept_ok.1 accepted).1)
  · obtain rfl := Bool.eq_false_iff.2 refused
    obtain rfl := eq_of_refused accepted
    exact Bool.or_eq_true_iff.2 (.inr marker)

theorem not_lineEnd {t : Token} (text : t.isLayout = false) :
    (t.kind == .newline || t.kind == .endMarker) = false := by
  cases kind : t.kind <;> simp_all [Token.isLayout, TokenKind.isLayout]

theorem endsWithColon_append {previous : Token} {ts rest : List Token}
    (text : ∀ t ∈ ts, t.isLayout = false)
    (ends : ∀ t ∈ rest.head?, t.kind = .newline ∨ t.kind = .endMarker) :
    endsWithColon previous (ts ++ rest) = (ts.getLast?.getD previous).isOperator ":" := by
  induction ts generalizing previous with
  | nil =>
    cases rest with
    | nil => rfl
    | cons t rest =>
      have stops : (t.kind == .newline || t.kind == .endMarker) = true := by
        simpa using ends t rfl
      simp [endsWithColon, stops]
  | cons t ts ih =>
    rw [List.forall_mem_cons] at text
    rw [List.cons_append, endsWithColon, not_lineEnd text.1, List.getLast?_cons]
    exact ih text.2

theorem not_afterPlainName {t : Token} (h : t.opensExpression = true) : afterPlainName t = false := by
  unfold afterPlainName Token.augmentedOp?
  by_cases kind : t.kind = .operator
  · simp only [Token.opensExpression, kind, List.contains_iff_mem, List.mem_cons,
      List.not_mem_nil, or_false] at h
    obtain text | text | text | text | text | text | text | text := h
    all_goals rw [kind, text]; decide
  · simp [kind]

theorem head_of_atLineEnd (h : c.atLineEnd = true) :
    ∀ t ∈ c.rest.head?, t.kind = .newline ∨ t.kind = .endMarker := by
  intro t first
  have peek : c.peek = t := by
    rw [Cursor.peek, List.headD_eq_head?_getD, Option.mem_def.1 first, Option.getD_some]
  simpa [atLineEnd, atKind, peek] using h

theorem atMatch_of_matchStatement {block : Parser Block} {s : Stmt} (name : c.peek.kind = .name)
    (word : c.peek.text = "match") (eq : matchStatement block c = .ok (s, c')) :
    atMatch c = true := by
  simp only [matchStatement, bind_ok, advance_ok, test_ok, ite_ok, fail_ok, and_false,
    false_or] at eq
  obtain ⟨_, _, ⟨-, rfl⟩, subject, c₁, expr, colon, c₂, behind, _, _, ⟨rfl, rfl⟩, newline, -⟩ := eq
  have first : c.rest = c.peek :: c.advance.rest := (advance_eq (by rw [name]; decide)).1
  have opens := opensExpression_of_starExprs expr
  obtain ⟨isColon, reads⟩ := reads_of_expectOperator behind
  obtain ⟨ts, subject, text, last⟩ := walks_parse .starExprs _ _ _ _ ⟨.refl _, trivial⟩ expr
  have lineEnd : c₂.atLineEnd = true := by simp_all [atLineEnd]
  cases ts with
  | nil =>
    obtain ⟨t, none, -⟩ := last rfl
    cases none
  | cons next ts =>
    have peek : c.advance.peek = next := by rw [Cursor.peek, subject]; rfl
    rw [peek] at opens
    rw [List.forall_mem_cons] at text
    have line : c.rest = c.peek :: next :: ((ts ++ [colon]) ++ c₂.rest) := by
      rw [first, subject, reads.rest]
      simp [Piece.tokens]
    have firm : ∀ t ∈ ts ++ [colon], t.isLayout = false := by
      simpa [or_imp, forall_and, colon.not_isLayout_of_isOperator isColon] using text.2
    have ends : endsWithColon next ((ts ++ [colon]) ++ c₂.rest) = true := by
      rw [endsWithColon_append firm (head_of_atLineEnd lineEnd), List.getLast?_concat]
      exact isColon
    unfold atMatch
    simp only [line, ends, name, word, not_lineEnd text.1, not_afterPlainName opens]
    rfl

theorem not_atMatch_of_simpleLine {block : Block} (eq : simpleLine c = .ok (block, c')) :
    atMatch c = false := by
  obtain ⟨c₁, ⟨ts, rest, text, last⟩, lineEnd⟩ := passes_of_simpleLine eq
  obtain ⟨t, last, other⟩ := last rfl
  have ends := head_of_atLineEnd lineEnd
  unfold atMatch
  rw [rest]
  match ts with
  | [] => cases last
  | [start] =>
    cases behind : c₁.rest with
    | nil => rfl
    | cons next others =>
      have stops : (next.kind == .newline || next.kind == .endMarker) = true := by
        simpa using ends next (by rw [behind]; rfl)
      simp [stops]
  | start :: next :: ts =>
    have others : ∀ t ∈ ts, t.isLayout = false := fun t mem => text t (.tail _ (.tail _ mem))
    have same : ts.getLast?.getD next = t := by
      rwa [List.getLast?_cons_cons, List.getLast?_cons, Option.some.injEq] at last
    simp [endsWithColon_append others ends, same, other]

theorem statement_of_name {block : Parser Block} (name : c.peek.kind = .name) :
    statement block c =
      (do if ← test atMatch then statement.one (matchStatement block) else simpleLine) c := by
  have keyword (text : Bytes) : c.peek.isKeyword text = false := by simp [Token.isKeyword, name]
  have operator (text : Bytes) : c.peek.isOperator text = false := by simp [Token.isOperator, name]
  simp only [statement, peek, bind, keyword, operator, Bool.false_eq_true, ↓reduceIte]

/-- At the name `match`, the lookahead holds wherever a match statement can be read, and it fails
wherever a line of simple statements can: a statement is read exactly where one of the two can be. -/
theorem match_lookahead_exact (block : Parser Block) (c : Cursor) (name : c.peek.kind = .name)
    (word : c.peek.text = "match") :
    (∀ s c', matchStatement block c = .ok (s, c') → atMatch c = true) ∧
    (∀ b c', simpleLine c = .ok (b, c') → atMatch c = false) ∧
    ∀ b c', statement block c = .ok (b, c') ↔
      (∃ s, matchStatement block c = .ok (s, c') ∧ b = [s]) ∨ simpleLine c = .ok (b, c') := by
  refine ⟨fun s c' => atMatch_of_matchStatement name word, fun b c' => not_atMatch_of_simpleLine, ?_⟩
  intro b c'
  rw [statement_of_name name]
  simp only [statement.one, bind_ok, test_ok, ite_ok, pure_ok]
  constructor
  · rintro ⟨_, _, ⟨-, rfl⟩, ⟨-, s, _, eq, rfl, rfl⟩ | ⟨-, eq⟩⟩
    · exact .inl ⟨s, eq, rfl⟩
    · exact .inr eq
  · rintro (⟨s, eq, rfl⟩ | eq)
    · exact ⟨_, c, ⟨atMatch_of_matchStatement name word eq, rfl⟩, .inl ⟨rfl, s, c', eq, rfl, rfl⟩⟩
    · exact ⟨_, c, ⟨not_atMatch_of_simpleLine eq, rfl⟩, .inr ⟨by decide, eq⟩⟩

theorem match_lookahead_exact_colons : ∃ c b c',
    Cursor.ofTokens <$> tokenize "match[a:] = lambda: b; c: d\n" = .ok c ∧ c.peek.kind = .name ∧
      c.peek.text = "match" ∧ simpleLine c = .ok (b, c') ∧ atMatch c = false ∧
      statement Parser.block c = .ok (b, c') := by
  obtain ⟨tokens, lexed, name, word, ⟨b, c'⟩, eq⟩ : ∃ tokens,
      tokenize "match[a:] = lambda: b; c: d\n" = .ok tokens ∧
        (Cursor.ofTokens tokens).peek.kind = .name ∧
          (Cursor.ofTokens tokens).peek.text = "match" ∧
            ∃ r, simpleLine (Cursor.ofTokens tokens) = .ok r := by
    decide +kernel
  obtain ⟨-, simple, all⟩ := match_lookahead_exact Parser.block _ name word
  exact ⟨_, b, c', map_eq_ok.2 ⟨tokens, lexed, rfl⟩, name, word, eq, simple _ _ eq,
    (all _ _).2 (.inr eq)⟩

end CodeSmell.Parser
