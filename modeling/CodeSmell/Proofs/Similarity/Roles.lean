import CodeSmell.Proofs.Model.Scope
import CodeSmell.Similarity

/-!
Roles of tokens. The role of a name is told by the text before it and by the very next token, so that a
line end keeps it apart from a parenthesis on the next line. The tokens of a body come without layout,
and there such a name counts as called. `RolesAt` says where the two lists differ, and
`ModuleModel.roles_layout` has it for the body of every function.
-/

namespace CodeSmell

def textTokens (ts : List Token) : List Token := ts.filter (!·.isLayout)

theorem textTokens_append (ts us : List Token) :
    textTokens (ts ++ us) = textTokens ts ++ textTokens us :=
  List.filter_append ts us

theorem textTokens_cons_layout {t : Token} (ts : List Token) (layout : t.isLayout = true) :
    textTokens (t :: ts) = textTokens ts :=
  List.filter_cons_of_neg (by simp [layout])

theorem textTokens_cons_text {t : Token} (ts : List Token) (text : t.isLayout = false) :
    textTokens (t :: ts) = t :: textTokens ts :=
  List.filter_cons_of_pos (by simp [text])

@[simp] theorem textTokens_textTokens (ts : List Token) : textTokens (textTokens ts) = textTokens ts := by
  simp [textTokens]

theorem exists_split {ts : List Token} {k : Nat} (h : k < (textTokens ts).length) :
    ∃ before t after, ts = before ++ t :: after ∧ t.isLayout = false ∧
      (textTokens before).length = k := by
  induction ts generalizing k with
  | nil => cases h
  | cons u ts ih =>
    cases layout : u.isLayout with
    | true =>
      rw [textTokens_cons_layout ts layout] at h
      obtain ⟨before, t, after, rfl, text, length⟩ := ih h
      exact ⟨u :: before, t, after, rfl, text, by rwa [textTokens_cons_layout before layout]⟩
    | false =>
      cases k with
      | zero => exact ⟨[], u, ts, rfl, layout, rfl⟩
      | succ k =>
        rw [textTokens_cons_text ts layout, List.length_cons, Nat.add_lt_add_iff_right] at h
        obtain ⟨before, t, after, rfl, text, rfl⟩ := ih h
        exact ⟨u :: before, t, after, rfl, text, by rw [textTokens_cons_text before layout]; rfl⟩

theorem rolesAfter_cons_layout {t : Token} (previous : Option Token) (rest : List Token)
    (layout : t.isLayout = true) : rolesAfter previous (t :: rest) = rolesAfter previous rest := by
  rw [rolesAfter, if_pos layout]

theorem rolesAfter_cons_text {t : Token} (previous : Option Token) (rest : List Token)
    (text : t.isLayout = false) : rolesAfter previous (t :: rest) =
      t.role previous rest.head? :: rolesAfter (some t) rest := by
  rw [rolesAfter, if_neg (by simp [text])]

theorem length_rolesAfter (previous : Option Token) (ts : List Token) :
    (rolesAfter previous ts).length = (textTokens ts).length := by
  induction ts generalizing previous with
  | nil => rfl
  | cons t ts ih =>
    cases layout : t.isLayout with
    | true => rw [rolesAfter_cons_layout _ _ layout, textTokens_cons_layout _ layout, ih]
    | false =>
      rw [rolesAfter_cons_text _ _ layout, textTokens_cons_text _ layout, List.length_cons, ih,
        List.length_cons]

theorem getElem?_rolesAfter (previous : Option Token) (before after : List Token) {t : Token}
    (text : t.isLayout = false) :
    (rolesAfter previous (before ++ t :: after))[(textTokens before).length]? =
      some (t.role ((textTokens before).getLast?.or previous) after.head?) := by
  induction before generalizing previous with
  | nil => simp [textTokens, rolesAfter_cons_text _ _ text]
  | cons u before ih =>
    rw [List.cons_append]
    cases layout : u.isLayout with
    | true => rw [rolesAfter_cons_layout _ _ layout, textTokens_cons_layout _ layout, ih]
    | false =>
      rw [rolesAfter_cons_text _ _ layout, textTokens_cons_text _ layout, List.length_cons,
        List.getElem?_cons_succ, ih, List.getLast?_cons]
      cases (textTokens before).getLast? <;> rfl

section Split

variable (before after : List Token) {t : Token} (text : t.isLayout = false)

include text

theorem getElem?_tokenRoles : (tokenRoles (before ++ t :: after))[(textTokens before).length]? =
    some (t.role (textTokens before).getLast? after.head?) := by
  rw [tokenRoles, getElem?_rolesAfter none before after text, Option.or_none]

theorem getElem?_tokenRoles_text :
    (tokenRoles (textTokens (before ++ t :: after)))[(textTokens before).length]? =
      some (t.role (textTokens before).getLast? (textTokens after).head?) := by
  have split := getElem?_tokenRoles (textTokens before) (textTokens after) text
  rwa [textTokens_textTokens, ← textTokens_cons_text after text, ← textTokens_append] at split

end Split

/-- A name at the end of a line, and a parenthesis that opens the next one. -/
structure IsApart (before : List Token) (t : Token) (after : List Token) : Prop where
  name : t.kind = .name
  plain : (textTokens before).getLast?.any (·.isOperator ".") = false
  lineEnd : after.head?.any Token.isLayout = true
  opening : (textTokens after).head?.any (·.isOperator "(") = true

variable {before after : List Token} {t : Token}

theorem opening_of_next (next : after.head?.any (·.isOperator "(") = true) :
    (textTokens after).head?.any (·.isOperator "(") = true := by
  cases after with
  | nil => cases next
  | cons u rest =>
    rw [textTokens_cons_text rest (u.not_isLayout_of_isOperator next)]
    exact next

theorem lineEnd_of_opening (opening : (textTokens after).head?.any (·.isOperator "(") = true)
    (other : after.head?.any (·.isOperator "(") = false) :
    after.head?.any Token.isLayout = true := by
  cases after with
  | nil => cases opening
  | cons u rest =>
    cases layout : u.isLayout with
    | true => exact layout
    | false =>
      rw [textTokens_cons_text rest layout] at opening
      cases opening.symm.trans other

theorem not_opening_of_lineEnd (lineEnd : after.head?.any Token.isLayout = true) :
    after.head?.any (·.isOperator "(") = false := by
  cases after with
  | nil => cases lineEnd
  | cons u rest =>
    by_contra opening
    rw [Bool.not_eq_false] at opening
    cases (u.not_isLayout_of_isOperator opening).symm.trans lineEnd

theorem role_of_isApart (apart : IsApart before t after) :
    t.role (textTokens before).getLast? after.head? = "<name>" ∧
      t.role (textTokens before).getLast? (textTokens after).head? = "<call>" := by
  have next := not_opening_of_lineEnd apart.lineEnd
  simp [Token.role, nameRole, apart.name, apart.plain, apart.opening, next]

theorem role_of_not_isApart (apart : ¬IsApart before t after) :
    t.role (textTokens before).getLast? after.head? =
      t.role (textTokens before).getLast? (textTokens after).head? := by
  unfold Token.role
  split
  · next isName =>
    unfold nameRole
    split
    · rfl
    · next plain =>
      cases next : after.head?.any (·.isOperator "(") with
      | true => rw [opening_of_next next]
      | false =>
        cases opening : (textTokens after).head?.any (·.isOperator "(") with
        | false => rfl
        | true =>
          have plain := Bool.not_eq_true _ ▸ plain
          exact (apart ⟨isName, plain, lineEnd_of_opening opening next, opening⟩).elim
  all_goals rfl

theorem role_eq_call {previous next : Option Token} (isName : t.kind = .name) :
    t.role previous next = "<call>" ↔
      previous.any (·.isOperator ".") = false ∧ next.any (·.isOperator "(") = true := by
  simp only [Token.role, isName, nameRole]
  split
  · next dot => simp [dot]; decide
  · next plain =>
    split
    · next opening => simp [plain, opening]
    · next other => simp [other]; decide

theorem not_isLayout_of_name (isName : t.kind = .name) : t.isLayout = false := by
  rw [Token.isLayout, isName]
  rfl

theorem roles_of_isApart (apart : IsApart before t after) :
    (tokenRoles (before ++ t :: after))[(textTokens before).length]? =
        some ("<name>" : Bytes) ∧
      (tokenRoles (textTokens (before ++ t :: after)))[(textTokens before).length]? =
        some ("<call>" : Bytes) := by
  have text := not_isLayout_of_name apart.name
  rw [getElem?_tokenRoles before after text, getElem?_tokenRoles_text before after text,
    (role_of_isApart apart).1, (role_of_isApart apart).2]
  exact ⟨rfl, rfl⟩

theorem roles_of_not_isApart (text : t.isLayout = false) (apart : ¬IsApart before t after) :
    (tokenRoles (before ++ t :: after))[(textTokens before).length]? =
      (tokenRoles (textTokens (before ++ t :: after)))[(textTokens before).length]? := by
  rw [getElem?_tokenRoles before after text, getElem?_tokenRoles_text before after text,
    role_of_not_isApart apart]

theorem tokenRoles_text {ts : List Token}
    (never : ∀ before t after, ts = before ++ t :: after → ¬IsApart before t after) :
    tokenRoles ts = tokenRoles (textTokens ts) := by
  have length : (tokenRoles ts).length = (tokenRoles (textTokens ts)).length := by
    rw [tokenRoles, tokenRoles, length_rolesAfter, length_rolesAfter, textTokens_textTokens]
  refine List.ext_getElem? fun k => ?_
  by_cases inside : k < (textTokens ts).length
  · obtain ⟨before, t, after, rfl, text, rfl⟩ := exists_split inside
    exact roles_of_not_isApart text (never before t after rfl)
  · rw [← length_rolesAfter none, ← tokenRoles, not_lt] at inside
    rw [List.getElem?_eq_none inside, List.getElem?_eq_none (length ▸ inside)]

/-- What the roles of a list of tokens are, and what they are without its layout. -/
structure RolesAt (ts : List Token) : Prop where
  length : (tokenRoles ts).length = (textTokens ts).length
  /-- The two differ at the names that a line end keeps apart. -/
  apart : ∀ before t after, ts = before ++ t :: after → IsApart before t after →
    (tokenRoles ts)[(textTokens before).length]? = some ("<name>" : Bytes) ∧
      (tokenRoles (textTokens ts))[(textTokens before).length]? = some ("<call>" : Bytes)
  others : ∀ before t after, ts = before ++ t :: after → t.isLayout = false →
    ¬IsApart before t after → (tokenRoles ts)[(textTokens before).length]? =
      (tokenRoles (textTokens ts))[(textTokens before).length]?
  same : tokenRoles ts = tokenRoles (textTokens ts) ↔
    ∀ before t after, ts = before ++ t :: after → ¬IsApart before t after
  /-- A parenthesis follows a name that counts as called, with no line end between. -/
  called : ∀ before t after, ts = before ++ t :: after → t.kind = .name →
    ((tokenRoles ts)[(textTokens before).length]? = some ("<call>" : Bytes) ↔
      (textTokens before).getLast?.any (·.isOperator ".") = false ∧
        after.head?.any (·.isOperator "(") = true)

theorem rolesAt (ts : List Token) : RolesAt ts where
  length := length_rolesAfter none ts
  apart := by
    rintro before t after rfl apart
    exact roles_of_isApart apart
  others := by
    rintro before t after rfl text apart
    exact roles_of_not_isApart text apart
  same := by
    refine ⟨?_, tokenRoles_text⟩
    rintro same before t after rfl apart
    obtain ⟨raw, stripped⟩ := roles_of_isApart apart
    rw [same, stripped] at raw
    cases raw
  called := by
    rintro before t after rfl isName
    rw [getElem?_tokenRoles before after (not_isLayout_of_name isName), Option.some_inj,
      role_eq_call isName]

/-- The part of the tokens is what follows the colon of a function, and its text is kept with it. -/
structure FunctionModel.IsBody (f : FunctionModel) (slice ts : List Token) : Prop where
  part : ∃ colon, colon.isOperator ":" = true ∧ colon :: slice <:+: ts ∧
    Block.Reading f.definition.body (colon :: slice)
  tokens : f.definition.bodyTokens = textTokens slice

namespace ModuleModel

theorem exists_isBody {path source : Bytes} {m : ModuleModel} {f : FunctionModel}
    (built : ofSource path source = .ok m) (hf : f ∈ m.functions) :
    ∃ ts slice, tokenize source = .ok ts ∧ f.IsBody slice ts := by
  obtain ⟨b, inside, marker, rfl, lexed, -, reading⟩ := ofSource_reading built
  obtain ⟨us, body, tokens, within⟩ := function_reading reading hf
  obtain ⟨colon, slice, isColon, rfl⟩ := body.colon
  have text := colon.not_isLayout_of_isOperator isColon
  have within := within.trans (List.infix_append' [] inside [marker])
  refine ⟨_, slice, lexed, ⟨colon, isColon, within, body⟩, ?_⟩
  rw [tokens, ← textTokens, textTokens_cons_text slice text]
  rfl

/-- The roles of a list of tokens are those of its text, unless a line end keeps a name apart from a
parenthesis. A function has the roles that the part of the source with its body has, unless it has
such a name. -/
theorem roles_layout (tokens : List Token) : RolesAt tokens ∧
    ∀ path source m, ofSource path source = .ok m → ∀ f ∈ m.functions,
      ∃ ts slice, tokenize source = .ok ts ∧ f.IsBody slice ts ∧
        ((Signature.ofFunction f.definition).tokens = tokenRoles slice ↔
          ∀ before t after, slice = before ++ t :: after → ¬IsApart before t after) := by
  refine ⟨rolesAt tokens, fun path source m built f hf => ?_⟩
  obtain ⟨ts, slice, lexed, isBody⟩ := exists_isBody built hf
  refine ⟨ts, slice, lexed, isBody, ?_⟩
  rw [Signature.ofFunction, isBody.tokens, eq_comm]
  exact (rolesAt slice).same

def nameThenParenthesis : Bytes := "def f():\n    x = a\n    (b)\n"

def nameApart : List Token :=
  [{ kind := .name, text := "a" }, { kind := .newline }, { kind := .operator, text := "(" }]

theorem roles_layout_apart :
    tokenRoles nameApart ≠ tokenRoles (textTokens nameApart) ∧
      ∃ m, ofSource "a.py" nameThenParenthesis = .ok m ∧ ∃ f ∈ m.functions, ∃ ts slice,
        tokenize nameThenParenthesis = .ok ts ∧ f.IsBody slice ts ∧
        ((Signature.ofFunction f.definition).tokens = tokenRoles slice ↔
          ∀ before t after, slice = before ++ t :: after → ¬IsApart before t after) := by
  obtain ⟨list, bodies⟩ := roles_layout nameApart
  have apart : IsApart [] { kind := .name, text := "a" }
      [{ kind := .newline }, { kind := .operator, text := "(" }] :=
    ⟨rfl, rfl, rfl, rfl⟩
  obtain ⟨m, built, some⟩ : ∃ m, ofSource "a.py" nameThenParenthesis = .ok m ∧
      m.functions.isEmpty = false := by
    decide +kernel
  obtain ⟨f, hf⟩ := List.exists_mem_of_ne_nil m.functions (List.isEmpty_eq_false_iff.1 some)
  exact ⟨fun same => list.same.1 same _ _ _ rfl apart, m, built, f, hf,
    bodies "a.py" nameThenParenthesis m built f hf⟩

theorem line_end_called : ∃ m ts, ofSource "a.py" nameThenParenthesis = .ok m ∧
    tokenize nameThenParenthesis = .ok ts ∧
    m.functions.map (fun f => (Signature.ofFunction f.definition).tokens) =
      ([["<name>", "=", "<call>", "(", "<name>", ")"]] : List (List Bytes)) ∧
    m.functions.map (fun f => f.definition.bodyTokens.map (·.position)) =
      [(textTokens (ts.drop 5)).map (·.position)] ∧
    tokenRoles (ts.drop 5) = ["<name>", "=", "<name>", "(", "<name>", ")"] := by
  obtain ⟨m, built, ts, lexed, roles⟩ : ∃ m, ofSource "a.py" nameThenParenthesis = .ok m ∧
      ∃ ts, tokenize nameThenParenthesis = .ok ts ∧
        m.functions.map (fun f => (Signature.ofFunction f.definition).tokens) =
          ([["<name>", "=", "<call>", "(", "<name>", ")"]] : List (List Bytes)) ∧
        m.functions.map (fun f => f.definition.bodyTokens.map (·.position)) =
          [(textTokens (ts.drop 5)).map (·.position)] ∧
        tokenRoles (ts.drop 5) = ["<name>", "=", "<name>", "(", "<name>", ")"] := by
    decide +kernel
  exact ⟨m, ts, built, lexed, roles⟩

end ModuleModel

end CodeSmell
