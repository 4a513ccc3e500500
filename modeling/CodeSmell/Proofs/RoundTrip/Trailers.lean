import CodeSmell.Proofs.RoundTrip.Read

/-!
Names, numbers and what is postfix: attributes, subscripts and calls are trailers, one more each.
-/

open CodeSmell.Parser

namespace CodeSmell

namespace Parser

variable {self : Rule → Parser Expr} {rest : List Token}

theorem takes_attr {name : Bytes} : (trailer self).Takes [.operator ".", .ofName name] rest
    (· = .attr name) := by
  refine Takes.ifAccept (fun c shows => shows.operator (by decide)) ?_
  refine Takes.result (takes_expectName rfl) fun t eq => takes_pure ?_
  exact congrArg Trailer.attr (congrArg Token.text eq)

theorem atTrailer_of_operator {c : Cursor} {ts : List Token} {symbol : Bytes}
    (shows : c.Shows (.operator symbol :: ts)) (mem : symbol ∈ List.map Bytes.ofString [".", "(", "["]) :
    atTrailer c = true := by
  have same : atTrailer c = ((Token.operator symbol).isOperator "." ||
      (Token.operator symbol).isOperator "(" || (Token.operator symbol).isOperator "[") := by
    rw [atTrailer, shows.atOperator, shows.atOperator, shows.atOperator]
    rfl
  have all : ∀ symbol ∈ List.map Bytes.ofString [".", "(", "["],
      ((Token.operator symbol).isOperator "." || (Token.operator symbol).isOperator "(" ||
        (Token.operator symbol).isOperator "[") = true := by
    decide
  rw [same, all symbol mem]

end Parser

namespace Expr

variable {e value index function : Expr} {p : Position} {bound : Nat} {rest : List Token}

theorem TrailersOf.step {symbol : Bytes} {more : List Token} {Y : Trailer → Prop}
    (h : value.TrailersOf) (plain : value.Plain) (eq : e.precedence = 14)
    (render : e.render = value.renderAt 14 ++ .operator symbol :: more)
    (mem : symbol ∈ List.map Bytes.ofString [".", "(", "["])
    (takes : ∀ bound rest, more.length < bound →
      (trailer (Rule.within bound)).Takes (.operator symbol :: more) rest Y)
    (alike : ∀ d t, value.Alike d → Y t → e.Alike (t.apply d)) : e.TrailersOf := by
  intro bound rest length
  have some := plain.length_pos 14
  rw [renderAt_of_le eq.ge, render] at length ⊢
  simp only [List.length_append, List.length_cons] at length
  refine Begins.step () (h bound _ (by omega)) (fun c shows => ?_)
    (takes bound rest (by omega)) (List.cons_ne_nil _ _) fun base trailers t before one => ?_
  · exact if_pos (atTrailer_of_operator shows mem)
  · rw [List.foldl_append]
    exact alike _ t before one

theorem Read.name {id : Bytes} : Read ⟨p, .name id⟩ := by
  refine .of_trailers .name rfl fun bound rest length => ?_
  have tokens : renderAt 14 ⟨p, .name id⟩ = [.ofName id] := (renderAt_of_le le_rfl).trans render_name
  rw [tokens]
  exact takes_name.begins fun d alike => alike

theorem Read.number {value : Float} {text : Bytes} {imaginary : Bool} :
    Read ⟨p, .number value text imaginary⟩ := by
  refine .of_trailers .number rfl fun bound rest length => ?_
  have tokens : renderAt 14 ⟨p, .number value text imaginary⟩ = [.ofNumber value text imaginary] :=
    (renderAt_of_le le_rfl).trans render_number
  rw [tokens]
  exact takes_number.begins fun d alike => alike

theorem Read.attr {name : Bytes} (h : value.Read) : Read ⟨p, .attr value name⟩ := by
  refine .of_trailers (.attr h.plain) rfl ?_
  refine h.trailers.step h.plain rfl render_attr (by decide) (fun _ _ _ => takes_attr) ?_
  rintro d t alike rfl
  exact .attr alike

theorem Read.sliceItem (h : index.Read) (length : index.render.length ≤ bound) :
    (sliceItem (Rule.within bound)).Takes index.render (.operator "]" :: rest) index.Alike := by
  have inner := @ReadAt.starNamed index bound (.operator "]" :: rest) (h.place 0 (by decide)) h.plain length
    (.of_none (by decide)) (by decide : (Token.operator "]").isOperator ":=" = false)
  refine Takes.look fun start _ => Takes.result (inner.optional fun c shows => ?_) ?_
  · rw [h.plain.notOperator shows (by decide)]
    rfl
  · rintro _ ⟨d, rfl, alike⟩
    refine Takes.after (takes_refuse fun c shows => shows.operator (by decide)) ?_
    rintro _ rfl
    exact takes_pure alike

theorem Read.subscript (h : value.Read) (h' : index.Read) : Read ⟨p, .subscript value index⟩ := by
  refine .of_trailers (.subscript h.plain h'.plain) rfl ?_
  refine h.trailers.step h.plain rfl render_subscript (by decide)
    (Y := fun t => ∃ i, t = .subscript i ∧ index.Alike i) (fun bound rest length => ?_) ?_
  · rw [List.length_append] at length
    refine Takes.elseAccept (fun c shows => shows.operator (by decide)) ?_
    refine Takes.elseAccept (fun c shows => shows.operator (by decide)) ?_
    refine Takes.map (X := index.Alike) ?_ fun i alike => ⟨i, rfl, alike⟩
    refine Takes.bind (takes_expectOperator (by decide)) fun _ _ => ?_
    refine Takes.bind (h'.sliceItem (by omega)) fun i alike => ?_
    refine Takes.after (takes_test (b := false) fun c shows => shows.operator (by decide)) ?_
    rintro _ rfl
    refine Takes.after (takes_pure rfl) ?_
    rintro _ rfl
    exact Takes.result (takes_expectOperator (by decide)) fun _ _ => takes_pure alike
  · rintro d _ alike ⟨i, rfl, alike'⟩
    exact .subscript alike alike'

def AfterArgument (rest : List Token) : Prop :=
  ∃ text ∈ List.map Bytes.ofString [",", ")"], ∃ more, rest = .operator text :: more

theorem Read.argumentItem (h : e.Read) (length : e.render.length ≤ bound)
    (follow : AfterArgument rest) :
    (argumentItem (Rule.within bound)).Takes e.render rest fun item =>
      ∃ d, item = .argument d ∧ e.Alike d := by
  obtain ⟨text, mem, more, rfl⟩ := follow
  have facts : ∀ text ∈ List.map Bytes.ofString [",", ")"], (Token.operator text).rank? = none ∧
      (Token.operator text).isOperator "=" = false ∧
        (Token.operator text).isOperator ":=" = false := by
    decide
  obtain ⟨silent, equals, named⟩ := facts text mem
  refine Takes.elseTest (fun c shows => h.plain.notOperator shows (by decide)) ?_
  refine Takes.elseAccept (fun c shows => h.plain.notOperator shows (by decide)) ?_
  refine Takes.elseTest (fun c shows => ?_) ?_
  · have second := @Plain.second e (.operator text :: more) h.plain _ (.inl rfl) equals
    rw [← shows.peekSecond] at second
    exact Bool.and_eq_false_imp.2 fun _ => second
  have inner : (Rule.within bound .named).Takes e.render (.operator text :: more) e.Alike := by
    have some := h.plain.length_pos 0
    rw [renderAt_of_le (Nat.zero_le _)] at some
    cases bound with
    | zero => omega
    | succ bound =>
      exact (h.place 0 (by decide)).named h.plain length (.of_none silent) named
  refine Takes.result inner fun d alike => Takes.elseTest (fun c shows => ?_) ?_
  · exact atClause_eq_false shows nofun
  · exact takes_pure ⟨d, rfl, alike⟩

theorem length_le_flatMap_of_mem {α : Type} {items : List α} {tokens : α → List Token} {i : α}
    (mem : i ∈ items) : (tokens i).length ≤ (items.flatMap tokens).length :=
  (List.sublist_flatten_of_mem (List.mem_map_of_mem mem)).length_le

theorem length_joinedBy (separator : Token) {groups : List (List Token)} {ts : List Token}
    (mem : ts ∈ groups) : ts.length ≤ (joinedBy separator groups).length := by
  cases groups with
  | nil => cases mem
  | cons us rest =>
    rw [joinedBy, List.length_append]
    rcases List.mem_cons.1 mem with rfl | mem
    · omega
    · have fits : (separator :: ts).length ≤ (rest.flatMap (separator :: ·)).length :=
        length_le_flatMap_of_mem mem
      rw [List.length_cons] at fits
      omega

theorem arguments_of_items {es : List Expr} {items : List ArgumentItem}
    (h : List.Forall₂ (fun e item => ∃ d, item = .argument d ∧ Alike e d) es items) :
    List.Forall₂ Alike es (items.filterMap ArgumentItem.argument?) ∧
      items.filterMap ArgumentItem.keyword? = [] := by
  induction h with
  | nil => exact ⟨.nil, rfl⟩
  | cons one _ ih =>
    obtain ⟨d, rfl, alike⟩ := one
    exact ⟨.cons alike ih.1, ih.2⟩

theorem Read.arguments {es : List Expr} (h : ∀ e ∈ es, e.Read)
    (length : (joinedBy (.operator ",") (es.map render)).length < bound) :
    (Parser.arguments (Rule.within bound)).Takes
      (joinedBy (.operator ",") (es.map render) ++ [.operator ")"]) rest
      fun values => List.Forall₂ Alike es values.1 ∧ values.2 = [] := by
  have item (e : Expr) (mem : e ∈ es) (more : List Token) (follow : AfterArgument more) :
      (Parser.argumentItem (Rule.within bound)).Takes e.render more fun item =>
        ∃ d, item = .argument d ∧ e.Alike d := by
    have := length_joinedBy (.operator ",") (List.mem_map_of_mem (f := render) mem)
    exact (h e mem).argumentItem (by omega) follow
  have items : (commaList (·.atOperator ")") (Parser.argumentItem (Rule.within bound))).Takes
      (joinedBy (.operator ",") (es.map render)) ([.operator ")"] ++ rest)
      (List.Forall₂ (fun e item => ∃ d, item = .argument d ∧ Alike e d) es) := by
    cases es with
    | nil => exact Takes.ifTest (fun c shows => shows.operator (by decide)) (takes_pure .nil)
    | cons e es =>
      rw [List.forall_mem_cons] at item h
      rw [List.map_cons, joinedBy, List.flatMap_map]
      refine Takes.elseTest (fun c shows => ?_) (Takes.bind (item.1 _ ?_) fun d one => ?_)
      · rw [List.append_assoc] at shows
        exact h.1.plain.notOperator shows (by decide)
      · cases es with
        | nil => exact ⟨")", by decide, _, rfl⟩
        | cons f es => exact ⟨",", by decide, _, rfl⟩
      · have closing : (Token.operator ")").isOperator "," = false := by decide
        refine Takes.result (takes_separatedTail (.operator ",") (by decide) closing
          ⟨")", by decide, _, rfl⟩ (fun more => ⟨",", by decide, _, rfl⟩) ?_ item.2) ?_
        · exact fun f mem more c shows => (h.2 f mem).plain.notOperator shows (by decide)
        · exact fun values others => takes_pure (.cons one others)
  refine Takes.bind items fun values alike => ?_
  obtain ⟨alike, none⟩ := arguments_of_items alike
  exact Takes.result (takes_expectOperator (by decide)) fun _ _ => takes_pure ⟨alike, none⟩

theorem Read.call {es : List Expr} (h : function.Read) (h' : ∀ e ∈ es, e.Read) :
    Read ⟨p, .call function es []⟩ := by
  refine .of_trailers (.call h.plain fun e mem => (h' e mem).plain) rfl ?_
  refine h.trailers.step h.plain rfl render_call (by decide)
    (Y := fun t => ∃ as, t = .call as [] ∧ List.Forall₂ Alike es as) (fun bound rest length => ?_) ?_
  · rw [List.length_append] at length
    refine Takes.elseAccept (fun c shows => shows.operator (by decide)) ?_
    refine Takes.ifAccept (fun c shows => shows.operator (by decide)) ?_
    refine Takes.result (Read.arguments h' (by omega)) ?_
    rintro ⟨as, keywords⟩ ⟨alike, rfl⟩
    exact takes_pure ⟨as, rfl, alike⟩
  · rintro d _ alike ⟨as, rfl, alike'⟩
    exact .call alike alike'

end Expr

end CodeSmell
