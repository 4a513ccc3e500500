import CodeSmell.Proofs.RoundTrip.Levels

/-!
Printed expressions are read back. `Expr.Read` says of an expression that each rule takes its tokens,
in parentheses where the place of the rule needs them, and that the loops of operators and trailers
take it as their first items. `Expr.Plain.read` shows it by induction on the expression.
-/

open CodeSmell.Parser

namespace CodeSmell

namespace Expr

/-- The rule of a place takes the tokens of the expression there. The number of nested rules is bounded
by that of the tokens. -/
def ReadAt (place : Nat) (e : Expr) : Prop :=
  ∀ bound rest, (e.renderAt place).length ≤ bound + 1 → Stops place rest →
    (ruleAt (Rule.within bound) place).Takes (e.renderAt place) rest e.Alike

/-- The expression begins a chain of operators of one level, more of which may follow. -/
def LinksAt (depth : Nat) (e : Expr) : Prop :=
  ∀ bound rest, (e.renderAt (10 - depth)).length ≤ bound + 1 → Stops (11 - depth) rest →
    Begins (fun c => levelOp? (6 - depth) c.peek)
      (fun op => do
        let _ ← advance
        let right ← binary (Rule.within bound) depth
        pure (op, right))
      (binary (Rule.within bound) depth) (e.renderAt (10 - depth)) rest
      fun first links => e.Alike (chain first links)

/-- The expression is an atom with trailers, more of which may follow. -/
def TrailersOf (e : Expr) : Prop :=
  ∀ bound rest, (e.renderAt 14).length ≤ bound + 1 →
    Begins (fun c => if atTrailer c then some () else none) (fun _ => trailer (Rule.within bound))
      (atom (Rule.within bound)) (e.renderAt 14) rest
      fun base trailers => e.Alike (trailers.foldl Trailer.apply base)

structure Read (e : Expr) : Prop where
  plain : e.Plain
  place : ∀ place ≤ 14, e.ReadAt place
  links : ∀ depth ≤ 5, e.LinksAt depth
  trailers : e.TrailersOf

end Expr

theorem Token.Opens.operator_mem {place : Nat} {t : Token} {text : Bytes} (h : t.Opens place)
    (isOperator : t.isOperator text = true) : text ∈ List.map Bytes.ofString ["(", "-", "+", "~"] := by
  obtain ⟨kind, rfl⟩ := Token.isOperator_iff.1 isOperator
  cases h with
  | name | number | await _ | not _ => cases kind
  | parenthesis => decide
  | @sign op other _ => cases op <;> first | contradiction | decide

theorem Token.Opens.keyword_mem {place : Nat} {t : Token} {text : Bytes} (h : t.Opens place)
    (isKeyword : t.isKeyword text = true) : text ∈ List.map Bytes.ofString ["await", "not"] := by
  obtain ⟨kind, rfl⟩ := Token.isKeyword_iff.1 isKeyword
  cases h with
  | name | number | parenthesis => cases kind
  | sign => cases kind
  | await _ | not _ => decide

namespace Expr

variable {e : Expr} {bound place : Nat} {rest : List Token}

theorem Plain.length_pos (h : e.Plain) (place : Nat) : 0 < (e.renderAt place).length := by
  obtain ⟨t, ts, eq, -⟩ := opensAt place h.opens
  rw [eq]
  exact Nat.succ_pos _

theorem Plain.notOperator {c : Cursor} {text : Bytes} (h : e.Plain) (shows : c.Shows (e.render ++ rest))
    (other : text ∉ List.map Bytes.ofString ["(", "-", "+", "~"]) : c.atOperator text = false := by
  obtain ⟨t, ts, eq, opens⟩ := h.opens
  rw [shows.atOperator, eq]
  by_contra isOperator
  rw [Bool.not_eq_false] at isOperator
  exact other (opens.operator_mem isOperator)

theorem Plain.notKeyword {c : Cursor} {text : Bytes} (h : e.Plain) (shows : c.Shows (e.render ++ rest))
    (other : text ∉ List.map Bytes.ofString ["await", "not"]) : c.atKeyword text = false := by
  obtain ⟨t, ts, eq, opens⟩ := h.opens
  rw [shows.atKeyword, eq]
  by_contra isKeyword
  rw [Bool.not_eq_false] at isKeyword
  exact other (opens.keyword_mem isKeyword)

theorem ReadAt.within (h : e.ReadAt place) (rule : Rule) (plain : e.Plain)
    (same : ∀ self, rule.body self = ruleAt self place)
    (length : (e.renderAt place).length ≤ bound) (stops : Stops place rest) :
    (Rule.within bound rule).Takes (e.renderAt place) rest e.Alike := by
  have some := plain.length_pos place
  cases bound with
  | zero => omega
  | succ bound =>
    have body : Rule.within (bound + 1) rule = ruleAt (Rule.within bound) place := same _
    rw [body]
    exact h bound rest length stops

theorem Plain.second (h : e.Plain) {text : Bytes} (outer : text = "=" ∨ text = ":=")
    (next : (firstOf rest).isOperator text = false) :
    (firstOf (e.render ++ rest).tail).isOperator text = false := by
  obtain ⟨t, ts, eq, -⟩ := h.opens
  have inner := h.inner
  rw [eq] at inner ⊢
  cases ts with
  | nil => exact next
  | cons u us =>
    have := inner u (by simp)
    simp only [Token.isOuter, Bool.or_eq_false_iff] at this
    rcases outer with rfl | rfl
    · exact this.1.2
    · exact this.2

theorem ReadAt.named (h : e.ReadAt 0) (plain : e.Plain) (length : e.render.length ≤ bound + 1)
    (stops : Stops 0 rest) (next : (firstOf rest).isOperator ":=" = false) :
    (Parser.named (Rule.within bound)).Takes e.render rest e.Alike := by
  refine Takes.elseTest (fun c shows => ?_) ?_
  · have second := plain.second (.inr rfl) next
    rw [← shows.peekSecond] at second
    exact Bool.and_eq_false_imp.2 fun _ => second
  · have same : e.renderAt 0 = e.render := renderAt_of_le (Nat.zero_le _)
    have takes := h bound rest (same ▸ length) stops
    rwa [same] at takes

theorem ReadAt.starNamed (h : e.ReadAt 0) (plain : e.Plain) (length : e.render.length ≤ bound)
    (stops : Stops 0 rest) (next : (firstOf rest).isOperator ":=" = false) :
    (Rule.within bound .starNamed).Takes e.render rest e.Alike := by
  obtain ⟨t, ts, eq, -⟩ := plain.opens
  cases bound with
  | zero =>
    rw [eq] at length
    cases length
  | succ bound =>
    refine Takes.elseTest (fun c shows => ?_) (h.named plain length stops next)
    exact plain.notOperator shows (by decide)

end Expr

namespace Parser

variable {self : Rule → Parser Expr} {rest : List Token}

theorem takes_name {p : Position} {id : Bytes} :
    (atom self).Takes [.ofName id] rest (Expr.Alike ⟨p, .name id⟩) := by
  refine Takes.look fun t eq => ?_
  have kind : t.kind = .name := congrArg Token.kind eq
  have text : t.text = id := congrArg Token.text eq
  rw [kind]
  refine Takes.next fun u _ => takes_pure ?_
  rw [Token.reference, text]
  exact .name

theorem takes_number {p : Position} {value : Float} {text : Bytes} {imaginary : Bool} :
    (atom self).Takes [.ofNumber value text imaginary] rest
      (Expr.Alike ⟨p, .number value text imaginary⟩) := by
  refine Takes.look fun t eq => ?_
  have kind : t.kind = .number := congrArg Token.kind eq
  have sameValue : t.value = value := congrArg Token.value eq
  have sameText : t.text = text := congrArg Token.text eq
  have sameKind : t.imaginary = imaginary := congrArg Token.imaginary eq
  rw [kind]
  refine Takes.next fun u _ => takes_pure ?_
  rw [sameValue, sameText, sameKind]
  exact .number

theorem atClause_eq_false {c : Cursor} {t : Token} {ts : List Token} (shows : c.Shows (t :: ts))
    (other : t.kind ≠ .keyword) : atClause c = false := by
  have notWord (text : Bytes) : c.atKeyword text = false := by
    rw [shows.atKeyword, Token.isKeyword]
    exact Bool.and_eq_false_imp.2 fun kind => absurd (beq_iff_eq.1 kind) other
  rw [atClause, notWord, notWord]
  rfl

end Parser

namespace Expr

variable {e : Expr} {bound place : Nat} {rest : List Token}

theorem ReadAt.grouped (h : e.ReadAt 0) (plain : e.Plain) (length : e.render.length ≤ bound) :
    (atom (Rule.within bound)).Takes (.operator "(" :: (e.render ++ [.operator ")"])) rest
      e.Alike := by
  refine Takes.look fun t eq => ?_
  have kind : t.kind = .operator := congrArg Token.kind eq
  have none : t.constant? = none := by
    change t.bare.constant? = none
    rw [eq]
    change (Token.operator "(").constant? = none
    decide
  rw [kind]
  simp only [none]
  refine Takes.ifAccept (fun c shows => shows.operator (by decide)) ?_
  refine Takes.elseAccept (fun c shows => ?_) (Takes.elseTest (fun c shows => ?_) ?_)
  · rw [List.append_assoc] at shows
    exact plain.notOperator shows (by decide)
  · rw [List.append_assoc] at shows
    exact plain.notKeyword shows (by decide)
  · have inner := @ReadAt.starNamed e bound (.operator ")" :: rest) h plain length
      (.of_none (by decide)) (by decide : (Token.operator ")").isOperator ":=" = false)
    refine Takes.bind inner fun d alike => ?_
    refine Takes.elseTest (fun c shows => ?_) (Takes.elseTest (fun c shows => ?_) ?_)
    · exact atClause_eq_false shows (by decide)
    · exact shows.operator (by decide)
    · exact Takes.result (takes_expectOperator (by decide)) fun _ _ => takes_pure alike

end Expr

namespace Expr

variable {e : Expr} {bound place : Nat} {rest : List Token}

theorem ReadAt.of_lt (h : e.ReadAt 0) (plain : e.Plain) (lt : e.precedence < place)
    (le : place ≤ 14) : e.ReadAt place := by
  intro bound rest length stops
  rw [renderAt_of_lt lt] at length ⊢
  simp only [List.length_cons, List.length_append, List.length_nil] at length
  have group := @ReadAt.grouped e bound rest h plain (by omega)
  exact takes_looser le le_rfl (takes_postfixed group (stops.mono le)) ⟨_, _, rfl, .parenthesis⟩ stops

theorem ReadAt.all (own : e.ReadAt e.precedence) (plain : e.Plain) {place : Nat} (le : place ≤ 14) : e.ReadAt place := by
  have looser {place : Nat} (le : place ≤ e.precedence) : e.ReadAt place := by
    intro bound rest length stops
    have takes := own bound rest
    rw [renderAt_of_le le_rfl] at takes
    rw [renderAt_of_le le] at length ⊢
    exact takes_looser le e.precedence_le (takes length (stops.mono le)) plain.opens stops
  rcases Nat.lt_or_ge e.precedence place with lt | ge
  · exact (looser (Nat.zero_le _)).of_lt plain lt le
  · exact looser ge

theorem LinksAt.ends {depth : Nat} (h : e.LinksAt depth) (le : depth ≤ 5) :
    e.ReadAt (10 - depth) := by
  intro bound rest length stops
  have rule : ruleAt (Rule.within bound) (10 - depth) =
      Parser.binary (Rule.within bound) (depth + 1) := by
    interval_cases depth <;> rfl
  rw [rule]
  refine Begins.ends (h bound rest length (stops.mono (by omega))) (fun c shows => ?_)
    fun first links alike => takes_pure alike
  refine Stops.level ?_ shows
  rwa [show 6 - depth + 4 = 10 - depth by omega]

theorem TrailersOf.ends (h : e.TrailersOf) : e.ReadAt 14 := by
  intro bound rest length stops
  refine Begins.ends (h bound rest length) (fun c shows => ?_)
    fun base trailers alike => takes_pure alike
  rw [stops.trailer shows]
  rfl

theorem LinksAt.of_place {depth : Nat} (le : depth ≤ 5) (h : e.ReadAt (11 - depth))
    (other : e.precedence ≠ 10 - depth) : e.LinksAt depth := by
  intro bound rest length stops
  have same : e.renderAt (10 - depth) = e.renderAt (11 - depth) := by
    rcases Nat.lt_or_ge e.precedence (10 - depth) with lt | ge
    · rw [renderAt_of_lt lt, renderAt_of_lt (by omega)]
    · rw [renderAt_of_le ge, renderAt_of_le (by omega)]
  have rule : ruleAt (Rule.within bound) (11 - depth) = Parser.binary (Rule.within bound) depth := by
    interval_cases depth <;> rfl
  rw [same] at length ⊢
  have takes := h bound rest length stops
  rw [rule] at takes
  exact takes.begins fun d alike => alike

theorem TrailersOf.of_place (plain : e.Plain) (h : e.ReadAt 0) (lt : e.precedence < 14) :
    e.TrailersOf := by
  intro bound rest length
  rw [renderAt_of_lt lt] at length ⊢
  simp only [List.length_cons, List.length_append, List.length_nil] at length
  exact (h.grouped plain (by omega)).begins fun d alike => alike

namespace Read

theorem of_rule (place : Nat) (plain : e.Plain) (eq : e.precedence = place)
    (other : place < 5 ∨ 10 < place ∧ place < 14)
    (own : ∀ bound rest, e.render.length ≤ bound + 1 → Stops place rest →
      (ruleAt (Rule.within bound) place).Takes e.render rest e.Alike) : e.Read := by
  have own : e.ReadAt e.precedence := by
    intro bound rest length stops
    rw [renderAt_of_le le_rfl] at length ⊢
    rw [eq] at stops ⊢
    exact own bound rest length stops
  exact ⟨plain, fun _ => own.all plain,
    fun depth le => .of_place le (own.all plain (by omega)) (by omega),
    .of_place plain (own.all plain (by omega)) (by omega)⟩

theorem of_links {depth : Nat} (plain : e.Plain) (le : depth ≤ 5) (eq : e.precedence = 10 - depth)
    (own : e.LinksAt depth) : e.Read := by
  have ends : e.ReadAt e.precedence := by
    rw [eq]
    exact own.ends le
  refine ⟨plain, fun _ => ends.all plain, fun other le' => ?_, ?_⟩
  · by_cases same : other = depth
    · rwa [same]
    · exact .of_place le' (ends.all plain (by omega)) (by omega)
  · exact .of_place plain (ends.all plain (by omega)) (by omega)

theorem of_trailers (plain : e.Plain) (eq : e.precedence = 14) (own : e.TrailersOf) : e.Read := by
  have ends : e.ReadAt e.precedence := by
    rw [eq]
    exact own.ends
  exact ⟨plain, fun _ => ends.all plain,
    fun depth le => .of_place le (ends.all plain (by omega)) (by omega), own⟩

end Read

end Expr

end CodeSmell
