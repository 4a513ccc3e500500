import CodeSmell.Proofs.Model.Fields

/-!
Literals in the definitions of constants. The literals are the numbers of the tree in source order,
and whether one is marked is read off the statement that its number stands in: all numbers of an
assignment to upper-case names are, those of its annotation too.
-/

namespace CodeSmell

namespace Expr

def located (e : Expr) : List (List Nat × Expr) :=
  ([], e) :: e.children.zipIdx.attach.flatMap fun ⟨(c, i), h⟩ =>
    have := sizeOf_lt_of_mem_children (List.fst_mem_of_mem_zipIdx h)
    c.located.map fun (path, d) => (i :: path, d)
termination_by sizeOf e

theorem located_eq (e : Expr) : e.located = ([], e) :: descend (fun x => x.1.located) e.children := by
  rw [located]
  congr 1
  exact (List.flatMap_subtype fun _ _ => rfl).trans (by rw [List.unattach_attach]; rfl)

theorem mem_located {e d : Expr} {path : List Nat} :
    (path, d) ∈ e.located ↔ e.at? path = some d := by
  induction path generalizing e with
  | nil =>
    rw [located_eq, List.mem_cons, or_iff_left nil_not_mem_descend, at?, Option.some_inj]
    exact ⟨fun same => (Prod.mk.inj same).2.symm, fun same => same ▸ rfl⟩
  | cons i path ih =>
    rw [located_eq, List.mem_cons, cons_mem_descend, at?, Option.bind_eq_some_iff]
    simp only [ih, Prod.mk.injEq, reduceCtorEq, false_and, false_or]

theorem located_sorted (e : Expr) : e.located.Pairwise fun x y => x.1 < y.1 := by
  induction e using preorder.induct with
  | case1 e ih =>
    rw [located_eq]
    exact cons_descend_sorted e fun c child _ => ih c child

theorem located_map_snd (e : Expr) : e.located.map Prod.snd = e.preorder := by
  induction e using preorder.induct with
  | case1 e ih =>
    rw [located_eq, List.map_cons, descend_map_snd, flatMap_zipIdx (fun c => c.located.map Prod.snd),
      preorder_eq]
    exact congrArg (List.cons e) (List.flatMap_congr ih)

theorem isReal_iff {e : Expr} :
    e.isReal = true ↔ ∃ p value text, e = ⟨p, .number value text false⟩ := by
  obtain ⟨p, f⟩ := e
  cases f with
  | number value text imaginary => cases imaginary <;> simp [isReal, form]
  | _ => simp [isReal, form]

end Expr

namespace Block

variable {b : Block} {o : Occurrence} {d : Expr}

theorem mem_located : (o, d) ∈ b.collect Expr.located ↔ b.expr? o = some d := by
  rw [mem_collect, expr?]
  simp only [Expr.mem_located, Option.bind_eq_some_iff]

theorem exists_expr? (mem : d ∈ b.nodes) : ∃ o, b.expr? o = some d := by
  obtain ⟨s, hs, mem⟩ := List.mem_flatMap.1 mem
  obtain ⟨e, he, mem⟩ := List.mem_flatMap.1 mem
  obtain ⟨n, found⟩ := List.mem_iff_getElem?.1 hs
  obtain ⟨k, inside⟩ := List.mem_iff_getElem?.1 he
  rw [← Expr.located_map_snd] at mem
  obtain ⟨⟨path, d⟩, located, rfl⟩ := List.mem_map.1 mem
  exact ⟨⟨n, k, path⟩, mem_located.1 (mem_collect.2 ⟨s, found, e, inside, located⟩)⟩

theorem expr?_part {c : Expr} {i : Nat} (found : b.expr? o = some c) :
    b.expr? (o.part i) = c.children[i]? := by
  obtain ⟨s, isStmt, found⟩ := Option.bind_eq_some_iff.1 found
  obtain ⟨e, inside, found⟩ := Option.bind_eq_some_iff.1 found
  have below : e.at? (o.path ++ [i]) = c.children[i]? := by
    rw [Expr.at?_append, found]
    exact Option.bind_fun_some _
  exact (congrArg (Option.bind · _) isStmt).trans ((congrArg (Option.bind · _) inside).trans below)

def numbers (b : Block) : List (Occurrence × Expr) :=
  (b.collect Expr.located).filter (·.2.isReal)

theorem mem_numbers : (o, d) ∈ b.numbers ↔ b.expr? o = some d ∧ d.isReal = true := by
  rw [numbers, List.mem_filter, mem_located]

theorem numbers_sorted (b : Block) : b.numbers.Pairwise fun x y => x.1.Before y.1 :=
  (collect_sorted Expr.located_sorted).filter _

def IsNumber (b : Block) (o : Occurrence) : Prop :=
  ∃ p value text, b.expr? o = some ⟨p, .number value text false⟩

theorem isNumber_iff : b.IsNumber o ↔ o ∈ b.numbers.map Prod.fst := by
  simp only [List.mem_map, Prod.exists, exists_and_right, exists_eq_right, mem_numbers,
    Expr.isReal_iff]
  constructor
  · rintro ⟨p, value, text, found⟩
    exact ⟨_, found, p, value, text, rfl⟩
  · rintro ⟨_, found, p, value, text, rfl⟩
    exact ⟨p, value, text, found⟩

end Block

def IsUpperCase (name : Bytes) : Prop :=
  (∃ b ∈ name, 65 ≤ b ∧ b ≤ 90) ∧ ∀ b ∈ name, ¬(97 ≤ b ∧ b ≤ 122)

/-- The statement assigns, and only to names in upper case. -/
def Stmt.AssignsConstant (s : Stmt) : Prop :=
  (∃ k, s.Assigns k) ∧ ∀ k, s.Assigns k →
    ∃ p name, s.expressions[k]? = some ⟨p, .name name⟩ ∧ IsUpperCase name

inductive Stmt.ValueAt : Stmt → Nat → Prop
  | assign {lines : LineRange} {targets : List Expr} {value : Expr} :
      ValueAt ⟨lines, .assign targets value⟩ targets.length
  | annAssign {lines : LineRange} {target annotation value : Expr} :
      ValueAt ⟨lines, .annAssign target annotation (some value)⟩ 2

inductive Stmt.AnnotationAt : Stmt → Nat → Prop
  | annAssign {lines : LineRange} {target annotation : Expr} {value : Option Expr} :
      AnnotationAt ⟨lines, .annAssign target annotation value⟩ 1

theorem isUpperName_iff {name : Bytes} : isUpperName name = true ↔ IsUpperCase name := by
  simp only [isUpperName, Bool.and_eq_true, Bool.not_eq_true', List.any_eq_false, List.any_eq_true,
    Ascii.isUpper, Ascii.isLower, decide_eq_true_eq]
  exact and_comm

theorem Expr.isUpperTarget_iff {e : Expr} :
    e.isUpperTarget = true ↔ ∃ p name, e = ⟨p, .name name⟩ ∧ IsUpperCase name := by
  obtain ⟨p, f⟩ := e
  cases f with
  | name id => simp [isUpperTarget, form, isUpperName_iff]
  | _ => simp [isUpperTarget, form]

namespace Stmt

variable {s : Stmt} {k : Nat} {e : Expr}

theorem definesConstant_eq (s : Stmt) : s.definesConstant =
    (!s.assignedTargets.isEmpty && s.assignedTargets.all Expr.isUpperTarget) := by
  obtain ⟨lines, form⟩ := s
  cases form with
  | annAssign target annotation value =>
    simp [definesConstant, assignedTargets, Stmt.form]
  | _ => rfl

theorem Assigns.target (assigns : s.Assigns k) : ∃ e, s.assignedTargets[k]? = some e := by
  cases assigns with
  | assign target => exact ⟨_, List.getElem?_eq_getElem target⟩
  | annAssign => exact ⟨_, rfl⟩

theorem definesConstant_iff : s.definesConstant = true ↔ s.AssignsConstant := by
  rw [definesConstant_eq, Bool.and_eq_true, Bool.not_eq_true', List.isEmpty_eq_false_iff,
    List.all_eq_true]
  constructor
  · rintro ⟨some, upper⟩
    refine ⟨⟨0, ?_⟩, fun k assigns => ?_⟩
    · exact (getElem?_assignedTargets.1 (List.head?_eq_getElem? ▸ List.head?_eq_some_head some)).1
    · obtain ⟨e, target⟩ := assigns.target
      obtain ⟨p, name, rfl, upper⟩ := Expr.isUpperTarget_iff.1 (upper e (List.mem_of_getElem? target))
      exact ⟨p, name, (getElem?_assignedTargets.1 target).2, upper⟩
  · rintro ⟨⟨k, assigns⟩, upper⟩
    obtain ⟨e, target⟩ := assigns.target
    refine ⟨List.ne_nil_of_mem (List.mem_of_getElem? target), fun e mem => ?_⟩
    obtain ⟨j, target⟩ := List.mem_iff_getElem?.1 mem
    obtain ⟨assigns, found⟩ := getElem?_assignedTargets.1 target
    obtain ⟨p, name, found', upper⟩ := upper j assigns
    obtain rfl := Option.some.inj (found.symm.trans found')
    exact Expr.isUpperTarget_iff.2 ⟨p, name, rfl, upper⟩

theorem assignment_parts (assigns : ∃ j, s.Assigns j) (found : s.expressions[k]? = some e) :
    s.Assigns k ∨ s.ValueAt k ∨ s.AnnotationAt k := by
  obtain ⟨j, assigns⟩ := assigns
  cases assigns with
  | @assign lines targets value _ target =>
    have found : (targets ++ [value])[k]? = some e := found
    have bound := (List.getElem?_eq_some_iff.1 found).1
    rw [List.length_append, List.length_singleton] at bound
    rcases Nat.lt_or_eq_of_le (Nat.le_of_lt_succ bound) with less | rfl
    · exact .inl (.assign less)
    · exact .inr (.inl .assign)
  | @annAssign lines target annotation value =>
    match k, value with
    | 0, _ => exact .inl .annAssign
    | 1, _ => exact .inr (.inr .annAssign)
    | 2, some value => exact .inr (.inl .annAssign)

theorem AssignsConstant.not_target {d : Expr} {path : List Nat} (constant : s.AssignsConstant)
    (found : s.expressions[k]? = some e) (inside : e.at? path = some d) (real : d.isReal = true) :
    s.ValueAt k ∨ s.AnnotationAt k := by
  refine (assignment_parts constant.1 found).resolve_left fun assigns => ?_
  obtain ⟨p, name, found', -⟩ := constant.2 k assigns
  obtain rfl := Option.some.inj (found.symm.trans found')
  cases path with
  | nil =>
    obtain rfl := Option.some.inj inside
    cases real
  | cons i path =>
    cases inside

end Stmt

/-- The literal is the number at the occurrence, alone or with the sign before it. -/
inductive Literal.StandsAt (b : Block) (l : Literal) : Occurrence → Prop
  | alone {o : Occurrence} (number : b.expr? o = some ⟨l.position, .number l.value l.text false⟩) :
      StandsAt b l o
  | minus {o : Occurrence} {p : Position} {value : Float} {text : Bytes}
      (number : b.expr? o = some ⟨l.position, .unary .minus ⟨p, .number value text false⟩⟩)
      (negated : l.value = -value) (signed : l.text = "-" ++ text) : StandsAt b l (o.part 0)
  | plus {o : Occurrence} {p : Position} {text : Bytes}
      (number : b.expr? o = some ⟨l.position, .unary .plus ⟨p, .number l.value text false⟩⟩)
      (signed : l.text = "+" ++ text) : StandsAt b l (o.part 0)

namespace ModuleModel

variable {b : Block}

theorem recordedIn_numbers_placed (b : Block) :
    List.Forall₂ (fun r c => r.2.numeral = c.2 ∧ ∃ p ∈ Block.placed {} 0 b,
      p.number = c.1.statement ∧ r.1.inConstant = p.statement.definesConstant)
      (recordedIn b) b.numbers := by
  rw [recordedIn, Block.numbers, Block.collect, List.filter_flatMap, ← Block.placed_zipIdx,
    List.flatMap_map]
  refine forall₂_flatMap fun p mem => ?_
  have same : p.recorded.map (·.2.numeral) =
      ((Expr.collect Expr.located p.number p.statement.expressions).filter (·.2.isReal)).map
        Prod.snd := by
    rw [p.recorded_reals]
    refine Eq.trans ?_ (List.filter_map (p := Expr.isReal) (f := Prod.snd))
    rw [Expr.collect_map_snd, funext Expr.located_map_snd, List.filter_flatMap]
    rfl
  have pairs := List.forall₂_eq_eq_eq.symm ▸ same
  rw [List.forall₂_map_left_iff, List.forall₂_map_right_iff] at pairs
  obtain ⟨length, each⟩ := List.forall₂_iff_zip.1 pairs
  refine List.forall₂_iff_zip.2 ⟨length, fun {r c} inside => ⟨each inside, p, mem, ?_, ?_⟩⟩
  · have found := (List.mem_filter.1 (List.of_mem_zip inside).2).1
    exact (Expr.mem_collect.1 found).1.symm
  · exact Placed.inConstant_of_recorded (List.of_mem_zip inside).1

theorem standsAt_of_recorded {l : Literal} {v : Expr} {o : Occurrence}
    (nodup : (b.numbers.map Prod.snd).Nodup) (mem : (l, v) ∈ recordedIn b)
    (found : (o, v.numeral) ∈ b.numbers) : l.StandsAt b o := by
  obtain ⟨node, literal, position⟩ := @mem_recordedIn [] 0 b l v mem
  obtain ⟨o', here⟩ : ∃ o', b.expr? o' = some v := Block.exists_expr? node
  -- the number under a sign has its place there, and no other one
  have under {d : Expr} (child : v.children = [d]) (number : v.numeral = d) : o = o'.part 0 := by
    rw [number] at found
    have found' : (o'.part 0, d) ∈ b.numbers := by
      refine Block.mem_numbers.2 ⟨?_, (Block.mem_numbers.1 found).2⟩
      rw [Block.expr?_part here, child]
      rfl
    exact (Prod.mk.inj (List.inj_on_of_nodup_map nodup found found' rfl)).1
  obtain ⟨p, f⟩ := v
  obtain rfl : l.position = p := position
  rcases Expr.literal?_cases literal with isNumber | ⟨_, _, _, _, rfl | rfl, isUnary, value, signed⟩
  · obtain rfl : f = .number l.value l.text false := isNumber
    exact .alone (Block.mem_numbers.1 found).1
  · obtain rfl : f = _ := isUnary
    exact under rfl rfl ▸ .minus here value signed
  · obtain rfl : f = _ := isUnary
    obtain rfl : l.value = _ := value
    exact under rfl rfl ▸ .plus here signed

/-- The literals are those of the numbers, in source order; a literal is marked if its number is in
the definition of a constant, `part` saying in which expressions of the statement. -/
def MarksFollow (m : ModuleModel) (part : Stmt → Nat → Prop) : Prop :=
  ∃ numbers : List Occurrence, numbers.Pairwise Occurrence.Before ∧
    (∀ o, o ∈ numbers ↔ m.body.IsNumber o) ∧
    List.Forall₂ (fun l o => l.StandsAt m.body o ∧ (l.inConstant = true ↔
      ∃ s, m.body.deep[o.statement]? = some s ∧ s.AssignsConstant ∧ part s o.expression))
      m.literals numbers

theorem marks_follow {path source : Bytes} {m : ModuleModel} (built : ofSource path source = .ok m) :
    m.MarksFollow fun s k => s.ValueAt k ∨ s.AnnotationAt k := by
  obtain ⟨b, inside, marker, rfl, lexed, -, reading⟩ := ofSource_reading built
  have pairs := recordedIn_numbers_placed b
  have nodup : (b.numbers.map Prod.snd).Nodup := by
    have same : (recordedIn b).map (·.2.numeral) = b.numbers.map Prod.snd := by
      rw [← List.forall₂_eq_eq_eq, List.forall₂_map_left_iff, List.forall₂_map_right_iff]
      exact pairs.imp fun _ _ pair => pair.1
    rw [← same, (recordedIn_numbers reading).nodup_iff]
    exact numbers_nodup lexed
  refine ⟨b.numbers.map Prod.fst, List.pairwise_map.2 b.numbers_sorted, fun o =>
    Block.isNumber_iff.symm, ?_⟩
  rw [← recordedIn_literals, List.forall₂_map_left_iff, List.forall₂_map_right_iff]
  obtain ⟨length, each⟩ := List.forall₂_iff_zip.1 pairs
  refine List.forall₂_iff_zip.2 ⟨length, fun {r c} mem => ?_⟩
  obtain ⟨⟨l, v⟩, o, d⟩ := r, c
  obtain ⟨rfl, p, hp, number, marked⟩ := each mem
  obtain ⟨recorded, found⟩ := List.of_mem_zip mem
  refine ⟨standsAt_of_recorded nodup recorded found, ?_⟩
  have isStmt : b.deep[o.statement]? = some p.statement :=
    Block.getElem?_deep.2 ⟨p, hp, rfl, number⟩
  rw [marked, Stmt.definesConstant_iff]
  constructor
  · intro constant
    obtain ⟨place, real⟩ := Block.mem_numbers.1 found
    rw [Block.expr?, isStmt, Option.bind_some] at place
    obtain ⟨e, part, inside⟩ := Option.bind_eq_some_iff.1 place
    exact ⟨p.statement, isStmt, constant, constant.not_target part inside real⟩
  · rintro ⟨s, isStmt', constant, -⟩
    obtain rfl := Option.some.inj (isStmt.symm.trans isStmt')
    exact constant

def constantSource : Bytes :=
  "A = B_2 = -1\nC, D = 2, 3\nE: F[4] = 5j + 5\ng = 6\nH = lambda x=7: x.y[8]\nif 9: I = [10]\n" ++
    "class J(11):\n  K = +12\n  def l(m=13): N = o = 14\n"

theorem marks_follow_constants : ∃ m, ofSource "a.py" constantSource = .ok m ∧
    m.literals.map (·.inConstant) = [true, false, false, true, true, false, true, true, false, true,
      false, true, false, false] ∧
    m.MarksFollow fun s k => s.ValueAt k ∨ s.AnnotationAt k := by
  obtain ⟨m, built, marks⟩ : ∃ m, ofSource "a.py" constantSource = .ok m ∧
      m.literals.map (·.inConstant) = [true, false, false, true, true, false, true, true, false, true,
        false, true, false, false] := by
    decide +kernel
  exact ⟨m, built, marks, marks_follow built⟩

def annotatedConstant : Bytes := "TABLE: Vector[16] = empty()\n"

theorem annotation_marked : ∃ m, ofSource "a.py" annotatedConstant = .ok m ∧
    ¬m.MarksFollow Stmt.ValueAt := by
  obtain ⟨m, built, literals, second, three⟩ : ∃ m, ofSource "a.py" annotatedConstant = .ok m ∧
      m.literals.map (·.inConstant) = [true] ∧ (∀ c ∈ m.body.numbers, c.1.expression = 1) ∧
        ∀ s ∈ m.body.deep, s.expressions.length = 3 := by
    decide +kernel
  refine ⟨m, built, ?_⟩
  rintro ⟨numbers, -, occurrences, pairs⟩
  obtain ⟨l, only, marked⟩ := List.map_eq_singleton_iff.1 literals
  rw [only] at pairs
  obtain ⟨o, rest, ⟨-, flag⟩, -, rfl⟩ := List.forall₂_cons_left_iff.1 pairs
  obtain ⟨s, isStmt, -, value⟩ := flag.1 marked
  -- the number is in the second of three expressions, and the value is the last
  have isNumber := Block.isNumber_iff.1 ((occurrences o).1 (.head _))
  obtain ⟨c, mem, rfl⟩ := List.mem_map.1 isNumber
  rw [second c mem] at value
  have three := three s (List.mem_of_getElem? isStmt)
  generalize place : 1 = k at value
  cases value with
  | @assign lines targets value =>
    have two : (targets ++ [value]).length = 2 := by rw [List.length_append, ← place]; rfl
    cases two.symm.trans three
  | annAssign => cases place

end ModuleModel

end CodeSmell
