import CodeSmell.Proofs.Model.Literals

/-!
The accesses of a module are the maximal chains of attributes in its tree. An occurrence of an
expression is given by the statement that holds it, the expression of that statement, and the path
from there down the children; `Occurrence.Maximal` says that no attribute around it reaches it
through values alone. `ModuleModel.accesses_maximal` pairs the accesses with these occurrences.
-/

namespace CodeSmell

namespace Expr

variable {f : Expr × Nat → List (List Nat × Expr)} {es : List Expr}

/-- What is found in the expressions of a list, with the number of the expression in front of each
path. -/
def descend (f : Expr × Nat → List (List Nat × Expr)) (es : List Expr) : List (List Nat × Expr) :=
  es.zipIdx.flatMap fun x => (f x).map fun (path, d) => (x.2 :: path, d)

theorem cons_mem_descend {i : Nat} {path : List Nat} {d : Expr} :
    (i :: path, d) ∈ descend f es ↔ ∃ c, es[i]? = some c ∧ (path, d) ∈ f (c, i) := by
  rw [descend, List.mem_flatMap]
  constructor
  · rintro ⟨⟨c, j⟩, found, mem⟩
    obtain ⟨⟨r, u⟩, below, same⟩ := List.mem_map.1 mem
    obtain ⟨steps, rfl⟩ := Prod.mk.inj same
    obtain ⟨rfl, rfl⟩ := List.cons.inj steps
    exact ⟨c, List.mem_zipIdx_iff_getElem?.1 found, below⟩
  · rintro ⟨c, found, mem⟩
    exact ⟨(c, i), List.mem_zipIdx_iff_getElem?.2 found, List.mem_map.2 ⟨_, mem, rfl⟩⟩

theorem nil_not_mem_descend {d : Expr} : ([], d) ∉ descend f es := by
  intro mem
  obtain ⟨x, -, mem⟩ := List.mem_flatMap.1 mem
  obtain ⟨_, -, same⟩ := List.mem_map.1 mem
  cases (Prod.mk.inj same).1

theorem descend_sorted (each : ∀ c ∈ es, ∀ i, (f (c, i)).Pairwise fun x y => x.1 < y.1) :
    (descend f es).Pairwise fun x y => x.1 < y.1 := by
  rw [descend, List.pairwise_flatMap]
  constructor
  · rintro ⟨c, i⟩ found
    rw [List.pairwise_map]
    exact (each c (List.fst_mem_of_mem_zipIdx found) i).imp fun less =>
      List.cons_lt_cons_iff.2 (.inr ⟨rfl, less⟩)
  · refine (zipIdx_sorted es).imp fun {x y} less u mem v mem' => ?_
    obtain ⟨_, -, rfl⟩ := List.mem_map.1 mem
    obtain ⟨_, -, rfl⟩ := List.mem_map.1 mem'
    exact List.cons_lt_cons_iff.2 (.inl less)

theorem cons_descend_sorted (e : Expr)
    (each : ∀ c ∈ es, ∀ i, (f (c, i)).Pairwise fun x y => x.1 < y.1) :
    (([], e) :: descend f es).Pairwise fun x y => x.1 < y.1 := by
  refine List.pairwise_cons.2 ⟨?_, descend_sorted each⟩
  rintro ⟨path, d⟩ mem
  cases path with
  | nil => exact absurd mem nil_not_mem_descend
  | cons i path => exact List.nil_lt_cons i path

theorem descend_map_snd : (descend f es).map Prod.snd =
    es.zipIdx.flatMap fun x => (f x).map Prod.snd := by
  rw [descend, List.map_flatMap]
  exact List.flatMap_congr fun _ _ => List.map_map

theorem flatMap_zipIdx {β : Type} (g : Expr → List β) (es : List Expr) :
    (es.zipIdx.flatMap fun x => g x.1) = es.flatMap g := by
  conv_rhs => rw [← List.zipIdx_map_fst 0 es, List.flatMap_map]

/-! ## Occurrences below an expression -/

def at? (e : Expr) : List Nat → Option Expr
  | [] => some e
  | i :: path => e.children[i]?.bind fun c => c.at? path

def isAttr (e : Expr) : Bool :=
  match e.form with
  | .attr .. => true
  | _ => false

def isValue (e : Expr) (i : Nat) : Bool :=
  match e.form with
  | .attr .. | .subscript .. => i == 0
  | _ => false

def FollowsValues (e : Expr) : List Nat → Prop
  | [] => True
  | i :: path => e.isValue i = true ∧ ∃ c, e.children[i]? = some c ∧ c.FollowsValues path

/-- An attribute further up the path reaches its end through values alone. -/
def InChain (e : Expr) (path : List Nat) : Prop :=
  ∃ outer inner a, path = outer ++ inner ∧ inner ≠ [] ∧ e.at? outer = some a ∧
    a.isAttr = true ∧ a.FollowsValues inner

def links : Expr → Nat
  | ⟨_, .attr value _⟩ => value.links + 1
  | ⟨_, .subscript value _⟩ => value.links
  | _ => 0

theorem inChain_nil (e : Expr) : ¬e.InChain [] := by
  rintro ⟨outer, inner, a, same, some, -⟩
  exact some (List.append_eq_nil_iff.1 same.symm).2

theorem inChain_cons {e : Expr} {i : Nat} {path : List Nat} : e.InChain (i :: path) ↔
    e.isAttr = true ∧ e.FollowsValues (i :: path) ∨
      ∃ c, e.children[i]? = some c ∧ c.InChain path := by
  constructor
  · rintro ⟨outer, inner, a, same, some, found, isAttr, follows⟩
    cases outer with
    | nil =>
      obtain rfl : e = a := Option.some.inj found
      obtain rfl : i :: path = inner := same
      exact .inl ⟨isAttr, follows⟩
    | cons j outer =>
      obtain ⟨rfl, rfl⟩ := List.cons.inj same
      obtain ⟨c, child, found⟩ := Option.bind_eq_some_iff.1 found
      exact .inr ⟨c, child, outer, inner, a, rfl, some, found, isAttr, follows⟩
  · rintro (⟨isAttr, follows⟩ | ⟨c, child, outer, inner, a, rfl, some, found, isAttr, follows⟩)
    · exact ⟨[], i :: path, e, rfl, List.cons_ne_nil i path, rfl, isAttr, follows⟩
    · exact ⟨i :: outer, inner, a, rfl, some, by rw [at?, child]; exact found, isAttr, follows⟩

/-! ## Chains -/

/-- The attributes at the ends of chains, with their paths; `inside` says that the expression is
itself reached from an attribute through values. -/
def chains (inside : Bool) (e : Expr) : List (List Nat × Expr) :=
  (if e.isAttr && !inside then [([], e)] else []) ++
    e.children.zipIdx.attach.flatMap fun ⟨(c, i), h⟩ =>
      have := sizeOf_lt_of_mem_children (List.fst_mem_of_mem_zipIdx h)
      (c.chains (e.isValue i && (e.isAttr || inside))).map fun (path, d) => (i :: path, d)
termination_by sizeOf e

theorem chains_eq (inside : Bool) (e : Expr) : e.chains inside =
    (if e.isAttr && !inside then [([], e)] else []) ++
      descend (fun x => x.1.chains (e.isValue x.2 && (e.isAttr || inside))) e.children := by
  rw [chains]
  congr 1
  exact (List.flatMap_subtype fun _ _ => rfl).trans (by rw [List.unattach_attach]; rfl)

theorem mem_chains_cons {inside : Bool} {e d : Expr} {i : Nat} {path : List Nat} :
    (i :: path, d) ∈ e.chains inside ↔ ∃ c, e.children[i]? = some c ∧
      (path, d) ∈ c.chains (e.isValue i && (e.isAttr || inside)) := by
  rw [chains_eq, List.mem_append, cons_mem_descend]
  refine or_iff_right fun here => ?_
  split_ifs at here
  · simp at here
  · cases here

theorem mem_chains_nil {inside : Bool} {e d : Expr} :
    ([], d) ∈ e.chains inside ↔ d = e ∧ e.isAttr = true ∧ inside = false := by
  rw [chains_eq, List.mem_append, or_iff_left nil_not_mem_descend]
  constructor
  · intro here
    split_ifs at here with attr
    · obtain rfl := (Prod.mk.inj (List.mem_singleton.1 here)).2
      exact ⟨rfl, by simpa using attr⟩
    · cases here
  · rintro ⟨rfl, attr, outside⟩
    simp [attr, outside]

theorem mem_chains {inside : Bool} {e d : Expr} {path : List Nat} :
    (path, d) ∈ e.chains inside ↔ e.at? path = some d ∧ d.isAttr = true ∧
      ¬(inside = true ∧ e.FollowsValues path) ∧ ¬e.InChain path := by
  induction path generalizing inside e with
  | nil =>
    rw [mem_chains_nil, at?, Option.some_inj]
    constructor
    · rintro ⟨rfl, attr, rfl⟩
      exact ⟨rfl, attr, fun in_chain => by simp at in_chain, inChain_nil d⟩
    · rintro ⟨rfl, attr, outside, -⟩
      exact ⟨rfl, attr, by simpa [FollowsValues] using outside⟩
  | cons i path ih =>
    rw [mem_chains_cons, inChain_cons, at?]
    cases child : e.children[i]? with
    | none => simp
    | some c =>
      simp only [Option.some_inj, exists_eq_left', Option.bind_some, FollowsValues, child, ih,
        Bool.and_eq_true, Bool.or_eq_true]
      tauto

theorem chains_sorted (inside : Bool) (e : Expr) :
    (e.chains inside).Pairwise fun x y => x.1 < y.1 := by
  induction e using preorder.induct generalizing inside with
  | case1 e ih =>
    have below := cons_descend_sorted
      (f := fun x => x.1.chains (e.isValue x.2 && (e.isAttr || inside))) e fun c child i =>
        ih c child (e.isValue i && (e.isAttr || inside))
    rw [chains_eq]
    split_ifs
    · exact below
    · exact (List.pairwise_cons.1 below).2

theorem chains_map_snd (inside : Bool) (e : Expr) : (e.chains inside).map Prod.snd =
    (if e.isAttr && !inside then [e] else []) ++ e.children.zipIdx.flatMap fun (c, i) =>
      (c.chains (e.isValue i && (e.isAttr || inside))).map Prod.snd := by
  rw [chains_eq, List.map_append, descend_map_snd]
  congr 1
  split_ifs <;> rfl

theorem isAttr_eq_false {e : Expr} (plain : ∀ i, e.isValue i = false) : e.isAttr = false := by
  unfold isAttr
  split
  · next isAttr => simpa [isValue, isAttr] using plain 0
  · rfl

theorem links_of_plain {e : Expr} (plain : ∀ i, e.isValue i = false) : e.links = 0 := by
  unfold links
  split
  · simpa [isValue, form] using plain 0
  · simpa [isValue, form] using plain 0
  · rfl

theorem chains_of_plain {e : Expr} (plain : ∀ i, e.isValue i = false) (inside : Bool) :
    (e.chains inside).map Prod.snd = e.children.flatMap fun c => (c.chains false).map Prod.snd := by
  rw [chains_map_snd, isAttr_eq_false plain, Bool.false_and, if_neg Bool.false_ne_true,
    List.nil_append]
  simp only [plain, Bool.false_and]
  exact flatMap_zipIdx (fun c => (c.chains false).map Prod.snd) e.children

theorem visited_of_plain {e : Expr} (plain : ∀ i, e.isValue i = false)
    (below : ∀ c ∈ e.children, c.visited.filter isAttr = (c.chains false).map Prod.snd) :
    e.visited.filter isAttr = (e.chains false).map Prod.snd := by
  rw [visited_eq, List.filter_cons, isAttr_eq_false plain, if_neg Bool.false_ne_true,
    List.filter_flatMap, chains_of_plain plain, ← List.flatMap_congr below]
  cases found : e.literal? with
  | none =>
    rw [usageParts_of_plain found fun value name isAttr => ?_]
    simpa [isValue, isAttr] using plain 0
  | some recorded =>
    have noPart : e.usageParts = [] := by
      unfold usageParts
      split
      · next isAttr => simpa [isValue, isAttr] using plain 0
      · rw [found]
        rfl
    rw [noPart]
    refine (List.flatMap_eq_nil_iff.2 fun c child => ?_).symm
    obtain ⟨p, value, text, rfl⟩ := number_of_literal (by rw [found]; rfl) child
    rw [visited_eq]
    rfl

theorem visited_chains (e : Expr) :
    e.visited.filter isAttr = (e.chains false).map Prod.snd ∧
      (e.chainParts.flatMap visited).filter isAttr = (e.chains true).map Prod.snd := by
  induction e using preorder.induct with
  | case1 e ih =>
    obtain ⟨p, f⟩ := e
    cases f with
    | attr value name =>
      -- the walk goes on behind the chain, so that the value is taken as inside of one
      have ih := (ih value (.head _)).2
      constructor
      · rw [visited_eq, chains_map_snd, List.filter_cons]
        simpa [isAttr, isValue, form, children, Form.children, usageParts] using ih
      · rw [chains_map_snd]
        simpa [isAttr, isValue, form, children, Form.children, chainParts] using ih
    | subscript value index =>
      obtain ⟨valueFree, valueInside⟩ := ih value (.head _)
      have indexFree := (ih index (.tail _ (.head _))).1
      constructor
      · rw [visited_eq, chains_map_snd]
        simp [isAttr, isValue, form, children, Form.children, usageParts, valueFree, indexFree, literal?]
      · rw [chains_map_snd]
        simp [isAttr, isValue, form, children, Form.children, chainParts, valueInside, indexFree]
    | _ =>
      have free := visited_of_plain (fun _ => rfl) fun c child => (ih c child).1
      refine ⟨free, ?_⟩
      rw [chains_of_plain (fun _ => rfl), ← chains_of_plain (fun _ => rfl) false, ← free]
      exact congrArg (List.filter isAttr) (List.append_nil _)

theorem links_chains (inside : Bool) (e : Expr) :
    (((e.chains inside).map Prod.snd).map links).sum + (if inside then e.links else 0) =
      e.preorder.countP isAttr := by
  induction e using preorder.induct generalizing inside with
  | case1 e ih =>
    rw [preorder_eq, List.countP_cons, List.countP_flatMap]
    obtain ⟨p, f⟩ := e
    cases f with
    | attr value name =>
      -- the attribute is a link of the chain around it, or of the chain that it begins
      have ih := ih value (.head _) true
      rw [if_pos rfl] at ih
      rw [chains_map_snd]
      cases inside <;>
        simp [isAttr, isValue, form, children, Form.children, links] at ih ⊢ <;> omega
    | subscript value index =>
      have below := ih value (.head _) inside
      have beside := ih index (.tail _ (.head _)) false
      rw [if_neg Bool.false_ne_true] at beside
      rw [chains_map_snd]
      simp [isAttr, isValue, form, children, Form.children, links] at below beside ⊢
      omega
    | _ =>
      rw [links_of_plain fun _ => rfl, ite_self, isAttr_eq_false fun _ => rfl,
        if_neg Bool.false_ne_true, chains_of_plain fun _ => rfl, sum_map_flatMap]
      exact congrArg List.sum (List.map_congr_left fun c child => ih c child false)

/-! ## Parts that are no values -/

theorem at?_append (e : Expr) (path path' : List Nat) :
    e.at? (path ++ path') = (e.at? path).bind fun c => c.at? path' := by
  induction path generalizing e with
  | nil => rfl
  | cons i path ih =>
    rw [List.cons_append, at?, at?, Option.bind_assoc]
    simp only [ih]

theorem FollowsValues.last {e : Expr} {path : List Nat} {i : Nat}
    (h : e.FollowsValues (path ++ [i])) : ∃ c, e.at? path = some c ∧ c.isValue i = true := by
  induction path generalizing e with
  | nil => exact ⟨e, rfl, h.1⟩
  | cons j path ih =>
    obtain ⟨-, c, child, follows⟩ := h
    obtain ⟨d, found, isValue⟩ := ih follows
    exact ⟨d, by rw [at?, child]; exact found, isValue⟩

theorem not_inChain {e c : Expr} {path : List Nat} {i : Nat} (found : e.at? path = some c)
    (part : c.isValue i = false) : ¬e.InChain (path ++ [i]) := by
  rintro ⟨outer, inner, a, same, nonempty, above, -, follows⟩
  obtain rfl | ⟨inner, j, rfl⟩ := inner.eq_nil_or_concat
  · exact nonempty rfl
  rw [List.concat_eq_append] at same follows
  rw [← List.append_assoc] at same
  obtain ⟨rfl, last⟩ := List.append_inj' same rfl
  obtain rfl := List.cons.inj last |>.1
  obtain ⟨d, below, isValue⟩ := follows.last
  rw [at?_append, above] at found
  obtain rfl := Option.some.inj (below.symm.trans found)
  rw [part] at isValue
  cases isValue

end Expr

/-! ## Occurrences in a block -/

/-- The place of an expression: the statement among all statements, its expression, and the path
from there. -/
structure Occurrence where
  statement : Nat
  expression : Nat
  path : List Nat
deriving DecidableEq

def Occurrence.part (o : Occurrence) (i : Nat) : Occurrence := { o with path := o.path ++ [i] }

def Occurrence.Before (o o' : Occurrence) : Prop :=
  o.statement < o'.statement ∨ o.statement = o'.statement ∧
    (o.expression < o'.expression ∨ o.expression = o'.expression ∧ o.path < o'.path)

theorem Occurrence.Before.ne {o o' : Occurrence} (before : o.Before o') : o ≠ o' := by
  rintro rfl
  rcases before with less | ⟨-, less | ⟨-, less⟩⟩
  · exact Nat.lt_irrefl _ less
  · exact Nat.lt_irrefl _ less
  · exact List.lt_irrefl _ less

def Expr.collect (f : Expr → List (List Nat × Expr)) (n : Nat) (es : List Expr) :
    List (Occurrence × Expr) :=
  es.zipIdx.flatMap fun (e, k) => (f e).map fun (path, d) => (⟨n, k, path⟩, d)

namespace Expr

variable {f : Expr → List (List Nat × Expr)} {n : Nat} {es : List Expr}

theorem mem_collect {o : Occurrence} {d : Expr} : (o, d) ∈ collect f n es ↔ o.statement = n ∧
    ∃ e, es[o.expression]? = some e ∧ (o.path, d) ∈ f e := by
  rw [collect, List.mem_flatMap]
  constructor
  · rintro ⟨⟨e, k⟩, found, mem⟩
    obtain ⟨⟨path, u⟩, inside, same⟩ := List.mem_map.1 mem
    obtain ⟨rfl, rfl⟩ := Prod.mk.inj same
    exact ⟨rfl, e, List.mem_zipIdx_iff_getElem?.1 found, inside⟩
  · rintro ⟨rfl, e, found, mem⟩
    exact ⟨(e, o.expression), List.mem_zipIdx_iff_getElem?.2 found, List.mem_map.2 ⟨_, mem, rfl⟩⟩

theorem collect_sorted (each : ∀ e ∈ es, (f e).Pairwise fun x y => x.1 < y.1) :
    (collect f n es).Pairwise fun x y => x.1.Before y.1 := by
  rw [collect, List.pairwise_flatMap]
  constructor
  · rintro ⟨e, k⟩ found
    rw [List.pairwise_map]
    exact (each e (List.fst_mem_of_mem_zipIdx found)).imp fun less => .inr ⟨rfl, .inr ⟨rfl, less⟩⟩
  · refine (zipIdx_sorted es).imp fun {x y} less u mem v mem' => ?_
    obtain ⟨_, -, rfl⟩ := List.mem_map.1 mem
    obtain ⟨_, -, rfl⟩ := List.mem_map.1 mem'
    exact .inr ⟨rfl, .inl less⟩

theorem collect_map_snd :
    (collect f n es).map Prod.snd = es.flatMap fun e => (f e).map Prod.snd := by
  rw [collect, List.map_flatMap, ← flatMap_zipIdx]
  exact List.flatMap_congr fun _ _ => List.map_map

end Expr

namespace Block

def expr? (b : Block) (o : Occurrence) : Option Expr :=
  b.deep[o.statement]?.bind fun s => s.expressions[o.expression]?.bind fun e => e.at? o.path

/-- An attribute that no attribute around it reaches through values alone. -/
def IsMaximal (b : Block) (o : Occurrence) : Prop :=
  ∃ s e d, b.deep[o.statement]? = some s ∧ s.expressions[o.expression]? = some e ∧
    e.at? o.path = some d ∧ d.isAttr = true ∧ ¬e.InChain o.path

variable {b : Block} {o : Occurrence} {d : Expr}

def collect (f : Expr → List (List Nat × Expr)) (b : Block) : List (Occurrence × Expr) :=
  b.deep.zipIdx.flatMap fun (s, n) => Expr.collect f n s.expressions

section Collect

variable {f : Expr → List (List Nat × Expr)}

theorem mem_collect : (o, d) ∈ b.collect f ↔ ∃ s, b.deep[o.statement]? = some s ∧
    ∃ e, s.expressions[o.expression]? = some e ∧ (o.path, d) ∈ f e := by
  rw [collect, List.mem_flatMap]
  constructor
  · rintro ⟨⟨s, n⟩, found, mem⟩
    obtain ⟨rfl, place⟩ := Expr.mem_collect.1 mem
    exact ⟨s, List.mem_zipIdx_iff_getElem?.1 found, place⟩
  · rintro ⟨s, found, place⟩
    exact ⟨(s, o.statement), List.mem_zipIdx_iff_getElem?.2 found, Expr.mem_collect.2 ⟨rfl, place⟩⟩

theorem collect_sorted (each : ∀ e, (f e).Pairwise fun x y => x.1 < y.1) :
    (b.collect f).Pairwise fun x y => x.1.Before y.1 := by
  refine List.pairwise_flatMap.2 ⟨fun x _ => Expr.collect_sorted fun e _ => each e, ?_⟩
  refine (zipIdx_sorted b.deep).imp fun {x y} less u mem v mem' => .inl ?_
  rw [(Expr.mem_collect.1 mem).1, (Expr.mem_collect.1 mem').1]
  exact less

end Collect

def chains (b : Block) : List (Occurrence × Expr) := b.collect (Expr.chains false)

theorem mem_chains : (o, d) ∈ b.chains ↔ ∃ s e, b.deep[o.statement]? = some s ∧
    s.expressions[o.expression]? = some e ∧ e.at? o.path = some d ∧ d.isAttr = true ∧
      ¬e.InChain o.path := by
  simp only [chains, mem_collect, Expr.mem_chains, Bool.false_eq_true, false_and, not_false_eq_true, true_and,
    exists_and_left]

theorem chains_nodup (b : Block) : (b.chains.map Prod.fst).Nodup :=
  List.pairwise_map.2 ((collect_sorted (Expr.chains_sorted false)).imp Occurrence.Before.ne)

theorem chains_map_snd (b : Block) : b.chains.map Prod.snd =
    b.deep.flatMap fun s => s.expressions.flatMap fun e => (e.chains false).map Prod.snd := by
  rw [chains, collect, List.map_flatMap]
  conv_rhs => rw [← List.zipIdx_map_fst 0 b.deep, List.flatMap_map]
  exact List.flatMap_congr fun _ _ => Expr.collect_map_snd

theorem isMaximal_iff : b.IsMaximal o ↔ o ∈ b.chains.map Prod.fst := by
  constructor
  · rintro ⟨s, e, d, place⟩
    exact List.mem_map.2 ⟨(o, d), mem_chains.2 ⟨s, e, place⟩, rfl⟩
  · intro mem
    obtain ⟨⟨o, d⟩, inside, rfl⟩ := List.mem_map.1 mem
    obtain ⟨s, e, place⟩ := mem_chains.1 inside
    exact ⟨s, e, d, place⟩

theorem expr?_of_mem (mem : (o, d) ∈ b.chains) : b.expr? o = some d ∧ d.isAttr = true := by
  obtain ⟨s, e, found, inside, at?, attr, -⟩ := mem_chains.1 mem
  rw [expr?, found, Option.bind_some, inside]
  exact ⟨at?, attr⟩

theorem isMaximal_part {c : Expr} {i : Nat} (outer : b.expr? o = some c)
    (inner : b.expr? (o.part i) = some d) (attr : d.isAttr = true) (part : c.isValue i = false) :
    b.IsMaximal (o.part i) := by
  obtain ⟨s, found, outer⟩ := Option.bind_eq_some_iff.1 outer
  obtain ⟨e, inside, outer⟩ := Option.bind_eq_some_iff.1 outer
  rw [expr?, show b.deep[(o.part i).statement]? = some s from found, Option.bind_some,
    show s.expressions[(o.part i).expression]? = some e from inside] at inner
  exact ⟨s, e, d, found, inside, inner, attr, Expr.not_inChain outer part⟩

theorem links_chains (b : Block) :
    ((b.chains.map Prod.snd).map Expr.links).sum = b.nodes.countP Expr.isAttr := by
  rw [chains_map_snd, nodes, List.countP_flatMap, sum_map_flatMap]
  refine congrArg List.sum (List.map_congr_left fun s _ => ?_)
  rw [Function.comp_apply, List.countP_flatMap, sum_map_flatMap]
  exact congrArg List.sum (List.map_congr_left fun e _ => e.links_chains false)

end Block

/-! ## Accesses -/

def Access.Records (a : Access) (e : Expr) : Prop :=
  ∃ base, e = ⟨a.position, .attr base a.name⟩ ∧ a.base = base.sketch

def Expr.base (e : Expr) : Expr :=
  match e.form with
  | .attr value _ => value
  | _ => e

structure Placed.Gives (imported : List Bytes) (p : Placed) (a : Access) (e : Expr) : Prop where
  records : a.Records e
  scope : a.scope = p.place.scope
  origin : a.origin = .ofBase p.receiver? imported e.base

theorem Placed.accesses_gives (imported : List Bytes) (p : Placed) :
    List.Forall₂ (p.Gives imported) (p.accesses imported) (p.visited.filter Expr.isAttr) := by
  unfold accesses
  induction p.visited with
  | nil => exact .nil
  | cons e es ih =>
    obtain ⟨position, f⟩ := e
    cases f with
    | attr base name => exact .cons ⟨⟨base, rfl, rfl⟩, rfl, rfl⟩ ih
    | _ => exact ih

theorem Placed.visited_chains (p : Placed) : p.visited.filter Expr.isAttr =
    p.statement.expressions.flatMap fun e => (e.chains false).map Prod.snd := by
  rw [visited, List.filter_flatMap]
  exact List.flatMap_congr fun e _ => e.visited_chains.1

theorem Expr.links_of_attr {e : Expr} (attr : e.isAttr = true) : e.links = 1 + e.base.links := by
  obtain ⟨p, f⟩ := e
  cases f with
  | attr value name => exact Nat.add_comm ..
  | _ => cases attr

namespace ModuleModel

theorem ofBlock_gives (path : Bytes) (lineCount : Nat) (b : Block) :
    List.Forall₂ (fun a c => ∃ p ∈ Block.placed {} 0 b, p.number = c.1.statement ∧
      p.Gives (ofBlock path lineCount b).imports a c.2)
      (ofBlock path lineCount b).accesses b.chains := by
  rw [Block.chains, Block.collect, ← Block.placed_zipIdx, List.flatMap_map]
  refine forall₂_flatMap fun p mem => ?_
  have gives := p.accesses_gives (ofBlock path lineCount b).imports
  rw [p.visited_chains, ← Expr.collect_map_snd (n := p.number), List.forall₂_map_right_iff] at gives
  obtain ⟨length, each⟩ := List.forall₂_iff_zip.1 gives
  refine List.forall₂_iff_zip.2 ⟨length, fun {a c} inside => ?_⟩
  have number := (Expr.mem_collect.1 (List.of_mem_zip inside).2).1
  exact ⟨p, mem, number.symm, each inside⟩

theorem ofBlock_accesses (path : Bytes) (lineCount : Nat) (b : Block) :
    List.Forall₂ Access.Records (ofBlock path lineCount b).accesses (b.chains.map Prod.snd) := by
  rw [List.forall₂_map_right_iff]
  exact (ofBlock_gives path lineCount b).imp fun _ _ ⟨_, _, _, gives⟩ => gives.records

/-- The accesses are, one to one and in order, the maximal chains of attributes in the tree, each
with the name and the place of its last attribute; `chains` gives for each where it is and what it
is an attribute of. Together the chains have all attributes of the tree, and what stands inside a
chain but is no value in it begins a chain of its own. -/
theorem accesses_maximal {path source : Bytes} {m : ModuleModel}
    (built : ofSource path source = .ok m) : ∃ chains : List (Occurrence × Expr),
      (chains.map Prod.fst).Nodup ∧
      (∀ o, m.body.IsMaximal o ↔ o ∈ chains.map Prod.fst) ∧
      List.Forall₂ (fun a c => m.body.expr? c.1 = some ⟨a.position, .attr c.2 a.name⟩ ∧
        a.base = c.2.sketch) m.accesses chains ∧
      (chains.map fun c => 1 + c.2.links).sum = m.body.nodes.countP Expr.isAttr ∧
      ∀ o i outer inner, m.body.expr? o = some outer → m.body.expr? (o.part i) = some inner →
        inner.isAttr = true → outer.isValue i = false → o.part i ∈ chains.map Prod.fst := by
  obtain ⟨b, -, -, rfl, -⟩ := ofSource_reading built
  have records := List.forall₂_map_right_iff.1 (ofBlock_accesses path source.lineCount b)
  have ends : ∀ c ∈ b.chains, b.expr? c.1 = some c.2 ∧ c.2.isAttr = true :=
    fun c mem => Block.expr?_of_mem mem
  refine ⟨b.chains.map fun c => (c.1, c.2.base), ?_, fun o => ?_, ?_, ?_, ?_⟩
  · rw [List.map_map]
    exact b.chains_nodup
  · rw [List.map_map]
    exact Block.isMaximal_iff
  · rw [List.forall₂_map_right_iff]
    obtain ⟨length, each⟩ := List.forall₂_iff_zip.1 records
    refine List.forall₂_iff_zip.2 ⟨length, fun {a c} mem => ?_⟩
    obtain ⟨base, same, sketch⟩ := each mem
    have found := (ends c (List.of_mem_zip mem).2).1
    dsimp only
    rw [same] at found ⊢
    exact ⟨found, sketch⟩
  · rw [← Block.links_chains, List.map_map, List.map_map]
    refine congrArg List.sum (List.map_congr_left fun c mem => ?_)
    exact (Expr.links_of_attr (ends c mem).2).symm
  · intro o i outer inner found found' attr part
    rw [List.map_map]
    exact Block.isMaximal_iff.1 (Block.isMaximal_part found found' attr part)

theorem accesses_maximal_in_call : ∃ m, ∃ chains : List (Occurrence × Expr),
    ofSource "a.py" "a.b[c.d].e(f.g)\n" = .ok m ∧
      (∀ o, m.body.IsMaximal o ↔ o ∈ chains.map Prod.fst) ∧
      List.Forall₂ (fun a c => m.body.expr? c.1 = some ⟨a.position, .attr c.2 a.name⟩ ∧
        a.base = c.2.sketch) m.accesses chains ∧
      (chains.map fun c => 1 + c.2.links).sum = m.body.nodes.countP Expr.isAttr := by
  obtain ⟨m, built⟩ : ∃ m, ofSource "a.py" "a.b[c.d].e(f.g)\n" = .ok m := by decide +kernel
  obtain ⟨chains, -, maximal, records, sum, -⟩ := accesses_maximal built
  exact ⟨m, chains, built, maximal, records, sum⟩

end ModuleModel

end CodeSmell
