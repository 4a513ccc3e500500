import CodeSmell.Proofs.Lists
import CodeSmell.Proofs.Model.Bodies

/-!
The fields of classes. A target of an assignment is taken apart into the names, attributes and
subscripts in it, each with its path, so that every name that is bound has an occurrence. The fields
of a class are the names that its own body binds and then those that its constructors bind on their
receivers, in the order of the occurrences and each at its first one.
-/

namespace CodeSmell

inductive Expr.Reaches : Expr → List Nat → Expr → Prop
  | self (e : Expr) : Reaches e [] e
  | starred {p : Position} {value d : Expr} {path : List Nat} (below : Reaches value path d) :
      Reaches ⟨p, .starred value⟩ (0 :: path) d
  | list {p : Position} {elements : List Expr} {i : Nat} {e d : Expr} {path : List Nat}
      (element : elements[i]? = some e) (below : Reaches e path d) :
      Reaches ⟨p, .sequence .list elements⟩ (i :: path) d
  | tuple {p : Position} {elements : List Expr} {i : Nat} {e d : Expr} {path : List Nat}
      (element : elements[i]? = some e) (below : Reaches e path d) :
      Reaches ⟨p, .sequence .tuple elements⟩ (i :: path) d

namespace Expr

/-- What a target is made of in the end, with the paths to it. -/
def leaves (e : Expr) : List (List Nat × Expr) :=
  match h : e.targetParts? with
  | some parts => parts.zipIdx.attach.flatMap fun ⟨(part, i), mem⟩ =>
    have := sizeOf_lt_of_mem_children
      (mem_children_of_targetParts? h (List.fst_mem_of_mem_zipIdx mem))
    part.leaves.map fun (path, d) => (i :: path, d)
  | none => [([], e)]
termination_by sizeOf e

theorem leaves_parts {e : Expr} {parts : List Expr} (h : e.targetParts? = some parts) :
    e.leaves = descend (fun x => x.1.leaves) parts := by
  rw [leaves]
  split
  · next parts' h' =>
    obtain rfl := Option.some.inj (h'.symm.trans h)
    exact (List.flatMap_subtype fun _ _ => rfl).trans (by rw [List.unattach_attach]; rfl)
  · next none => cases h.symm.trans none

theorem leaves_whole {e : Expr} (h : e.targetParts? = none) : e.leaves = [([], e)] := by
  rw [leaves]
  split
  · next parts some => cases h.symm.trans some
  · rfl

theorem reaches_nil {e d : Expr} : e.Reaches [] d ↔ d = e := by
  constructor
  · rintro ⟨⟩
    rfl
  · rintro rfl
    exact .self d

theorem reaches_cons {e d : Expr} {i : Nat} {path : List Nat} : e.Reaches (i :: path) d ↔
    ∃ parts, e.targetParts? = some parts ∧ ∃ c, parts[i]? = some c ∧ c.Reaches path d := by
  constructor
  · intro h
    cases h with
    | starred below => exact ⟨_, rfl, _, rfl, below⟩
    | list element below | tuple element below => exact ⟨_, rfl, _, element, below⟩
  · rintro ⟨parts, some, c, part, below⟩
    obtain ⟨p, f⟩ := e
    cases f with
    | starred value =>
      obtain rfl := Option.some.inj some
      obtain ⟨rfl, rfl⟩ : i = 0 ∧ value = c := by simpa [List.getElem?_singleton] using part
      exact .starred below
    | sequence kind elements =>
      cases kind with
      | list => exact .list (Option.some.inj some ▸ part) below
      | tuple => exact .tuple (Option.some.inj some ▸ part) below
      | set => cases some
    | _ => cases some

theorem mem_leaves {e d : Expr} {path : List Nat} :
    (path, d) ∈ e.leaves ↔ e.Reaches path d ∧ d.targetParts? = none := by
  induction path generalizing e with
  | nil =>
    rw [reaches_nil]
    cases parts : e.targetParts? with
    | none =>
      rw [leaves_whole parts, List.mem_singleton, Prod.mk.injEq]
      exact ⟨fun ⟨_, same⟩ => ⟨same, same ▸ parts⟩, fun ⟨same, _⟩ => ⟨rfl, same⟩⟩
    | some es =>
      rw [leaves_parts parts]
      refine iff_of_false nil_not_mem_descend ?_
      rintro ⟨rfl, none⟩
      cases parts.symm.trans none
  | cons i path ih =>
    rw [reaches_cons]
    cases parts : e.targetParts? with
    | none => simp [leaves_whole parts]
    | some es =>
      rw [leaves_parts parts, cons_mem_descend]
      simp only [ih, Option.some_inj, exists_eq_left', exists_and_right, ← and_assoc]

theorem leaves_sorted (e : Expr) : e.leaves.Pairwise fun x y => x.1 < y.1 := by
  induction e using preorder.induct with
  | case1 e ih =>
    cases parts : e.targetParts? with
    | none =>
      rw [leaves_whole parts]
      exact List.pairwise_singleton _ _
    | some es =>
      rw [leaves_parts parts]
      exact descend_sorted fun c part _ => ih c (mem_children_of_targetParts? parts part)

def ownName? : Expr → Option Bytes
  | ⟨_, .name id⟩ => some id
  | _ => none

def ownField? (receiver : Bytes) : Expr → Option Bytes
  | ⟨_, .attr ⟨_, .name id⟩ name⟩ => if id = receiver then some name else none
  | _ => none

theorem eq_leaves {gather : Expr → List Bytes} {own? : Expr → Option Bytes}
    (whole : ∀ e, e.targetParts? = none → gather e = (own? e).toList)
    (parts : ∀ e es, e.targetParts? = some es → gather e = es.flatMap gather) (e : Expr) :
    gather e = e.leaves.filterMap fun l => own? l.2 := by
  induction e using preorder.induct with
  | case1 e ih =>
    cases some : e.targetParts? with
    | none =>
      rw [whole e some, leaves_whole some, List.filterMap_cons, List.filterMap_nil]
      cases own? e with
      | none => rfl
      | some name => rfl
    | some es =>
      rw [parts e es some, leaves_parts some, descend, List.filterMap_flatMap, ← flatMap_zipIdx]
      refine List.flatMap_congr fun x mem => ?_
      rw [List.filterMap_map]
      exact ih x.1 (mem_children_of_targetParts? some (List.fst_mem_of_mem_zipIdx mem))

theorem boundNames_parts {e : Expr} {es : List Expr} (h : e.targetParts? = some es) :
    e.boundNames = es.flatMap boundNames := by
  rw [boundNames]
  split
  · next id named => simp [targetParts?, named] at h
  · split
    · next parts some =>
      obtain rfl := Option.some.inj (some.symm.trans h)
      exact (List.flatMap_subtype fun _ _ => rfl).trans (by rw [List.unattach_attach])
    · next none => cases none.symm.trans h

theorem boundNames_whole {e : Expr} (h : e.targetParts? = none) :
    e.boundNames = e.ownName?.toList := by
  rw [boundNames]
  split
  · next id named =>
    obtain ⟨p, f⟩ := e
    obtain rfl : f = .name id := named
    rfl
  · next notName =>
    have none : e.ownName? = none := by
      unfold ownName?
      split
      · next p id => exact absurd rfl (notName id)
      · rfl
    rw [none]
    split
    · next parts some => cases some.symm.trans h
    · rfl

theorem boundNames_eq (e : Expr) : e.boundNames = e.leaves.filterMap fun l => l.2.ownName? :=
  eq_leaves (fun _ => boundNames_whole) (fun _ _ => boundNames_parts) e

theorem boundFields_parts {receiver : Bytes} {e : Expr} {es : List Expr}
    (h : e.targetParts? = some es) : e.boundFields receiver = es.flatMap (boundFields receiver) := by
  rw [boundFields]
  split
  · next p id name attr => simp [targetParts?, attr] at h
  · split
    · next parts some =>
      obtain rfl := Option.some.inj (some.symm.trans h)
      exact (List.flatMap_subtype fun _ _ => rfl).trans (by rw [List.unattach_attach])
    · next none => cases none.symm.trans h

theorem boundFields_whole {receiver : Bytes} {e : Expr} (h : e.targetParts? = none) :
    e.boundFields receiver = (e.ownField? receiver).toList := by
  rw [boundFields]
  split
  · next p id name attr =>
    obtain ⟨q, f⟩ := e
    obtain rfl : f = .attr ⟨p, .name id⟩ name := attr
    rw [ownField?]
    split_ifs with same
    · rfl
    · rfl
  · next notField =>
    have none : e.ownField? receiver = none := by
      unfold ownField?
      split
      · next q p id name => exact absurd rfl (notField p id name)
      · rfl
    rw [none]
    split
    · next parts some => cases some.symm.trans h
    · rfl

theorem boundFields_eq (receiver : Bytes) (e : Expr) :
    e.boundFields receiver = e.leaves.filterMap fun l => l.2.ownField? receiver :=
  eq_leaves (fun _ => boundFields_whole) (fun _ _ => boundFields_parts) e

theorem ownName?_eq_some {d : Expr} {name : Bytes} :
    d.ownName? = some name ↔ ∃ p, d = ⟨p, .name name⟩ := by
  constructor
  · intro h
    unfold ownName? at h
    split at h
    · next p id => exact ⟨p, Option.some.inj h ▸ rfl⟩
    · cases h
  · rintro ⟨p, rfl⟩
    rfl

theorem ownField?_eq_some {receiver name : Bytes} {d : Expr} :
    d.ownField? receiver = some name ↔ ∃ p q, d = ⟨p, .attr ⟨q, .name receiver⟩ name⟩ := by
  constructor
  · intro h
    unfold ownField? at h
    split at h
    · next p q id attr =>
      split_ifs at h with same
      exact ⟨p, q, by rw [same, Option.some.inj h]⟩
    · cases h
  · rintro ⟨p, q, rfl⟩
    exact if_pos rfl

end Expr

/-- The expression with the number `k` of the statement is a target of a plain or annotated
assignment. -/
inductive Stmt.Assigns : Stmt → Nat → Prop
  | assign {lines : LineRange} {targets : List Expr} {value : Expr} {k : Nat}
      (target : k < targets.length) : Assigns ⟨lines, .assign targets value⟩ k
  | annAssign {lines : LineRange} {target annotation : Expr} {value : Option Expr} :
      Assigns ⟨lines, .annAssign target annotation value⟩ 0

inductive Stmt.Changes : Stmt → Nat → Prop
  | assigns {s : Stmt} {k : Nat} (assigns : Assigns s k) : Changes s k
  | augAssign {lines : LineRange} {target : Expr} {op : BinaryOp} {value : Expr} :
      Changes ⟨lines, .augAssign target op value⟩ 0

namespace Stmt

theorem getElem?_assignedTargets {s : Stmt} {k : Nat} {e : Expr} :
    s.assignedTargets[k]? = some e ↔ s.Assigns k ∧ s.expressions[k]? = some e := by
  obtain ⟨lines, form⟩ := s
  cases form with
  | assign targets value =>
    change targets[k]? = some e ↔ _ ∧ (targets ++ [value])[k]? = some e
    constructor
    · intro target
      have less := (List.getElem?_eq_some_iff.1 target).1
      exact ⟨.assign less, (List.getElem?_append_left less).trans target⟩
    · rintro ⟨⟨less⟩, same⟩
      exact (List.getElem?_append_left less).symm.trans same
  | annAssign target annotation value =>
    change [target][k]? = some e ↔ _ ∧ (target :: annotation :: value.toList)[k]? = some e
    constructor
    · intro same
      obtain ⟨rfl, rfl⟩ : k = 0 ∧ target = e := by simpa [List.getElem?_singleton] using same
      exact ⟨.annAssign, rfl⟩
    · rintro ⟨⟨⟩, same⟩
      exact same
  | _ => exact iff_of_false nofun fun ⟨assigns, _⟩ => nomatch assigns

theorem getElem?_changedTargets {s : Stmt} {k : Nat} {e : Expr} :
    s.changedTargets[k]? = some e ↔ s.Changes k ∧ s.expressions[k]? = some e := by
  by_cases aug : ∃ target op value, s.form = .augAssign target op value
  · obtain ⟨lines, form⟩ := s
    obtain ⟨target, op, value, rfl⟩ := aug
    change [target][k]? = some e ↔ _ ∧ [target, value][k]? = some e
    constructor
    · intro same
      obtain ⟨rfl, rfl⟩ : k = 0 ∧ target = e := by simpa [List.getElem?_singleton] using same
      exact ⟨.augAssign, rfl⟩
    · rintro ⟨⟨⟨⟩⟩ | _, same⟩
      exact same
  · have same : s.changedTargets = s.assignedTargets := by
      unfold changedTargets
      split
      · next target op value form => exact absurd ⟨target, op, value, form⟩ aug
      · rfl
    rw [same, getElem?_assignedTargets]
    refine and_congr_left fun _ => ⟨.assigns, fun changes => ?_⟩
    cases changes with
    | assigns assigns => exact assigns
    | augAssign => exact absurd ⟨_, _, _, rfl⟩ aug

end Stmt

/-- The names are those at the occurrences, in source order. -/
def Lists (binds : Occurrence → Bytes → Prop) (names : List Bytes) : Prop :=
  ∃ bindings : List (Occurrence × Bytes), bindings.Pairwise (fun x y => x.1.Before y.1) ∧
    (∀ o name, (o, name) ∈ bindings ↔ binds o name) ∧ bindings.map Prod.snd = names

/-- Directly in the body of the definition `k`, some target is `d` or has it inside. -/
def Block.AssignsTo (b : Block) (assigns : Stmt → Nat → Prop) (k : Nat) (o : Occurrence)
    (d : Expr) : Prop :=
  ∃ s e, b.deep[o.statement]? = some s ∧ b.IsDirectlyWithin k o.statement ∧
    assigns s o.expression ∧ s.expressions[o.expression]? = some e ∧ e.Reaches o.path d

def Placed.bindings (targets : Stmt → List Expr) (own? : Expr → Option Bytes) (p : Placed) :
    List (Occurrence × Bytes) :=
  (Expr.collect Expr.leaves p.number (targets p.statement)).filterMap fun (o, d) =>
    (own? d).map fun name => (o, name)

section Bindings

variable {targets : Stmt → List Expr} {own? : Expr → Option Bytes} {p : Placed}

theorem Placed.mem_bindings {o : Occurrence} {name : Bytes} :
    (o, name) ∈ p.bindings targets own? ↔ ∃ d,
      (o, d) ∈ Expr.collect Expr.leaves p.number (targets p.statement) ∧ own? d = some name := by
  rw [bindings, List.mem_filterMap]
  constructor
  · rintro ⟨⟨o, d⟩, leaf, bound⟩
    obtain ⟨name, own, same⟩ := Option.map_eq_some_iff.1 bound
    obtain ⟨rfl, rfl⟩ := Prod.mk.inj same
    exact ⟨d, leaf, own⟩
  · rintro ⟨d, leaf, own⟩
    exact ⟨(o, d), leaf, Option.map_eq_some_iff.2 ⟨name, own, rfl⟩⟩

theorem Placed.bindings_sorted :
    (p.bindings targets own?).Pairwise fun x y => x.1.Before y.1 := by
  have sorted := Expr.collect_sorted (n := p.number) fun e (_ : e ∈ targets p.statement) =>
    e.leaves_sorted
  refine List.pairwise_filterMap.2 (sorted.imp fun {l l'} before x mem y mem' => ?_)
  obtain ⟨_, -, rfl⟩ := Option.map_eq_some_iff.1 mem
  obtain ⟨_, -, rfl⟩ := Option.map_eq_some_iff.1 mem'
  exact before

theorem Placed.map_bindings : (p.bindings targets own?).map Prod.snd =
    (targets p.statement).flatMap fun e => e.leaves.filterMap fun l => own? l.2 := by
  have own : (p.bindings targets own?).map Prod.snd =
      ((Expr.collect Expr.leaves p.number (targets p.statement)).map Prod.snd).filterMap own? := by
    rw [bindings, List.map_filterMap, List.filterMap_map]
    refine List.filterMap_congr fun l _ => ?_
    rw [Option.map_map]
    exact Option.map_id_apply
  rw [own, Expr.collect_map_snd, List.filterMap_flatMap]
  exact List.flatMap_congr fun e _ => List.filterMap_map

variable {b body : Block} {assigns : Stmt → Nat → Prop}

theorem lists_body (hp : p ∈ Block.placed {} 0 b) (hasBody : p.statement.body? = some body)
    (assigned : ∀ s k e, (targets s)[k]? = some e ↔ assigns s k ∧ s.expressions[k]? = some e)
    (whole : ∀ d name, own? d = some name → d.targetParts? = none) :
    Lists (fun o name => ∃ d, b.AssignsTo assigns p.number o d ∧ own? d = some name)
      ((Block.walk body).flatMap fun s =>
        (targets s).flatMap fun e => e.leaves.filterMap fun l => own? l.2) := by
  -- the walk over the body has no numbers, the outermost statements below `p` do
  refine ⟨(Placed.outermost p.below).flatMap (Placed.bindings targets own?), ?_, fun o name => ?_, ?_⟩
  · refine List.pairwise_flatMap.2 ⟨fun q _ => Placed.bindings_sorted, ?_⟩
    refine (Placed.outermost_sorted _ _ _).imp fun {q q'} less x mem y mem' => .inl ?_
    obtain ⟨_, mem, -⟩ := Placed.mem_bindings.1 mem
    obtain ⟨_, mem', -⟩ := Placed.mem_bindings.1 mem'
    rw [(Expr.mem_collect.1 mem).1, (Expr.mem_collect.1 mem').1]
    exact less
  · simp only [List.mem_flatMap, Placed.mem_outermost_below hp hasBody, Placed.mem_bindings,
      Expr.mem_collect, Expr.mem_leaves, assigned]
    constructor
    · rintro ⟨q, ⟨hq, within⟩, d, ⟨number, e, ⟨target, found⟩, reaches, -⟩, own⟩
      rw [← number] at within
      exact ⟨d, ⟨q.statement, e, Block.getElem?_deep.2 ⟨q, hq, rfl, number.symm⟩, within, target,
        found, reaches⟩, own⟩
    · rintro ⟨d, ⟨s, e, isStmt, within, target, found, reaches⟩, own⟩
      obtain ⟨q, hq, rfl, number⟩ := Block.getElem?_deep.1 isStmt
      rw [← number] at within
      exact ⟨q, ⟨hq, within⟩, d, ⟨number.symm, e, ⟨target, found⟩, reaches, whole d name own⟩, own⟩
  · rw [List.map_flatMap, ← Placed.walk_body hasBody, List.flatMap_map]
    exact List.flatMap_congr fun q _ => Placed.map_bindings

end Bindings

/-- The function is a constructor, and assigns to the field of its receiver. -/
def FunctionModel.Constructs (b : Block) (f : FunctionModel) (o : Occurrence) (name : Bytes) :
    Prop :=
  ∃ receiver, f.frame.receiver? = some receiver ∧
    f.definition.name ∈ (["__init__", "__new__", "__post_init__"] : List Bytes) ∧
      ∃ p q, b.AssignsTo Stmt.Changes f.frame.number o ⟨p, .attr ⟨q, .name receiver.name⟩ name⟩

/-- The fields are the names that the body binds and then those that the methods construct, each
where it comes first. -/
structure ClassModel.FieldsAssigned (b : Block) (c : ClassModel) : Prop where
  nodup : c.fields.Nodup
  order : ∃ own constructed,
    Lists (fun o name => ∃ p, b.AssignsTo Stmt.Assigns c.frame.number o ⟨p, .name name⟩) own ∧
      List.Forall₂ (fun f names => Lists (f.Constructs b) names) c.methods constructed ∧
        c.fields = (own ++ constructed.flatten).eraseDups

theorem isConstructorName_iff {name : Bytes} : isConstructorName name = true ↔
    name ∈ (["__init__", "__new__", "__post_init__"] : List Bytes) := by
  simp [isConstructorName, or_assoc]

namespace Lists

variable {binds binds' : Occurrence → Bytes → Prop} {names : List Bytes}

theorem congr (same : ∀ o name, binds o name ↔ binds' o name) (lists : Lists binds names) :
    Lists binds' names := by
  obtain rfl : binds = binds' := funext₂ fun o name => propext (same o name)
  exact lists

theorem nil (none : ∀ o name, ¬binds o name) : Lists binds [] :=
  ⟨[], .nil, fun o name => iff_of_false List.not_mem_nil (none o name), rfl⟩

end Lists

section Definitions

variable {b : Block} {p : Placed} (hp : p ∈ Block.placed {} 0 b)

include hp

theorem ClassFrame.lists_ownFields {c : ClassFrame} (isClass : p.class? = some c) :
    Lists (fun o name => ∃ q, b.AssignsTo Stmt.Assigns c.number o ⟨q, .name name⟩) c.ownFields := by
  obtain ⟨form, number⟩ := Placed.class?_eq_some.1 isClass
  have hasBody : p.statement.body? = some c.definition.body := by
    rw [Stmt.body?, form]
    rfl
  have whole (d : Expr) (name : Bytes) (own : d.ownName? = some name) : d.targetParts? = none := by
    obtain ⟨q, rfl⟩ := Expr.ownName?_eq_some.1 own
    rfl
  rw [ownFields, funext Expr.boundNames_eq, number]
  refine (lists_body hp hasBody (fun _ _ _ => Stmt.getElem?_assignedTargets) whole).congr
    fun o name => ⟨?_, ?_⟩
  · rintro ⟨d, assigns, own⟩
    obtain ⟨q, rfl⟩ := Expr.ownName?_eq_some.1 own
    exact ⟨q, assigns⟩
  · rintro ⟨q, assigns⟩
    exact ⟨_, assigns, rfl⟩

theorem FunctionModel.lists_constructedFields {f : FunctionModel} (found : p.function? = some f) :
    Lists (f.Constructs b) f.frame.constructedFields := by
  obtain ⟨form, number, -, -⟩ := Placed.function?_eq_some.1 found
  have hasBody : p.statement.body? = some f.definition.body := by
    rw [Stmt.body?, form]
    rfl
  rw [FunctionFrame.constructedFields]
  split
  · next receiver isReceiver =>
    split_ifs with constructor
    · have whole (d : Expr) (name : Bytes) (own : d.ownField? receiver.name = some name) :
          d.targetParts? = none := by
        obtain ⟨q, r, rfl⟩ := Expr.ownField?_eq_some.1 own
        rfl
      rw [funext (Expr.boundFields_eq receiver.name)]
      refine (lists_body hp hasBody (fun _ _ _ => Stmt.getElem?_changedTargets) whole).congr
        fun o name => ⟨?_, ?_⟩
      · rintro ⟨d, changes, own⟩
        obtain ⟨q, r, rfl⟩ := Expr.ownField?_eq_some.1 own
        exact ⟨receiver, isReceiver, isConstructorName_iff.1 constructor, q, r, number ▸ changes⟩
      · rintro ⟨receiver', same, -, q, r, changes⟩
        obtain rfl := Option.some.inj (isReceiver.symm.trans same)
        exact ⟨_, number ▸ changes, Expr.ownField?_eq_some.2 ⟨q, r, rfl⟩⟩
    · refine .nil fun o name constructs => ?_
      obtain ⟨_, -, named, -⟩ := constructs
      exact constructor (isConstructorName_iff.2 named)
  · next none =>
    refine .nil fun o name constructs => ?_
    obtain ⟨receiver, same, -⟩ := constructs
    cases none.symm.trans same

end Definitions

theorem Placed.getElem?_deep {b : Block} {p : Placed} {form : StmtForm Stmt}
    (hp : p ∈ Block.placed {} 0 b) (isForm : p.statement.form = form) :
    ∃ lines, b.deep[p.number]? = some ⟨lines, form⟩ := by
  obtain ⟨number, ⟨lines, form'⟩, place⟩ := p
  obtain rfl : form' = form := isForm
  exact ⟨lines, Block.getElem?_deep.2 ⟨_, hp, rfl, rfl⟩⟩

namespace ModuleModel

theorem fields_assigned {path source : Bytes} {m : ModuleModel}
    (built : ofSource path source = .ok m) : ∀ c ∈ m.classes, c.FieldsAssigned m.body ∧
      (∃ lines, m.body.deep[c.frame.number]? = some ⟨lines, .classDef c.definition⟩) ∧
      ∀ f ∈ c.methods, ∃ lines,
        m.body.deep[f.frame.number]? = some ⟨lines, .function f.definition⟩ := by
  obtain ⟨b, -, rfl⟩ := ofSource_ok built
  intro c hc
  obtain ⟨⟨p, hp, isClass⟩, all⟩ := mem_classes.1 hc
  have methods : ∀ f ∈ c.methods, ∃ q ∈ Block.placed {} 0 b, q.function? = some f := fun f hf =>
    mem_functions.1 (List.mem_of_mem_filter (all ▸ hf))
  refine ⟨⟨?_, c.frame.ownFields, c.methods.map (·.frame.constructedFields),
    ClassFrame.lists_ownFields hp isClass, ?_, ?_⟩, ?_, fun f hf => ?_⟩
  · rw [ClassModel.fields, appendNew_nil]
    exact nodup_eraseDups _
  · refine List.forall₂_map_right_iff.2 (List.forall₂_same.2 fun f hf => ?_)
    obtain ⟨q, hq, found⟩ := methods f hf
    exact FunctionModel.lists_constructedFields hq found
  · rw [ClassModel.fields, appendNew_nil, List.flatMap_def]
  · obtain ⟨form, number⟩ := Placed.class?_eq_some.1 isClass
    exact number ▸ Placed.getElem?_deep hp form
  · obtain ⟨q, hq, found⟩ := methods f hf
    obtain ⟨form, number, -, -⟩ := Placed.function?_eq_some.1 found
    exact number ▸ Placed.getElem?_deep hq form

def assignedFields : Bytes :=
  "class A:\n  x, [y, *z] = 1, 2\n  if x:\n    w: int = 3\n    x = 4\n" ++
    "  def __init__(self, t):\n    self.a, (self.x, *self.b) = t\n    self.c += 1\n" ++
    "    def g(): self.d = 5\n    t.e = self.a\n" ++
    "  def f(self): self.g = 6\n  class B: q = 7\n"

theorem fields_assigned_targets : ∃ m, ofSource "a.py" assignedFields = .ok m ∧
    m.classes.map ClassModel.fields =
      ([["x", "y", "z", "w", "a", "b", "c"], ["q"]] : List (List Bytes)) ∧
    ∀ c ∈ m.classes, c.FieldsAssigned m.body ∧
      (∃ lines, m.body.deep[c.frame.number]? = some ⟨lines, .classDef c.definition⟩) ∧
      ∀ f ∈ c.methods, ∃ lines,
        m.body.deep[f.frame.number]? = some ⟨lines, .function f.definition⟩ := by
  obtain ⟨m, built, fields⟩ : ∃ m, ofSource "a.py" assignedFields = .ok m ∧
      m.classes.map ClassModel.fields =
        ([["x", "y", "z", "w", "a", "b", "c"], ["q"]] : List (List Bytes)) := by
    decide +kernel
  exact ⟨m, built, fields, fields_assigned built⟩

end ModuleModel

end CodeSmell
