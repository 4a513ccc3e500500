import CodeSmell.Proofs.Model.Chains
import CodeSmell.Proofs.Model.Definitions

/-!
What the base of an access is taken for. `Expr.HasOrigin` reads it off the chain, given the names
that stand for the receiver and those of modules; `ModuleModel.Sees` says which name is the receiver
in a function, `Block.InClassBody` where there is none. `ModuleModel.origins_follow` has the two
together, for every access of a module.
-/

namespace CodeSmell

/-! ## Chains of links -/

namespace Expr

/-- The expression is a chain from `root` over the links, nearest to the root first. -/
inductive Chain : Expr → Expr → List Bytes → Prop
  | root {e : Expr} (plain : ∀ i, e.isValue i = false) : Chain e e []
  | link {p : Position} {value root : Expr} {links : List Bytes} {name : Bytes}
      (chain : Chain value root links) : Chain ⟨p, .attr value name⟩ root (links ++ [name])
  | subscript {p : Position} {value index root : Expr} {links : List Bytes}
      (chain : Chain value root links) : Chain ⟨p, .subscript value index⟩ root links

/-- The second expression is the first with some subscripts of its chain taken away. -/
inductive Unwraps : Expr → Expr → Prop
  | refl (e : Expr) : Unwraps e e
  | link {p : Position} {value e : Expr} {name : Bytes} (below : Unwraps value e) :
      Unwraps ⟨p, .attr value name⟩ ⟨p, .attr e name⟩
  | keep {p : Position} {value index e : Expr} (below : Unwraps value e) :
      Unwraps ⟨p, .subscript value index⟩ ⟨p, .subscript e index⟩
  | drop {p : Position} {value index e : Expr} (below : Unwraps value e) :
      Unwraps ⟨p, .subscript value index⟩ e

theorem chainRoot_link {p : Position} {value : Expr} {name : Bytes} :
    chainRoot ⟨p, .attr value name⟩ = (value.chainRoot.1, value.chainRoot.2.or (some name)) := by
  rw [chainRoot]

theorem chainRoot_subscript {p : Position} {value index : Expr} :
    chainRoot ⟨p, .subscript value index⟩ = value.chainRoot := by
  rw [chainRoot]

theorem chainRoot_of_plain {e : Expr} (plain : ∀ i, e.isValue i = false) :
    e.chainRoot = (e, none) := by
  unfold chainRoot
  split
  · simpa [isValue, form] using plain 0
  · simpa [isValue, form] using plain 0
  · rfl

theorem Chain.chainRoot {e root : Expr} {links : List Bytes} (chain : e.Chain root links) :
    e.chainRoot = (root, links.head?) := by
  induction chain with
  | root plain => exact chainRoot_of_plain plain
  | link _ ih => rw [chainRoot_link, ih, List.head?_append, List.head?_cons]
  | subscript _ ih => rw [chainRoot_subscript, ih]

theorem exists_chain (e : Expr) : ∃ root links, e.Chain root links := by
  induction e using preorder.induct with
  | case1 e ih =>
    obtain ⟨p, f⟩ := e
    cases f with
    | attr value name =>
      obtain ⟨root, links, chain⟩ := ih value (.head _)
      exact ⟨root, _, chain.link⟩
    | subscript value index =>
      obtain ⟨root, links, chain⟩ := ih value (.head _)
      exact ⟨root, links, chain.subscript⟩
    | _ => exact ⟨_, [], .root fun _ => rfl⟩

theorem Unwraps.chainRoot {e e' : Expr} (unwraps : e.Unwraps e') :
    e'.chainRoot = e.chainRoot := by
  induction unwraps with
  | refl e => rfl
  | link _ ih => rw [chainRoot_link, chainRoot_link, ih]
  | keep _ ih => rw [chainRoot_subscript, chainRoot_subscript, ih]
  | drop _ ih => rw [chainRoot_subscript, ih]

/-- What the base of an access is, if `receives` are the names of the receiver. -/
inductive HasOrigin (receives imports : Bytes → Prop) (base : Expr) : Origin → Prop
  | self {root : Expr} {name : Bytes} (chain : base.Chain root []) (named : root.form = .name name)
      (receiver : receives name) : HasOrigin receives imports base (.self name)
  | field {root : Expr} {name nearest : Bytes} {links : List Bytes}
      (chain : base.Chain root (nearest :: links)) (named : root.form = .name name)
      (receiver : receives name) : HasOrigin receives imports base (.foreign nearest)
  | imported {root : Expr} {name : Bytes} {links : List Bytes} (chain : base.Chain root links)
      (named : root.form = .name name) (other : ¬receives name) (known : imports name) :
      HasOrigin receives imports base (.module name)
  | object {root : Expr} {name : Bytes} {links : List Bytes} (chain : base.Chain root links)
      (named : root.form = .name name) (other : ¬receives name) (unknown : ¬imports name) :
      HasOrigin receives imports base (.foreign name)
  | unnamed {root : Expr} {links : List Bytes} (chain : base.Chain root links)
      (unnamed : ∀ name, root.form ≠ .name name) : HasOrigin receives imports base .unresolved

section Origins

variable {receives imports : Bytes → Prop} {receiver : Option Bytes} {imported : List Bytes}
  {base : Expr} {origin : Origin}

theorem hasOrigin_ofBase (seen : ∀ name, receives name ↔ receiver = some name)
    (known : ∀ name, imports name ↔ name ∈ imported) :
    base.HasOrigin receives imports (.ofBase receiver imported base) := by
  obtain ⟨root, links, chain⟩ := base.exists_chain
  simp only [Origin.ofBase, chain.chainRoot]
  split
  · next name named =>
    split_ifs with own isModule
    · cases links with
      | nil => exact .self chain named ((seen name).2 own)
      | cons nearest links => exact .field chain named ((seen name).2 own)
    · have known := (known name).2 (List.contains_iff_mem.1 isModule)
      exact .imported chain named (fun receives => own ((seen name).1 receives)) known
    · have unknown := fun mem => isModule (List.contains_iff_mem.2 ((known name).1 mem))
      exact .object chain named (fun receives => own ((seen name).1 receives)) unknown
  · next unnamed => exact .unnamed chain unnamed

theorem ofBase_of_hasOrigin (seen : ∀ name, receives name ↔ receiver = some name)
    (known : ∀ name, imports name ↔ name ∈ imported)
    (h : base.HasOrigin receives imports origin) : .ofBase receiver imported base = origin := by
  cases h with
  | self chain named own | field chain named own =>
    simp [Origin.ofBase, chain.chainRoot, named, (seen _).1 own]
  | imported chain named other isModule =>
    simp [Origin.ofBase, chain.chainRoot, named, mt (seen _).2 other, (known _).1 isModule]
  | object chain named other unknown =>
    simp [Origin.ofBase, chain.chainRoot, named, mt (seen _).2 other, mt (known _).2 unknown]
  | unnamed chain unnamed =>
    simp only [Origin.ofBase, chain.chainRoot]

theorem hasOrigin_iff (seen : ∀ name, receives name ↔ receiver = some name)
    (known : ∀ name, imports name ↔ name ∈ imported) :
    base.HasOrigin receives imports origin ↔ .ofBase receiver imported base = origin := by
  refine ⟨ofBase_of_hasOrigin seen known, ?_⟩
  rintro rfl
  exact hasOrigin_ofBase seen known

end Origins

theorem Unwraps.ofBase {base base' : Expr} (unwraps : base.Unwraps base') (receiver : Option Bytes)
    (imported : List Bytes) :
    Origin.ofBase receiver imported base' = .ofBase receiver imported base := by
  unfold Origin.ofBase
  rw [unwraps.chainRoot]

theorem mem_preorder_of_at? {e d : Expr} {path : List Nat} (found : e.at? path = some d) :
    d ∈ e.preorder := by
  induction path generalizing e with
  | nil =>
    obtain rfl : e = d := Option.some.inj found
    exact mem_preorder_self e
  | cons i path ih =>
    obtain ⟨c, child, found⟩ := Option.bind_eq_some_iff.1 found
    exact mem_preorder_of_child (List.mem_of_getElem? child) (ih found)

end Expr

/-! ## Imported names -/

def Stmt.Imports (s : Stmt) (name : Bytes) : Prop :=
  ∃ names, (s.form = .importNames names ∨ ∃ source, s.form = .importFrom source names) ∧
    ∃ a ∈ names, a.name ≠ "*" ∧ a.boundName = name

theorem Placed.mem_imports {p : Placed} {name : Bytes} :
    name ∈ p.imports ↔ p.statement.Imports name := by
  unfold imports Stmt.Imports
  split
  · next names found => simp [found, and_assoc]
  · next source names found => simp [found, and_assoc]
  · next noNames noSource =>
    refine iff_of_false List.not_mem_nil ?_
    rintro ⟨names, found | ⟨source, found⟩, -⟩
    · exact noNames names found
    · exact noSource source names found

def ModuleModel.Imports (m : ModuleModel) (name : Bytes) : Prop :=
  ∃ s ∈ m.body.deep, s.Imports name

theorem ModuleModel.mem_imports {path : Bytes} {lineCount : Nat} {b : Block} {name : Bytes} :
    name ∈ (ofBlock path lineCount b).imports ↔ (ofBlock path lineCount b).Imports name := by
  change name ∈ sortedSet ((Block.placed {} 0 b).flatMap Placed.imports) ↔ ∃ s ∈ b.deep, _
  rw [mem_sortedSet, List.mem_flatMap, ← Block.placed_statements {} 0 b]
  simp only [List.mem_map, exists_exists_and_eq_and, Placed.mem_imports]

/-! ## Class bodies -/

namespace Block

/-- The statement `n` stands in the body that the statement `k` defines, at any depth. Both are
counted in the order of the source. -/
def IsWithin (b : Block) (k n : Nat) : Prop :=
  ∃ s body, b.deep[k]? = some s ∧ s.body? = some body ∧ k < n ∧ n ≤ k + body.deep.length

def InClassBody (b : Block) (n : Nat) : Prop :=
  ∃ k s definition, b.deep[k]? = some s ∧ s.form = .classDef definition ∧ b.IsWithin k n ∧
    ∀ j, b.IsWithin j n → j ≤ k

end Block

def Placed.Around (p : Placed) (n : Nat) : Prop :=
  ∃ body, p.statement.body? = some body ∧ p.number < n ∧ n ≤ p.number + body.deep.length

theorem Placed.Around.number_lt {p : Placed} {n : Nat} (around : p.Around n) : p.number < n := by
  obtain ⟨body, -, after, -⟩ := around
  exact after

/-- Among the statements of a block that stands at `place`, the statement is in no definition and
stands where the block does, or it stands in the body of the innermost definition around it. -/
def Placed.StandsIn (q : Placed) (place : Place) (placed : List Placed) : Prop :=
  q.place = place ∧ (∀ p ∈ placed, ¬p.Around q.number) ∨
    ∃ p ∈ placed, p.Around q.number ∧ q.place = p.place.within p.number p.statement ∧
      ∀ o ∈ placed, o.Around q.number → o.number ≤ p.number

theorem Placed.StandsIn.extend {q : Placed} {place : Place} {few all : List Placed}
    (h : q.StandsIn place few) (sub : few ⊆ all)
    (others : ∀ o ∈ all, o.Around q.number → o ∈ few) : q.StandsIn place all := by
  rcases h with ⟨here, nowhere⟩ | ⟨p, hp, around, here, least⟩
  · exact .inl ⟨here, fun o ho around => nowhere o (others o ho around) around⟩
  · exact .inr ⟨p, sub hp, around, here, fun o ho around => least o (others o ho around) around⟩

namespace Block

variable {place : Place} {n : Nat} {b : Block}

theorem placed_length (place : Place) (n : Nat) (b : Block) :
    (Block.placed place n b).length = b.deep.length := by
  rw [← placed_statements place n b, List.length_map]

theorem around_lt {p : Placed} {k : Nat} (mem : p ∈ Block.placed place n b) (around : p.Around k) :
    k < n + (Block.placed place n b).length := by
  obtain ⟨body, hasBody, after, inside⟩ := around
  have nested := (Stmt.nested_of_body hasBody).2
  have numbers := placed_nested mem
  rw [nested, List.flatten_singleton] at numbers
  -- the statement `k` is one of the body
  have length := placed_length (p.place.within p.number p.statement) (p.number + 1) body
  have found : k ∈ (Block.placed (p.place.within p.number p.statement) (p.number + 1) body).map
      (·.number) := by
    rw [placed_numbers, List.mem_range'_1, length]
    omega
  obtain ⟨q, hq, rfl⟩ := List.mem_map.1 found
  exact (number_lt (numbers hq)).2

theorem standsIn {q : Placed} (mem : q ∈ Block.placed place n b) :
    q.StandsIn place (Block.placed place n b) := by
  fun_induction Block.placed place n b with
  | case1 place n => cases mem
  | case2 place n s rest below ih₁ ih₂ =>
    have size {body : Block} (hasBody : s.body? = some body) : body.deep.length = below.length := by
      rw [placed_length, (Stmt.nested_of_body hasBody).2, List.flatten_singleton]
    rcases List.mem_cons.1 mem with rfl | mem
    · refine .inl ⟨rfl, fun p hp around => ?_⟩
      have := number_lt (b := s :: rest) (by rw [placed_cons]; exact hp)
      have := around.number_lt
      dsimp only at this
      omega
    rcases List.mem_append.1 mem with inner | later
    · have range : n + 1 ≤ q.number ∧ q.number < n + 1 + below.length := number_lt inner
      have notLater : ∀ o ∈ Block.placed place (n + 1 + below.length) rest, ¬o.Around q.number :=
        fun o ho around => by
          have := number_lt ho
          have := around.number_lt
          omega
      cases body : s.body? with
      | none =>
        have stands : q.StandsIn place below :=
          (congrArg (q.StandsIn · below) (Place.within_of_blocks body)).mp (ih₁ inner)
        refine stands.extend (List.subset_cons_of_subset _ (List.subset_append_left _ _)) ?_
        rw [List.forall_mem_cons, List.forall_mem_append]
        refine ⟨?_, fun o ho _ => ho, fun o ho around => absurd around (notLater o ho)⟩
        rintro ⟨_, found, -⟩
        cases body.symm.trans found
      | some inside =>
        have size := size body
        -- the definition is around the statement, and the innermost if no other one is
        rcases ih₁ inner with ⟨here, nowhere⟩ | ⟨p, hp, around, here, least⟩
        · refine .inr ⟨_, .head _, ⟨inside, body, range.1, ?_⟩, here, ?_⟩
          · dsimp only
            omega
          · rw [List.forall_mem_cons, List.forall_mem_append]
            exact ⟨fun _ => le_rfl, fun o ho around => absurd around (nowhere o ho),
              fun o ho around => absurd around (notLater o ho)⟩
        · refine .inr ⟨p, List.mem_cons_of_mem _ (List.mem_append_left _ hp), around, here, ?_⟩
          have := (number_lt hp).1
          rw [List.forall_mem_cons, List.forall_mem_append]
          exact ⟨fun _ => by dsimp only; omega, least,
            fun o ho around => absurd around (notLater o ho)⟩
    · have range := (number_lt later).1
      refine (ih₂ later).extend (List.subset_cons_of_subset _ (List.subset_append_right _ _)) ?_
      rw [List.forall_mem_cons, List.forall_mem_append]
      refine ⟨?_, fun o ho around => ?_, fun o ho _ => ho⟩
      · rintro ⟨body, hasBody, -, inside⟩
        have := size hasBody
        dsimp only at inside
        omega
      · have : q.number < n + 1 + below.length := around_lt ho around
        omega

theorem getElem?_deep {k : Nat} {s : Stmt} :
    b.deep[k]? = some s ↔ ∃ p ∈ Block.placed {} 0 b, p.statement = s ∧ p.number = k := by
  rw [← List.mem_zipIdx_iff_getElem? (x := (s, k)), ← placed_zipIdx {} 0 b, List.mem_map]
  simp only [Prod.mk.injEq]

theorem isWithin_iff {k : Nat} :
    b.IsWithin k n ↔ ∃ p ∈ Block.placed {} 0 b, p.number = k ∧ p.Around n := by
  constructor
  · rintro ⟨s, body, found, within⟩
    obtain ⟨p, hp, rfl, rfl⟩ := getElem?_deep.1 found
    exact ⟨p, hp, rfl, body, within⟩
  · rintro ⟨p, hp, rfl, body, within⟩
    exact ⟨p.statement, body, getElem?_deep.2 ⟨p, hp, rfl, rfl⟩, within⟩

theorem owner_iff_inClassBody {q : Placed} (mem : q ∈ Block.placed {} 0 b) :
    q.place.owner.isSome ↔ b.InClassBody q.number := by
  rcases standsIn mem with ⟨here, nowhere⟩ | ⟨p, hp, around, here, least⟩
  · rw [here]
    refine iff_of_false nofun ?_
    rintro ⟨k, -, -, -, -, within, -⟩
    obtain ⟨p, hp, -, around⟩ := isWithin_iff.1 within
    exact nowhere p hp around
  · have ⟨body, hasBody, _⟩ := around
    rw [here, Placed.owner_within hasBody, Option.isSome_iff_exists]
    constructor
    · rintro ⟨frame, isClass⟩
      have form := (Placed.class?_eq_some.1 isClass).1
      refine ⟨p.number, p.statement, frame.definition, getElem?_deep.2 ⟨p, hp, rfl, rfl⟩, form,
        isWithin_iff.2 ⟨p, hp, rfl, around⟩, fun j within => ?_⟩
      obtain ⟨o, ho, rfl, around⟩ := isWithin_iff.1 within
      exact least o ho around
    · rintro ⟨k, s, definition, found, form, within, last⟩
      obtain ⟨o, ho, rfl, rfl⟩ := getElem?_deep.1 found
      -- both are the last definition around the statement
      have after := last p.number (isWithin_iff.2 ⟨p, hp, rfl, around⟩)
      obtain ⟨o', ho', same, around'⟩ := isWithin_iff.1 within
      have before := least o' ho' around'
      obtain rfl := eq_of_number hp ho (by omega)
      exact ⟨{ number := p.number, definition }, Placed.class?_eq_some.2 ⟨form, rfl⟩⟩

end Block

/-! ## Receivers -/

namespace ModuleModel

/-- The name stands for the receiver in the function: the function has it itself, or the function
around it has, and no parameter hides it. -/
inductive Sees (m : ModuleModel) : FunctionModel → Bytes → Prop
  | own {f : FunctionModel} {p : Parameter Expr} (receiver : f.frame.receiver? = some p) :
      Sees m f p.name
  | outer {f g : FunctionModel} {name : Bytes} (noReceiver : f.frame.receiver? = none)
      (innermost : m.Innermost g f) (seen : Sees m g name)
      (free : ∀ p ∈ f.definition.parameters, p.name ≠ name) : Sees m f name

def Receives (m : ModuleModel) (a : Access) (name : Bytes) : Prop :=
  ∃ f ∈ m.functions, a.scope = f.scope ∧ m.Sees f name

variable {path : Bytes} {lineCount : Nat} {b : Block}

section Sorted

variable (sorted : b.starts.Pairwise (· < ·))

include sorted

theorem outer_of_innermost {f g : FunctionModel} (hf : f ∈ (ofBlock path lineCount b).functions)
    (innermost : (ofBlock path lineCount b).Innermost g f) : f.outer = g.scope := by
  rcases outer_cases sorted hf with none | ⟨g', innermost', outer⟩
  · have around := (contains_iff sorted hf innermost.mem).1 innermost.contains
    rw [none] at around
    cases around
  · rw [innermost_unique sorted innermost innermost', outer]

theorem sees_iff {f : FunctionModel} (hf : f ∈ (ofBlock path lineCount b).functions)
    {name : Bytes} :
    (ofBlock path lineCount b).Sees f name ↔ f.scope.visibleReceiver? = some name := by
  constructor
  · intro sees
    induction sees with
    | own receiver => rw [FunctionModel.scope, FunctionScope.visibleReceiver?, receiver]
    | outer noReceiver innermost _ free ih =>
      have seen := ih innermost.mem
      rw [← outer_of_innermost sorted hf innermost] at seen
      rw [FunctionModel.scope, FunctionScope.visibleReceiver?, noReceiver, seen]
      simpa [Option.filter, FunctionModel.definition] using free
  · intro visible
    -- the scope of the function around is the rest of the scope
    induction scope : f.scope generalizing f with
    | nil => cases scope
    | cons frame rest ih =>
      obtain ⟨rfl, rfl⟩ := List.cons.inj scope
      rw [FunctionModel.scope, FunctionScope.visibleReceiver?] at visible
      cases receiver : f.frame.receiver? with
      | some p =>
        rw [receiver] at visible
        exact Option.some.inj visible ▸ .own receiver
      | none =>
        simp only [receiver, Option.filter_eq_some_iff] at visible
        obtain ⟨seen, free⟩ := visible
        rcases outer_cases sorted hf with none | ⟨g, innermost, outer⟩
        · rw [none] at seen
          cases seen
        · have seen := ih innermost.mem (outer ▸ seen) outer.symm
          exact .outer receiver innermost seen (by simpa [FunctionModel.definition] using free)

theorem receives_iff {p : Placed} (hp : p ∈ Block.placed {} 0 b) {a : Access}
    (scope : a.scope = p.place.scope) {name : Bytes} :
    (ofBlock path lineCount b).Receives a name ↔ a.scope.visibleReceiver? = some name := by
  constructor
  · rintro ⟨f, hf, same, sees⟩
    rw [same]
    exact (sees_iff sorted hf).1 sees
  · intro visible
    have some : p.place.scope ≠ [] := by
      intro none
      rw [scope, none] at visible
      cases visible
    obtain ⟨f, hf, same⟩ := function_of_scope hp some
    have same := scope.trans same.symm
    exact ⟨f, hf, same, (sees_iff sorted hf).2 (same ▸ visible)⟩

theorem receiver_iff {p : Placed} (hp : p ∈ Block.placed {} 0 b) {a : Access}
    (scope : a.scope = p.place.scope) {name : Bytes} :
    (ofBlock path lineCount b).Receives a name ∧ ¬b.InClassBody p.number ↔
      p.receiver? = some name := by
  rw [receives_iff sorted hp scope, ← Block.owner_iff_inClassBody hp, Placed.receiver?, scope]
  cases p.place.owner.isSome <;> simp

end Sorted

theorem mem_nodes_of_expr? {o : Occurrence} {e : Expr} (found : b.expr? o = some e) :
    e ∈ (ofBlock path lineCount b).nodes := by
  obtain ⟨s, isStmt, found⟩ := Option.bind_eq_some_iff.1 found
  obtain ⟨whole, isExpr, found⟩ := Option.bind_eq_some_iff.1 found
  exact mem_nodes (List.mem_of_getElem? isStmt) (List.mem_of_getElem? isExpr)
    (Expr.mem_preorder_of_at? found)

/-- The origin of every access is that of its base, and stays so when subscripts are taken away from
the base; `receives` says which names are the receiver for an access that stands at a place. -/
def OriginsFollow (m : ModuleModel) (receives : Access → Occurrence → Bytes → Prop) : Prop :=
  ∃ chains : List (Occurrence × Expr), (chains.map Prod.fst).Nodup ∧
    (∀ o, m.body.IsMaximal o ↔ o ∈ chains.map Prod.fst) ∧
    List.Forall₂ (fun a c => m.body.expr? c.1 = some ⟨a.position, .attr c.2 a.name⟩ ∧
      (a.scope ≠ [] → ∃ f ∈ m.functions, a.scope = f.scope) ∧
      ∀ base, c.2.Unwraps base → ∀ origin,
        base.HasOrigin (receives a c.1) m.Imports origin ↔ a.origin = origin) m.accesses chains

theorem origins_follow {path source : Bytes} {m : ModuleModel}
    (built : ofSource path source = .ok m) :
    m.OriginsFollow fun a o name => m.Receives a name ∧ ¬m.body.InClassBody o.statement := by
  obtain ⟨b, parsed, rfl⟩ := ofSource_ok built
  have sorted := parseModule_starts parsed
  refine ⟨b.chains.map fun c => (c.1, c.2.base), ?_, fun o => ?_, ?_⟩
  · rw [List.map_map]
    exact b.chains_nodup
  · rw [List.map_map]
    exact Block.isMaximal_iff
  · rw [List.forall₂_map_right_iff]
    obtain ⟨length, each⟩ := List.forall₂_iff_zip.1 (ofBlock_gives path source.lineCount b)
    refine List.forall₂_iff_zip.2 ⟨length, fun {a c} mem => ?_⟩
    obtain ⟨p, hp, number, ⟨base, same, -⟩, scope, origin⟩ := each mem
    have found := (Block.expr?_of_mem (List.of_mem_zip mem).2).1
    refine ⟨?_, fun some => ?_, fun base' unwraps origin' => ?_⟩
    · rw [same] at found ⊢
      exact found
    · obtain ⟨f, hf, same⟩ := function_of_scope hp (scope ▸ some)
      exact ⟨f, hf, scope.trans same.symm⟩
    · rw [Expr.hasOrigin_iff (fun name => number ▸ receiver_iff sorted hp scope)
        fun name => mem_imports.symm, unwraps.ofBase, ← origin]

def nestedReceivers : Bytes :=
  "import os\nclass A:\n  def m(self):\n    self.a[0].b = os.c[1].d\n    def f(x): self.e\n" ++
    "    def g(self): self[0].h\n    class B:\n      i = self.i\n      def j(this): this[2].k\n"

theorem origins_follow_nested : ∃ m, ofSource "a.py" nestedReceivers = .ok m ∧
    m.accesses.map (·.origin) = [.foreign "a", .module "os", .self "self", .foreign "self",
      .foreign "self", .self "this"] ∧
    m.OriginsFollow fun a o name => m.Receives a name ∧ ¬m.body.InClassBody o.statement := by
  obtain ⟨m, built, origins⟩ : ∃ m, ofSource "a.py" nestedReceivers = .ok m ∧
      m.accesses.map (·.origin) = [.foreign "a", .module "os", .self "self", .foreign "self",
        .foreign "self", .self "this"] := by
    decide +kernel
  exact ⟨m, built, origins, origins_follow built⟩

def classInMethod : Bytes := "class A:\n  def m(self):\n    class B:\n      x = self.y\n"

theorem class_hides_receiver : ∃ m, ofSource "a.py" classInMethod = .ok m ∧
    ¬m.OriginsFollow fun a _ name => m.Receives a name := by
  obtain ⟨m, built, accesses, attributes⟩ : ∃ m, ofSource "a.py" classInMethod = .ok m ∧
      m.accesses.map (fun a => (a.origin, a.scope.visibleReceiver?)) =
        [(Origin.foreign "self", some ("self" : Bytes))] ∧
      ∀ e ∈ m.nodes, e.isAttr = true →
        Origin.ofBase (some "self") m.imports e.base = .self "self" := by
    decide +kernel
  refine ⟨m, built, ?_⟩
  rintro ⟨chains, -, -, follow⟩
  obtain ⟨b, parsed, rfl⟩ := ofSource_ok built
  have gives := ofBlock_gives "a.py" classInMethod.lineCount b
  obtain ⟨a, only, same⟩ := List.map_eq_singleton_iff.1 accesses
  obtain ⟨origin, visible⟩ := Prod.mk.inj same
  rw [only] at gives follow
  obtain ⟨c, -, ⟨attr, -, follows⟩, -⟩ := List.forall₂_cons_left_iff.1 follow
  obtain ⟨-, -, ⟨p, hp, -, ⟨-, scope, -⟩⟩, -⟩ := List.forall₂_cons_left_iff.1 gives
  -- the base is `self`, and that is the receiver of the function
  have base := attributes _ (mem_nodes_of_expr? attr) rfl
  have isSelf : a.origin = .self "self" := by
    rw [← follows c.2 (.refl c.2), Expr.hasOrigin_iff
      (fun name => visible ▸ receives_iff (parseModule_starts parsed) hp scope)
      fun name => mem_imports.symm]
    exact base
  cases origin.symm.trans isSelf

end ModuleModel

end CodeSmell
