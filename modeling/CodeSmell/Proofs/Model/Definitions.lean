import CodeSmell.Proofs.Model.Scope
import CodeSmell.Proofs.Parser.Definitions

/-!
The definitions of a model. Its functions and classes are those of the tree, in source order, each on
a line of its own, so that a definition is told by the line on which it begins. What holds a function
is read off the tree: the class whose body holds it directly, and the functions whose bodies contain
it, whatever lies between.
-/

namespace CodeSmell

/-- The body of the class holds the function, possibly within compound statements. -/
def ClassDef.Holds (c : ClassDef Stmt) (f : FunctionDef Stmt) : Prop :=
  ∃ s ∈ Block.walk c.body, s.form = .function f

/-- The function `f` stands somewhere in the body, that of another definition in it included. -/
def FunctionDef.Contains (g f : FunctionDef Stmt) : Prop := f ∈ Block.functionDefs g.body

def FunctionModel.enclosing? (f : FunctionModel) : Option FunctionFrame := f.outer.head?

/-- The function `g` contains `f`, and all others that do contain `g`. -/
structure ModuleModel.Innermost (m : ModuleModel) (g f : FunctionModel) : Prop where
  mem : g ∈ m.functions
  contains : g.definition.Contains f.definition
  least : ∀ o ∈ m.functions, o.definition.Contains f.definition →
    o = g ∨ o.definition.Contains g.definition

/-! ## Places -/

theorem Stmt.nested_of_body {s : Stmt} {body : Block} (h : s.body? = some body) :
    s.blocks = [] ∧ s.nested = [body] := by
  have blocks : s.blocks = [] := by
    obtain ⟨lines, form⟩ := s
    cases form with
    | function | classDef => rfl
    | _ => cases h
  exact ⟨blocks, by rw [nested, blocks, h]; rfl⟩

theorem Stmt.nested_of_blocks {s : Stmt} (h : s.body? = none) : s.nested = s.blocks := by
  rw [nested, h, Option.toList_none, List.append_nil]

theorem Place.within_of_blocks {place : Place} {n : Nat} {s : Stmt} (h : s.body? = none) :
    place.within n s = place := by
  obtain ⟨lines, form⟩ := s
  cases form with
  | function | classDef => cases h
  | _ => rfl

namespace Block

variable {place : Place} {n : Nat} {b : Block}

theorem walk_blocks {s d : Stmt} (rest : Block) (mem : d ∈ Block.walk s.blocks.flatten) :
    d ∈ Block.walk (s :: rest) := by
  rw [walk_cons]
  exact List.mem_cons_of_mem _ (List.mem_append_left _ mem)

theorem walk_rest {d : Stmt} (s : Stmt) {rest : Block} (mem : d ∈ Block.walk rest) :
    d ∈ Block.walk (s :: rest) := by
  rw [walk_cons]
  exact List.mem_cons_of_mem _ (List.mem_append_right _ mem)

theorem place_of_mem {q : Placed} (mem : q ∈ Block.placed place n b) :
    (q.statement ∈ Block.walk b ∧ q.place = place) ∨
      ∃ p ∈ Block.placed place n b, ∃ body, p.statement.body? = some body ∧
        q.statement ∈ Block.walk body ∧ q.place = p.place.within p.number p.statement := by
  fun_induction Block.placed place n b with
  | case1 place n => cases mem
  | case2 place n s rest below ih₁ ih₂ =>
    rcases List.mem_cons.1 mem with rfl | mem
    · exact .inl ⟨by rw [walk_cons]; exact .head _, rfl⟩
    rcases List.mem_append.1 mem with inner | later
    · rcases ih₁ inner with ⟨held, here⟩ | ⟨p, hp, found⟩
      · cases body : s.body? with
        | none =>
          rw [Stmt.nested_of_blocks body] at held
          rw [Place.within_of_blocks body] at here
          exact .inl ⟨walk_blocks rest held, here⟩
        | some inside =>
          rw [(Stmt.nested_of_body body).2, List.flatten_singleton] at held
          exact .inr ⟨_, .head _, inside, body, held, here⟩
      · exact .inr ⟨p, List.mem_cons_of_mem _ (List.mem_append_left _ hp), found⟩
    · rcases ih₂ later with ⟨held, here⟩ | ⟨p, hp, found⟩
      · exact .inl ⟨walk_rest s held, here⟩
      · exact .inr ⟨p, List.mem_cons_of_mem _ (List.mem_append_right _ hp), found⟩

theorem mem_of_walk {d : Stmt} (place : Place) (n : Nat) (mem : d ∈ Block.walk b) :
    ∃ q ∈ Block.placed place n b, q.statement = d ∧ q.place = place := by
  fun_induction Block.placed place n b with
  | case1 place n =>
    rw [walk_nil] at mem
    cases mem
  | case2 place n s rest below ih₁ ih₂ =>
    rw [walk_cons] at mem
    rcases List.mem_cons.1 mem with rfl | mem
    · exact ⟨_, .head _, rfl, rfl⟩
    rcases List.mem_append.1 mem with inner | later
    · cases body : s.body? with
      | none =>
        rw [Stmt.nested_of_blocks body] at ih₁
        obtain ⟨q, hq, same, here⟩ := ih₁ inner
        rw [Place.within_of_blocks body] at here
        rw [← Stmt.nested_of_blocks body] at hq
        exact ⟨q, List.mem_cons_of_mem _ (List.mem_append_left _ hq), same, here⟩
      | some inside =>
        rw [(Stmt.nested_of_body body).1, List.flatten_nil, walk_nil] at inner
        cases inner
    · obtain ⟨q, hq, found⟩ := ih₂ later
      exact ⟨q, List.mem_cons_of_mem _ (List.mem_append_right _ hq), found⟩

theorem placed_nested {p : Placed} (mem : p ∈ Block.placed place n b) :
    Block.placed (p.place.within p.number p.statement) (p.number + 1) p.statement.nested.flatten ⊆
      Block.placed place n b := by
  fun_induction Block.placed place n b with
  | case1 place n => cases mem
  | case2 place n s rest below ih₁ ih₂ =>
    intro q hq
    rcases List.mem_cons.1 mem with rfl | mem
    · exact List.mem_cons_of_mem _ (List.mem_append_left _ hq)
    rcases List.mem_append.1 mem with inner | later
    · exact List.mem_cons_of_mem _ (List.mem_append_left _ (ih₁ inner hq))
    · exact List.mem_cons_of_mem _ (List.mem_append_right _ (ih₂ later hq))

theorem mem_of_body {p : Placed} {body : Block} {d : Stmt} (mem : p ∈ Block.placed place n b)
    (hasBody : p.statement.body? = some body) (held : d ∈ Block.walk body) :
    ∃ q ∈ Block.placed place n b, q.statement = d ∧
      q.place = p.place.within p.number p.statement := by
  have inside := placed_nested mem
  rw [(Stmt.nested_of_body hasBody).2, List.flatten_singleton] at inside
  obtain ⟨q, hq, found⟩ := mem_of_walk (p.place.within p.number p.statement) (p.number + 1) held
  exact ⟨q, inside hq, found⟩

end Block

/-! ## First lines -/

theorem sublist_filterMap {α β : Type} {f g : α → Option β} (h : ∀ x y, f x = some y → g x = some y)
    (xs : List α) : (xs.filterMap f).Sublist (xs.filterMap g) := by
  induction xs with
  | nil => exact .slnil
  | cons x xs ih =>
    cases found : f x with
    | some y =>
      rw [List.filterMap_cons_some found, List.filterMap_cons_some (h x y found)]
      exact ih.cons_cons y
    | none =>
      rw [List.filterMap_cons_none found]
      exact ih.trans ((List.sublist_cons_self x xs).filterMap g)

theorem Block.sublist_starts {α : Type} {f : Stmt → Option α} {first : α → Int}
    (h : ∀ s x, f s = some x → s.form.start? = some (first x)) (b : Block) :
    ((b.deep.filterMap f).map first).Sublist b.starts := by
  rw [List.map_filterMap]
  refine sublist_filterMap (fun s line found => ?_) _
  obtain ⟨x, isSome, rfl⟩ := Option.map_eq_some_iff.1 found
  exact h s x isSome

theorem Block.functionDefs_starts (b : Block) :
    (b.functionDefs.map (·.lines.first)).Sublist b.starts :=
  sublist_starts (fun _ _ found => by rw [Stmt.function?_eq_some.1 found]; rfl) b

theorem Block.classDefs_starts (b : Block) :
    (b.classDefs.map (·.lines.first)).Sublist b.starts :=
  sublist_starts (fun _ _ found => by rw [Stmt.class?_eq_some.1 found]; rfl) b

/-! ## Classes -/

theorem Placed.owner_within {p : Placed} {body : Block} (h : p.statement.body? = some body) :
    (p.place.within p.number p.statement).owner = p.class? := by
  obtain ⟨number, ⟨lines, form⟩, place⟩ := p
  cases form with
  | function | classDef => rfl
  | _ => cases h

namespace ModuleModel

variable {path : Bytes} {lineCount : Nat} {b : Block}

/-! ## Order -/

section Sorted

variable (sorted : b.starts.Pairwise (· < ·))

include sorted

theorem functions_sorted :
    ((ofBlock path lineCount b).functions.map (·.lines.first)).Pairwise (· < ·) := by
  have same : (ofBlock path lineCount b).functions.map (·.lines.first) =
      b.functionDefs.map (·.lines.first) := by
    rw [← @functions_definition path lineCount b, List.map_map]
    rfl
  rw [same]
  exact sorted.sublist b.functionDefs_starts

theorem classes_sorted :
    ((ofBlock path lineCount b).classes.map (·.definition.lines.first)).Pairwise (· < ·) := by
  have same : (ofBlock path lineCount b).classes.map (·.definition.lines.first) =
      b.classDefs.map (·.lines.first) := by
    rw [← @classes_definition path lineCount b, List.map_map]
    rfl
  rw [same]
  exact sorted.sublist b.classDefs_starts

theorem function_of_definition {f g : FunctionModel}
    (hf : f ∈ (ofBlock path lineCount b).functions) (hg : g ∈ (ofBlock path lineCount b).functions)
    (same : f.definition = g.definition) : f = g := by
  -- equal definitions begin on the same line
  have nodup : ((ofBlock path lineCount b).functions.map (·.lines.first)).Nodup :=
    (functions_sorted sorted).imp ne_of_lt
  refine List.inj_on_of_nodup_map nodup hf hg ?_
  rw [FunctionModel.lines, FunctionModel.lines, same]

theorem function?_of_definition {f : FunctionModel} {q : Placed}
    (hf : f ∈ (ofBlock path lineCount b).functions) (hq : q ∈ Block.placed {} 0 b)
    (isFunction : q.statement.form = .function f.definition) : q.function? = some f := by
  let g : FunctionModel :=
    { frame := { number := q.number, definition := f.definition, owner := q.place.owner }
      outer := q.place.scope }
  have found : q.function? = some g := Placed.function?_eq_some.2 ⟨isFunction, rfl, rfl, rfl⟩
  rw [function_of_definition sorted hf (mem_functions.2 ⟨q, hq, found⟩) rfl]
  exact found

theorem functions_nodup : (ofBlock path lineCount b).functions.Nodup :=
  List.Nodup.of_map _ ((functions_sorted sorted).imp ne_of_lt)

/-! ## Owners -/

theorem owner_iff {f : FunctionModel} (hf : f ∈ (ofBlock path lineCount b).functions)
    {frame : ClassFrame} : f.frame.owner = some frame ↔
      ∃ c ∈ (ofBlock path lineCount b).classes, c.frame = frame ∧
        c.definition.Holds f.definition := by
  obtain ⟨q, hq, found⟩ := mem_functions.1 hf
  obtain ⟨form, -, owner, -⟩ := Placed.function?_eq_some.1 found
  constructor
  · intro owned
    rw [owner] at owned
    rcases Block.place_of_mem hq with ⟨-, here⟩ | ⟨p, hp, body, hasBody, held, here⟩
    · rw [here] at owned
      cases owned
    rw [here, Placed.owner_within hasBody] at owned
    let c : ClassModel := { frame, methods :=
      (ofBlock path lineCount b).functions.filter (·.frame.isMethodOf frame) }
    refine ⟨c, mem_classes.2 ⟨⟨p, hp, owned⟩, rfl⟩, rfl, q.statement, ?_, form⟩
    obtain ⟨classForm, -⟩ := Placed.class?_eq_some.1 owned
    rw [Stmt.body?, classForm] at hasBody
    exact Option.some.inj hasBody ▸ held
  · rintro ⟨c, hc, rfl, s, held, isFunction⟩
    obtain ⟨⟨p, hp, isClass⟩, -⟩ := mem_classes.1 hc
    obtain ⟨classForm, -⟩ := Placed.class?_eq_some.1 isClass
    have hasBody : p.statement.body? = some c.definition.body := by
      rw [Stmt.body?, classForm]
      rfl
    -- another statement could have the same definition, were it not for its line
    obtain ⟨q', hq', rfl, here⟩ := Block.mem_of_body hp hasBody held
    obtain ⟨-, -, owner, -⟩ :=
      Placed.function?_eq_some.1 (function?_of_definition sorted hf hq' isFunction)
    rw [owner, here, Placed.owner_within hasBody, isClass]

theorem mem_methods {c : ClassModel} (hc : c ∈ (ofBlock path lineCount b).classes)
    {f : FunctionModel} : f ∈ c.methods ↔
      f ∈ (ofBlock path lineCount b).functions ∧ f.frame.owner = some c.frame := by
  obtain ⟨⟨p, hp, isClass⟩, all⟩ := mem_classes.1 hc
  rw [all, List.mem_filter]
  refine and_congr_right fun hf => ?_
  unfold FunctionFrame.isMethodOf
  rw [Option.any_eq_true]
  constructor
  · rintro ⟨frame, owner, same⟩
    obtain ⟨c', hc', rfl, -⟩ := (owner_iff sorted hf).1 owner
    obtain ⟨⟨p', hp', isClass'⟩, -⟩ := mem_classes.1 hc'
    have number := (Placed.class?_eq_some.1 isClass).2
    have number' := (Placed.class?_eq_some.1 isClass').2
    obtain rfl := Block.eq_of_number hp hp' (by have := eq_of_beq same; omega)
    rw [owner, ← isClass, isClass']
  · exact fun owner => ⟨_, owner, beq_self_eq_true _⟩

/-! ## Functions around functions -/

theorem contains_iff {f g : FunctionModel} (hf : f ∈ (ofBlock path lineCount b).functions)
    (hg : g ∈ (ofBlock path lineCount b).functions) :
    g.definition.Contains f.definition ↔ FunctionScope.has f.outer g.frame.number = true := by
  obtain ⟨q, hq, found⟩ := mem_functions.1 hf
  obtain ⟨form, -, -, outer⟩ := Placed.function?_eq_some.1 found
  obtain ⟨place, n, within⟩ := placed_of_function hg
  rw [FunctionDef.Contains, Block.functionDefs, ← Block.placed_statements place n, ← within, outer]
  constructor
  · intro mem
    obtain ⟨s, hs, isFunction⟩ := List.mem_filterMap.1 mem
    obtain ⟨q', hq', rfl⟩ := List.mem_map.1 hs
    obtain ⟨hq', has⟩ := List.mem_filter.1 hq'
    have found' := function?_of_definition sorted hf hq' (Stmt.function?_eq_some.1 isFunction)
    obtain ⟨-, number, -, -⟩ := Placed.function?_eq_some.1 found
    obtain ⟨-, number', -, -⟩ := Placed.function?_eq_some.1 found'
    obtain rfl := Block.eq_of_number hq hq' (by omega)
    exact has
  · intro has
    exact List.mem_filterMap.2 ⟨q.statement, List.mem_map_of_mem (List.mem_filter.2 ⟨hq, has⟩),
      Stmt.function?_eq_some.2 form⟩

theorem number_lt_of_contains {f g : FunctionModel} (hf : f ∈ (ofBlock path lineCount b).functions)
    (hg : g ∈ (ofBlock path lineCount b).functions) (contains : g.definition.Contains f.definition) :
    g.frame.number < f.frame.number := by
  obtain ⟨frame, around, same⟩ :=
    FunctionScope.has_iff.1 ((contains_iff sorted hf hg).1 contains)
  rw [← same]
  exact number_lt_of_outer hf around

theorem innermost_of_outer {f g : FunctionModel} (hf : f ∈ (ofBlock path lineCount b).functions)
    (hg : g ∈ (ofBlock path lineCount b).functions) (outer : f.outer = g.scope) :
    (ofBlock path lineCount b).Innermost g f where
  mem := hg
  contains := by
    rw [contains_iff sorted hf hg, outer, FunctionModel.scope, FunctionScope.has_cons,
      beq_self_eq_true, Bool.true_or]
  least o ho contains := by
    rw [contains_iff sorted hf ho, outer, FunctionModel.scope, FunctionScope.has_cons,
      Bool.or_eq_true] at contains
    rcases contains with same | around
    · exact .inl (functions_inj ho hg (eq_of_beq same).symm)
    · exact .inr ((contains_iff sorted hg ho).2 around)

theorem outer_cases {f : FunctionModel} (hf : f ∈ (ofBlock path lineCount b).functions) :
    f.outer = [] ∨ ∃ g, (ofBlock path lineCount b).Innermost g f ∧ f.outer = g.scope := by
  obtain ⟨q, hq, found⟩ := mem_functions.1 hf
  obtain ⟨-, -, -, outer⟩ := Placed.function?_eq_some.1 found
  by_cases none : f.outer = []
  · exact .inl none
  · obtain ⟨g, hg, same⟩ := @function_of_scope path lineCount b q hq (outer ▸ none)
    have outer := outer.trans same.symm
    exact .inr ⟨g, innermost_of_outer sorted hf hg outer, outer⟩

theorem innermost_unique {f g g' : FunctionModel} (h : (ofBlock path lineCount b).Innermost g f)
    (h' : (ofBlock path lineCount b).Innermost g' f) : g = g' := by
  rcases h.least g' h'.mem h'.contains with same | around
  · exact same.symm
  rcases h'.least g h.mem h.contains with same | around'
  · exact same
  -- each of the two would contain the other
  · have := number_lt_of_contains sorted h.mem h'.mem around
    have := number_lt_of_contains sorted h'.mem h.mem around'
    omega

theorem enclosing_iff {f : FunctionModel} (hf : f ∈ (ofBlock path lineCount b).functions)
    {frame : FunctionFrame} : f.enclosing? = some frame ↔
      ∃ g, (ofBlock path lineCount b).Innermost g f ∧ g.frame = frame := by
  rcases outer_cases sorted hf with none | ⟨g, innermost, outer⟩
  · rw [FunctionModel.enclosing?, none]
    refine ⟨nofun, ?_⟩
    rintro ⟨g, innermost, -⟩
    have around := (contains_iff sorted hf innermost.mem).1 innermost.contains
    rw [none] at around
    cases around
  · rw [FunctionModel.enclosing?, outer]
    constructor
    · exact fun same => ⟨g, innermost, Option.some.inj same⟩
    · rintro ⟨g', innermost', rfl⟩
      rw [innermost_unique sorted innermost' innermost]
      rfl

theorem enclosing_eq_none {f : FunctionModel} (hf : f ∈ (ofBlock path lineCount b).functions) :
    f.enclosing? = none ↔
      ∀ g ∈ (ofBlock path lineCount b).functions, ¬g.definition.Contains f.definition := by
  rcases outer_cases sorted hf with none | ⟨g, innermost, outer⟩
  · rw [FunctionModel.enclosing?, none]
    refine iff_of_true rfl fun g hg contains => ?_
    have around := (contains_iff sorted hf hg).1 contains
    rw [none] at around
    cases around
  · rw [FunctionModel.enclosing?, outer]
    exact iff_of_false nofun fun nowhere => nowhere g innermost.mem innermost.contains

end Sorted

/-- Every definition of the tree is indexed once, in the order of lines, with what holds it. -/
structure Indexed (m : ModuleModel) : Prop where
  functions : m.functions.map FunctionModel.definition = m.body.functionDefs
  classes : m.classes.map ClassModel.definition = m.body.classDefs
  functionLines : (m.functions.map (·.lines.first)).Pairwise (· < ·)
  classLines : (m.classes.map (·.definition.lines.first)).Pairwise (· < ·)
  owner : ∀ f ∈ m.functions, ∀ frame, f.frame.owner = some frame ↔
    ∃ c ∈ m.classes, c.frame = frame ∧ c.definition.Holds f.definition
  methods : ∀ c ∈ m.classes, c.methods.Nodup ∧
    ∀ f, f ∈ c.methods ↔ f ∈ m.functions ∧ f.frame.owner = some c.frame
  enclosing : ∀ f ∈ m.functions, ∀ frame, f.enclosing? = some frame ↔
    ∃ g, m.Innermost g f ∧ g.frame = frame
  outermost : ∀ f ∈ m.functions, f.enclosing? = none ↔
    ∀ g ∈ m.functions, ¬g.definition.Contains f.definition

theorem definitions_indexed {path source : Bytes} {m : ModuleModel}
    (h : ofSource path source = .ok m) : parseModule source = .ok m.body ∧ m.Indexed := by
  obtain ⟨b, parsed, rfl⟩ := ofSource_ok h
  have sorted := parseModule_starts parsed
  refine ⟨parsed, ?_⟩
  constructor
  case functions => exact functions_definition
  case classes => exact classes_definition
  case functionLines => exact functions_sorted sorted
  case classLines => exact classes_sorted sorted
  case owner => exact fun f hf frame => owner_iff sorted hf
  case methods =>
    intro c hc
    refine ⟨?_, fun f => mem_methods sorted hc⟩
    rw [(mem_classes.1 hc).2]
    exact (functions_nodup sorted).filter _
  case enclosing => exact fun f hf frame => enclosing_iff sorted hf
  case outermost => exact fun f hf => enclosing_eq_none sorted hf

def nestedDefinitions : Bytes :=
  "class A:\n  if x:\n    def f(self):\n      class B:\n        def g(self): pass\n  else: y\n"

theorem definitions_indexed_nested : ∃ m, ofSource "a.py" nestedDefinitions = .ok m ∧
    m.functions.map (·.lines.first) = [3, 5] ∧
    parseModule nestedDefinitions = .ok m.body ∧ m.Indexed := by
  obtain ⟨m, built, lines⟩ : ∃ m, ofSource "a.py" nestedDefinitions = .ok m ∧
      m.functions.map (·.lines.first) = [3, 5] := by
    decide +kernel
  exact ⟨m, built, lines, definitions_indexed built⟩

end ModuleModel

end CodeSmell
