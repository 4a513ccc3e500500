import CodeSmell.Model.Module
import CodeSmell.Proofs.Parser.Module

/-!
Numbers and scopes of placed statements. The statements are those of the whole tree, numbered in
order, and what a function holds is told by its number: `Block.filter_placed` says that the
statements with a function in their scope are exactly those placed within its body.
-/

namespace CodeSmell

def FunctionScope.has (scope : FunctionScope) (number : Nat) : Bool :=
  scope.any fun (f : FunctionFrame) => f.number == number

namespace FunctionScope

theorem has_cons (f : FunctionFrame) (scope : FunctionScope) (number : Nat) :
    FunctionScope.has (f :: scope) number = (f.number == number || scope.has number) :=
  List.any_cons

theorem has_iff {scope : FunctionScope} {number : Nat} :
    scope.has number = true ↔ ∃ f ∈ scope, f.number = number := by
  simp [has, List.any_eq_true]

theorem not_has {scope : FunctionScope} {number : Nat} (h : ∀ f ∈ scope, f.number ≠ number) :
    scope.has number = false := by
  rw [← Bool.not_eq_true, has_iff]
  rintro ⟨f, mem, same⟩
  exact h f mem same

end FunctionScope

namespace Block

theorem placed_cons (place : Place) (n : Nat) (s : Stmt) (rest : Block) :
    Block.placed place n (s :: rest) = { number := n, statement := s, place } ::
      (Block.placed (place.within n s) (n + 1) s.nested.flatten ++ Block.placed place
        (n + 1 + (Block.placed (place.within n s) (n + 1) s.nested.flatten).length) rest) := by
  rw [placed]

variable {place : Place} {n : Nat} {b : Block}

theorem placed_statements (place : Place) (n : Nat) (b : Block) :
    (Block.placed place n b).map (·.statement) = b.deep := by
  fun_induction Block.placed place n b with
  | case1 place n => simp
  | case2 place n s rest below ih₁ ih₂ => simp [deep_cons, ih₁, ih₂, below]

theorem placed_numbers (place : Place) (n : Nat) (b : Block) :
    (Block.placed place n b).map (·.number) = List.range' n (Block.placed place n b).length := by
  fun_induction Block.placed place n b with
  | case1 place n => rfl
  | case2 place n s rest below ih₁ ih₂ =>
    rw [List.map_cons, List.map_append, ih₁, ih₂, List.length_cons, List.length_append,
      List.range'_succ, ← List.range'_append_1]

theorem placed_zipIdx (place : Place) (n : Nat) (b : Block) :
    (Block.placed place n b).map (fun p => (p.statement, p.number)) = b.deep.zipIdx n := by
  rw [← placed_statements place n b, List.zipIdx_eq_zip_range', List.length_map,
    ← placed_numbers, List.zip_map']

theorem number_lt {q : Placed} (mem : q ∈ Block.placed place n b) :
    n ≤ q.number ∧ q.number < n + (Block.placed place n b).length := by
  have number := List.mem_map_of_mem (f := (·.number)) mem
  rw [placed_numbers, List.mem_range'_1] at number
  exact number

theorem eq_of_number {p q : Placed} (hp : p ∈ Block.placed place n b)
    (hq : q ∈ Block.placed place n b) (same : p.number = q.number) : p = q := by
  have nodup : ((Block.placed place n b).map (·.number)).Nodup := by
    rw [placed_numbers]
    exact List.nodup_range'
  exact List.inj_on_of_nodup_map nodup hp hq same

theorem scope_within {f : FunctionFrame} {s : Stmt} (mem : f ∈ (place.within n s).scope) :
    f ∈ place.scope ∨ f.number = n := by
  unfold Place.within at mem
  split at mem
  · rcases List.mem_cons.1 mem with rfl | mem
    · exact .inr rfl
    · exact .inl mem
  · exact .inl mem
  · exact .inl mem

theorem subset_within {f : FunctionFrame} (s : Stmt) (mem : f ∈ place.scope) :
    f ∈ (place.within n s).scope := by
  unfold Place.within
  split
  · exact List.mem_cons_of_mem _ mem
  · exact mem
  · exact mem

theorem mem_scope {q : Placed} {f : FunctionFrame} (mem : q ∈ Block.placed place n b)
    (around : f ∈ q.place.scope) : f ∈ place.scope ∨ n ≤ f.number ∧ f.number < q.number := by
  fun_induction Block.placed place n b with
  | case1 place n => cases mem
  | case2 place n s rest below ih₁ ih₂ =>
    rcases List.mem_cons.1 mem with rfl | mem
    · exact .inl around
    rcases List.mem_append.1 mem with inner | later
    · have number := (number_lt inner).1
      rcases ih₁ inner with outer | ⟨after, before⟩
      · rcases scope_within outer with outer | same
        · exact .inl outer
        · exact .inr ⟨by omega, by omega⟩
      · exact .inr ⟨by omega, before⟩
    · rcases ih₂ later with outer | ⟨after, before⟩
      · exact .inl outer
      · exact .inr ⟨by omega, before⟩

theorem scope_subset {q : Placed} {f : FunctionFrame} (mem : q ∈ Block.placed place n b)
    (around : f ∈ place.scope) : f ∈ q.place.scope := by
  fun_induction Block.placed place n b with
  | case1 place n => cases mem
  | case2 place n s rest below ih₁ ih₂ =>
    rcases List.mem_cons.1 mem with rfl | mem
    · exact around
    rcases List.mem_append.1 mem with inner | later
    · exact ih₁ inner (subset_within s around)
    · exact ih₂ later around

theorem filter_outside {number : Nat} (before : ∀ f ∈ place.scope, f.number ≠ number)
    (outside : number < n ∨ n + (Block.placed place n b).length ≤ number) :
    (Block.placed place n b).filter (fun q => q.place.scope.has number) = [] := by
  refine List.filter_eq_nil_iff.2 fun q mem has => ?_
  obtain ⟨f, around, same⟩ := FunctionScope.has_iff.1 has
  rcases mem_scope mem around with outer | within
  · exact before f outer same
  · have := number_lt mem
    omega

theorem filter_placed {p : Placed} {definition : FunctionDef Stmt} (mem : p ∈ Block.placed place n b)
    (isFunction : p.statement.form = .function definition)
    (before : ∀ f ∈ place.scope, f.number < n) :
    (Block.placed place n b).filter (fun q => q.place.scope.has p.number) =
      Block.placed (p.place.within p.number p.statement) (p.number + 1)
        p.statement.nested.flatten := by
  fun_induction Block.placed place n b with
  | case1 place n => cases mem
  | case2 place n s rest below ih₁ ih₂ =>
    have number := number_lt (b := s :: rest) (by rw [placed_cons]; exact mem)
    have head : place.scope.has p.number = false := FunctionScope.not_has fun f around => by
      have := before f around
      omega
    have inside : ∀ f ∈ (place.within n s).scope, f.number < n + 1 := fun f around => by
      rcases scope_within around with outer | same
      · have := before f outer
        omega
      · omega
    have size : below.length =
      (Block.placed (place.within n s) (n + 1) s.nested.flatten).length := rfl
    rw [List.filter_cons_of_neg (by simp [head]), List.filter_append]
    rcases List.mem_cons.1 mem with rfl | mem
    · have all : below.filter (fun q => q.place.scope.has n) = below := by
        refine List.filter_eq_self.2 fun q inner => FunctionScope.has_iff.2 ?_
        refine ⟨{ number := n, definition, owner := place.owner }, scope_subset inner ?_, rfl⟩
        unfold Place.within
        rw [isFunction]
        exact .head _
      have none : (Block.placed place (n + 1 + below.length) rest).filter
          (fun q => q.place.scope.has n) = [] :=
        filter_outside (fun f around => (before f around).ne) (.inl (by omega))
      rw [all, none, List.append_nil]
    rcases List.mem_append.1 mem with inner | later
    · have range := number_lt inner
      have none : (Block.placed place (n + 1 + below.length) rest).filter
          (fun q => q.place.scope.has p.number) = [] :=
        filter_outside (fun f around => by have := before f around; omega) (.inl (by omega))
      rw [ih₁ inner inside, none, List.append_nil]
    · have range := number_lt later
      have none : below.filter (fun q => q.place.scope.has p.number) = [] :=
        filter_outside (fun f around => by have := inside f around; omega) (.inr (by omega))
      rw [ih₂ later fun f around => by have := before f around; omega, none, List.nil_append]

theorem scope_eq {q : Placed} (mem : q ∈ Block.placed place n b) : q.place.scope = place.scope ∨
    ∃ p ∈ Block.placed place n b, ∃ f, p.function? = some f ∧ f.scope = q.place.scope := by
  fun_induction Block.placed place n b with
  | case1 place n => cases mem
  | case2 place n s rest below ih₁ ih₂ =>
    rcases List.mem_cons.1 mem with rfl | mem
    · exact .inl rfl
    rcases List.mem_append.1 mem with inner | later
    · rcases ih₁ inner with here | ⟨p, mem, found⟩
      · unfold Place.within at here
        split at here
        · next definition isFunction =>
          let f : FunctionModel :=
            { frame := { number := n, definition, owner := place.owner }, outer := place.scope }
          have found : Placed.function? { number := n, statement := s, place } = some f := by
            rw [Placed.function?, isFunction]
          exact .inr ⟨_, .head _, f, found, here.symm⟩
        · exact .inl here
        · exact .inl here
      · exact .inr ⟨p, List.mem_cons_of_mem _ (List.mem_append_left _ mem), found⟩
    · rcases ih₂ later with here | ⟨p, mem, found⟩
      · exact .inl here
      · exact .inr ⟨p, List.mem_cons_of_mem _ (List.mem_append_right _ mem), found⟩

end Block

theorem Placed.function?_eq_some {p : Placed} {f : FunctionModel} : p.function? = some f ↔
    p.statement.form = .function f.definition ∧ f.frame.number = p.number ∧
      f.frame.owner = p.place.owner ∧ f.outer = p.place.scope := by
  unfold Placed.function?
  split
  · next definition isFunction =>
    rw [Option.some.injEq, isFunction, StmtForm.function.injEq]
    constructor
    · rintro rfl
      exact ⟨rfl, rfl, rfl, rfl⟩
    · obtain ⟨⟨number, definition', owner⟩, outer⟩ := f
      rintro ⟨rfl, rfl, rfl, rfl⟩
      rfl
  · next other => exact ⟨nofun, fun ⟨same, _⟩ => (other _ same).elim⟩

theorem Placed.class?_eq_some {p : Placed} {c : ClassFrame} : p.class? = some c ↔
    p.statement.form = .classDef c.definition ∧ c.number = p.number := by
  unfold Placed.class?
  split
  · next definition isClass =>
    rw [Option.some.injEq, isClass, StmtForm.classDef.injEq]
    constructor
    · rintro rfl
      exact ⟨rfl, rfl⟩
    · obtain ⟨number, definition'⟩ := c
      rintro ⟨rfl, rfl⟩
      rfl
  · next other => exact ⟨nofun, fun ⟨same, _⟩ => (other _ same).elim⟩

namespace ModuleModel

variable {path : Bytes} {lineCount : Nat} {b : Block}

theorem mem_functions {f : FunctionModel} : f ∈ (ofBlock path lineCount b).functions ↔
    ∃ p ∈ Block.placed {} 0 b, p.function? = some f :=
  List.mem_filterMap

theorem functions_definition : (ofBlock path lineCount b).functions.map FunctionModel.definition =
    b.functionDefs := by
  have one (p : Placed) : p.function?.map FunctionModel.definition = p.statement.function? := by
    unfold Placed.function? Stmt.function?
    cases p.statement.form <;> rfl
  change ((Block.placed {} 0 b).filterMap Placed.function?).map FunctionModel.definition = _
  rw [Block.functionDefs, ← Block.placed_statements {} 0 b, List.filterMap_map, List.map_filterMap]
  exact congrArg (fun f => List.filterMap f _) (funext one)

theorem mem_classes {c : ClassModel} : c ∈ (ofBlock path lineCount b).classes ↔
    (∃ p ∈ Block.placed {} 0 b, p.class? = some c.frame) ∧
      c.methods = (ofBlock path lineCount b).functions.filter (·.frame.isMethodOf c.frame) := by
  constructor
  · intro mem
    obtain ⟨frame, found, rfl⟩ := List.mem_map.1 mem
    exact ⟨List.mem_filterMap.1 found, rfl⟩
  · obtain ⟨frame, methods⟩ := c
    rintro ⟨found, all⟩
    exact List.mem_map.2 ⟨frame, List.mem_filterMap.2 found, congrArg (ClassModel.mk frame) all.symm⟩

theorem classes_definition : (ofBlock path lineCount b).classes.map ClassModel.definition =
    b.classDefs := by
  have one (p : Placed) : p.class?.map ClassFrame.definition = p.statement.class? := by
    unfold Placed.class? Stmt.class?
    cases p.statement.form <;> rfl
  change (((Block.placed {} 0 b).filterMap Placed.class?).map _).map ClassModel.definition = _
  rw [Block.classDefs, ← Block.placed_statements {} 0 b, List.filterMap_map, List.map_map]
  change ((Block.placed {} 0 b).filterMap Placed.class?).map ClassFrame.definition = _
  rw [List.map_filterMap]
  exact congrArg (fun f => List.filterMap f _) (funext one)

theorem functions_inj {f g : FunctionModel} (hf : f ∈ (ofBlock path lineCount b).functions)
    (hg : g ∈ (ofBlock path lineCount b).functions) (same : f.frame.number = g.frame.number) :
    f = g := by
  obtain ⟨p, hp, hf⟩ := mem_functions.1 hf
  obtain ⟨q, hq, hg⟩ := mem_functions.1 hg
  have ⟨_, numberF, _, _⟩ := Placed.function?_eq_some.1 hf
  have ⟨_, numberG, _, _⟩ := Placed.function?_eq_some.1 hg
  obtain rfl := Block.eq_of_number hp hq (by omega)
  exact Option.some.inj (hf.symm.trans hg)

theorem number_lt_of_outer {f : FunctionModel} (hf : f ∈ (ofBlock path lineCount b).functions)
    {frame : FunctionFrame} (around : frame ∈ f.outer) : frame.number < f.frame.number := by
  obtain ⟨p, hp, hf⟩ := mem_functions.1 hf
  have ⟨_, number, _, outer⟩ := Placed.function?_eq_some.1 hf
  rw [outer] at around
  rcases Block.mem_scope hp around with nowhere | ⟨-, before⟩
  · cases nowhere
  · omega

theorem function_of_scope {q : Placed} (mem : q ∈ Block.placed {} 0 b) (some : q.place.scope ≠ []) :
    ∃ f ∈ (ofBlock path lineCount b).functions, f.scope = q.place.scope := by
  rcases Block.scope_eq mem with nowhere | ⟨p, hp, f, found, same⟩
  · exact absurd nowhere some
  · exact ⟨f, mem_functions.2 ⟨p, hp, found⟩, same⟩

theorem placed_of_function {f : FunctionModel} (hf : f ∈ (ofBlock path lineCount b).functions) :
    ∃ place number, (Block.placed {} 0 b).filter (fun q => q.place.scope.has f.frame.number) =
      Block.placed place number f.definition.body := by
  obtain ⟨p, hp, hf⟩ := mem_functions.1 hf
  have ⟨form, number, _, _⟩ := Placed.function?_eq_some.1 hf
  have inner := Block.filter_placed hp form (by simp)
  have body : p.statement.nested.flatten = f.definition.body := by
    rw [Stmt.nested, Stmt.blocks, Stmt.body?, form]
    simp [StmtForm.blocks, StmtForm.body?]
  rw [body] at inner
  exact ⟨_, _, by rw [number]; exact inner⟩

theorem function_reading {f : FunctionModel} {ts : List Token} (reading : ModuleReading b ts)
    (hf : f ∈ (ofBlock path lineCount b).functions) : ∃ us, Block.Reading f.definition.body us ∧
      f.definition.bodyTokens = (us.filter (!·.isLayout)).drop 1 ∧ us <:+: ts := by
  obtain ⟨p, hp, hf⟩ := mem_functions.1 hf
  have ⟨form, _, _, _⟩ := Placed.function?_eq_some.1 hf
  have mem : p.statement ∈ b.deep := by
    rw [← Block.placed_statements {} 0 b]
    exact List.mem_map_of_mem hp
  obtain ⟨us, read, within⟩ := reading.deep mem
  obtain ⟨vs, body, tokens, inner⟩ := read.function form
  exact ⟨vs, body, tokens, inner.trans within⟩

theorem ofSource_ok {source : Bytes} {m : ModuleModel} (h : ofSource path source = .ok m) :
    ∃ b, parseModule source = .ok b ∧ m = ofBlock path source.lineCount b := by
  obtain ⟨b, parsed, h⟩ := bind_eq_ok.1 h
  exact ⟨b, parsed, (Except.ok.inj h).symm⟩

theorem build_ok {path source : Bytes} {m : ModuleModel} (h : build path source = .ok m) :
    ofSource path source = .ok m := mapError_eq_ok.1 h

theorem ofSource_reading {source : Bytes} {m : ModuleModel} (h : ofSource path source = .ok m) :
    ∃ b inside marker, m = ofBlock path source.lineCount b ∧
      tokenize source = .ok (inside ++ [marker]) ∧ marker.kind = .endMarker ∧
        ModuleReading b inside := by
  obtain ⟨b, parsed, rfl⟩ := ofSource_ok h
  obtain ⟨inside, marker, lexed, isMarker, reading⟩ := parseModule_reading parsed
  exact ⟨b, inside, marker, rfl, lexed, isMarker, reading⟩

end ModuleModel

end CodeSmell
