import CodeSmell.Proofs.Model.Origins

/-!
Imported names. `Block.Holds` says by kind of statement what stands in a block at any depth, and the
names of a module are those that the imports in its tree bind.
-/

namespace CodeSmell

inductive StmtForm.HasBlock {σ : Type} : StmtForm σ → List σ → Prop
  | ifBody {test body orelse isElif} : HasBlock (.cond test body orelse isElif) body
  | ifElse {test body orelse isElif} : HasBlock (.cond test body orelse isElif) orelse
  | forBody {target iterable body orelse isAsync} :
      HasBlock (.forEach target iterable body orelse isAsync) body
  | forElse {target iterable body orelse isAsync} :
      HasBlock (.forEach target iterable body orelse isAsync) orelse
  | whileBody {test body orelse} : HasBlock (.whileLoop test body orelse) body
  | whileElse {test body orelse} : HasBlock (.whileLoop test body orelse) orelse
  | tryBody {body handlers orelse finalBody isStar} :
      HasBlock (.tryExcept body handlers orelse finalBody isStar) body
  | handler {body handlers orelse finalBody isStar h} (mem : h ∈ handlers) :
      HasBlock (.tryExcept body handlers orelse finalBody isStar) h.body
  | tryElse {body handlers orelse finalBody isStar} :
      HasBlock (.tryExcept body handlers orelse finalBody isStar) orelse
  | finally {body handlers orelse finalBody isStar} :
      HasBlock (.tryExcept body handlers orelse finalBody isStar) finalBody
  | withBody {items body isAsync} : HasBlock (.withItems items body isAsync) body
  | matchCase {subject cases c} (mem : c ∈ cases) : HasBlock (.matchOn subject cases) c.body
  | functionBody {definition} : HasBlock (.function definition) definition.body
  | classBody {definition} : HasBlock (.classDef definition) definition.body

inductive Block.Holds : Block → Stmt → Prop
  | here {b : Block} {s : Stmt} (mem : s ∈ b) : Holds b s
  | within {b c : Block} {s t : Stmt} (mem : s ∈ b) (block : s.form.HasBlock c)
      (below : Block.Holds c t) : Holds b t

namespace StmtForm

variable {σ : Type} {f : StmtForm σ} {b : List σ}

theorem hasBlock_of_mem (mem : b ∈ f.blocks ++ f.body?.toList) : f.HasBlock b := by
  cases f with
  | cond | forEach | whileLoop =>
    simp only [blocks, body?, Option.toList_none, List.append_nil, List.mem_cons,
      List.not_mem_nil, or_false] at mem
    rcases mem with rfl | rfl <;> constructor
  | tryExcept body handlers orelse finalBody isStar =>
    simp only [blocks, body?, Option.toList_none, List.append_nil, List.mem_cons, List.mem_append,
      List.mem_map, List.not_mem_nil, or_false] at mem
    rcases mem with rfl | ⟨h, mem, rfl⟩ | rfl | rfl
    · exact .tryBody
    · exact .handler mem
    · exact .tryElse
    · exact .finally
  | matchOn subject cases =>
    simp only [blocks, body?, Option.toList_none, List.append_nil, List.mem_map] at mem
    obtain ⟨c, mem, rfl⟩ := mem
    exact .matchCase mem
  | withItems | function | classDef =>
    obtain rfl := List.mem_singleton.1 mem
    constructor
  | _ => cases mem

theorem HasBlock.mem (h : f.HasBlock b) : b ∈ f.blocks ++ f.body?.toList := by
  cases h with
  | handler mem =>
    exact List.mem_append_left _ (List.mem_cons_of_mem _
      (List.mem_append_left _ (List.mem_map_of_mem mem)))
  | matchCase mem => exact List.mem_append_left _ (List.mem_map_of_mem mem)
  | _ => simp [blocks, body?]

end StmtForm

theorem Stmt.mem_nested {s : Stmt} {b : Block} : b ∈ s.nested ↔ s.form.HasBlock b :=
  ⟨StmtForm.hasBlock_of_mem, StmtForm.HasBlock.mem⟩

namespace Block

theorem deep_subset_of_mem {b : Block} {s : Stmt} (mem : s ∈ b) : Block.deep [s] ⊆ b.deep := by
  intro t deep
  rw [deep_eq_flatMap]
  exact List.mem_flatMap_of_mem mem deep

theorem mem_deep_of_nested {s t : Stmt} {b : Block} (mem : b ∈ s.nested) (deep : t ∈ b.deep) :
    t ∈ Block.deep [s] := by
  rw [deep_cons, deep_nil, List.append_nil]
  refine List.mem_cons_of_mem _ ?_
  rw [deep_eq_flatMap] at deep ⊢
  obtain ⟨u, first, deep⟩ := List.mem_flatMap.1 deep
  exact List.mem_flatMap.2 ⟨u, List.mem_flatten_of_mem mem first, deep⟩

theorem mem_deep_of_holds {b : Block} {s : Stmt} (h : b.Holds s) : s ∈ b.deep := by
  induction h with
  | here mem =>
    refine deep_subset_of_mem mem ?_
    rw [deep_cons]
    exact List.mem_cons_self
  | within mem block _ ih =>
    exact deep_subset_of_mem mem (mem_deep_of_nested (Stmt.mem_nested.2 block) ih)

theorem Holds.mono {b c : Block} {s : Stmt} (h : b.Holds s) (subset : b ⊆ c) : c.Holds s := by
  cases h with
  | here mem => exact .here (subset mem)
  | within mem block below => exact .within (subset mem) block below

theorem Holds.of_flatten {bs : List Block} {s : Stmt} (h : Block.Holds bs.flatten s) :
    ∃ b ∈ bs, b.Holds s := by
  cases h with
  | here mem =>
    obtain ⟨b, among, mem⟩ := List.mem_flatten.1 mem
    exact ⟨b, among, .here mem⟩
  | within mem block below =>
    obtain ⟨b, among, mem⟩ := List.mem_flatten.1 mem
    exact ⟨b, among, .within mem block below⟩

theorem holds_of_mem_deep {b : Block} {t : Stmt} (mem : t ∈ b.deep) : b.Holds t := by
  fun_induction deep b with
  | case1 => cases mem
  | case2 s rest ih₁ ih₂ =>
    rcases List.mem_cons.1 mem with rfl | mem
    · exact .here List.mem_cons_self
    rcases List.mem_append.1 mem with inner | later
    · obtain ⟨c, nested, below⟩ := (ih₁ inner).of_flatten
      exact .within List.mem_cons_self (Stmt.mem_nested.1 nested) below
    · exact (ih₂ later).mono (List.subset_cons_self _ _)

theorem mem_deep {b : Block} {s : Stmt} : s ∈ b.deep ↔ b.Holds s :=
  ⟨holds_of_mem_deep, mem_deep_of_holds⟩

end Block

namespace ModuleModel

theorem imports_exact {path source : Bytes} {m : ModuleModel} (built : build path source = .ok m) :
    ∃ body, parseModule source = .ok body ∧ m.imports.Pairwise (· < ·) ∧
      ∀ name, name ∈ m.imports ↔ ∃ s, body.Holds s ∧ s.Imports name := by
  obtain ⟨b, parsed, rfl⟩ := ofSource_ok (build_ok built)
  refine ⟨b, parsed, sortedSet_sorted _, fun name => ?_⟩
  rw [mem_imports, Imports]
  exact exists_congr fun s => and_congr_left' Block.mem_deep

def importsEverywhere : Bytes :=
  "import a.b, c as d\nclass K:\n  def f(self):\n    if x: import e\n    elif y: from .g import *\n" ++
    "    else:\n      for z in w:\n        while z: from h import i as j, k\n        else: import l\n" ++
    "  try:\n    with v: import m.n\n  except E: import o\n  else: import p\n  finally: import q\n" ++
    "match u:\n  case 1: import a, r\n"

theorem imports_exact_everywhere : ∃ m, build "a.py" importsEverywhere = .ok m ∧
    m.imports = ["a", "d", "e", "j", "k", "l", "m", "o", "p", "q", "r"] ∧
    ∃ body, parseModule importsEverywhere = .ok body ∧ m.imports.Pairwise (· < ·) ∧
      ∀ name, name ∈ m.imports ↔ ∃ s, body.Holds s ∧ s.Imports name := by
  obtain ⟨m, built, imports⟩ : ∃ m, build "a.py" importsEverywhere = .ok m ∧
      m.imports = ["a", "d", "e", "j", "k", "l", "m", "o", "p", "q", "r"] := by
    decide +kernel
  exact ⟨m, built, imports, imports_exact built⟩

end ModuleModel

end CodeSmell
