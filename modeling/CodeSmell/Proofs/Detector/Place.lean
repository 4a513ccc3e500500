import CodeSmell.Detector.BuiltIn
import Mathlib.Tactic

/-!
Where findings stand. Every finding has the kind of its detector and names the file of the module,
and its lines are those of a function or class, or run from one number literal to another.
-/

namespace CodeSmell

variable {path : Bytes} {x : Finding}

theorem Finding.eq_of_mem_ite {b : Prop} [Decidable b] {y : Finding} (mem : x ∈ if b then [] else [y]) :
    x = y :=
  List.mem_singleton.1 (List.mem_ite_nil_left.1 mem).2

theorem LongMethod.mem_findings {options : LongMethod.Options} {f : FunctionModel}
    (mem : x ∈ findings options path f) :
    x.kind = .longMethod ∧ x.file = path ∧ x.lines = f.lines := by
  obtain rfl := Finding.eq_of_mem_ite mem
  exact ⟨rfl, rfl, rfl⟩

theorem LargeParameterList.mem_findings {options : LargeParameterList.Options} {f : FunctionModel}
    (mem : x ∈ findings options path f) :
    x.kind = .largeParameterList ∧ x.file = path ∧ x.lines = f.lines := by
  obtain rfl := Finding.eq_of_mem_ite mem
  exact ⟨rfl, rfl, rfl⟩

theorem GodClass.mem_findings {options : GodClass.Options} {c : ClassModel}
    (mem : x ∈ findings options path c) :
    x.kind = .godClass ∧ x.file = path ∧ x.lines = c.definition.lines := by
  obtain rfl := Finding.eq_of_mem_ite mem
  exact ⟨rfl, rfl, rfl⟩

theorem FeatureEnvy.mem_findings {options : FeatureEnvy.Options} {profiles : Profiles}
    {f : FunctionModel} (mem : x ∈ profiles.findings options path f) :
    x.kind = .featureEnvy ∧ x.file = path ∧ x.lines = f.lines := by
  obtain ⟨-, mem⟩ := List.mem_ite_nil_left.1 mem
  split at mem
  · cases mem
  · obtain ⟨⟨target, accesses⟩, -, mem⟩ := List.mem_flatMap.1 mem
    obtain rfl := Finding.eq_of_mem_ite mem
    exact ⟨rfl, rfl, rfl⟩

namespace DuplicatedCode

theorem mem_of_pairs {α : Type} {xs : List α} {a b : α} (mem : (a, b) ∈ pairs xs) :
    a ∈ xs ∧ b ∈ xs := by
  induction xs with
  | nil => cases mem
  | cons x xs ih =>
    rcases List.mem_append.1 mem with here | later
    · obtain ⟨c, found, same⟩ := List.mem_map.1 here
      obtain ⟨rfl, rfl⟩ := Prod.mk.inj same
      exact ⟨.head _, .tail _ found⟩
    · obtain ⟨left, right⟩ := ih later
      exact ⟨.tail _ left, .tail _ right⟩

theorem mem_candidates {options : DuplicatedCode.Options} {m : ModuleModel} {c : Candidate}
    (mem : c ∈ candidates options m) : c.function ∈ m.functions := by
  obtain ⟨f, found, rfl⟩ := List.mem_map.1 (List.mem_of_mem_filter (List.mem_mergeSort.1 mem))
  exact found

theorem mem_findings {options : DuplicatedCode.Options} {a b : Candidate}
    (mem : x ∈ findings options path a b) :
    x.kind = .duplicatedCode ∧ x.file = path ∧ x.lines = a.function.lines := by
  obtain ⟨-, mem⟩ := List.mem_ite_nil_left.1 mem
  obtain rfl := Finding.eq_of_mem_ite mem
  exact ⟨rfl, rfl, rfl⟩

end DuplicatedCode

namespace MagicNumbers

theorem mem_insert {l l' : Literal} {gs : List Group} {g : Group} (mem : g ∈ insert l gs)
    (inside : l' ∈ g.literals) : l' = l ∨ ∃ h ∈ gs, l' ∈ h.literals := by
  induction gs with
  | nil =>
    obtain rfl := List.mem_singleton.1 mem
    exact .inl (List.mem_singleton.1 inside)
  | cons h rest ih =>
    unfold insert at mem
    split_ifs at mem
    · rcases List.mem_cons.1 mem with rfl | mem
      · exact .inl (List.mem_singleton.1 inside)
      · exact .inr ⟨g, mem, inside⟩
    · rcases List.mem_cons.1 mem with rfl | mem
      · exact .inr ⟨g, .head _, inside⟩
      · rcases ih mem with same | ⟨g', mem, inside⟩
        · exact .inl same
        · exact .inr ⟨g', .tail _ mem, inside⟩
    · rcases List.mem_cons.1 mem with rfl | mem
      · rw [Group.literals, ← List.cons_append, List.mem_append] at inside
        rcases inside with inside | inside
        · exact .inr ⟨h, .head _, inside⟩
        · exact .inl (List.mem_singleton.1 inside)
      · exact .inr ⟨g, .tail _ mem, inside⟩

theorem mem_groups {ls : List Literal} {g : Group} {l : Literal} (mem : g ∈ groups ls)
    (inside : l ∈ g.literals) : l ∈ ls := by
  induction ls using List.reverseRecOn generalizing g with
  | nil => cases mem
  | append_singleton ls last ih =>
    rw [groups, List.foldl_concat] at mem
    rcases mem_insert mem inside with rfl | ⟨h, mem, inside⟩
    · simp
    · exact List.mem_append_left _ (ih mem inside)

theorem Group.lines_eq (g : Group) : ∃ l ∈ g.literals, ∃ l' ∈ g.literals,
    g.lines = ⟨l.position.line, l'.position.line⟩ ∧ l.position.line ≤ l'.position.line := by
  obtain ⟨first, others⟩ := g
  induction others using List.reverseRecOn with
  | nil => exact ⟨first, .head _, first, .head _, rfl, Int.le_refl _⟩
  | append_singleton others last ih =>
    obtain ⟨l, mem, l', mem', same, ordered⟩ := ih
    have grown {k : Literal} (h : k ∈ Group.literals ⟨first, others⟩) :
        k ∈ Group.literals ⟨first, others ++ [last]⟩ := List.mem_append_left [last] h
    have isLast : last ∈ Group.literals ⟨first, others ++ [last]⟩ := by simp [Group.literals]
    obtain ⟨lower, upper⟩ := LineRange.mk.inj same
    have lines : Group.lines ⟨first, others ++ [last]⟩ =
        ⟨min l.position.line last.position.line, max l'.position.line last.position.line⟩ := by
      simp only [Group.lines, List.foldl_concat] at lower upper ⊢
      rw [lower, upper]
    rw [lines]
    rcases min_choice l.position.line last.position.line with low | low
    · rcases max_choice l'.position.line last.position.line with high | high
      · exact ⟨l, grown mem, l', grown mem', by rw [low, high], ordered⟩
      · exact ⟨l, grown mem, last, isLast, by rw [low, high], by omega⟩
    · rcases max_choice l'.position.line last.position.line with high | high
      · exact ⟨last, isLast, l', grown mem', by rw [low, high], by omega⟩
      · exact ⟨last, isLast, last, isLast, by rw [low, high], Int.le_refl _⟩

theorem mem_findings {options : MagicNumbers.Options} {g : Group}
    (mem : x ∈ findings options path g) :
    x.kind = .magicNumbers ∧ x.file = path ∧ x.lines = g.lines := by
  obtain rfl := Finding.eq_of_mem_ite mem
  exact ⟨rfl, rfl, rfl⟩

end MagicNumbers

theorem Detector.builtIn_ok {options : DetectionOptions} {kind : Smell}
    (valid : options.validate kind = .ok ()) :
    builtIn kind options = .ok { kind, detect := kind.findings options } := by
  rw [builtIn, valid]
  rfl

inductive ModuleModel.Place (m : ModuleModel) : LineRange → Prop where
  | function {f : FunctionModel} : f ∈ m.functions → Place m f.lines
  | classDef {c : ClassModel} : c ∈ m.classes → Place m c.definition.lines
  | literals {l l' : Literal} : l ∈ m.literals → l' ∈ m.literals →
      l.position.line ≤ l'.position.line → Place m ⟨l.position.line, l'.position.line⟩

theorem Smell.findings_place {options : DetectionOptions} {kind : Smell} {m : ModuleModel}
    (mem : x ∈ kind.findings options m) : x.file = m.path ∧ m.Place x.lines := by
  cases kind with
  | longMethod =>
    obtain ⟨f, hf, mem⟩ := List.mem_flatMap.1 mem
    obtain ⟨-, file, lines⟩ := LongMethod.mem_findings mem
    exact ⟨file, lines ▸ .function hf⟩
  | godClass =>
    obtain ⟨c, hc, mem⟩ := List.mem_flatMap.1 mem
    obtain ⟨-, file, lines⟩ := GodClass.mem_findings mem
    exact ⟨file, lines ▸ .classDef hc⟩
  | largeParameterList =>
    obtain ⟨f, hf, mem⟩ := List.mem_flatMap.1 mem
    obtain ⟨-, file, lines⟩ := LargeParameterList.mem_findings mem
    exact ⟨file, lines ▸ .function hf⟩
  | magicNumbers =>
    obtain ⟨g, hg, mem⟩ := List.mem_flatMap.1 mem
    obtain ⟨-, file, lines⟩ := MagicNumbers.mem_findings mem
    obtain ⟨l, mem, l', mem', same, ordered⟩ := g.lines_eq
    rw [lines, same]
    exact ⟨file, .literals (List.mem_of_mem_filter (MagicNumbers.mem_groups hg mem))
      (List.mem_of_mem_filter (MagicNumbers.mem_groups hg mem')) ordered⟩
  | duplicatedCode =>
    obtain ⟨⟨a, b⟩, pair, mem⟩ := List.mem_flatMap.1 mem
    obtain ⟨-, file, lines⟩ := DuplicatedCode.mem_findings mem
    exact ⟨file, lines ▸ .function (DuplicatedCode.mem_candidates (DuplicatedCode.mem_of_pairs pair).1)⟩
  | featureEnvy =>
    obtain ⟨f, hf, mem⟩ := List.mem_flatMap.1 mem
    obtain ⟨-, file, lines⟩ := FeatureEnvy.mem_findings mem
    exact ⟨file, lines ▸ .function hf⟩

theorem Smell.findings_kind {options : DetectionOptions} {kind : Smell} {m : ModuleModel}
    (mem : x ∈ kind.findings options m) : x.kind = kind := by
  cases kind with
  | longMethod =>
    obtain ⟨f, -, mem⟩ := List.mem_flatMap.1 mem
    exact (LongMethod.mem_findings mem).1
  | godClass =>
    obtain ⟨c, -, mem⟩ := List.mem_flatMap.1 mem
    exact (GodClass.mem_findings mem).1
  | largeParameterList =>
    obtain ⟨f, -, mem⟩ := List.mem_flatMap.1 mem
    exact (LargeParameterList.mem_findings mem).1
  | magicNumbers =>
    obtain ⟨g, -, mem⟩ := List.mem_flatMap.1 mem
    exact (MagicNumbers.mem_findings mem).1
  | duplicatedCode =>
    obtain ⟨⟨a, b⟩, -, mem⟩ := List.mem_flatMap.1 mem
    exact (DuplicatedCode.mem_findings mem).1
  | featureEnvy =>
    obtain ⟨f, -, mem⟩ := List.mem_flatMap.1 mem
    exact (FeatureEnvy.mem_findings mem).1

end CodeSmell
