import CodeSmell.Analysis
import CodeSmell.Proofs.ByName
import Mathlib.Tactic

/-!
The counts that sum up an analysis. A tally lists names, with and without occurrences, and counts
those that occur; adding to it keeps this form, and so the summary is known from the findings without
the order in which they were added. Nothing is counted twice or left out.
-/

namespace CodeSmell

variable {name : Bytes} {listed listed' counted counted' : List Bytes}

namespace Tally

/-- The tally of names that are listed anyway and of names that are counted. -/
def counting (listed counted : List Bytes) : Tally :=
  (sortedSet (listed ++ counted)).map fun name => (name, counted.count name)

theorem keys_counting : (counting listed counted).map Prod.fst = sortedSet (listed ++ counted) := by
  rw [counting, List.map_map]
  exact List.map_id _

theorem values_counting :
    (counting listed counted).map Prod.snd = (sortedSet (listed ++ counted)).map counted.count := by
  rw [counting, List.map_map]
  rfl

theorem counting_congr (same : ∀ name, name ∈ listed ↔ name ∈ listed')
    (perm : counted.Perm counted') : counting listed counted = counting listed' counted' := by
  have names : sortedSet (listed ++ counted) = sortedSet (listed' ++ counted') :=
    sortedSet_congr fun name => by rw [List.mem_append, List.mem_append, same, perm.mem_iff]
  rw [counting, names]
  exact List.map_congr_left fun name _ => by rw [perm.count_eq]

theorem absent_counting (new : name ∉ sortedSet (listed ++ counted)) : counted.count name = 0 := by
  rw [mem_sortedSet, List.mem_append, not_or] at new
  exact List.count_eq_zero_of_not_mem new.2

theorem add_listed : add name 0 (counting listed counted) = counting (listed ++ [name]) counted := by
  have names : insertSorted name (sortedSet (listed ++ counted)) =
      sortedSet (listed ++ [name] ++ counted) := by
    rw [insertSorted_sortedSet]
    exact sortedSet_congr fun other => by simp [or_left_comm]
  rw [counting, add, ByName.update_map (sortedSet_sorted _) absent_counting (· + 0), names]
  simp [counting]

theorem add_counted : add name 1 (counting listed counted) = counting listed (counted ++ [name]) := by
  have names : insertSorted name (sortedSet (listed ++ counted)) =
      sortedSet (listed ++ (counted ++ [name])) := by
    rw [insertSorted_sortedSet]
    refine sortedSet_congr fun other => ?_
    simp only [List.mem_cons, List.mem_append, List.not_mem_nil]
    tauto
  rw [counting, add, ByName.update_map (sortedSet_sorted _) absent_counting (· + 1), names]
  refine List.map_congr_left fun other _ => ?_
  by_cases same : other = name
  · simp [same]
  · simp [same, Ne.symm same]

theorem foldl_listed (names : List Bytes) :
    names.foldl (fun tally name => add name 0 tally) [] = counting names [] := by
  induction names using List.reverseRecOn with
  | nil => rfl
  | append_singleton names name ih => rw [List.foldl_concat, ih, add_listed]

theorem sum_add (name : Bytes) (n : Nat) (tally : Tally) :
    ((add name n tally).map Prod.snd).sum = (tally.map Prod.snd).sum + n := by
  induction tally with
  | nil => simp [add, ByName.update]
  | cons entry rest ih =>
    obtain ⟨key, old⟩ := entry
    rw [add, ByName.update]
    split_ifs with before same
    · simp [add_comm]
    · simp [add_right_comm]
    · rw [List.map_cons, List.sum_cons, ← add, ih, List.map_cons, List.sum_cons, add_assoc]

theorem sum_counting : ((counting listed counted).map Prod.snd).sum = counted.length := by
  induction counted using List.reverseRecOn with
  | nil => simp [values_counting]
  | append_singleton counted name ih =>
    rw [← add_counted, sum_add, ih, List.length_append, List.length_singleton]

end Tally

namespace Summary

variable {fs : List Finding}

def counting (listed : List Bytes) (fs : List Finding) : Summary :=
  { byKind := Tally.counting listed (fs.map (·.kind.name))
    byFile := Tally.counting [] (fs.map (·.file))
    high := fs.countP (·.severity = .high)
    medium := fs.countP (·.severity = .medium)
    low := fs.countP (·.severity = .low) }

theorem add_counting (f : Finding) :
    (counting listed fs).add f = counting listed (fs ++ [f]) := by
  simp only [add, counting, Tally.add_counted, List.map_append, List.map_singleton,
    List.countP_append, List.countP_singleton, decide_eq_true_eq]

theorem foldl_add (fs : List Finding) :
    fs.foldl add (counting listed []) = counting listed fs := by
  induction fs using List.reverseRecOn with
  | nil => rfl
  | append_singleton fs f ih => rw [List.foldl_concat, ih, add_counting]

theorem ofAnalysis_eq (a : Analysis) : ofAnalysis a = counting a.activeDetectors a.findings := by
  rw [ofAnalysis, Tally.foldl_listed]
  exact foldl_add a.findings

theorem counting_congr {fs' : List Finding} (same : ∀ name, name ∈ listed ↔ name ∈ listed')
    (perm : fs.Perm fs') : counting listed fs = counting listed' fs' := by
  simp only [counting, Tally.counting_congr same (perm.map _),
    Tally.counting_congr (fun _ => Iff.rfl) (perm.map Finding.file), perm.countP_eq]

theorem severities_counting : (counting listed fs).high + (counting listed fs).medium +
    (counting listed fs).low = fs.length := by
  induction fs with
  | nil => rfl
  | cons f fs ih =>
    simp only [counting] at ih
    cases severity : f.severity <;> simp [counting, severity] <;> omega

end Summary

/-- A tally with each name once and in order: those that are listed anyway and those of some finding.
Every name has as many findings as it says, and no finding is left out. -/
structure Tally.Counts (tally : Tally) (listed : List Bytes) (fs : List Finding)
    (name : Finding → Bytes) : Prop where
  sorted : (tally.map Prod.fst).Pairwise (· < ·)
  keys : ∀ key, key ∈ tally.map Prod.fst ↔ key ∈ listed ∨ ∃ f ∈ fs, name f = key
  values : ∀ entry ∈ tally, entry.2 = fs.countP fun f => name f = entry.1
  total : (tally.map Prod.snd).sum = fs.length

theorem Tally.counts_counting (listed : List Bytes) (fs : List Finding) (name : Finding → Bytes) :
    (counting listed (fs.map name)).Counts listed fs name where
  sorted := keys_counting ▸ sortedSet_sorted _
  keys key := by rw [keys_counting, mem_sortedSet, List.mem_append, List.mem_map]
  values entry mem := by
    obtain ⟨key, -, rfl⟩ := List.mem_map.1 mem
    rw [List.count_eq_countP, List.countP_map]
    exact List.countP_congr fun f _ => by simp
  total := sum_counting.trans (List.length_map name)

/-- The counts of a summary are those of its findings and add up to their number. They do not depend on
the order of the findings, nor on that of the active detectors. -/
theorem Summary.counts_findings (a : Analysis) :
    (ofAnalysis a).byKind.Counts a.activeDetectors a.findings (·.kind.name) ∧
    (ofAnalysis a).byFile.Counts [] a.findings (·.file) ∧
    (ofAnalysis a).high + (ofAnalysis a).medium + (ofAnalysis a).low = a.findings.length ∧
    (ofAnalysis a).high = a.findings.countP (·.severity = .high) ∧
    (ofAnalysis a).medium = a.findings.countP (·.severity = .medium) ∧
    (ofAnalysis a).low = a.findings.countP (·.severity = .low) ∧
    ∀ b : Analysis, b.findings.Perm a.findings →
      (∀ name, name ∈ b.activeDetectors ↔ name ∈ a.activeDetectors) →
      ofAnalysis b = ofAnalysis a := by
  rw [ofAnalysis_eq]
  refine ⟨Tally.counts_counting _ _ _, Tally.counts_counting _ _ _, severities_counting, rfl, rfl,
    rfl, fun b perm same => ?_⟩
  rw [ofAnalysis_eq, counting_congr same perm]

theorem Summary.counts_findings_shuffled :
    let a : Analysis :=
      { activeDetectors := ["Other", "GodClass", "Other"]
        findings := [{ kind := .longMethod, severity := .high, file := "b.py" },
          { kind := .godClass, severity := .low, file := "a.py" },
          { kind := .longMethod, severity := .low, file := "b.py" }] }
    let b : Analysis :=
      { a with activeDetectors := ["GodClass", "Other"], findings := a.findings.reverse }
    b.findings.Perm a.findings ∧ (∀ name, name ∈ b.activeDetectors ↔ name ∈ a.activeDetectors) ∧
      ofAnalysis b = ofAnalysis a ∧
      ofAnalysis a =
        { byKind := [("GodClass", 1), ("LongMethod", 2), ("Other", 0)]
          byFile := [("a.py", 1), ("b.py", 2)], high := 1, medium := 0, low := 2 } := by
  intro a b
  have same : ∀ name, name ∈ b.activeDetectors ↔ name ∈ a.activeDetectors := fun name => by
    simp only [a, b, List.mem_cons, List.not_mem_nil, or_false]
    tauto
  have perm : b.findings.Perm a.findings := List.reverse_perm _
  obtain ⟨-, -, -, -, -, -, unordered⟩ := counts_findings a
  exact ⟨perm, same, unordered b perm same, rfl⟩

end CodeSmell
