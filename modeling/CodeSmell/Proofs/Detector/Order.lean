import CodeSmell.Pipeline
import CodeSmell.Proofs.Lists

/-!
The order of findings. What several detectors find in a module comes in the order of first lines and
kinds, and findings that agree in both come as they were found.
-/

namespace CodeSmell

namespace Finding

theorem before_iff {a b : Finding} : before a b = true ↔ a.lines.first < b.lines.first ∨
    a.lines.first = b.lines.first ∧ a.kind.number ≤ b.kind.number := by
  simp [before]

theorem before_trans (a b c : Finding) (h : before a b = true) (h' : before b c = true) :
    before a c = true := by
  rw [before_iff] at *
  omega

theorem before_total (a b : Finding) : (before a b || before b a) = true := by
  rw [Bool.or_eq_true, before_iff, before_iff]
  omega

theorem filter_sort (p : Finding → Bool) (found : List Finding) :
    (sort found).filter p = sort (found.filter p) :=
  filter_mergeSort before_trans before_total p found

/-- `ordered` has the findings of `found` by first lines and then by kinds, and leaves those that
agree in both as they were. -/
structure Ordered (found ordered : List Finding) : Prop where
  perm : ordered.Perm found
  sorted : ordered.Pairwise fun a b => a.lines.first < b.lines.first ∨
    a.lines.first = b.lines.first ∧ a.kind.number ≤ b.kind.number
  stable : ∀ line kind, ordered.filter (fun f => f.lines.first = line ∧ f.kind = kind) =
    found.filter fun f => f.lines.first = line ∧ f.kind = kind

theorem ordered_sort (found : List Finding) : Ordered found (sort found) where
  perm := List.mergeSort_perm found before
  sorted := (List.pairwise_mergeSort before_trans before_total found).imp before_iff.1
  stable line kind := by
    rw [filter_sort]
    refine List.mergeSort_of_pairwise (List.pairwise_of_forall_mem_list fun a ha b hb => ?_)
    obtain ⟨-, same⟩ := List.mem_filter.1 ha
    obtain ⟨-, same'⟩ := List.mem_filter.1 hb
    obtain ⟨lineA, kindA⟩ := of_decide_eq_true same
    obtain ⟨lineB, kindB⟩ := of_decide_eq_true same'
    exact before_iff.2 (.inr ⟨lineA.trans lineB.symm, by rw [kindA, kindB]⟩)

end Finding

theorem Collector.foldl_add (m : ModuleModel) (detectors : List Detector) (c : Collector) :
    (detectors.foldl (fun (found : Collector) d => found.add (d.detect m)) c).findings =
      c.findings ++ detectors.flatMap fun d => d.detect m := by
  induction detectors generalizing c with
  | nil => simp
  | cons d detectors ih =>
    rw [List.foldl_cons, ih, List.flatMap_cons, ← List.append_assoc]
    rfl

theorem ModuleModel.findings_eq (m : ModuleModel) (detectors : List Detector) :
    m.findings detectors = Finding.sort (detectors.flatMap fun d => d.detect m) := by
  rw [findings, Collector.finish, Collector.foldl_add, List.nil_append]

end CodeSmell
