import CodeSmell.Proofs.Lists
import CodeSmell.Proofs.Similarity.EditDistance

/-!
The scores of two functions. The shared and the common elements of two lists are the intersection and
the union of their sets, so that all scores are the same from either side.
-/

namespace CodeSmell

variable (left right : List Bytes)

theorem length_eraseDups : left.eraseDups.length = left.toFinset.card := by
  rw [← List.toFinset_card_of_nodup (nodup_eraseDups left)]
  congr 1
  ext x
  simp

theorem overlap_eq : overlap left right =
    ((left.toFinset ∩ right.toFinset).card, (left.toFinset ∪ right.toFinset).card) := by
  have shared : (left.eraseDups.filter right.eraseDups.contains).length =
      (left.toFinset ∩ right.toFinset).card := by
    rw [← List.toFinset_card_of_nodup ((nodup_eraseDups left).filter _)]
    congr 1
    ext x
    simp
  have both := Finset.card_union_add_card_inter left.toFinset right.toFinset
  simp only [overlap, shared, length_eraseDups]
  rw [← both, Nat.add_sub_cancel]

theorem overlap_comm : overlap left right = overlap right left := by
  rw [overlap_eq, overlap_eq, Finset.inter_comm, Finset.union_comm]

theorem overlap_le : (overlap left right).1 ≤ (overlap left right).2 := by
  rw [overlap_eq]
  have within : left.toFinset ∩ right.toFinset ⊆ left.toFinset ∪ right.toFinset :=
    Finset.inter_subset_union
  exact Finset.card_le_card within

theorem overlap_full : (overlap left right).1 = (overlap left right).2 ↔
    left.toFinset = right.toFinset := by
  rw [overlap_eq]
  constructor
  · intro same
    have shared : left.toFinset ∩ right.toFinset = left.toFinset ∪ right.toFinset :=
      Finset.eq_of_subset_of_card_le Finset.inter_subset_union same.ge
    exact inf_eq_sup.1 shared
  · intro same
    rw [same, Finset.inter_self, Finset.union_self]

theorem editDistance_comm : editDistance left right = editDistance right left := by
  rw [editDistance_eq_levenshtein, editDistance_eq_levenshtein, levenshtein_comm]

theorem jaccard_comm : jaccard left right = jaccard right left := by
  rw [jaccard, jaccard, overlap_comm]

theorem editSimilarity_comm : editSimilarity left right = editSimilarity right left := by
  rw [editSimilarity, editSimilarity, editDistance_comm, Nat.max_comm]

theorem Signature.compare_comm (a b : Signature) : a.compare b = b.compare a := by
  have structural : (if a.tags.length = b.tags.length then jaccard a.tags b.tags
      else editSimilarity a.tags b.tags) = if b.tags.length = a.tags.length then jaccard b.tags a.tags
      else editSimilarity b.tags a.tags := by
    rw [jaccard_comm, editSimilarity_comm]
    exact if_congr eq_comm rfl rfl
  simp only [compare, structural, jaccard_comm a.tokens]

structure Measured : Prop where
  distance : editDistance left right = levenshtein left right
  atMost : editDistance left right ≤ max left.length right.length
  zero : editDistance left right = 0 ↔ left = right
  shared : (overlap left right).1 = (left.toFinset ∩ right.toFinset).card
  total : (overlap left right).2 = (left.toFinset ∪ right.toFinset).card
  ordered : (overlap left right).1 ≤ (overlap left right).2
  full : (overlap left right).1 = (overlap left right).2 ↔ left.toFinset = right.toFinset

/-- The measures are those of edit distance and of sets, and no score depends on which of two
functions comes first. -/
theorem similarity_symmetric : (∀ left right : List Bytes, Measured left right) ∧
    ∀ f g : FunctionDef Stmt,
      (Signature.ofFunction f).compare (.ofFunction g) =
        (Signature.ofFunction g).compare (.ofFunction f) := by
  refine ⟨fun left right => ?_, fun f g => Signature.compare_comm _ _⟩
  constructor
  case distance => exact editDistance_eq_levenshtein left right
  case atMost => exact editDistance_eq_levenshtein left right ▸ levenshtein_le_max left right
  case zero => exact editDistance_eq_levenshtein left right ▸ levenshtein_eq_zero
  case shared => rw [overlap_eq]
  case total => rw [overlap_eq]
  case ordered => exact overlap_le left right
  case full => exact overlap_full left right

end CodeSmell
