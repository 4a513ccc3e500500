import CodeSmell.Bytes
import Mathlib.Data.List.Forall2
import Mathlib.Data.List.Induction
import Mathlib.Data.List.Sort

/-!
Lists that are filtered, sorted and rid of repeats, texts that are split, and sets of texts as lists in
order. A stable sort commutes with a filter, since an element goes right behind those that are strictly
before it.
-/

namespace CodeSmell

variable {α β : Type}

theorem filter_flatMap_eq {xs : List α} {f : α → List β} {p : β → Bool} {q : α → Bool}
    (h : ∀ x ∈ xs, ∀ y ∈ f x, p y = q x) : (xs.flatMap f).filter p = (xs.filter q).flatMap f := by
  induction xs with
  | nil => rfl
  | cons x xs ih =>
    rw [List.forall_mem_cons] at h
    rw [List.flatMap_cons, List.filter_append, ih h.2]
    cases keep : q x with
    | false =>
      have none : (f x).filter p = [] := by
        refine List.filter_eq_nil_iff.2 fun y mem => ?_
        rw [h.1 y mem, keep]
        exact Bool.false_ne_true
      rw [none, List.filter_cons_of_neg (by simp [keep]), List.nil_append]
    | true =>
      have all : (f x).filter p = f x :=
        List.filter_eq_self.2 fun y mem => (h.1 y mem).trans keep
      rw [all, List.filter_cons_of_pos keep, List.flatMap_cons]

theorem forall₂_filter_flatMap {R : α → β → Prop} {p : α → Bool} {f : α → List β}
    {xs : List α} (kept : ∀ a ∈ xs, p a = true → ∃ b, f a = [b] ∧ R a b)
    (dropped : ∀ a ∈ xs, ¬p a = true → f a = []) : List.Forall₂ R (xs.filter p) (xs.flatMap f) := by
  induction xs with
  | nil => exact .nil
  | cons x xs ih =>
    rw [List.forall_mem_cons] at kept dropped
    by_cases keep : p x = true
    · obtain ⟨b, single, related⟩ := kept.1 keep
      rw [List.filter_cons_of_pos keep, List.flatMap_cons, single, List.singleton_append]
      exact .cons related (ih kept.2 dropped.2)
    · rw [List.filter_cons_of_neg keep, List.flatMap_cons, dropped.1 keep, List.nil_append]
      exact ih kept.2 dropped.2

theorem forall₂_flatMap {γ : Type} {R : β → γ → Prop} {f : α → List β} {g : α → List γ} {xs : List α}
    (each : ∀ x ∈ xs, List.Forall₂ R (f x) (g x)) :
    List.Forall₂ R (xs.flatMap f) (xs.flatMap g) := by
  induction xs with
  | nil => exact .nil
  | cons x xs ih =>
    rw [List.forall_mem_cons] at each
    rw [List.flatMap_cons, List.flatMap_cons]
    exact List.rel_append each.1 (ih each.2)

theorem zipIdx_sorted (xs : List α) : xs.zipIdx.Pairwise fun x y => x.2 < y.2 := by
  rw [← List.pairwise_map, List.zipIdx_map_snd]
  exact List.pairwise_lt_range'

theorem lookup_cons {κ : Type} [BEq κ] [LawfulBEq κ] [DecidableEq κ] (key : κ) (value : α)
    (rest : List (κ × α)) (other : κ) : List.lookup other ((key, value) :: rest) =
      if other = key then some value else rest.lookup other := by
  rw [List.lookup_cons]
  by_cases same : other = key
  · rw [if_pos same, beq_iff_eq.2 same]
  · rw [if_neg same, beq_false_of_ne same]

/-! ## Stable sorting -/

section Sorting

variable {le : α → α → Bool} (trans : ∀ a b c, le a b → le b c → le a c)
  (total : ∀ a b, le a b || le b a)

include trans total

theorem mergeSort_cons_eq (a : α) (xs : List α) : (a :: xs).mergeSort le =
    (xs.mergeSort le).filter (fun b => !le a b) ++ a :: (xs.mergeSort le).filter (le a) := by
  obtain ⟨before, after, sorted, rest, strictly⟩ := List.mergeSort_cons trans total a xs
  have behind : ∀ b ∈ after, le a b = true := by
    have ordered := List.pairwise_mergeSort trans total (a :: xs)
    rw [sorted] at ordered
    exact (List.pairwise_cons.1 (List.pairwise_append.1 ordered).2.1).1
  have none : after.filter (fun b => !le a b) = [] :=
    List.filter_eq_nil_iff.2 fun b mem => by simp [behind b mem]
  have none' : before.filter (le a) = [] :=
    List.filter_eq_nil_iff.2 fun b mem => by simpa using strictly b mem
  rw [sorted, rest, List.filter_append, List.filter_append, none, none', List.append_nil,
    List.nil_append, List.filter_eq_self.2 strictly, List.filter_eq_self.2 behind]

theorem filter_mergeSort (p : α → Bool) (xs : List α) :
    (xs.mergeSort le).filter p = (xs.filter p).mergeSort le := by
  induction xs with
  | nil => simp
  | cons a xs ih =>
    cases keep : p a with
    | false =>
      obtain ⟨before, after, sorted, rest, -⟩ := List.mergeSort_cons trans total a xs
      rw [List.filter_cons_of_neg (by simp [keep]), ← ih, sorted, rest, List.filter_append,
        List.filter_append, List.filter_cons_of_neg (by simp [keep])]
    | true =>
      rw [List.filter_cons_of_pos keep, mergeSort_cons_eq trans total,
        mergeSort_cons_eq trans total, List.filter_append, List.filter_cons_of_pos keep, ← ih]
      simp only [List.filter_filter, Bool.and_comm]

end Sorting

/-! ## Repeats -/

theorem nodup_eraseDups [BEq α] [LawfulBEq α] (xs : List α) : xs.eraseDups.Nodup := by
  cases xs with
  | nil => exact List.nodup_nil
  | cons x xs =>
    rw [List.eraseDups_cons, List.nodup_cons, List.mem_eraseDups]
    exact ⟨by simp, nodup_eraseDups _⟩
termination_by xs.length
decreasing_by exact Nat.lt_succ_of_le (List.length_filter_le _ _)

theorem appendNew_cons (x : Bytes) (known xs : List Bytes) :
    appendNew known (x :: xs) = appendNew (if x ∈ known then known else known ++ [x]) xs := by
  simp only [appendNew, List.foldl_cons, List.contains_iff_mem]

theorem appendNew_append (known xs ys : List Bytes) :
    appendNew known (xs ++ ys) = appendNew (appendNew known xs) ys :=
  List.foldl_append

theorem prefix_appendNew (known xs : List Bytes) : known <+: appendNew known xs := by
  induction xs generalizing known with
  | nil => exact List.prefix_rfl
  | cons x xs ih =>
    rw [appendNew_cons]
    split_ifs with old
    · exact ih known
    · exact (List.prefix_append known [x]).trans (ih (known ++ [x]))

theorem mem_appendNew {known xs : List Bytes} {y : Bytes} :
    y ∈ appendNew known xs ↔ y ∈ known ∨ y ∈ xs := by
  induction xs generalizing known with
  | nil => simp [appendNew]
  | cons x xs ih =>
    rw [appendNew_cons, ih, List.mem_cons]
    split_ifs with old
    · grind
    · simp [or_assoc]

theorem nodup_appendNew {known xs : List Bytes} (h : known.Nodup) : (appendNew known xs).Nodup := by
  induction xs generalizing known with
  | nil => exact h
  | cons x xs ih =>
    rw [appendNew_cons]
    split_ifs with old
    · exact ih h
    · exact ih (List.concat_eq_append ▸ h.concat old)

theorem appendNew_distinct {known xs : List Bytes} (h : (known ++ xs).Nodup) :
    appendNew known xs = known ++ xs := by
  induction xs generalizing known with
  | nil => rw [List.append_nil, appendNew, List.foldl_nil]
  | cons x xs ih =>
    rw [List.append_cons] at h ⊢
    have new : x ∉ known := fun old =>
      List.disjoint_of_nodup_append h.of_append_left old (List.mem_singleton_self x)
    rw [appendNew_cons, if_neg new, ih h]

theorem appendNew_nil (xs : List Bytes) : appendNew [] xs = xs.eraseDups := by
  induction xs using List.reverseRecOn with
  | nil => rfl
  | append_singleton xs x ih =>
    rw [appendNew] at ih
    rw [appendNew, List.foldl_concat, ih, List.eraseDups_append]
    simp only [List.contains_iff_mem, List.mem_eraseDups, List.removeAll]
    split_ifs with known
    · simp [known]
    · simp [known, List.eraseDups_cons]

/-! ## Pieces between separators -/

namespace Bytes

theorem splitOn_ne_nil (sep : UInt8) (s : Bytes) : splitOn sep s ≠ [] := by
  cases s with
  | nil => exact List.cons_ne_nil _ _
  | cons b rest =>
    rw [splitOn]
    split_ifs
    · exact List.cons_ne_nil _ _
    · split <;> exact List.cons_ne_nil _ _

theorem splitOn_append (sep : UInt8) (s t : Bytes) :
    splitOn sep (s ++ sep :: t) = splitOn sep s ++ splitOn sep t := by
  induction s with
  | nil => simp [splitOn]
  | cons b rest ih =>
    rw [List.cons_append, splitOn, splitOn, ih]
    split_ifs with isSep
    · rfl
    · obtain ⟨piece, pieces, eq⟩ := List.exists_cons_of_ne_nil (splitOn_ne_nil sep rest)
      rw [eq]
      rfl

theorem splitOn_plain {sep : UInt8} {s : Bytes} (plain : sep ∉ s) : splitOn sep s = [s] := by
  induction s with
  | nil => rfl
  | cons b rest ih =>
    rw [List.mem_cons, not_or] at plain
    rw [splitOn, if_neg (Ne.symm plain.1), ih plain.2]

theorem not_mem_splitOn {sep : UInt8} {s piece : Bytes} (h : piece ∈ splitOn sep s) :
    sep ∉ piece := by
  induction s generalizing piece with
  | nil =>
    rw [List.mem_singleton.1 h]
    exact List.not_mem_nil
  | cons b rest ih =>
    rw [splitOn] at h
    split_ifs at h with isSep
    · rcases List.mem_cons.1 h with rfl | h
      · exact List.not_mem_nil
      · exact ih h
    · split at h
      · next first pieces eq =>
        rw [eq, List.forall_mem_cons] at ih
        rcases List.mem_cons.1 h with rfl | h
        · exact List.not_mem_cons_of_ne_of_not_mem (Ne.symm isSep) ih.1
        · exact ih.2 piece h
      · rw [List.mem_singleton.1 h, List.mem_singleton]
        exact Ne.symm isSep

end Bytes

/-! ## Joined texts -/

namespace Bytes

theorem join_singleton (sep x : Bytes) : join sep [x] = x :=
  List.intercalate_singleton

theorem join_cons_cons (sep x y : Bytes) (rest : List Bytes) :
    join sep (x :: y :: rest) = x ++ sep ++ join sep (y :: rest) :=
  List.intercalate_cons_cons

end Bytes

/-! ## Sets of texts -/

theorem mem_insertSorted {x y : Bytes} {xs : List Bytes} :
    y ∈ insertSorted x xs ↔ y = x ∨ y ∈ xs := by
  induction xs with
  | nil => simp [insertSorted]
  | cons z rest ih =>
    rw [insertSorted]
    split_ifs with before same
    · exact List.mem_cons
    · rw [same, List.mem_cons, or_self_left]
    · rw [List.mem_cons, ih, List.mem_cons]
      tauto

theorem mem_sortedSet {y : Bytes} {xs : List Bytes} : y ∈ sortedSet xs ↔ y ∈ xs := by
  have folded (set : List Bytes) :
      y ∈ xs.foldl (fun set x => insertSorted x set) set ↔ y ∈ set ∨ y ∈ xs := by
    induction xs generalizing set with
    | nil => simp
    | cons x xs ih =>
      rw [List.foldl_cons, ih, mem_insertSorted, List.mem_cons]
      tauto
  rw [sortedSet, folded]
  simp

theorem insertSorted_sorted {xs : List Bytes} (x : Bytes) (sorted : xs.Pairwise (· < ·)) :
    (insertSorted x xs).Pairwise (· < ·) := by
  induction sorted with
  | nil => exact List.pairwise_singleton _ x
  | @cons y rest above sorted ih =>
    rw [insertSorted]
    split_ifs with before same
    · refine List.pairwise_cons.2 ⟨List.forall_mem_cons.2 ⟨before, fun z mem => ?_⟩, .cons above sorted⟩
      exact List.lt_trans before (above z mem)
    · exact .cons above sorted
    · have after : y < x := by
        by_contra notAfter
        exact same (List.le_antisymm notAfter before)
      refine List.pairwise_cons.2 ⟨fun z mem => ?_, ih⟩
      rcases mem_insertSorted.1 mem with rfl | mem
      · exact after
      · exact above z mem

theorem sortedSet_sorted (xs : List Bytes) : (sortedSet xs).Pairwise (· < ·) := by
  have folded (set : List Bytes) (sorted : set.Pairwise (· < ·)) :
      (xs.foldl (fun set x => insertSorted x set) set).Pairwise (· < ·) := by
    induction xs generalizing set with
    | nil => exact sorted
    | cons x xs ih => exact ih _ (insertSorted_sorted x sorted)
  exact folded [] .nil

theorem Bytes.ne_of_lt {x y : Bytes} (h : x < y) : x ≠ y :=
  fun same => List.lt_irrefl y (same ▸ h)

theorem sortedSet_congr {xs ys : List Bytes} (same : ∀ x, x ∈ xs ↔ x ∈ ys) :
    sortedSet xs = sortedSet ys :=
  (sortedSet_sorted xs).eq_of_mem_iff (sortedSet_sorted ys) fun x => by
    rw [mem_sortedSet, mem_sortedSet, same]

theorem insertSorted_sortedSet (x : Bytes) (xs : List Bytes) :
    insertSorted x (sortedSet xs) = sortedSet (x :: xs) :=
  (insertSorted_sorted x (sortedSet_sorted xs)).eq_of_mem_iff (sortedSet_sorted _) fun y => by
    rw [mem_insertSorted, mem_sortedSet, mem_sortedSet, List.mem_cons]

end CodeSmell
