import CodeSmell.Similarity
import Mathlib.Tactic

/-!
The edit distance. `levenshtein` is the recursion on the first elements of two lists, and the least
cost of an `Alignment`, which may be turned around and exchanged. Row by row, `editDistance` holds the
distances of a first part of one list to all first parts of the other, and so comes to `levenshtein`.
-/

namespace CodeSmell

variable {α : Type} [DecidableEq α]

/-- Deletes the first element of the one list, inserts that of the other, or puts the one in the place
of the other, whichever costs least. -/
def levenshtein : List α → List α → Nat
  | [], ys => ys.length
  | _ :: xs, [] => xs.length + 1
  | x :: xs, y :: ys =>
    min (levenshtein xs (y :: ys) + 1)
      (min (levenshtein (x :: xs) ys + 1) (levenshtein xs ys + if x = y then 0 else 1))
termination_by xs ys => xs.length + ys.length

/-- A way to turn one list into another by deletions, insertions and substitutions, and its cost. -/
inductive Alignment : List α → List α → Nat → Prop where
  | nil : Alignment [] [] 0
  | delete {xs ys : List α} {n : Nat} (x : α) : Alignment xs ys n → Alignment (x :: xs) ys (n + 1)
  | insert {xs ys : List α} {n : Nat} (y : α) : Alignment xs ys n → Alignment xs (y :: ys) (n + 1)
  | pair {xs ys : List α} {n : Nat} (x y : α) : Alignment xs ys n →
      Alignment (x :: xs) (y :: ys) (n + if x = y then 0 else 1)

namespace Alignment

variable {xs ys us vs : List α} {m n : Nat}

theorem deletions (xs : List α) : Alignment xs [] xs.length := by
  induction xs with
  | nil => exact nil
  | cons x xs ih => exact ih.delete x

theorem insertions (ys : List α) : Alignment [] ys ys.length := by
  induction ys with
  | nil => exact nil
  | cons y ys ih => exact ih.insert y

theorem refl (xs : List α) : Alignment xs xs 0 := by
  induction xs with
  | nil => exact nil
  | cons x xs ih => simpa using ih.pair x x

theorem symm (h : Alignment xs ys n) : Alignment ys xs n := by
  induction h with
  | nil => exact nil
  | delete x _ ih => exact ih.insert x
  | insert y _ ih => exact ih.delete y
  | pair x y _ ih => simpa only [eq_comm] using ih.pair y x

theorem append (h : Alignment xs ys m) (h' : Alignment us vs n) :
    Alignment (xs ++ us) (ys ++ vs) (m + n) := by
  induction h with
  | nil => simpa using h'
  | delete x _ ih => simpa only [Nat.add_right_comm, List.cons_append] using ih.delete x
  | insert y _ ih => simpa only [Nat.add_right_comm, List.cons_append] using ih.insert y
  | pair x y _ ih => simpa only [Nat.add_right_comm, List.cons_append] using ih.pair x y

theorem reverse (h : Alignment xs ys n) : Alignment xs.reverse ys.reverse n := by
  induction h with
  | nil => exact nil
  | delete x _ ih => simpa using ih.append (nil.delete x)
  | insert y _ ih => simpa using ih.append (nil.insert y)
  | pair x y _ ih => simpa using ih.append (nil.pair x y)

theorem eq_of_zero (h : Alignment xs ys n) (free : n = 0) : xs = ys := by
  induction h with
  | nil => rfl
  | delete | insert => omega
  | pair x y _ ih =>
    by_cases same : x = y
    · rw [if_pos same] at free
      rw [same, ih free]
    · rw [if_neg same] at free
      omega

end Alignment

section Least

variable {xs ys : List α} {n : Nat}

@[simp] theorem levenshtein_nil_left (ys : List α) : levenshtein [] ys = ys.length := by
  rw [levenshtein]

@[simp] theorem levenshtein_nil_right (xs : List α) : levenshtein xs [] = xs.length := by
  cases xs <;> simp [levenshtein]

theorem levenshtein_cons (x y : α) (xs ys : List α) :
    levenshtein (x :: xs) (y :: ys) = min (levenshtein xs (y :: ys) + 1)
      (min (levenshtein (x :: xs) ys + 1) (levenshtein xs ys + if x = y then 0 else 1)) := by
  rw [levenshtein]

theorem alignment_levenshtein (xs ys : List α) : Alignment xs ys (levenshtein xs ys) := by
  fun_induction levenshtein xs ys with
  | case1 ys => exact .insertions ys
  | case2 x xs => exact .deletions (x :: xs)
  | case3 x xs y ys delete insert pair =>
    rcases min_choice (levenshtein xs (y :: ys) + 1) (min (levenshtein (x :: xs) ys + 1)
      (levenshtein xs ys + if x = y then 0 else 1)) with least | least <;> rw [least]
    · exact delete.delete x
    rcases min_choice (levenshtein (x :: xs) ys + 1) (levenshtein xs ys + if x = y then 0 else 1) with
      least | least <;> rw [least]
    · exact insert.insert y
    · exact pair.pair x y

theorem levenshtein_le (h : Alignment xs ys n) : levenshtein xs ys ≤ n := by
  induction h with
  | nil => simp
  | @delete xs ys n x _ ih =>
    cases ys with
    | nil => simpa using ih
    | cons y ys =>
      rw [levenshtein_cons]
      omega
  | @insert xs ys n y _ ih =>
    cases xs with
    | nil => simpa using ih
    | cons x xs =>
      rw [levenshtein_cons]
      omega
  | pair x y _ ih =>
    rw [levenshtein_cons]
    omega

theorem levenshtein_comm (xs ys : List α) : levenshtein xs ys = levenshtein ys xs :=
  Nat.le_antisymm (levenshtein_le (alignment_levenshtein ys xs).symm)
    (levenshtein_le (alignment_levenshtein xs ys).symm)

theorem levenshtein_reverse (xs ys : List α) :
    levenshtein xs.reverse ys.reverse = levenshtein xs ys := by
  refine Nat.le_antisymm (levenshtein_le (alignment_levenshtein xs ys).reverse) (levenshtein_le ?_)
  simpa using (alignment_levenshtein xs.reverse ys.reverse).reverse

theorem levenshtein_concat (x y : α) (xs ys : List α) :
    levenshtein (xs ++ [x]) (ys ++ [y]) = min (levenshtein xs (ys ++ [y]) + 1)
      (min (levenshtein (xs ++ [x]) ys + 1) (levenshtein xs ys + if x = y then 0 else 1)) := by
  rw [← levenshtein_reverse, List.reverse_concat, List.reverse_concat, levenshtein_cons,
    ← List.reverse_concat, ← List.reverse_concat, levenshtein_reverse, levenshtein_reverse,
    levenshtein_reverse]

theorem levenshtein_le_max (xs ys : List α) : levenshtein xs ys ≤ max xs.length ys.length := by
  fun_induction levenshtein xs ys with
  | case1 ys => simp
  | case2 x xs => simp
  | case3 x xs y ys _ _ pair =>
    have cost : (if x = y then 0 else 1) ≤ 1 := by split <;> omega
    simp only [List.length_cons]
    omega

theorem levenshtein_eq_zero {xs ys : List α} : levenshtein xs ys = 0 ↔ xs = ys := by
  refine ⟨(alignment_levenshtein xs ys).eq_of_zero, ?_⟩
  rintro rfl
  exact Nat.le_zero.1 (levenshtein_le (.refl xs))

end Least

/-- The distances of `left` to the first parts of a text, each longer than `seen` and followed by more
of the text. -/
def distances (left seen : List Bytes) : List Bytes → List Nat
  | [] => []
  | y :: ys => levenshtein left (seen ++ [y]) :: distances left (seen ++ [y]) ys

theorem distances_nil_left (seen right : List Bytes) :
    distances [] seen right = List.range' (seen.length + 1) right.length := by
  induction right generalizing seen with
  | nil => rfl
  | cons y ys ih => simp [distances, ih, List.range'_succ]

theorem distanceRow_distances (left seen right : List Bytes) (x : Bytes) :
    distanceRow x (levenshtein left seen) (levenshtein (left ++ [x]) seen) right
      (distances left seen right) = distances (left ++ [x]) seen right := by
  induction right generalizing seen with
  | nil => rfl
  | cons y ys ih => rw [distances, distanceRow, ← levenshtein_concat, ih, distances]

def distancesToParts (left right : List Bytes) : List Nat :=
  levenshtein left [] :: distances left [] right

theorem nextRow_distancesToParts (left right : List Bytes) (x : Bytes) :
    nextRow right (distancesToParts left right) x = distancesToParts (left ++ [x]) right := by
  have above : levenshtein left [] + 1 = levenshtein (left ++ [x]) [] := by simp
  rw [distancesToParts, nextRow, above, distanceRow_distances, distancesToParts]

theorem foldl_nextRow (left more right : List Bytes) :
    more.foldl (nextRow right) (distancesToParts left right) =
      distancesToParts (left ++ more) right := by
  induction more generalizing left with
  | nil => simp
  | cons x more ih => rw [List.foldl_cons, nextRow_distancesToParts, ih, List.append_assoc, List.singleton_append]

theorem range_eq_distancesToParts (right : List Bytes) :
    List.range (right.length + 1) = distancesToParts [] right := by
  rw [distancesToParts, distances_nil_left, levenshtein_nil_left, List.length_nil,
    List.range_eq_range', List.range'_succ]

theorem getLast?_distances (left seen right : List Bytes) :
    (levenshtein left seen :: distances left seen right).getLast? =
      some (levenshtein left (seen ++ right)) := by
  induction right generalizing seen with
  | nil => simp [distances]
  | cons y ys ih => rw [distances, List.getLast?_cons_cons, ih, List.append_assoc, List.singleton_append]

theorem editDistance_eq_levenshtein (left right : List Bytes) :
    editDistance left right = levenshtein left right := by
  rw [editDistance, range_eq_distancesToParts, foldl_nextRow, List.nil_append, distancesToParts,
    getLast?_distances, List.nil_append, Option.getD_some]

end CodeSmell
