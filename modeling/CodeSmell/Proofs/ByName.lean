import CodeSmell.ByName
import CodeSmell.Proofs.Lists
import Mathlib.Tactic.SplitIfs

/-!
Updates of values by name. A new name gets a value of its own and the other names keep theirs; where
the names are in order, an update is an insertion into them.
-/

namespace CodeSmell.ByName

variable {α : Type} {values : ByName α} {name : Bytes}

theorem new_cons {other : Bytes} {value : α} (new : List.lookup name ((other, value) :: values) = none) :
    name ≠ other ∧ values.lookup name = none := by
  rw [lookup_cons] at new
  split at new
  · cases new
  · next different => exact ⟨different, new⟩

theorem lookup_update_new (new : values.lookup name = none) (value : Option α → α)
    (other : Bytes) : (values.update name value).lookup other =
      if other = name then some (value none) else values.lookup other := by
  induction values with
  | nil => rw [update, lookup_cons]
  | cons entry rest ih =>
    obtain ⟨key, old⟩ := entry
    obtain ⟨different, new⟩ := new_cons new
    rw [update, if_neg different]
    split
    · rw [lookup_cons]
    · rw [lookup_cons, lookup_cons, ih new]
      by_cases same : other = key
      · rw [if_pos same, if_neg (same ▸ different.symm), if_pos same]
      · rw [if_neg same, if_neg same]

theorem keys_update_new (new : values.lookup name = none) (value : Option α → α) :
    ((values.update name value).map Prod.fst).Perm (name :: values.map Prod.fst) := by
  induction values with
  | nil => exact .refl _
  | cons entry rest ih =>
    obtain ⟨key, old⟩ := entry
    obtain ⟨different, new⟩ := new_cons new
    rw [update, if_neg different]
    split
    · exact .refl _
    · exact ((ih new).cons key).trans (.swap name key _)

theorem update_map {keys : List Bytes} {value : Bytes → α} {default : α}
    (sorted : keys.Pairwise (· < ·)) (absent : name ∉ keys → value name = default)
    (change : α → α) :
    update name (fun old => change (old.getD default)) (keys.map fun key => (key, value key)) =
      (insertSorted name keys).map fun key =>
        (key, if key = name then change (value key) else value key) := by
  have others {rest : List Bytes} (different : ∀ key ∈ rest, key ≠ name) :
      rest.map (fun key => (key, value key)) =
        rest.map fun key => (key, if key = name then change (value key) else value key) :=
    List.map_congr_left fun key mem => by rw [if_neg (different key mem)]
  induction sorted with
  | nil => simp [update, insertSorted, absent]
  | @cons key rest above sorted ih =>
    rw [List.map_cons, update, insertSorted]
    -- An absent name falls before a later one, and one that is there keeps its place.
    split_ifs with before same
    · have different : ∀ other ∈ key :: rest, other ≠ name :=
        List.forall_mem_cons.2 ⟨(Bytes.ne_of_lt before).symm, fun other mem =>
          (Bytes.ne_of_lt (List.lt_trans before (above other mem))).symm⟩
      have new : value name = default := absent fun mem => different name mem rfl
      rw [List.map_cons, ← others different]
      simp [new]
    · have different : ∀ other ∈ rest, other ≠ name := fun other mem =>
        (Bytes.ne_of_lt (same ▸ above other mem)).symm
      rw [List.map_cons, ← others different]
      simp [same]
    · rw [List.map_cons, ← ih fun new => absent (by simp [same, new])]
      simp [Ne.symm same]

end CodeSmell.ByName
