import Mathlib.Logic.Basic

/-!
Computations that can fail. One that succeeds tells what each of its steps has given, and whether one
succeeds with a result of some kind is decided by its run.
-/

namespace CodeSmell

variable {ε δ α β : Type} {x : Except ε α}

instance decidableExistsOk {p : α → Prop} [DecidablePred p] : Decidable (∃ a, x = .ok a ∧ p a) :=
  match x with
  | .error _ => isFalse nofun
  | .ok a =>
    decidable_of_iff (p a) ⟨fun h => ⟨a, rfl, h⟩, fun ⟨_, same, h⟩ => Except.ok.inj same ▸ h⟩

instance decidableIsOk : Decidable (∃ a, x = .ok a) :=
  match x with
  | .error _ => isFalse nofun
  | .ok a => isTrue ⟨a, rfl⟩

instance decidableIsError : Decidable (∃ e, x = .error e) :=
  match x with
  | .error e => isTrue ⟨e, rfl⟩
  | .ok _ => isFalse nofun

theorem bind_eq_ok {f : α → Except ε β} {b : β} : x >>= f = .ok b ↔ ∃ a, x = .ok a ∧ f a = .ok b := by
  cases x with
  | error e => exact iff_of_false nofun nofun
  | ok a =>
    refine ⟨fun h => ⟨a, rfl, h⟩, ?_⟩
    rintro ⟨a', same, h⟩
    exact Except.ok.inj same ▸ h

theorem bind_eq_error {f : α → Except ε β} {e : ε} :
    x >>= f = .error e ↔ x = .error e ∨ ∃ a, x = .ok a ∧ f a = .error e := by
  cases x with
  | error e' =>
    refine ⟨fun h => .inl (congrArg _ (Except.error.inj h)), ?_⟩
    rintro (h | ⟨a, same, -⟩)
    · exact congrArg _ (Except.error.inj h)
    · cases same
  | ok a =>
    refine ⟨fun h => .inr ⟨a, rfl, h⟩, ?_⟩
    rintro (same | ⟨a', same, h⟩)
    · cases same
    · exact Except.ok.inj same ▸ h

theorem map_eq_ok {f : α → β} {b : β} : f <$> x = .ok b ↔ ∃ a, x = .ok a ∧ f a = b := by
  cases x with
  | error e => exact iff_of_false nofun nofun
  | ok a =>
    refine ⟨fun h => ⟨a, rfl, Except.ok.inj h⟩, ?_⟩
    rintro ⟨a', same, h⟩
    exact congrArg _ (Except.ok.inj same ▸ h)

theorem mapError_eq_ok {f : ε → δ} {a : α} : x.mapError f = .ok a ↔ x = .ok a := by
  cases x with
  | error e => exact iff_of_false nofun nofun
  | ok a' => exact ⟨fun h => congrArg _ (Except.ok.inj h), fun h => congrArg _ (Except.ok.inj h)⟩

theorem exists_bind_pure_ok {g : α → β} :
    (∃ b, (x >>= fun a => pure (g a)) = .ok b) ↔ ∃ a, x = .ok a := by
  cases x with
  | error e => exact iff_of_false (fun ⟨_, h⟩ => nomatch h) (fun ⟨_, h⟩ => nomatch h)
  | ok a => exact iff_of_true ⟨g a, rfl⟩ ⟨a, rfl⟩

theorem mapM_ok {f : α → Except ε β} {g : α → β} {xs : List α} (h : ∀ x ∈ xs, f x = .ok (g x)) :
    xs.mapM f = .ok (xs.map g) := by
  induction xs with
  | nil => rfl
  | cons x xs ih =>
    rw [List.forall_mem_cons] at h
    rw [List.mapM_cons, h.1, ih h.2]
    rfl

theorem mapM_cons_ok {f : α → Except ε β} {a : α} {xs : List α} {ys : List β} :
    (a :: xs).mapM f = .ok ys ↔ ∃ z zs, f a = .ok z ∧ xs.mapM f = .ok zs ∧ ys = z :: zs := by
  rw [List.mapM_cons, bind_eq_ok]
  constructor
  · rintro ⟨z, first, h⟩
    obtain ⟨zs, others, h⟩ := bind_eq_ok.1 h
    exact ⟨z, zs, first, others, (Except.ok.inj h).symm⟩
  · rintro ⟨z, zs, first, others, rfl⟩
    exact ⟨z, first, bind_eq_ok.2 ⟨zs, others, rfl⟩⟩

theorem exists_mapM_ok {f : α → Except ε β} {xs : List α} :
    (∃ ys, xs.mapM f = .ok ys) ↔ ∀ x ∈ xs, ∃ y, f x = .ok y := by
  induction xs with
  | nil => exact iff_of_true ⟨[], rfl⟩ nofun
  | cons x xs ih =>
    simp only [List.forall_mem_cons, ← ih, mapM_cons_ok]
    constructor
    · rintro ⟨_, z, zs, first, others, rfl⟩
      exact ⟨⟨z, first⟩, zs, others⟩
    · rintro ⟨⟨z, first⟩, zs, others⟩
      exact ⟨_, z, zs, first, others, rfl⟩

theorem mem_of_mapM_ok {f : α → Except ε β} {xs : List α} {ys : List β} {y : β}
    (h : xs.mapM f = .ok ys) (mem : y ∈ ys) : ∃ x ∈ xs, f x = .ok y := by
  induction xs generalizing ys with
  | nil =>
    obtain rfl := Except.ok.inj h
    cases mem
  | cons x xs ih =>
    obtain ⟨z, zs, first, others, rfl⟩ := mapM_cons_ok.1 h
    rcases List.mem_cons.1 mem with rfl | mem
    · exact ⟨x, .head _, first⟩
    · obtain ⟨x', mem', found⟩ := ih others mem
      exact ⟨x', .tail _ mem', found⟩

theorem allM_eq_true {f : α → Except ε Bool} {xs : List α} (h : xs.allM f = .ok true) :
    ∀ x ∈ xs, f x = .ok true := by
  induction xs with
  | nil => exact nofun
  | cons x xs ih =>
    rw [List.allM, bind_eq_ok] at h
    obtain ⟨holds, first, h⟩ := h
    cases holds with
    | false => cases h
    | true => exact List.forall_mem_cons.2 ⟨first, ih h⟩

theorem anyM_eq_false {f : α → Except ε Bool} {xs : List α} (h : xs.anyM f = .ok false) :
    ∀ x ∈ xs, f x = .ok false := by
  induction xs with
  | nil => exact nofun
  | cons x xs ih =>
    rw [List.anyM, bind_eq_ok] at h
    obtain ⟨holds, first, h⟩ := h
    cases holds with
    | true => cases h
    | false => exact List.forall_mem_cons.2 ⟨first, ih h⟩

end CodeSmell
