import CodeSmell.Proofs.Registry.Session

/-!
Which detectors a selection leaves active. An entry of a selection stands for the first registered name
that is the same but for case and separators. So where two registered names differ in nothing else, a
selection reaches only the earlier of them; where no two do, an entry stands for every name that it
matches.
-/

namespace CodeSmell.Registry

def Matches (names : List Bytes) (name : Bytes) : Prop := ∃ n ∈ names, looseName n = looseName name

instance (names : List Bytes) (name : Bytes) : Decidable (Matches names name) :=
  inferInstanceAs (Decidable (∃ n ∈ names, looseName n = looseName name))

theorem eq_nil_iff_not_matches {names : List Bytes} : names = [] ↔ ∀ name, ¬Matches names name := by
  constructor
  · rintro rfl name ⟨n, mem, -⟩
    cases mem
  · exact fun none => List.eq_nil_iff_forall_not_mem.2 fun n mem => none n ⟨n, mem, rfl⟩

theorem matches_trans {entries names : List Bytes} {name : Bytes}
    (known : ∀ entry ∈ entries, Matches names entry) (h : Matches entries name) :
    Matches names name := by
  obtain ⟨entry, mem, same⟩ := h
  obtain ⟨n, mem, same'⟩ := known entry mem
  exact ⟨n, mem, same'.trans same⟩

theorem forall_matches_congr {entries entries' names : List Bytes}
    (same : ∀ name, Matches entries name ↔ Matches entries' name) :
    (∀ entry ∈ entries, Matches names entry) ↔ ∀ entry ∈ entries', Matches names entry := by
  constructor
  · exact fun known entry mem => matches_trans known ((same entry).2 ⟨entry, mem, rfl⟩)
  · exact fun known entry mem => matches_trans known ((same entry).1 ⟨entry, mem, rfl⟩)

theorem matches_cons {n name : Bytes} {names : List Bytes} :
    Matches (n :: names) name ↔ looseName n = looseName name ∨ Matches names name := by
  simp [Matches]

def IsFirst (names : List Bytes) (name : Bytes) : Prop :=
  ∃ before after, names = before ++ name :: after ∧ ∀ n ∈ before, looseName n ≠ looseName name

theorem find?_looseName {names : List Bytes} {name found : Bytes} :
    names.find? (fun n => looseName n == looseName name) = some found ↔
      looseName found = looseName name ∧ IsFirst names found := by
  rw [List.find?_eq_some_iff_append, beq_iff_eq]
  refine and_congr_right fun same => exists_congr fun before => exists_congr fun after =>
    and_congr_right fun _ => forall₂_congr fun n _ => ?_
  rw [same, Bool.not_eq_true', beq_eq_false_iff_ne]

instance (names : List Bytes) (name : Bytes) : Decidable (IsFirst names name) :=
  decidable_of_iff (names.find? (fun n => looseName n == looseName name) = some name)
    (find?_looseName.trans (and_iff_right rfl))

theorem isFirst_of_nodup {names : List Bytes} {name : Bytes} (distinct : (names.map looseName).Nodup)
    (mem : name ∈ names) : IsFirst names name := by
  obtain ⟨before, after, rfl⟩ := List.append_of_mem mem
  refine ⟨before, after, rfl, fun n earlier same => ?_⟩
  rw [List.map_append, List.map_cons] at distinct
  exact (List.nodup_append.1 distinct).2.2 _ (List.mem_map_of_mem earlier) _ (.head _) same

/-- The detector is enabled, or of no known kind; it is chosen, if there is a choice; and it is not
excluded. -/
structure Chosen (options : DetectionOptions) (only exclude : List Bytes) (name : Bytes) : Prop where
  enabled : (Smell.ofName? name).all options.isEnabled = true
  selected : only = [] ∨ Matches only name
  kept : ¬Matches exclude name

/-- As `Chosen`, but only the first of several names that are the same can be chosen or excluded. -/
structure Active (names : List Bytes) (options : DetectionOptions) (only exclude : List Bytes)
    (name : Bytes) : Prop where
  enabled : (Smell.ofName? name).all options.isEnabled = true
  selected : only = [] ∨ Matches only name ∧ IsFirst names name
  kept : ¬(Matches exclude name ∧ IsFirst names name)

section Decidable

variable (names : List Bytes) (options : DetectionOptions) (only exclude : List Bytes) (name : Bytes)

instance : Decidable (Chosen options only exclude name) :=
  decidable_of_iff ((Smell.ofName? name).all options.isEnabled = true ∧
      (only = [] ∨ Matches only name) ∧ ¬Matches exclude name)
    ⟨fun ⟨enabled, selected, kept⟩ => ⟨enabled, selected, kept⟩,
      fun ⟨enabled, selected, kept⟩ => ⟨enabled, selected, kept⟩⟩

instance : Decidable (Active names options only exclude name) :=
  decidable_of_iff ((Smell.ofName? name).all options.isEnabled = true ∧
      (only = [] ∨ Matches only name ∧ IsFirst names name) ∧
      ¬(Matches exclude name ∧ IsFirst names name))
    ⟨fun ⟨enabled, selected, kept⟩ => ⟨enabled, selected, kept⟩,
      fun ⟨enabled, selected, kept⟩ => ⟨enabled, selected, kept⟩⟩

end Decidable

theorem active_iff_chosen {names : List Bytes} {options : DetectionOptions} {only exclude : List Bytes}
    {name : Bytes} (first : IsFirst names name) :
    Active names options only exclude name ↔ Chosen options only exclude name := by
  constructor
  · intro h
    exact ⟨h.enabled, h.selected.imp_right And.left, fun excluded => h.kept ⟨excluded, first⟩⟩
  · intro h
    exact ⟨h.enabled, h.selected.imp_right fun chosen => ⟨chosen, first⟩, fun found => h.kept found.1⟩

section Entries

variable {ρ : Type} {r : Registry ρ} {option entry found : Bytes} {entries : List Bytes}

theorem detectorNamed?_eq_some : r.detectorNamed? entry = some found ↔
    looseName found = looseName entry ∧ IsFirst r.detectors.names found :=
  find?_looseName

theorem detectorNamed?_eq_none :
    r.detectorNamed? entry = none ↔ ¬Matches r.detectors.names entry := by
  rw [detectorNamed?, List.find?_eq_none, Matches]
  simp

theorem resolveNames_matching (option : Bytes) (known : ∀ entry ∈ entries, Matches r.detectors.names entry) :
    ∃ names, r.resolveNames option entries = .ok names ∧
      List.Forall₂ (fun entry name => r.detectorNamed? entry = some name) entries names := by
  unfold resolveNames
  induction entries with
  | nil => exact ⟨[], rfl, .nil⟩
  | cons entry entries ih =>
    rw [List.forall_mem_cons] at known
    obtain ⟨names, resolved, related⟩ := ih known.2
    cases found : r.detectorNamed? entry with
    | none => exact absurd known.1 (detectorNamed?_eq_none.1 found)
    | some name =>
      refine ⟨name :: names, ?_, .cons found related⟩
      rw [List.mapM_cons, found, resolved]
      rfl

theorem resolveNames_unmatched (option : Bytes)
    (unknown : ∃ entry ∈ entries, ¬Matches r.detectors.names entry) :
    ∃ entry ∈ entries, ¬Matches r.detectors.names entry ∧
      r.resolveNames option entries = .error (.unknownDetector entry option r.detectors.names) := by
  unfold resolveNames
  induction entries with
  | nil => simp at unknown
  | cons entry entries ih =>
    rw [List.mapM_cons]
    cases found : r.detectorNamed? entry with
    | none => exact ⟨entry, .head _, detectorNamed?_eq_none.1 found, rfl⟩
    | some name =>
      have later : ∃ entry ∈ entries, ¬Matches r.detectors.names entry := by
        obtain ⟨other, mem, unknown⟩ := unknown
        rcases List.mem_cons.1 mem with rfl | mem
        · rw [← detectorNamed?_eq_none, found] at unknown
          cases unknown
        · exact ⟨other, mem, unknown⟩
      obtain ⟨other, mem, unknown, refused⟩ := ih later
      refine ⟨other, .tail _ mem, unknown, ?_⟩
      rw [refused]
      rfl

theorem mem_resolved {names : List Bytes}
    (related : List.Forall₂ (fun entry name => r.detectorNamed? entry = some name) entries names) :
    found ∈ names ↔ Matches entries found ∧ IsFirst r.detectors.names found := by
  induction related with
  | nil => simp [Matches]
  | @cons entry name entries names resolved related ih =>
    obtain ⟨same, first⟩ := detectorNamed?_eq_some.1 resolved
    rw [List.mem_cons, ih, matches_cons, or_and_right]
    refine or_congr_left ?_
    constructor
    · rintro rfl
      exact ⟨same.symm, first⟩
    · rintro ⟨same', first'⟩
      -- both are the first name of their kind
      have found := find?_looseName.2 ⟨same'.symm, first'⟩
      rw [← detectorNamed?, resolved] at found
      exact (Option.some.inj found).symm

end Entries

structure Exact {ρ : Type} (r : Registry ρ) (options : DetectionOptions) (only exclude : List Bytes) :
    Prop where
  refused : (∃ entry ∈ only ++ exclude, ¬Matches r.detectors.names entry) →
    ∃ entry ∈ only ++ exclude, ¬Matches r.detectors.names entry ∧ ∃ option,
      r.activeDetectors options only exclude =
        .error (.unknownDetector entry option r.detectors.names)
  resolved : (∀ entry ∈ only ++ exclude, Matches r.detectors.names entry) →
    r.activeDetectors options only exclude =
      .ok (r.detectors.names.filter fun name => Active r.detectors.names options only exclude name)
  distinct : (r.detectors.names.map looseName).Nodup → ∀ name ∈ r.detectors.names,
    (Active r.detectors.names options only exclude name ↔ Chosen options only exclude name)
  same : ∀ only' exclude', (∀ name, Matches only name ↔ Matches only' name) →
    (∀ name, Matches exclude name ↔ Matches exclude' name) →
    (r.activeDetectors options only exclude).toOption =
      (r.activeDetectors options only' exclude').toOption

section Selections

variable {ρ : Type} {r : Registry ρ} {options : DetectionOptions} {only exclude : List Bytes}

theorem activeDetectors_matching
    (known : ∀ entry ∈ only ++ exclude, Matches r.detectors.names entry) :
    r.activeDetectors options only exclude =
      .ok (r.detectors.names.filter fun name => Active r.detectors.names options only exclude name) := by
  obtain ⟨knownOnly, knownExclude⟩ := List.forall_mem_append.1 known
  obtain ⟨selected, isSelected, relatedOnly⟩ := resolveNames_matching "only" knownOnly
  obtain ⟨excluded, isExcluded, relatedExclude⟩ := resolveNames_matching "exclude" knownExclude
  have empty : selected = [] ↔ only = [] := by
    rw [← List.length_eq_zero_iff, ← relatedOnly.length_eq, List.length_eq_zero_iff]
  rw [activeDetectors, isSelected, isExcluded]
  refine congrArg Except.ok (List.filter_congr fun name _ => ?_)
  rw [Bool.eq_iff_iff, decide_eq_true_iff, Bool.and_eq_true, Bool.and_eq_true, Bool.or_eq_true,
    List.isEmpty_iff, empty, List.contains_iff_mem, mem_resolved relatedOnly, Bool.not_eq_true',
    ← Bool.not_eq_true, List.contains_iff_mem, mem_resolved relatedExclude]
  constructor
  · rintro ⟨⟨enabled, selected⟩, kept⟩
    exact ⟨enabled, selected, kept⟩
  · intro active
    exact ⟨⟨active.enabled, active.selected⟩, active.kept⟩

theorem activeDetectors_unmatched
    (unknown : ∃ entry ∈ only ++ exclude, ¬Matches r.detectors.names entry) :
    ∃ entry ∈ only ++ exclude, ¬Matches r.detectors.names entry ∧ ∃ option,
      r.activeDetectors options only exclude =
        .error (.unknownDetector entry option r.detectors.names) := by
  by_cases first : ∃ entry ∈ only, ¬Matches r.detectors.names entry
  · obtain ⟨entry, mem, unknown, refused⟩ := resolveNames_unmatched "only" first
    refine ⟨entry, List.mem_append_left _ mem, unknown, "only", ?_⟩
    rw [activeDetectors, refused]
    rfl
  · have knownOnly : ∀ entry ∈ only, Matches r.detectors.names entry := by simpa using first
    obtain ⟨selected, isSelected, -⟩ := resolveNames_matching "only" knownOnly
    have second : ∃ entry ∈ exclude, ¬Matches r.detectors.names entry := by
      obtain ⟨entry, mem, unknown⟩ := unknown
      refine ⟨entry, (List.mem_append.1 mem).resolve_left fun mem => ?_, unknown⟩
      exact unknown (knownOnly entry mem)
    obtain ⟨entry, mem, unknown, refused⟩ := resolveNames_unmatched "exclude" second
    refine ⟨entry, List.mem_append_right _ mem, unknown, "exclude", ?_⟩
    rw [activeDetectors, isSelected, refused]
    rfl

theorem activeDetectors_same {only' exclude' : List Bytes}
    (sameOnly : ∀ name, Matches only name ↔ Matches only' name)
    (sameExclude : ∀ name, Matches exclude name ↔ Matches exclude' name) :
    (r.activeDetectors options only exclude).toOption =
      (r.activeDetectors options only' exclude').toOption := by
  have known_iff : (∀ entry ∈ only ++ exclude, Matches r.detectors.names entry) ↔
      ∀ entry ∈ only' ++ exclude', Matches r.detectors.names entry := by
    rw [List.forall_mem_append, List.forall_mem_append]
    exact and_congr (forall_matches_congr sameOnly) (forall_matches_congr sameExclude)
  by_cases known : ∀ entry ∈ only ++ exclude, Matches r.detectors.names entry
  · have empty : only = [] ↔ only' = [] := by
      simp only [eq_nil_iff_not_matches, sameOnly]
    rw [activeDetectors_matching known, activeDetectors_matching (known_iff.1 known)]
    refine congrArg some (List.filter_congr fun name _ => decide_eq_decide.2 ?_)
    constructor
    · intro h
      exact ⟨h.enabled, by rw [← empty, ← sameOnly]; exact h.selected, by
        rw [← sameExclude]; exact h.kept⟩
    · intro h
      exact ⟨h.enabled, by rw [empty, sameOnly]; exact h.selected, by
        rw [sameExclude]; exact h.kept⟩
  · have unknown' := mt known_iff.2 known
    push Not at known unknown'
    obtain ⟨_, -, -, _, refused⟩ := activeDetectors_unmatched known
    obtain ⟨_, -, -, _, refused'⟩ := activeDetectors_unmatched unknown'
    rw [refused, refused']
    rfl

end Selections

/-- A selection comes to an error if an entry matches no registered name, and else to the names that it
leaves active. It depends on nothing but the names that its entries match. -/
theorem activeDetectors_exact {ρ : Type} (r : Registry ρ) (options : DetectionOptions)
    (only exclude : List Bytes) : r.Exact options only exclude where
  refused := activeDetectors_unmatched
  resolved := activeDetectors_matching
  distinct distinct _ mem := active_iff_chosen (isFirst_of_nodup distinct mem)
  same _ _ := activeDetectors_same

example : (standard.detectors.names.map looseName).Nodup := by decide

def twoCases : Registry ReportFormat :=
  session [.detector "foo" (some (builtInDetector .longMethod).factory),
    .detector "FOO" (some (builtInDetector .godClass).factory)]

theorem excluded_name_active : twoCases.detectors.names = ["foo", "FOO"] ∧
    Matches twoCases.detectors.names "FOO" ∧
    twoCases.activeDetectors {} [] ["FOO"] = .ok ["FOO"] ∧
    twoCases.detectors.names.filter (fun name => Chosen {} [] ["FOO"] name) = [] := by
  refine ⟨rfl, ?_, rfl, ?_⟩ <;> decide

end CodeSmell.Registry
