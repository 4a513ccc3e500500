import CodeSmell.Proofs.Detector.Order
import CodeSmell.Proofs.Detector.Place
import CodeSmell.Proofs.Registry.Session

/-!
Selecting detectors by name. The detectors of a selection are some of those that the options enable,
in the same order, and each finds only smells of its own kind. So what a selection finds is what all
enabled detectors find, without the kinds that are not selected.
-/

namespace CodeSmell

theorem Smell.ofName?_name (kind : Smell) : ofName? kind.name = some kind := by
  cases kind <;> decide

theorem Smell.mem_all (kind : Smell) : kind ∈ all := by
  cases kind <;> decide

theorem Smell.name_injective : Function.Injective name := fun a b same =>
  Option.some.inj (by rw [← ofName?_name a, ← ofName?_name b, same])

def DetectionOptions.enabledKinds (options : DetectionOptions) : List Smell :=
  Smell.all.filter options.isEnabled

namespace Registry

variable {options : DetectionOptions} {only exclude : List Bytes}

theorem standard_names : standard.detectors.names = Smell.all.map Smell.name := by
  rw [standard_holds.1.names, List.map_map]
  rfl

/-- The names are those of detectors, in any case and with any separators. -/
def Known (names : List Bytes) : Prop :=
  ∀ name ∈ names, ∃ kind : Smell, looseName name = looseName kind.name

theorem detectorNamed?_known {name : Bytes} {kind : Smell}
    (known : looseName name = looseName kind.name) :
    ∃ found, standard.detectorNamed? name = some found := by
  have listed : kind.name ∈ standard.detectors.names := by
    rw [standard_names]
    exact List.mem_map_of_mem kind.mem_all
  refine Option.isSome_iff_exists.1 (List.find?_isSome.2 ⟨kind.name, listed, ?_⟩)
  rw [known, beq_self_eq_true]

theorem resolveNames_known (option : Bytes) {names : List Bytes} (known : Known names) :
    ∃ found, standard.resolveNames option names = .ok found := by
  refine exists_mapM_ok.2 fun name mem => ?_
  obtain ⟨kind, same⟩ := known name mem
  obtain ⟨found, isFound⟩ := detectorNamed?_known same
  exact ⟨found, by rw [isFound]⟩

theorem activeDetectors_eq {selected excluded : List Bytes}
    (isSelected : standard.resolveNames "only" only = .ok selected)
    (isExcluded : standard.resolveNames "exclude" exclude = .ok excluded) :
    standard.activeDetectors options only exclude = .ok ((options.enabledKinds.filter fun kind =>
      (selected.isEmpty || selected.contains kind.name) && !excluded.contains kind.name).map
        Smell.name) := by
  have enabled (kind : Smell) : (Smell.ofName? kind.name).all options.isEnabled =
      options.isEnabled kind := by
    rw [Smell.ofName?_name, Option.all_some]
  rw [activeDetectors, isSelected, isExcluded, DetectionOptions.enabledKinds, List.filter_filter]
  simp only [bind, Except.bind, pure, Except.pure, standard_names, List.filter_map, Function.comp_def,
    enabled]
  simp only [Bool.and_assoc, Bool.and_comm (options.isEnabled _)]

theorem activeDetectors_all :
    standard.activeDetectors options [] [] = .ok (options.enabledKinds.map Smell.name) := by
  rw [activeDetectors_eq rfl rfl]
  simp

theorem makeDetector_name {kind : Smell} (valid : options.validate kind = .ok ()) :
    standard.makeDetector kind.name options = .ok { kind, detect := kind.findings options } := by
  have named : kind.name.isEmpty = false := by
    cases kind <;> rfl
  have resolved : standard.detectors.resolve .detector kind.name =
      .ok (kind.name, (builtInDetector kind).factory) := by
    refine Components.resolve_eq_ok.2 ⟨?_, (standard_holds.1.found _ _).2 ?_⟩
    · rw [Components.target, named, if_neg Bool.false_ne_true]
    · exact ⟨builtInDetector kind, List.mem_map_of_mem kind.mem_all, rfl, rfl⟩
  rw [makeDetector, named, if_neg Bool.false_ne_true, resolved]
  simp [builtInDetector, Detector.builtIn, valid, bind, Except.bind, pure, Except.pure]

theorem makeDetectors_names (valid : ∀ kind, options.validate kind = .ok ()) (kinds : List Smell) :
    (kinds.map Smell.name).mapM (fun name => standard.makeDetector name options) =
      .ok (kinds.map fun kind => { kind, detect := kind.findings options }) := by
  rw [List.mapM_map]
  exact mapM_ok fun kind _ => makeDetector_name (valid kind)

theorem findings_filter (m : ModuleModel) {kinds : List Smell} {keep p : Smell → Bool}
    (same : ∀ kind ∈ kinds, p kind = keep kind) :
    m.findings ((kinds.filter keep).map fun kind => { kind, detect := kind.findings options }) =
      (m.findings (kinds.map fun kind => { kind, detect := kind.findings options })).filter
        fun f => p f.kind := by
  rw [ModuleModel.findings_eq, ModuleModel.findings_eq, Finding.filter_sort, List.flatMap_map,
    List.flatMap_map]
  refine congrArg Finding.sort (filter_flatMap_eq fun kind mem f found => ?_).symm
  rw [Smell.findings_kind found, same kind mem]

structure Selects (options : DetectionOptions) (only exclude names : List Bytes)
    (detectors : List Detector) : Prop where
  active : standard.activeDetectors options only exclude = .ok names
  made : names.mapM (fun name => standard.makeDetector name options) = .ok detectors

/-- A selection by known names and the selection of everything that is enabled can both be made. In
any module the first finds, in the same order, those findings of the second whose kinds it has. -/
theorem selection_filters (valid : ∀ kind, options.validate kind = .ok ())
    (known : Known (only ++ exclude)) : ∃ names detectors allNames allDetectors,
      Selects options only exclude names detectors ∧
      Selects options [] [] allNames allDetectors ∧
      detectors.map (·.kind.name) = names ∧
      ∀ m : ModuleModel, m.findings detectors =
        (m.findings allDetectors).filter fun f => names.contains f.kind.name := by
  obtain ⟨knownOnly, knownExclude⟩ := List.forall_mem_append.1 known
  obtain ⟨selected, isSelected⟩ := resolveNames_known "only" knownOnly
  obtain ⟨excluded, isExcluded⟩ := resolveNames_known "exclude" knownExclude
  let keep (kind : Smell) : Bool :=
    (selected.isEmpty || selected.contains kind.name) && !excluded.contains kind.name
  let kinds := options.enabledKinds.filter keep
  refine ⟨kinds.map Smell.name, _, options.enabledKinds.map Smell.name, _,
    ⟨activeDetectors_eq isSelected isExcluded, makeDetectors_names valid kinds⟩,
    ⟨activeDetectors_all, makeDetectors_names valid options.enabledKinds⟩, ?_, fun m => ?_⟩
  · rw [List.map_map]
    rfl
  · refine findings_filter m (p := fun kind => (kinds.map Smell.name).contains kind.name)
      fun kind mem => ?_
    rw [Bool.eq_iff_iff, List.contains_iff_mem, List.mem_map_of_injective Smell.name_injective,
      List.mem_filter]
    exact and_iff_right mem

theorem selection_filters_loose_names :
    (∀ kind, DetectionOptions.validate {} kind = .ok ()) ∧
    Known (["magic numbers", "LONG_METHOD"] ++ ["Long-Method"]) ∧
    ∃ names detectors allNames allDetectors,
      Selects {} ["magic numbers", "LONG_METHOD"] ["Long-Method"] names detectors ∧
      Selects {} [] [] allNames allDetectors ∧
      detectors.map (·.kind.name) = names ∧
      ∀ m : ModuleModel, m.findings detectors =
        (m.findings allDetectors).filter fun f => names.contains f.kind.name := by
  have valid : ∀ kind, DetectionOptions.validate {} kind = .ok () := fun kind => by
    cases kind <;> rfl
  have known : Known (["magic numbers", "LONG_METHOD"] ++ ["Long-Method"]) := by
    intro name mem
    have named : Smell.all.any (fun kind => looseName name = looseName kind.name) = true := by
      revert name
      decide
    obtain ⟨kind, -, same⟩ := List.any_eq_true.1 named
    exact ⟨kind, of_decide_eq_true same⟩
  exact ⟨valid, known, selection_filters valid known⟩

end Registry

end CodeSmell
