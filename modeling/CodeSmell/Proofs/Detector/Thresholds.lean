import CodeSmell.Proofs.Detector.Pairs
import CodeSmell.Proofs.Detector.Place

/-!
Options with looser thresholds. A threshold only decides which functions, classes, groups and pairs are
reported, so a looser one keeps all findings and adds others between them; messages and measures name
the threshold and may differ, what a finding is about does not.
-/

namespace CodeSmell

structure LongMethod.Options.Looser (o o' : LongMethod.Options) : Prop where
  maxLines : o'.maxLines ≤ o.maxLines
  maxComplexity : o'.maxComplexity ≤ o.maxComplexity

structure GodClass.Options.Looser (o o' : GodClass.Options) : Prop where
  maxFields : o'.maxFields ≤ o.maxFields
  maxMethods : o'.maxMethods ≤ o.maxMethods
  maxLines : o'.maxLines ≤ o.maxLines

structure LargeParameterList.Options.Looser (o o' : LargeParameterList.Options) : Prop where
  maxParameters : o'.maxParameters ≤ o.maxParameters

structure MagicNumbers.Options.Looser (o o' : MagicNumbers.Options) : Prop where
  whitelist : o'.whitelist = o.whitelist
  minValue : o'.minValue = o.minValue
  maxValue : o'.maxValue = o.maxValue
  ignoreConstantDefinitions : o'.ignoreConstantDefinitions = o.ignoreConstantDefinitions
  minOccurrences : o'.minOccurrences ≤ o.minOccurrences

structure DuplicatedCode.Options.Looser (o o' : DuplicatedCode.Options) : Prop where
  minSimilarity : o'.minSimilarity = o.minSimilarity
  minChunkSize : o'.minChunkSize ≤ o.minChunkSize

structure FeatureEnvy.Options.Looser (o o' : FeatureEnvy.Options) : Prop where
  foreignAccessRatio : o'.foreignAccessRatio = o.foreignAccessRatio
  minForeignAccesses : o'.minForeignAccesses ≤ o.minForeignAccesses

/-- The options of the detector differ in whole thresholds only, and the second ones are nowhere
stricter. -/
def DetectionOptions.Looser (kind : Smell) (options options' : DetectionOptions) : Prop :=
  match kind with
  | .longMethod => options.longMethod.Looser options'.longMethod
  | .godClass => options.godClass.Looser options'.godClass
  | .largeParameterList => options.largeParameterList.Looser options'.largeParameterList
  | .magicNumbers => options.magicNumbers.Looser options'.magicNumbers
  | .duplicatedCode => options.duplicatedCode.Looser options'.duplicatedCode
  | .featureEnvy => options.featureEnvy.Looser options'.featureEnvy

def Finding.topic (x : Finding) : Bytes × LineRange × Bytes × List Bytes :=
  (x.file, x.lines, x.subject, x.evidence)

/-- The second findings are about all that the first ones are about, in the same order. -/
def Finding.Among (xs ys : List Finding) : Prop :=
  (xs.map Finding.topic).Sublist (ys.map Finding.topic)

namespace Finding

variable {α : Type} {p q : Prop} [Decidable p] [Decidable q]

theorem among_single {x y : Finding} (same : x.topic = y.topic) : Among [x] [y] := by
  rw [Among, List.map_singleton, List.map_singleton, same]

theorem Among.ite {xs ys : List Finding} (weaker : q → p) (among : Among xs ys) :
    Among (if p then [] else xs) (if q then [] else ys) := by
  by_cases dropped : p
  · rw [if_pos dropped]
    exact List.nil_sublist _
  · rw [if_neg dropped, if_neg (mt weaker dropped)]
    exact among

theorem Among.flatMap {xs : List α} {f g : α → List Finding} (each : ∀ x ∈ xs, Among (f x) (g x)) :
    Among (xs.flatMap f) (xs.flatMap g) := by
  rw [Among, List.map_flatMap, List.map_flatMap]
  exact List.Sublist.flatMap_right xs each

theorem among_of_sublist {xs ys : List α} (part : xs.Sublist ys) (f : α → List Finding) :
    Among (xs.flatMap f) (ys.flatMap f) :=
  (part.flatMap f).map topic

theorem Among.trans {xs ys zs : List Finding} (first : Among xs ys) (second : Among ys zs) :
    Among xs zs :=
  List.Sublist.trans first second

end Finding

open Finding

variable {m : ModuleModel} {path : Bytes}

theorem LongMethod.findings_among {o o' : LongMethod.Options} (looser : o.Looser o')
    (f : FunctionModel) : Among (findings o path f) (findings o' path f) := by
  refine Among.ite ?_ (among_single rfl)
  have := looser.maxLines
  have := looser.maxComplexity
  simp only [Bool.and_eq_true, Bool.not_eq_true', decide_eq_false_iff_not]
  omega

theorem LargeParameterList.findings_among {o o' : LargeParameterList.Options}
    (looser : o.Looser o') (f : FunctionModel) : Among (findings o path f) (findings o' path f) :=
  Among.ite (fun few => few.trans looser.maxParameters) (among_single rfl)

theorem GodClass.findings_among {o o' : GodClass.Options} (looser : o.Looser o')
    (c : ClassModel) : Among (findings o path c) (findings o' path c) := by
  refine Among.ite ?_ (among_single ?_)
  · have := looser.maxFields
    have := looser.maxMethods
    have := looser.maxLines
    simp only [List.isEmpty_iff, List.append_eq_nil_iff, ite_eq_right_iff, List.cons_ne_nil, imp_false]
    omega
  · -- not by `rfl`, which compares the measures as well
    simp only [topic]

theorem MagicNumbers.findings_among {o o' : MagicNumbers.Options} (looser : o.Looser o')
    (g : Group) : Among (findings o path g) (findings o' path g) :=
  Among.ite (fun few => few.trans_le looser.minOccurrences) (among_single rfl)

theorem MagicNumbers.isCounted_looser {o o' : MagicNumbers.Options} (looser : o.Looser o') :
    isCounted o' = isCounted o := by
  funext l
  simp only [isCounted, looser.whitelist, looser.minValue, looser.maxValue,
    looser.ignoreConstantDefinitions]

theorem FeatureEnvy.findings_among {o o' : FeatureEnvy.Options} (looser : o.Looser o')
    (profiles : Profiles) (f : FunctionModel) :
    Among (profiles.findings o path f) (profiles.findings o' path f) := by
  refine Among.ite id ?_
  cases profiles.lookup f.frame.number with
  | none => exact List.nil_sublist _
  | some profile =>
    refine Among.flatMap fun (target, accesses) _ => Among.ite ?_ (among_single rfl)
    rw [looser.foreignAccessRatio]
    have := looser.minForeignAccesses
    simp only [Bool.or_eq_true, decide_eq_true_iff]
    exact Or.imp_left fun few => few.trans_le this

namespace DuplicatedCode

variable {o o' : DuplicatedCode.Options}

/-- Of the larger list of candidates the smaller one is a part, since sorting is stable. -/
theorem candidates_filter (looser : o.Looser o') (m : ModuleModel) :
    candidates o m = (candidates o' m).filter (Candidate.isEligible o) := by
  have larger : ∀ c, Candidate.isEligible o c = true → Candidate.isEligible o' c = true :=
    fun c enough => decide_eq_true (looser.minChunkSize.trans (of_decide_eq_true enough))
  rw [candidates, candidates, filter_mergeSort, List.filter_filter]
  · congr 1
    refine List.filter_congr fun c _ => ?_
    rw [Bool.eq_iff_iff, Bool.and_eq_true]
    exact ⟨fun enough => ⟨enough, larger c enough⟩, And.left⟩
  · intro a b c
    simp only [decide_eq_true_iff]
    exact le_trans
  · intro a b
    simp only [Bool.or_eq_true, decide_eq_true_iff]
    exact le_total _ _

theorem findings_among (looser : o.Looser o') (a b : Candidate) :
    Among (findings o path a b) (findings o' path a b) := by
  refine Among.ite (fun low => low.trans_le looser.minChunkSize) (Among.ite ?_ (among_single rfl))
  rw [looser.minSimilarity]
  exact id

theorem detect_among (looser : o.Looser o') (m : ModuleModel) :
    Among (detect o m) (detect o' m) := by
  have part : (pairs (candidates o m)).Sublist (pairs (candidates o' m)) := by
    rw [candidates_filter looser, pairs_filter]
    exact List.filter_sublist
  exact (among_of_sublist part _).trans (Among.flatMap fun ab _ => findings_among looser ab.1 ab.2)

end DuplicatedCode

theorem Smell.findings_among {kind : Smell} {options options' : DetectionOptions}
    (looser : DetectionOptions.Looser kind options options') (m : ModuleModel) :
    Among (kind.findings options m) (kind.findings options' m) := by
  cases kind with
  | longMethod => exact Among.flatMap fun f _ => LongMethod.findings_among looser f
  | godClass => exact Among.flatMap fun c _ => GodClass.findings_among looser c
  | largeParameterList => exact Among.flatMap fun f _ => LargeParameterList.findings_among looser f
  | magicNumbers =>
    simp only [Smell.findings, MagicNumbers.detect, MagicNumbers.isCounted_looser looser]
    exact Among.flatMap fun g _ => MagicNumbers.findings_among looser g
  | duplicatedCode => exact DuplicatedCode.detect_among looser m
  | featureEnvy => exact Among.flatMap fun f _ => FeatureEnvy.findings_among looser _ f

theorem looser_hides_nothing {kind : Smell} {options options' : DetectionOptions}
    (valid : options.validate kind = .ok ()) (valid' : options'.validate kind = .ok ())
    (looser : DetectionOptions.Looser kind options options') : ∃ detector detector',
      Detector.builtIn kind options = .ok detector ∧
      Detector.builtIn kind options' = .ok detector' ∧
      ∀ m, Among (detector.detect m) (detector'.detect m) :=
  ⟨_, _, Detector.builtIn_ok valid, Detector.builtIn_ok valid', Smell.findings_among looser⟩

def threeTargets : Bytes := "class A:\n def f(self):\n  a.x; b.y; c.z; a.w; c.v\n"

theorem looser_hides_nothing_threeTargets :
    DetectionOptions.validate {} .featureEnvy = .ok () ∧
    DetectionOptions.validate { featureEnvy := { minForeignAccesses := 1 } } .featureEnvy = .ok () ∧
    DetectionOptions.Looser .featureEnvy {} { featureEnvy := { minForeignAccesses := 1 } } ∧
    ∃ detector detector', Detector.builtIn .featureEnvy {} = .ok detector ∧
      Detector.builtIn .featureEnvy { featureEnvy := { minForeignAccesses := 1 } } =
        .ok detector' ∧
      (∀ m, Among (detector.detect m) (detector'.detect m)) ∧
      ∃ m, ModuleModel.build "a.py" threeTargets = .ok m ∧
        (detector.detect m).map Finding.evidence =
          ([["3: a.x", "3: a.w"], ["3: c.z", "3: c.v"]] : List (List Bytes)) ∧
        (detector'.detect m).map Finding.evidence =
          ([["3: a.x", "3: a.w"], ["3: b.y"], ["3: c.z", "3: c.v"]] : List (List Bytes)) := by
  have found : ∃ m, ModuleModel.build "a.py" threeTargets = .ok m ∧
      (FeatureEnvy.detect {} m).map Finding.evidence =
        ([["3: a.x", "3: a.w"], ["3: c.z", "3: c.v"]] : List (List Bytes)) ∧
      (FeatureEnvy.detect { minForeignAccesses := 1 } m).map Finding.evidence =
        ([["3: a.x", "3: a.w"], ["3: b.y"], ["3: c.z", "3: c.v"]] : List (List Bytes)) := by
    decide +kernel
  have looser : DetectionOptions.Looser .featureEnvy {}
      { featureEnvy := { minForeignAccesses := 1 } } := ⟨rfl, by decide⟩
  obtain ⟨detector, detector', made, made', among⟩ := looser_hides_nothing rfl rfl looser
  refine ⟨rfl, rfl, looser, detector, detector', made, made', among, ?_⟩
  obtain rfl := Except.ok.inj made
  obtain rfl := Except.ok.inj made'
  exact found

end CodeSmell
