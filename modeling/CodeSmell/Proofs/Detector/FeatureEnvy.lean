import CodeSmell.Proofs.ByName
import CodeSmell.Proofs.Detector.Place
import CodeSmell.Proofs.Model.Scope
import Mathlib.Data.Prod.Lex

/-!
Methods that envy other objects. The accesses of a module come in one list and are sorted into the
profiles of the functions in one pass; `Profiles.Tell` is kept by each access, and so the profile of a
function is made up of just the accesses that concern it. The findings are those of all methods and
targets that are reached often enough.
-/

namespace CodeSmell

def Access.isIn (f : FunctionModel) (a : Access) : Bool :=
  a.scope.head?.any fun frame => frame.number == f.frame.number

theorem ModuleModel.scope_of_access {path : Bytes} {lineCount : Nat} {b : Block} {a : Access}
    (mem : a ∈ (ofBlock path lineCount b).accesses) :
    ∃ p ∈ Block.placed {} 0 b, a.scope = p.place.scope := by
  obtain ⟨p, hp, mem⟩ := List.mem_flatMap.1 mem
  obtain ⟨e, -, found⟩ := List.mem_filterMap.1 mem
  split at found
  · exact ⟨p, hp, by rw [← Option.some.inj found]⟩
  · cases found

theorem ModuleModel.isIn_iff {path : Bytes} {lineCount : Nat} {b : Block} {f : FunctionModel}
    (hf : f ∈ (ofBlock path lineCount b).functions) {a : Access}
    (mem : a ∈ (ofBlock path lineCount b).accesses) : a.isIn f = true ↔ a.scope = f.scope := by
  obtain ⟨p, hp, scope⟩ := scope_of_access mem
  rw [Access.isIn, scope, Option.any_eq_true]
  constructor
  · rintro ⟨frame, innermost, same⟩
    -- the scope of the access is that of a function, and functions are told by their numbers
    have some : p.place.scope ≠ [] := by
      intro none
      rw [none] at innermost
      cases innermost
    obtain ⟨g, hg, around⟩ := @function_of_scope path lineCount b p hp some
    rw [← around] at innermost ⊢
    obtain rfl : g.frame = frame := Option.some.inj innermost
    rw [functions_inj hg hf (eq_of_beq same)]
  · intro same
    exact ⟨f.frame, by rw [same]; rfl, beq_self_eq_true _⟩

namespace FeatureEnvy

def isSelf (a : Access) : Bool :=
  match a.origin with
  | .self _ => true
  | _ => false

def foreignTarget? (a : Access) : Option Bytes :=
  match a.origin with
  | .foreign target => some target
  | _ => none

theorem foreignTarget?_eq_some {a : Access} {target : Bytes} :
    foreignTarget? a = some target ↔ a.origin = .foreign target := by
  unfold foreignTarget?
  cases a.origin <;> simp

/-- The access is in the function and reaches its own object or another one. -/
def concerns (f : FunctionModel) (a : Access) : Bool :=
  a.isIn f && (isSelf a || (foreignTarget? a).isSome)

section Profiles

variable {accesses : List Access} {profiles : Profiles} {f : FunctionModel} {a : Access}
  {target : Bytes}

def Profile.of (accesses : List Access) : Profile where
  own := accesses.countP isSelf
  foreign := (sortedSet (accesses.filterMap foreignTarget?)).map fun target =>
    (target, accesses.filter (foreignTarget? · == some target))

theorem Profile.addOwn_of (own : isSelf a = true) :
    (Profile.of accesses).addOwn = .of (accesses ++ [a]) := by
  have none : foreignTarget? a = none := by
    unfold isSelf at own
    unfold foreignTarget?
    split at own
    · next name origin => rw [origin]
    · cases own
  simp [addOwn, of, List.countP_append, List.filterMap_append, own, none]

theorem Profile.addForeign_of (origin : a.origin = .foreign target) :
    (Profile.of accesses).addForeign target a = .of (accesses ++ [a]) := by
  have found := foreignTarget?_eq_some.2 origin
  have other : isSelf a = false := by rw [isSelf, origin]
  have targets : sortedSet ((accesses ++ [a]).filterMap foreignTarget?) =
      insertSorted target (sortedSet (accesses.filterMap foreignTarget?)) := by
    rw [insertSorted_sortedSet]
    exact sortedSet_congr fun _ => by simp [found, or_comm]
  have absent (new : target ∉ sortedSet (accesses.filterMap foreignTarget?)) :
      accesses.filter (foreignTarget? · == some target) = [] := by
    rw [mem_sortedSet, List.mem_filterMap] at new
    exact List.filter_eq_nil_iff.2 fun b mem same => new ⟨b, mem, eq_of_beq same⟩
  rw [addForeign, of, ByName.update_map (sortedSet_sorted _) absent (· ++ [a]), of, targets]
  congr 1
  · simp [List.countP_append, other]
  · refine List.map_congr_left fun key _ => ?_
    by_cases same : key = target
    · simp [same, found]
    · simp [same, found, Ne.symm same]

def Profiles.get (profiles : Profiles) (number : Nat) : Profile :=
  (profiles.lookup number).getD {}

theorem Profiles.get_cons (number : Nat) (profile : Profile) (rest : Profiles) (other : Nat) :
    Profiles.get ((number, profile) :: rest) other =
      if other = number then profile else rest.get other := by
  rw [get, lookup_cons]
  split_ifs <;> rfl

theorem Profiles.get_update (number : Nat) (change : Profile → Profile) (profiles : Profiles)
    (other : Nat) : (profiles.update number change).get other =
      if other = number then change (profiles.get other) else profiles.get other := by
  induction profiles with
  | nil => exact get_cons ..
  | cons entry rest ih =>
    obtain ⟨key, profile⟩ := entry
    rw [update]
    split_ifs with found same same
    · rw [get_cons, get_cons, if_pos (same.trans found), if_pos (same.trans found)]
    · rw [get_cons, get_cons, if_neg (found ▸ same), if_neg (found ▸ same)]
    · have different : other ≠ key := same ▸ found
      rw [get_cons, get_cons, if_neg different, if_neg different, ih, if_pos same]
    · rw [get_cons, get_cons, ih, if_neg same]

/-- Every profile is that of the accesses that concern its function. -/
def Profiles.Tell (profiles : Profiles) (accesses : List Access) : Prop :=
  ∀ f : FunctionModel, profiles.get f.frame.number = .of (accesses.filter (concerns f))

namespace Profiles.Tell

variable (tell : profiles.Tell accesses)

include tell

theorem update {g : FunctionFrame} {change : Profile → Profile} (innermost : a.scope.head? = some g)
    (counts : (isSelf a || (foreignTarget? a).isSome) = true)
    (changed : ∀ accesses, change (.of accesses) = .of (accesses ++ [a])) :
    (profiles.update g.number change).Tell (accesses ++ [a]) := by
  intro f
  have concerned : concerns f a = (g.number == f.frame.number) := by
    rw [concerns, Access.isIn, innermost, counts, Bool.and_true, Option.any_some]
  rw [get_update, tell, List.filter_append, List.filter_singleton, concerned]
  by_cases same : f.frame.number = g.number
  · rw [if_pos same, changed, same, beq_self_eq_true]
    rfl
  · rw [if_neg same, beq_false_of_ne (Ne.symm same)]
    simp

theorem skip (other : ∀ f, concerns f a = false) : profiles.Tell (accesses ++ [a]) := by
  intro f
  rw [tell, List.filter_append, List.filter_singleton, other f]
  simp

theorem add (a : Access) : (profiles.add a).Tell (accesses ++ [a]) := by
  unfold Profiles.add
  split
  · next g name innermost origin =>
    have own : isSelf a = true := by rw [isSelf, origin]
    exact tell.update innermost (by rw [own, Bool.true_or]) fun _ => Profile.addOwn_of own
  · next g target innermost origin =>
    have reached := foreignTarget?_eq_some.2 origin
    exact tell.update innermost (by rw [reached, Option.isSome_some, Bool.or_true])
      fun _ => Profile.addForeign_of origin
  · next noOwn noForeign =>
    refine tell.skip fun f => ?_
    cases innermost : a.scope.head? with
    | none => rw [concerns, Access.isIn, innermost, Option.any_none, Bool.false_and]
    | some g =>
      rw [concerns, isSelf, foreignTarget?]
      cases origin : a.origin with
      | self name => exact absurd origin (noOwn g name innermost)
      | foreign target => exact absurd origin (noForeign g target innermost)
      | _ => exact Bool.and_false _

end Profiles.Tell

theorem Profiles.tell_ofAccesses (accesses : List Access) : (ofAccesses accesses).Tell accesses := by
  induction accesses using List.reverseRecOn with
  | nil => exact fun _ => rfl
  | append_singleton accesses a ih =>
    rw [ofAccesses, List.foldl_concat]
    exact ih.add a

end Profiles

def foreign (m : ModuleModel) (f : FunctionModel) (target : Bytes) : List Access :=
  m.accesses.filter fun a => a.isIn f && a.origin == .foreign target

def ownCount (m : ModuleModel) (f : FunctionModel) : Nat :=
  m.accesses.countP fun a => a.isIn f && isSelf a

def envy (m : ModuleModel) (f : FunctionModel) (target : Bytes) : Float :=
  Float.ofNat (foreign m f target).length / Float.ofNat (max (ownCount m f) 1)

/-- The function is a method that reaches the target, often enough in itself and in comparison. -/
@[mk_iff]
structure Envies (options : FeatureEnvy.Options) (m : ModuleModel) (f : FunctionModel)
    (target : Bytes) : Prop where
  method : f.frame.receiver?.isSome = true
  reached : ∃ a ∈ m.accesses, a.isIn f = true ∧ a.origin = .foreign target
  often : options.minForeignAccesses ≤ (foreign m f target).length
  rather : ¬envy m f target < options.foreignAccessRatio

structure Reports (options : FeatureEnvy.Options) (m : ModuleModel) (f : FunctionModel)
    (target : Bytes) (x : Finding) : Prop where
  kind : x.kind = .featureEnvy
  severity : x.severity = .medium
  file : x.file = m.path
  lines : x.lines = f.lines
  subject : x.subject = f.qualifiedName
  message : x.message = "Method '" ++ f.qualifiedName ++ "' envies '" ++ target ++
    "' (foreign accesses: " ++ Bytes.ofNat (foreign m f target).length ++ ", self accesses: " ++
    Bytes.ofNat (ownCount m f) ++ ")"
  foreign : x.metrics.lookup ("foreign_accesses" : Bytes) =
    some (.ofNat (foreign m f target).length)
  own : x.metrics.lookup ("self_accesses" : Bytes) = some (.ofNat (ownCount m f))
  ratio : x.metrics.lookup ("foreign_ratio" : Bytes) = some (envy m f target)
  evidence : x.evidence = (FeatureEnvy.foreign m f target).map fun a =>
    Bytes.ofInt a.position.line ++ ": " ++ a.base ++ "." ++ a.name

section Findings

variable {options : FeatureEnvy.Options} {m : ModuleModel} {f : FunctionModel} {target : Bytes}

def findings (options : FeatureEnvy.Options) (m : ModuleModel) (f : FunctionModel) : List Finding :=
  (Profiles.ofAccesses m.accesses).findings options m.path f

theorem detect_eq (options : FeatureEnvy.Options) (m : ModuleModel) :
    detect options m = m.functions.flatMap (findings options m) :=
  rfl

def concerning (m : ModuleModel) (f : FunctionModel) : List Access :=
  m.accesses.filter (concerns f)

theorem findings_eq : findings options m f =
    if f.frame.receiver?.isNone then []
    else (Profile.of (concerning m f)).foreign.flatMap fun (target, accesses) =>
      finding options m.path f (Profile.of (concerning m f)).own target accesses := by
  have told : (Profiles.ofAccesses m.accesses).get f.frame.number = .of (concerning m f) :=
    Profiles.tell_ofAccesses m.accesses f
  rw [findings, Profiles.findings, ← told, Profiles.get]
  cases (Profiles.ofAccesses m.accesses).lookup f.frame.number <;> rfl

theorem own_concerning : (Profile.of (concerning m f)).own = ownCount m f := by
  rw [Profile.of, concerning, ownCount, List.countP_filter]
  refine List.countP_congr fun a _ => ?_
  rw [concerns]
  cases isSelf a <;> simp

theorem filter_concerning :
    (concerning m f).filter (foreignTarget? · == some target) = foreign m f target := by
  rw [concerning, foreign, List.filter_filter]
  refine List.filter_congr fun a _ => ?_
  rw [Bool.eq_iff_iff, concerns]
  simp only [Bool.and_eq_true, beq_iff_eq, ← foreignTarget?_eq_some]
  constructor
  · rintro ⟨found, inside, -⟩
    exact ⟨inside, found⟩
  · rintro ⟨inside, found⟩
    exact ⟨found, inside, by rw [found, Option.isSome_some, Bool.or_true]⟩

def targets (m : ModuleModel) (f : FunctionModel) : List Bytes :=
  sortedSet ((concerning m f).filterMap foreignTarget?)

theorem foreign_concerning : (Profile.of (concerning m f)).foreign =
    (targets m f).map fun target => (target, foreign m f target) :=
  List.map_congr_left fun _ _ => by rw [filter_concerning]

theorem mem_targets : target ∈ targets m f ↔
    ∃ a ∈ m.accesses, a.isIn f = true ∧ a.origin = .foreign target := by
  rw [targets, mem_sortedSet, List.mem_filterMap]
  refine exists_congr fun a => ?_
  rw [concerning, List.mem_filter, foreignTarget?_eq_some, and_assoc]
  refine and_congr_right fun _ => and_congr_left fun origin => ?_
  rw [concerns, foreignTarget?_eq_some.2 origin, Option.isSome_some, Bool.or_true, Bool.and_true]

def enviedTargets (options : FeatureEnvy.Options) (m : ModuleModel) (f : FunctionModel) :
    List Bytes :=
  if f.frame.receiver?.isNone then []
  else (targets m f).filter fun target =>
    options.minForeignAccesses ≤ (foreign m f target).length ∧
      ¬envy m f target < options.foreignAccessRatio

theorem mem_enviedTargets : target ∈ enviedTargets options m f ↔ Envies options m f target := by
  unfold enviedTargets
  rw [envies_iff, ← mem_targets]
  cases f.frame.receiver? <;> simp

theorem enviedTargets_sorted : (enviedTargets options m f).Pairwise (· < ·) := by
  unfold enviedTargets
  split_ifs
  · exact .nil
  · exact (sortedSet_sorted _).filter _

theorem enough_iff {count : Int} {own : Float} :
    ¬(count < options.minForeignAccesses || own < options.foreignAccessRatio) = true ↔
      options.minForeignAccesses ≤ count ∧ ¬own < options.foreignAccessRatio := by
  rw [Bool.or_eq_true, decide_eq_true_iff, decide_eq_true_iff, not_or, not_lt]

theorem finding_envied (enough : options.minForeignAccesses ≤ (foreign m f target).length ∧
      ¬envy m f target < options.foreignAccessRatio) :
    ∃ x, finding options m.path f (ownCount m f) target (foreign m f target) = [x] ∧
      Reports options m f target x := by
  refine ⟨_, if_neg (enough_iff.2 enough), ?_⟩
  constructor <;> rfl

theorem findings_report : List.Forall₂ (Reports options m f) (enviedTargets options m f)
    (findings options m f) := by
  rw [findings_eq, own_concerning, foreign_concerning]
  unfold enviedTargets
  split_ifs
  · exact .nil
  rw [List.flatMap_map]
  apply forall₂_filter_flatMap
  · exact fun target _ enough => finding_envied (of_decide_eq_true enough)
  · intro target _ seldom
    refine if_pos ?_
    by_contra enough
    exact seldom (decide_eq_true (enough_iff.1 enough))

theorem findings_congr {accesses : List Access}
    (same : accesses.filter (concerns f) = m.accesses.filter (concerns f)) :
    findings options { m with accesses } f = findings options m f := by
  rw [findings_eq, findings_eq, concerning, same, concerning]

end Findings

def enviedPlaces (options : FeatureEnvy.Options) (m : ModuleModel) :
    List (Fin m.functions.length × Bytes) :=
  (List.finRange m.functions.length).flatMap fun i =>
    (enviedTargets options m (m.functions.get i)).map (i, ·)

theorem mem_enviedPlaces {options : FeatureEnvy.Options} {m : ModuleModel}
    {i : Fin m.functions.length} {target : Bytes} :
    (i, target) ∈ enviedPlaces options m ↔ Envies options m (m.functions.get i) target := by
  simp [enviedPlaces, mem_enviedTargets]

theorem enviedPlaces_sorted (options : FeatureEnvy.Options) (m : ModuleModel) :
    (enviedPlaces options m).Pairwise fun p q => toLex p < toLex q := by
  refine List.pairwise_flatMap.2 ⟨fun i _ => ?_, ?_⟩
  · rw [List.pairwise_map]
    refine enviedTargets_sorted.imp fun less => ?_
    exact Prod.Lex.toLex_lt_toLex.2 (.inr ⟨rfl, less⟩)
  · refine (List.pairwise_lt_finRange _).imp fun less p here q later => ?_
    obtain ⟨target, -, rfl⟩ := List.mem_map.1 here
    obtain ⟨target', -, rfl⟩ := List.mem_map.1 later
    exact Prod.Lex.toLex_lt_toLex.2 (.inl less)

theorem detect_reports (options : FeatureEnvy.Options) (m : ModuleModel) :
    List.Forall₂ (fun p x => Reports options m (m.functions.get p.1) p.2 x) (enviedPlaces options m)
      (detect options m) := by
  have detected : detect options m = (List.finRange m.functions.length).flatMap fun i =>
      findings options m (m.functions.get i) := by
    rw [← List.flatMap_map, List.map_get_finRange, detect_eq]
  rw [detected]
  refine forall₂_flatMap fun i _ => ?_
  rw [List.forall₂_map_left_iff]
  exact @findings_report options m (m.functions.get i)

/-- In every module the findings are those of all places of methods with the targets that they envy,
method by method and in increasing order of the targets, and only the accesses that concern a function
have a part in what is found for it. In a module that is read from a source, the accesses in a function
are those that have its scope. -/
theorem detect_envied {options : DetectionOptions} (valid : options.validate .featureEnvy = .ok ()) :
    ∃ detector, Detector.builtIn .featureEnvy options = .ok detector ∧ ∀ m : ModuleModel,
      (∃ places : List (Fin m.functions.length × Bytes),
        places.Pairwise (fun p q => toLex p < toLex q) ∧
        (∀ i target, (i, target) ∈ places ↔
          Envies options.featureEnvy m (m.functions.get i) target) ∧
        List.Forall₂ (fun p x => Reports options.featureEnvy m (m.functions.get p.1) p.2 x) places
          (detector.detect m)) ∧
      (∀ f accesses, accesses.filter (concerns f) = m.accesses.filter (concerns f) →
        findings options.featureEnvy { m with accesses } f = findings options.featureEnvy m f) ∧
      ∀ path source, ModuleModel.build path source = .ok m →
        ∀ f ∈ m.functions, ∀ a ∈ m.accesses, a.isIn f = true ↔ a.scope = f.scope := by
  refine ⟨_, Detector.builtIn_ok valid, fun m => ⟨?_, fun f accesses => findings_congr, ?_⟩⟩
  · exact ⟨_, enviedPlaces_sorted _ m, fun i target => mem_enviedPlaces, detect_reports _ m⟩
  · intro path source built f hf a mem
    obtain ⟨b, -, rfl⟩ := ModuleModel.ofSource_ok (ModuleModel.build_ok built)
    exact ModuleModel.isIn_iff hf mem

def enviousMethod : Bytes :=
  "import os\nclass A:\n def f(self):\n  b.x; a.y; self.c.d; os.p; os.q\n  def g(): b.w\n" ++
    "  self.c.e; self.n; b.z\n"

theorem detect_envied_twice : DetectionOptions.validate {} .featureEnvy = .ok () ∧
    ∃ detector, Detector.builtIn .featureEnvy {} = .ok detector ∧
    (∀ m : ModuleModel, ∃ places : List (Fin m.functions.length × Bytes),
      places.Pairwise (fun p q => toLex p < toLex q) ∧
      (∀ i target, (i, target) ∈ places ↔ Envies {} m (m.functions.get i) target) ∧
      List.Forall₂ (fun p x => Reports {} m (m.functions.get p.1) p.2 x) places
        (detector.detect m)) ∧
    ∃ m, ModuleModel.build "a.py" enviousMethod = .ok m ∧
      (∀ f ∈ m.functions, ∀ a ∈ m.accesses, a.isIn f = true ↔ a.scope = f.scope) ∧
      (detector.detect m).map Finding.evidence =
        ([["4: b.x", "6: b.z"], ["4: self.c.d", "6: self.c.e"]] : List (List Bytes)) := by
  obtain ⟨m, built, evidence⟩ : ∃ m, ModuleModel.build "a.py" enviousMethod = .ok m ∧
      (detect {} m).map Finding.evidence =
        ([["4: b.x", "6: b.z"], ["4: self.c.d", "6: self.c.e"]] : List (List Bytes)) := by
    decide +kernel
  obtain ⟨detector, made, envied⟩ := @detect_envied {} rfl
  refine ⟨rfl, detector, made, fun m => (envied m).1, m, built, (envied m).2.2 _ _ built, ?_⟩
  obtain rfl := Except.ok.inj made
  exact evidence

end FeatureEnvy

end CodeSmell
