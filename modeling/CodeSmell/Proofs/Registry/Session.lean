import CodeSmell.Proofs.ByName
import CodeSmell.Proofs.Results
import CodeSmell.Registry.Standard
import Mathlib.Tactic

/-!
Sessions of registrations. A registry is made by any number of requests, some of which are refused.
What it then holds is told by the registrations that were granted: `Components.Holds` is kept by each
request, and so is true after every session, and of the registry of all built-in components.
-/

namespace CodeSmell

namespace Components

variable {φ : Type} {set set' : Components φ} {done : List (Registration φ)} {name : Bytes}

theorem register_eq_ok {factory : Option φ} {asDefault : Bool} :
    set.register name factory asDefault = .ok set' ↔
      ∃ made, name ≠ [] ∧ factory = some made ∧ set.find? name = none ∧
        set' = { factories := set.factories.update name fun _ => made
                 names := set.names ++ [name]
                 defaultName := if asDefault || set.defaultName.isNone then some name
                   else set.defaultName } := by
  unfold register
  cases name with
  | nil => simp
  | cons b rest =>
    cases factory with
    | none => simp
    | some made =>
      cases taken : set.find? (b :: rest) with
      | some other => simp
      | none => simpa using eq_comm

/-- The default after some registrations: the last one made as such, or else the first of all. -/
def defaultOf (done : List (Registration φ)) : Option Bytes :=
  ((done.filter (·.asDefault)).getLast?.or done.head?).map Registration.name

theorem defaultOf_eq_none : defaultOf done = none ↔ done = [] := by
  cases done with
  | nil => exact iff_of_true rfl rfl
  | cons r done => cases found : ((r :: done).filter (·.asDefault)).getLast? <;> simp [defaultOf, found]

theorem mem_of_defaultOf (h : defaultOf done = some name) : name ∈ done.map Registration.name := by
  obtain ⟨r, chosen, rfl⟩ := Option.map_eq_some_iff.1 h
  rcases Option.or_eq_some_iff.1 chosen with last | ⟨-, first⟩
  · exact List.mem_map_of_mem (List.mem_of_mem_filter (List.mem_of_getLast? last))
  · exact List.mem_map_of_mem (List.mem_of_head? first)

theorem defaultOf_concat (r : Registration φ) :
    defaultOf (done ++ [r]) =
      if r.asDefault || (defaultOf done).isNone then some r.name else defaultOf done := by
  cases asDefault : r.asDefault with
  | true => simp [defaultOf, asDefault]
  | false =>
    cases done with
    | nil => simp [defaultOf, asDefault]
    | cons r' done =>
      have some : (defaultOf (r' :: done)).isNone = false := by
        rw [← Bool.not_eq_true, Option.isNone_iff_eq_none, defaultOf_eq_none]
        exact List.cons_ne_nil _ _
      rw [some]
      simp [defaultOf, asDefault]

/-- The set holds what was registered, and nothing else: the names in order, a factory for each of
them, and the default. -/
structure Holds (set : Components φ) (done : List (Registration φ)) : Prop where
  names : set.names = done.map Registration.name
  nodup : set.names.Nodup
  nonempty : ∀ name ∈ set.names, name ≠ []
  keys : (set.factories.map Prod.fst).Perm set.names
  found : ∀ name factory, set.find? name = some factory ↔
    ∃ r ∈ done, r.name = name ∧ r.factory = factory
  defaultName : set.defaultName = defaultOf done

theorem holds_empty : ({} : Components φ).Holds [] where
  names := rfl
  nodup := List.nodup_nil
  nonempty := nofun
  keys := .nil
  found _ _ := iff_of_false nofun nofun
  defaultName := rfl

namespace Holds

variable (h : set.Holds done)

include h

theorem find?_eq_none : set.find? name = none ↔ name ∉ set.names := by
  rw [h.names, ← not_iff_not, not_not, ← ne_eq, Option.ne_none_iff_exists', List.mem_map]
  constructor
  · rintro ⟨factory, found⟩
    obtain ⟨r, mem, same, -⟩ := (h.found name factory).1 found
    exact ⟨r, mem, same⟩
  · rintro ⟨r, mem, same⟩
    exact ⟨r.factory, (h.found name r.factory).2 ⟨r, mem, same, rfl⟩⟩

theorem name_ne (new : set.find? name = none) {r : Registration φ} (mem : r ∈ done) :
    r.name ≠ name := by
  rintro rfl
  have found := (h.found r.name r.factory).2 ⟨r, mem, rfl, rfl⟩
  rw [new] at found
  cases found

theorem register_ok {factory : Option φ} {asDefault : Bool} :
    (∃ set', set.register name factory asDefault = .ok set') ↔
      name ≠ [] ∧ factory.isSome = true ∧ name ∉ set.names := by
  rw [← h.find?_eq_none, Option.isSome_iff_exists]
  constructor
  · rintro ⟨set', granted⟩
    obtain ⟨made, nonempty, given, new, -⟩ := register_eq_ok.1 granted
    exact ⟨nonempty, ⟨made, given⟩, new⟩
  · rintro ⟨nonempty, ⟨made, given⟩, new⟩
    exact ⟨_, register_eq_ok.2 ⟨made, nonempty, given, new, rfl⟩⟩

theorem noDefault : set.defaultName.getD [] = [] ↔ set.names = [] := by
  rw [h.defaultName]
  cases chosen : defaultOf done with
  | none =>
    rw [h.names, defaultOf_eq_none.1 chosen]
    exact iff_of_true rfl rfl
  | some name =>
    have mem : name ∈ set.names := h.names ▸ mem_of_defaultOf chosen
    exact iff_of_false (h.nonempty name mem) (List.ne_nil_of_mem mem)

theorem register {factory : φ} {asDefault : Bool}
    (granted : set.register name (some factory) asDefault = .ok set') :
    set'.Holds (done ++ [⟨name, factory, asDefault⟩]) := by
  obtain ⟨_, nonempty, ⟨rfl⟩, new, rfl⟩ := register_eq_ok.1 granted
  constructor
  case names => rw [h.names, List.map_append, List.map_singleton]
  case nodup => exact List.nodup_append'.2 ⟨h.nodup, List.nodup_singleton _, by
    simpa using h.find?_eq_none.1 new⟩
  case nonempty =>
    intro other mem
    rcases List.mem_append.1 mem with mem | mem
    · exact h.nonempty other mem
    · rwa [List.mem_singleton.1 mem]
  case keys =>
    refine (ByName.keys_update_new new _).trans ((h.keys.cons name).trans ?_)
    exact (List.perm_append_singleton name set.names).symm
  case found =>
    intro other made
    change List.lookup other (set.factories.update name fun _ => factory) = some made ↔ _
    rw [ByName.lookup_update_new new]
    by_cases same : other = name
    · subst same
      rw [if_pos rfl, Option.some.injEq]
      constructor
      · rintro rfl
        exact ⟨_, List.mem_append_right _ (.head _), rfl, rfl⟩
      · rintro ⟨r, mem, named, rfl⟩
        rcases List.mem_append.1 mem with mem | mem
        · exact absurd named (h.name_ne new mem)
        · rw [List.mem_singleton.1 mem]
    · rw [if_neg same]
      refine (h.found other made).trans (exists_congr fun r => and_congr_left fun ⟨named, _⟩ => ?_)
      rw [List.mem_append, List.mem_singleton]
      refine (or_iff_left ?_).symm
      rintro rfl
      exact same named.symm
  case defaultName => rw [defaultOf_concat, ← h.defaultName]

end Holds

theorem ofList_concat (done : List (Registration φ)) (r : Registration φ) :
    ofList (done ++ [r]) =
      match (ofList done).register r.name (some r.factory) r.asDefault with
      | .ok set => set
      | .error _ => ofList done :=
  List.foldl_concat ..

theorem holds_ofList (nodup : (done.map Registration.name).Nodup)
    (nonempty : ∀ r ∈ done, r.name ≠ []) : (ofList done).Holds done := by
  induction done using List.reverseRecOn with
  | nil => exact holds_empty
  | append_singleton done r ih =>
    rw [List.map_append, List.map_singleton, List.nodup_append'] at nodup
    rw [List.forall_mem_append, List.forall_mem_singleton] at nonempty
    obtain ⟨nodup, -, new⟩ := nodup
    have h := ih nodup nonempty.1
    have new : r.name ∉ (ofList done).names := fun mem => new (h.names ▸ mem) (.head _)
    obtain ⟨set', granted⟩ : ∃ set', (ofList done).register r.name (some r.factory) r.asDefault =
        .ok set' := h.register_ok.2 ⟨nonempty.2, rfl, new⟩
    rw [ofList_concat, granted]
    exact h.register granted

structure Request (φ : Type) where
  name : Bytes
  factory : Option φ
  asDefault : Bool := false

def answer (set : Components φ) (q : Request φ) : Except RegistryError (Components φ) :=
  set.register q.name q.factory q.asDefault

/-- A refused request leaves everything as it is. -/
def after (set : Components φ) (q : Request φ) : Components φ :=
  match set.answer q with
  | .ok set => set
  | .error _ => set

def granted? (set : Components φ) (q : Request φ) : Option (Registration φ) :=
  match set.answer q with
  | .ok _ => q.factory.map fun factory => { name := q.name, factory, asDefault := q.asDefault }
  | .error _ => none

def granted (set : Components φ) : List (Request φ) → List (Registration φ)
  | [] => []
  | q :: qs => (set.granted? q).toList ++ (set.after q).granted qs

namespace Holds

theorem after (h : set.Holds done) (q : Request φ) :
    (set.after q).Holds (done ++ (set.granted? q).toList) := by
  unfold Components.after granted?
  cases answered : set.answer q with
  | error e => simpa using h
  | ok set' =>
    obtain ⟨factory, -, given, -, -⟩ := register_eq_ok.1 answered
    rw [answer, given] at answered
    simpa [given] using h.register answered

theorem session (h : set.Holds done) (qs : List (Request φ)) :
    (qs.foldl Components.after set).Holds (done ++ set.granted qs) := by
  induction qs generalizing set done with
  | nil => simpa [granted] using h
  | cons q qs ih =>
    rw [List.foldl_cons, granted, ← List.append_assoc]
    exact ih (h.after q)

end Holds

/-- The name that is looked up: an empty one stands for the default. -/
def target (set : Components φ) (name : Bytes) : Option Bytes :=
  if name.isEmpty then set.defaultName else some name

theorem resolve_eq_ok {role : ComponentRole} {found : Bytes} {factory : φ} :
    set.resolve role name = .ok (found, factory) ↔
      set.target name = some found ∧ set.find? found = some factory := by
  rw [resolve, ← target]
  cases set.target name with
  | none => simp
  | some wanted =>
    dsimp only
    cases isFound : set.find? wanted with
    | none =>
      refine iff_of_false nofun ?_
      rintro ⟨⟨rfl⟩, taken⟩
      cases isFound.symm.trans taken
    | some made =>
      constructor
      · rintro ⟨rfl⟩
        exact ⟨rfl, isFound⟩
      · rintro ⟨⟨rfl⟩, same⟩
        rw [Option.some.inj (isFound.symm.trans same)]

theorem sortedNames_perm (set : Components φ) : set.sortedNames.Perm set.names :=
  List.mergeSort_perm _ _

theorem sortedNames_sorted (set : Components φ) : set.sortedNames.Pairwise (· ≤ ·) := by
  have trans (a b c : Bytes) (ab : decide (a ≤ b) = true) (bc : decide (b ≤ c) = true) :
      decide (a ≤ c) = true :=
    decide_eq_true (List.le_trans (of_decide_eq_true ab) (of_decide_eq_true bc))
  have total (a b : Bytes) : (decide (a ≤ b) || decide (b ≤ a)) = true := by
    simpa using List.le_total a b
  exact (List.pairwise_mergeSort trans total set.names).imp of_decide_eq_true

end Components

namespace Registry

variable {ρ : Type}

inductive Request (ρ : Type) where
  | detector (name : Bytes) (factory : Option DetectorMaker)
  | reporter (name : Bytes) (factory : Option (Option ρ)) (asDefault : Bool)

def Request.detector? : Request ρ → Option (Components.Request DetectorMaker)
  | detector name factory => some { name, factory }
  | reporter .. => none

def Request.reporter? : Request ρ → Option (Components.Request (Option ρ))
  | detector .. => none
  | reporter name factory asDefault => some { name, factory, asDefault }

def answer (r : Registry ρ) : Request ρ → Except RegistryError (Registry ρ)
  | .detector name factory => r.addDetector name factory
  | .reporter name factory asDefault => r.addReporter name factory asDefault

def after (r : Registry ρ) (q : Request ρ) : Registry ρ :=
  match r.answer q with
  | .ok r => r
  | .error _ => r

def session (qs : List (Request ρ)) : Registry ρ := qs.foldl after {}

def grantedDetectors (qs : List (Request ρ)) : List (Registration DetectorMaker) :=
  Components.granted {} (qs.filterMap Request.detector?)

def grantedReporters (qs : List (Request ρ)) : List (Registration (Option ρ)) :=
  Components.granted {} (qs.filterMap Request.reporter?)

theorem after_detector (r : Registry ρ) (name : Bytes) (factory : Option DetectorMaker) :
    r.after (.detector name factory) =
      { r with detectors := r.detectors.after { name, factory } } := by
  unfold after answer addDetector Components.after Components.answer
  dsimp only
  cases r.detectors.register name factory false <;> rfl

theorem after_reporter (r : Registry ρ) (name : Bytes) (factory : Option (Option ρ))
    (asDefault : Bool) : r.after (.reporter name factory asDefault) =
      { r with reporters := r.reporters.after { name, factory, asDefault } } := by
  unfold after answer addReporter Components.after Components.answer
  dsimp only
  cases r.reporters.register name factory asDefault <;> rfl

theorem foldl_after (r : Registry ρ) (qs : List (Request ρ)) : qs.foldl after r =
    { detectors := (qs.filterMap Request.detector?).foldl Components.after r.detectors
      reporters := (qs.filterMap Request.reporter?).foldl Components.after r.reporters } := by
  induction qs generalizing r with
  | nil => rfl
  | cons q qs ih =>
    rw [List.foldl_cons, ih]
    cases q with
    | detector name factory => rw [after_detector]; rfl
    | reporter name factory asDefault => rw [after_reporter]; rfl

section Making

variable {r : Registry ρ} {name found : Bytes} {reporter : ρ}

theorem makeReporter_eq_ok : r.makeReporter name = .ok reporter ↔
    ∃ found, r.reporters.resolve .reporter name = .ok (found, some reporter) := by
  unfold makeReporter
  cases resolved : r.reporters.resolve .reporter name with
  | error e => simp [bind, Except.bind]
  | ok result =>
    obtain ⟨found, factory⟩ := result
    cases factory <;> simp [bind, Except.bind]

theorem makeReporter_eq_empty : r.makeReporter name = .error (.emptyProduct .reporter found) ↔
    r.reporters.resolve .reporter name = .ok (found, none) := by
  unfold makeReporter
  cases resolved : r.reporters.resolve .reporter name with
  | error e =>
    -- a name that is not found gives another error
    have other : e ≠ .emptyProduct .reporter found := by
      rintro rfl
      unfold Components.resolve at resolved
      split at resolved
      · cases resolved
      · split at resolved <;> cases resolved
    simpa [bind, Except.bind] using other
  | ok result =>
    obtain ⟨found', factory⟩ := result
    cases factory <;> simp [bind, Except.bind]

end Making

theorem standard_holds : standard.detectors.Holds (Smell.all.map builtInDetector) ∧
    standard.reporters.Holds (ReportFormat.all.map builtInReporter) :=
  ⟨Components.holds_ofList (by decide) (by decide), Components.holds_ofList (by decide) (by decide)⟩

structure Sound (r : Registry ρ) (detectors : List (Registration DetectorMaker))
    (reporters : List (Registration (Option ρ))) : Prop where
  holdsDetectors : r.detectors.Holds detectors
  holdsReporters : r.reporters.Holds reporters
  addsDetector : ∀ name factory, (∃ r', r.addDetector name factory = .ok r') ↔
    name ≠ [] ∧ factory.isSome = true ∧ name ∉ r.detectors.names
  addsReporter : ∀ name factory asDefault, (∃ r', r.addReporter name factory asDefault = .ok r') ↔
    name ≠ [] ∧ factory.isSome = true ∧ name ∉ r.reporters.names
  noDetector : r.detectors.defaultName.getD [] = [] ↔ r.detectors.names = []
  noReporter : r.reporters.defaultName.getD [] = [] ↔ r.reporters.names = []
  listed : r.reporters.sortedNames.Perm r.reporters.names
  sorted : r.reporters.sortedNames.Pairwise (· ≤ ·)
  made : ∀ name reporter, r.makeReporter name = .ok reporter ↔
    ∃ g ∈ reporters, r.reporters.target name = some g.name ∧ g.factory = some reporter
  empty : ∀ name found, r.makeReporter name = .error (.emptyProduct .reporter found) ↔
    ∃ g ∈ reporters, r.reporters.target name = some g.name ∧ g.name = found ∧ g.factory = none

theorem Sound.of_holds {r : Registry ρ} {detectors : List (Registration DetectorMaker)}
    {reporters : List (Registration (Option ρ))} (d : r.detectors.Holds detectors)
    (h : r.reporters.Holds reporters) : r.Sound detectors reporters where
  holdsDetectors := d
  holdsReporters := h
  addsDetector name factory := exists_bind_pure_ok.trans d.register_ok
  addsReporter name factory asDefault := exists_bind_pure_ok.trans h.register_ok
  noDetector := d.noDefault
  noReporter := h.noDefault
  listed := r.reporters.sortedNames_perm
  sorted := r.reporters.sortedNames_sorted
  made name reporter := by
    rw [makeReporter_eq_ok]
    constructor
    · rintro ⟨found, resolved⟩
      obtain ⟨target, isFound⟩ := Components.resolve_eq_ok.1 resolved
      obtain ⟨g, mem, rfl, made⟩ := (h.found found _).1 isFound
      exact ⟨g, mem, target, made⟩
    · rintro ⟨g, mem, target, made⟩
      exact ⟨g.name, Components.resolve_eq_ok.2 ⟨target, (h.found _ _).2 ⟨g, mem, rfl, made⟩⟩⟩
  empty name found := by
    rw [makeReporter_eq_empty, Components.resolve_eq_ok, h.found]
    constructor
    · rintro ⟨target, g, mem, rfl, made⟩
      exact ⟨g, mem, target, rfl, made⟩
    · rintro ⟨g, mem, target, rfl, made⟩
      exact ⟨target, g, mem, rfl, made⟩

theorem session_concat (qs : List (Request ρ)) (q : Request ρ) :
    session (qs ++ [q]) = (session qs).after q :=
  List.foldl_concat ..

theorem session_sound (qs : List (Request ρ)) :
    (session qs).Sound (grantedDetectors qs) (grantedReporters qs) ∧
      ∀ q e, (session qs).answer q = .error e → session (qs ++ [q]) = session qs := by
  refine ⟨?_, fun q e refused => ?_⟩
  · rw [session, foldl_after]
    exact .of_holds (Components.holds_empty.session _) (Components.holds_empty.session _)
  · rw [session_concat, after, refused]

end Registry

end CodeSmell
