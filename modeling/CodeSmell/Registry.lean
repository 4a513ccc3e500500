import CodeSmell.Detector.BuiltIn

/-!
Components by name. A registry holds detectors and reporters in the order of their registration; a
refused registration changes nothing. `Registry.activeDetectors` selects the detectors to run.
-/

namespace CodeSmell

inductive ComponentRole where
  | detector | reporter
deriving DecidableEq, Repr

def ComponentRole.name : ComponentRole → Bytes
  | detector => "detector"
  | reporter => "reporter"

inductive RegistryError where
  | emptyName
  | missingFactory (name : Bytes)
  | alreadyRegistered (name : Bytes)
  | emptyDetectorName
  | noDefault (role : ComponentRole)
  | unknown (role : ComponentRole) (name : Bytes) (registered : List Bytes)
  | emptyProduct (role : ComponentRole) (name : Bytes)
  | invalidOption (error : OptionError)

namespace RegistryError

def message : RegistryError → Bytes
  | emptyName => "Component name cannot be empty"
  | missingFactory name => "Factory for '" ++ name ++ "' cannot be null"
  | alreadyRegistered name => "Component with name '" ++ name ++ "' already registered"
  | emptyDetectorName => "Detector name cannot be empty"
  | noDefault role => "No default " ++ role.name ++ " registered"
  | unknown role name registered =>
    "Unknown " ++ role.name ++ " '" ++ name ++ "'. Registered: " ++ Bytes.join ", " registered
  | emptyProduct role name => "Factory for " ++ role.name ++ " '" ++ name ++ "' returned null"
  | invalidOption error => error.message

end RegistryError

structure Registration (φ : Type) where
  name : Bytes
  factory : φ
  asDefault : Bool := false

/-- Factories by name, and the names in the order of registration. The default is the last one
registered as such, or else the first of all. -/
structure Components (φ : Type) where
  factories : ByName φ := []
  names : List Bytes := []
  defaultName : Option Bytes := none

namespace Components

variable {φ : Type}

def sortedNames (set : Components φ) : List Bytes := set.names.mergeSort fun a b => decide (a ≤ b)

def find? (set : Components φ) (name : Bytes) : Option φ := set.factories.lookup name

/-- A factory that is missing is refused, as is a name that is empty or taken. -/
def register (set : Components φ) (name : Bytes) (factory : Option φ) (asDefault : Bool) :
    Except RegistryError (Components φ) :=
  if name.isEmpty then .error .emptyName
  else match factory with
    | none => .error (.missingFactory name)
    | some factory =>
      if (set.find? name).isSome then .error (.alreadyRegistered name)
      else .ok
        { factories := set.factories.update name fun _ => factory
          names := set.names ++ [name]
          defaultName := if asDefault || set.defaultName.isNone then some name else set.defaultName }

def ofList (registrations : List (Registration φ)) : Components φ :=
  registrations.foldl (fun set r =>
    match set.register r.name (some r.factory) r.asDefault with
    | .ok set => set
    | .error _ => set) {}

/-- The factory of a name with the name, the empty name standing for the default. -/
def resolve (set : Components φ) (role : ComponentRole) (name : Bytes) :
    Except RegistryError (Bytes × φ) :=
  match if name.isEmpty then set.defaultName else some name with
  | none => .error (.noDefault role)
  | some name =>
    match set.find? name with
    | some factory => .ok (name, factory)
    | none => .error (.unknown role name set.sortedNames)

end Components

/-- A factory may refuse the options, and may have no product. -/
abbrev DetectorMaker := DetectionOptions → Except OptionError (Option Detector)

structure Registry (ρ : Type) where
  detectors : Components DetectorMaker := {}
  reporters : Components (Option ρ) := {}

namespace Registry

variable {ρ : Type}

def addDetector (r : Registry ρ) (name : Bytes) (factory : Option DetectorMaker) :
    Except RegistryError (Registry ρ) := do
  pure { r with detectors := ← r.detectors.register name factory false }

def addReporter (r : Registry ρ) (name : Bytes) (factory : Option (Option ρ))
    (asDefault : Bool) : Except RegistryError (Registry ρ) := do
  pure { r with reporters := ← r.reporters.register name factory asDefault }

def makeDetector (r : Registry ρ) (name : Bytes) (options : DetectionOptions) :
    Except RegistryError Detector :=
  if name.isEmpty then .error .emptyDetectorName
  else do
    let (name, factory) ← r.detectors.resolve .detector name
    match factory options with
    | .error e => .error (.invalidOption e)
    | .ok none => .error (.emptyProduct .detector name)
    | .ok (some detector) => .ok detector

def makeReporter (r : Registry ρ) (name : Bytes) : Except RegistryError ρ := do
  match ← r.reporters.resolve .reporter name with
  | (name, none) => .error (.emptyProduct .reporter name)
  | (_, some reporter) => .ok reporter

/-- The first registered detector whose name is the same but for case and separators. -/
def detectorNamed? (r : Registry ρ) (name : Bytes) : Option Bytes :=
  r.detectors.names.find? fun candidate => looseName candidate == looseName name

def resolveNames (r : Registry ρ) (option : Bytes) (names : List Bytes) :
    Except OptionError (List Bytes) :=
  names.mapM fun name =>
    match r.detectorNamed? name with
    | some found => .ok found
    | none => .error (.unknownDetector name option r.detectors.names)

/-- The enabled detectors in the order of registration: those of `only`, if it is not empty, and
none of `exclude`. A detector of no known kind is always enabled. -/
def activeDetectors (r : Registry ρ) (options : DetectionOptions) (only exclude : List Bytes) :
    Except OptionError (List Bytes) := do
  let selected ← r.resolveNames "only" only
  let excluded ← r.resolveNames "exclude" exclude
  pure (r.detectors.names.filter fun name =>
    (Smell.ofName? name).all options.isEnabled &&
      (selected.isEmpty || selected.contains name) && !excluded.contains name)

end Registry

end CodeSmell
