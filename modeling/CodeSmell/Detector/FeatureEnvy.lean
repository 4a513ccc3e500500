import CodeSmell.Detector.Basic

/-!
Methods that use another object more than their own: one finding for each foreign target, in
increasing order of the targets.
-/

namespace CodeSmell.FeatureEnvy

/-- How often a function reaches its own object, and what it reaches of each other one. -/
structure Profile where
  own : Nat := 0
  foreign : ByName (List Access) := []

namespace Profile

def addOwn (profile : Profile) : Profile := { profile with own := profile.own + 1 }

def addForeign (target : Bytes) (a : Access) (profile : Profile) : Profile :=
  { profile with
    foreign := profile.foreign.update target fun accesses => accesses.getD [] ++ [a] }

end Profile

abbrev Profiles := List (Nat × Profile)

namespace Profiles

def update (number : Nat) (change : Profile → Profile) : Profiles → Profiles
  | [] => [(number, change {})]
  | (other, profile) :: rest =>
    if number = other then (other, change profile) :: rest
    else (other, profile) :: update number change rest

/-- An access counts for the innermost function around it. -/
def add (profiles : Profiles) (a : Access) : Profiles :=
  match a.scope.head?, a.origin with
  | some f, .self _ => profiles.update f.number .addOwn
  | some f, .foreign target => profiles.update f.number (.addForeign target a)
  | _, _ => profiles

def ofAccesses (accesses : List Access) : Profiles := accesses.foldl add []

end Profiles

def finding (options : FeatureEnvy.Options) (path : Bytes) (f : FunctionModel) (own : Nat)
    (target : Bytes) (accesses : List Access) : List Finding :=
  let count : Int := accesses.length
  let ratio := Float.ofInt count / Float.ofNat (max own 1)
  if count < options.minForeignAccesses || ratio < options.foreignAccessRatio then []
  else
    [{ kind := .featureEnvy
       severity := .medium
       file := path
       lines := f.lines
       subject := f.qualifiedName
       message := "Method '" ++ f.qualifiedName ++ "' envies '" ++ target ++
        "' (foreign accesses: " ++ Bytes.ofInt count ++ ", self accesses: " ++ Bytes.ofNat own ++ ")"
       metrics := .ofList
        [("foreign_accesses", .ofInt count), ("self_accesses", .ofNat own),
          ("foreign_ratio", ratio), ("min_foreign_accesses", .ofInt options.minForeignAccesses),
          ("foreign_access_ratio", options.foreignAccessRatio)]
       evidence := accesses.map fun a =>
        Bytes.ofInt a.position.line ++ ": " ++ a.base ++ "." ++ a.name }]

def Profiles.findings (options : FeatureEnvy.Options) (path : Bytes) (profiles : Profiles)
    (f : FunctionModel) : List Finding :=
  if f.frame.receiver?.isNone then []
  else
    match profiles.lookup f.frame.number with
    | none => []
    | some profile =>
      profile.foreign.flatMap fun (target, accesses) =>
        finding options path f profile.own target accesses

def detect (options : FeatureEnvy.Options) (m : ModuleModel) : List Finding :=
  let profiles := Profiles.ofAccesses m.accesses
  m.functions.flatMap (profiles.findings options m.path)

end CodeSmell.FeatureEnvy
