import CodeSmell.Decimal.Text
import CodeSmell.Finding

/-!
The options of the detectors: their defaults, their description, and which values are allowed.
-/

namespace CodeSmell

structure LongMethod.Options where
  enabled : Bool := true
  maxLines : Int := 30
  maxComplexity : Int := 10
deriving Inhabited

structure GodClass.Options where
  enabled : Bool := true
  maxFields : Int := 15
  maxMethods : Int := 20
  maxLines : Int := 200
deriving Inhabited

structure LargeParameterList.Options where
  enabled : Bool := true
  maxParameters : Int := 5
deriving Inhabited

structure MagicNumbers.Options where
  enabled : Bool := true
  minOccurrences : Int := 3
  whitelist : List Float := [0, 1, -1]
  minValue : Float := 2
  maxValue : Float := 1000
  ignoreConstantDefinitions : Bool := true
deriving Inhabited

structure DuplicatedCode.Options where
  enabled : Bool := true
  minSimilarity : Float := 0.8
  minChunkSize : Int := 3
deriving Inhabited

structure FeatureEnvy.Options where
  enabled : Bool := true
  minForeignAccesses : Int := 2
  foreignAccessRatio : Float := 0.5
deriving Inhabited

structure DetectionOptions where
  longMethod : LongMethod.Options := {}
  godClass : GodClass.Options := {}
  largeParameterList : LargeParameterList.Options := {}
  magicNumbers : MagicNumbers.Options := {}
  duplicatedCode : DuplicatedCode.Options := {}
  featureEnvy : FeatureEnvy.Options := {}
deriving Inhabited

inductive OptionError where
  | belowMinimum (kind : Smell) (option : Bytes) (value minimum : Int)
  | notFinite (kind : Smell) (option : Bytes) (value : Float)
  | minimumAboveMaximum (minimum maximum : Float)
  | similarityOutOfRange (value : Float)
  | negativeRatio (value : Float)
  | unknownDetector (name option : Bytes) (registered : List Bytes)

namespace OptionError

def invalid (kind : Smell) (option value requirement : Bytes) : Bytes :=
  "Invalid " ++ kind.name ++ "." ++ option ++ " '" ++ value ++ "': " ++ requirement

def message : OptionError → Bytes
  | belowMinimum kind option value minimum =>
    invalid kind option (Bytes.ofInt value) ("must be >= " ++ Bytes.ofInt minimum)
  | notFinite kind option value =>
    invalid kind option (Decimal.short value) "must be a finite number"
  | minimumAboveMaximum minimum maximum =>
    invalid .magicNumbers "min_value" (Decimal.short minimum)
      ("must not exceed max_value (" ++ Decimal.short maximum ++ ")")
  | similarityOutOfRange value =>
    invalid .duplicatedCode "min_similarity" (Decimal.short value) "must be within [0, 1]"
  | negativeRatio value =>
    invalid .featureEnvy "foreign_access_ratio" (Decimal.short value) "must be >= 0"
  | unknownDetector name option registered =>
    "Unknown detector '" ++ name ++ "' in " ++ option ++ ". Registered: " ++
      Bytes.join ", " registered

end OptionError

namespace DetectionOptions

def isEnabled (options : DetectionOptions) : Smell → Bool
  | .longMethod => options.longMethod.enabled
  | .godClass => options.godClass.enabled
  | .largeParameterList => options.largeParameterList.enabled
  | .magicNumbers => options.magicNumbers.enabled
  | .duplicatedCode => options.duplicatedCode.enabled
  | .featureEnvy => options.featureEnvy.enabled

def describe (options : DetectionOptions) : Smell → List (Bytes × Bytes)
  | .longMethod =>
    let o := options.longMethod
    [("max_lines", Bytes.ofInt o.maxLines), ("max_complexity", Bytes.ofInt o.maxComplexity)]
  | .godClass =>
    let o := options.godClass
    [("max_fields", Bytes.ofInt o.maxFields), ("max_methods", Bytes.ofInt o.maxMethods),
      ("max_lines", Bytes.ofInt o.maxLines)]
  | .largeParameterList =>
    [("max_parameters", Bytes.ofInt options.largeParameterList.maxParameters)]
  | .magicNumbers =>
    let o := options.magicNumbers
    [("min_occurrences", Bytes.ofInt o.minOccurrences),
      ("whitelist", "[" ++ Bytes.join ", " (o.whitelist.map Decimal.short) ++ "]"),
      ("min_value", Decimal.short o.minValue), ("max_value", Decimal.short o.maxValue),
      ("ignore_constant_definitions", Bytes.ofBool o.ignoreConstantDefinitions)]
  | .duplicatedCode =>
    let o := options.duplicatedCode
    [("min_similarity", Decimal.short o.minSimilarity),
      ("min_chunk_size", Bytes.ofInt o.minChunkSize)]
  | .featureEnvy =>
    let o := options.featureEnvy
    [("min_foreign_accesses", Bytes.ofInt o.minForeignAccesses),
      ("foreign_access_ratio", Decimal.short o.foreignAccessRatio)]

def checkMinimum (kind : Smell) (option : Bytes) (value minimum : Int) :
    Except OptionError Unit :=
  if value < minimum then .error (.belowMinimum kind option value minimum) else .ok ()

def checkFinite (kind : Smell) (option : Bytes) (value : Float) : Except OptionError Unit :=
  if value.isFinite then .ok () else .error (.notFinite kind option value)

/-- The first option that is out of its domain is the one that is reported. -/
def validate (options : DetectionOptions) : Smell → Except OptionError Unit
  | .longMethod => do
    checkMinimum .longMethod "max_lines" options.longMethod.maxLines 0
    checkMinimum .longMethod "max_complexity" options.longMethod.maxComplexity 1
  | .godClass => do
    checkMinimum .godClass "max_fields" options.godClass.maxFields 0
    checkMinimum .godClass "max_methods" options.godClass.maxMethods 0
    checkMinimum .godClass "max_lines" options.godClass.maxLines 0
  | .largeParameterList =>
    checkMinimum .largeParameterList "max_parameters" options.largeParameterList.maxParameters 0
  | .magicNumbers => do
    let o := options.magicNumbers
    checkMinimum .magicNumbers "min_occurrences" o.minOccurrences 1
    checkFinite .magicNumbers "min_value" o.minValue
    checkFinite .magicNumbers "max_value" o.maxValue
    if o.maxValue < o.minValue then throw (.minimumAboveMaximum o.minValue o.maxValue)
    o.whitelist.forM (checkFinite .magicNumbers "whitelist")
  | .duplicatedCode => do
    let o := options.duplicatedCode
    if !(0 ≤ o.minSimilarity && o.minSimilarity ≤ 1) then
      throw (.similarityOutOfRange o.minSimilarity)
    checkMinimum .duplicatedCode "min_chunk_size" o.minChunkSize 1
  | .featureEnvy => do
    let o := options.featureEnvy
    checkMinimum .featureEnvy "min_foreign_accesses" o.minForeignAccesses 0
    checkFinite .featureEnvy "foreign_access_ratio" o.foreignAccessRatio
    if o.foreignAccessRatio < 0 then throw (.negativeRatio o.foreignAccessRatio)

end DetectionOptions

end CodeSmell
