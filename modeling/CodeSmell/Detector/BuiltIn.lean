import CodeSmell.Detector.DuplicatedCode
import CodeSmell.Detector.FeatureEnvy
import CodeSmell.Detector.GodClass
import CodeSmell.Detector.LargeParameterList
import CodeSmell.Detector.LongMethod
import CodeSmell.Detector.MagicNumbers

/-!
The detector of each kind of smell. It is made only from options that are valid for it.
-/

namespace CodeSmell

def Smell.findings (options : DetectionOptions) : Smell → ModuleModel → List Finding
  | .longMethod => LongMethod.detect options.longMethod
  | .godClass => GodClass.detect options.godClass
  | .largeParameterList => LargeParameterList.detect options.largeParameterList
  | .magicNumbers => MagicNumbers.detect options.magicNumbers
  | .duplicatedCode => DuplicatedCode.detect options.duplicatedCode
  | .featureEnvy => FeatureEnvy.detect options.featureEnvy

def Detector.builtIn (kind : Smell) (options : DetectionOptions) : Except OptionError Detector := do
  options.validate kind
  pure { kind, detect := kind.findings options }

end CodeSmell
