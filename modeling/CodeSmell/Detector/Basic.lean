import CodeSmell.Model.Module
import CodeSmell.Options

/-!
What all detectors share: a detector finds the smells of one kind in the model of a module.
-/

namespace CodeSmell

structure Detector where
  kind : Smell
  detect : ModuleModel → List Finding

def exceeds (what : Bytes) (value threshold : Int) : Bytes :=
  what ++ Bytes.ofInt value ++ ", threshold: " ++ Bytes.ofInt threshold ++ ")"

end CodeSmell
