import CodeSmell.Log
import CodeSmell.Options

/-!
What a run of the analysis is asked to do.
-/

namespace CodeSmell

structure Settings where
  target : Bytes := []
  formats : List Bytes := []
  ignoredPaths : List Bytes := []
  only : List Bytes := []
  exclude : List Bytes := []
  detection : DetectionOptions := {}
  logLevel : LogLevel := .warn
deriving Inhabited

end CodeSmell
