import CodeSmell.Registry
import CodeSmell.Report.Format

/-!
The registry of all built-in components.
-/

namespace CodeSmell.Registry

def builtInDetector (kind : Smell) : Registration DetectorMaker :=
  { name := kind.name, factory := fun options => do pure (some (← Detector.builtIn kind options)) }

def builtInReporter (format : ReportFormat) : Registration (Option ReportFormat) :=
  { name := format.name, factory := some format, asDefault := format = .json }

def standard : Registry ReportFormat :=
  { detectors := .ofList (Smell.all.map builtInDetector)
    reporters := .ofList (ReportFormat.all.map builtInReporter) }

end CodeSmell.Registry
