import CodeSmell.ByName
import CodeSmell.Position

/-!
Findings: the six kinds of code smell, how severe one is, and where it stands. A `Collector`
collects findings and hands them out in order.
-/

namespace CodeSmell

inductive Smell where
  | longMethod | godClass | largeParameterList | magicNumbers | duplicatedCode | featureEnvy
deriving DecidableEq, Repr, Inhabited

def looseName (name : Bytes) : Bytes :=
  Bytes.lower (name.filter fun (b : UInt8) => !(b == '_' || b == '-' || b == ' '))

namespace Smell

def all : List Smell :=
  [longMethod, godClass, largeParameterList, magicNumbers, duplicatedCode, featureEnvy]

def number : Smell → Nat
  | longMethod => 0
  | godClass => 1
  | largeParameterList => 2
  | magicNumbers => 3
  | duplicatedCode => 4
  | featureEnvy => 5

def name : Smell → Bytes
  | longMethod => "LongMethod"
  | godClass => "GodClass"
  | largeParameterList => "LargeParameterList"
  | magicNumbers => "MagicNumbers"
  | duplicatedCode => "DuplicatedCode"
  | featureEnvy => "FeatureEnvy"

def ofName? (name : Bytes) : Option Smell :=
  all.find? fun kind => looseName kind.name == looseName name

end Smell

inductive Severity where
  | high | medium | low
deriving DecidableEq, Repr, Inhabited

namespace Severity

def all : List Severity := [high, medium, low]

def name : Severity → Bytes
  | high => "high"
  | medium => "medium"
  | low => "low"

end Severity

abbrev Metrics := ByName Float

structure Finding where
  kind : Smell := .longMethod
  severity : Severity := .medium
  file : Bytes := []
  lines : LineRange := {}
  subject : Bytes := []
  message : Bytes := []
  metrics : Metrics := []
  evidence : List Bytes := []
deriving Inhabited

namespace Finding

def before (a b : Finding) : Bool :=
  a.lines.first < b.lines.first ||
    (a.lines.first == b.lines.first && a.kind.number ≤ b.kind.number)

/-- Findings that come together stay in the order in which they were found. -/
def sort (findings : List Finding) : List Finding := findings.mergeSort before

end Finding

structure Collector where
  findings : List Finding := []

namespace Collector

def add (a : Collector) (findings : List Finding) : Collector := ⟨a.findings ++ findings⟩

def finish (a : Collector) : List Finding × Collector := (Finding.sort a.findings, {})

end Collector

end CodeSmell
