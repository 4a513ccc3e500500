import CodeSmell.Finding

/-!
The result of an analysis, and the counts that sum it up.
-/

namespace CodeSmell

structure FileError where
  file : Bytes
  position : Position := ⟨0, 0⟩
  message : Bytes
deriving DecidableEq, Repr, Inhabited

structure Analysis where
  files : List Bytes := []
  activeDetectors : List Bytes := []
  findings : List Finding := []
  errors : List FileError := []
deriving Inhabited

def Analysis.exitStatus (a : Analysis) : Nat := if a.findings.isEmpty then 0 else 2

abbrev Tally := ByName Nat

def Tally.add (name : Bytes) (n : Nat) (tally : Tally) : Tally :=
  ByName.update name (fun count => count.getD 0 + n) tally

/-- `byKind` lists active detectors also without findings. -/
structure Summary where
  byKind : Tally := []
  byFile : Tally := []
  high : Nat := 0
  medium : Nat := 0
  low : Nat := 0
deriving DecidableEq, Repr, Inhabited

namespace Summary

def add (s : Summary) (f : Finding) : Summary :=
  { byKind := Tally.add f.kind.name 1 s.byKind
    byFile := Tally.add f.file 1 s.byFile
    high := s.high + if f.severity = .high then 1 else 0
    medium := s.medium + if f.severity = .medium then 1 else 0
    low := s.low + if f.severity = .low then 1 else 0 }

def ofAnalysis (a : Analysis) : Summary :=
  a.findings.foldl add
    { byKind := a.activeDetectors.foldl (fun tally name => Tally.add name 0 tally) [] }

end Summary

end CodeSmell
