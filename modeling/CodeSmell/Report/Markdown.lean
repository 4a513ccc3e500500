import CodeSmell.Analysis

/-!
The report of an analysis as a Markdown document. Text in the cells of a table is escaped, so that
it stays within its cell and line.
-/

namespace CodeSmell.Markdown

def escapeByte (b : UInt8) : Bytes :=
  if b == '|' then "\\|" else if b == Ascii.lineFeed then "<br>" else [b]

def cell (s : Bytes) : Bytes := s.flatMap escapeByte

def row (cells : List Bytes) : Bytes := "| " ++ Bytes.join " | " cells ++ " |\n"

def countRow (count : Bytes × Nat) : Bytes := row [count.1, Bytes.ofNat count.2]

def header (names : List Bytes) : Bytes := row names ++ row (names.map fun _ => "---")

def analysisHeader (time target : Bytes) (a : Analysis) : Bytes :=
  let detectors : Bytes :=
    if a.activeDetectors.isEmpty then "None" else Bytes.join ", " a.activeDetectors
  "## Analysis Header\n\n" ++ header ["Field", "Value"] ++ row ["Generated At", time] ++
    row ["Target", cell target] ++ row ["Files Analyzed", Bytes.ofNat a.files.length] ++
    row ["Total Smells", Bytes.ofNat a.findings.length] ++ row ["Active Detectors", detectors] ++ "\n"

def summary (s : Summary) : Bytes :=
  let kinds := if s.byKind.isEmpty then row ["None", "-"] else s.byKind.flatMap countRow
  "## Summary\n\n" ++ header ["Smell", "Count"] ++ kinds ++ "\n" ++ header ["Severity", "Count"] ++
    countRow ("high", s.high) ++ countRow ("medium", s.medium) ++ countRow ("low", s.low) ++ "\n"

def evidence (items : List Bytes) : Bytes :=
  if items.isEmpty then "-" else Bytes.join "<br>" (items.map cell)

def findingRow (f : Finding) : Bytes :=
  row [f.kind.name, f.severity.name, cell f.file,
    Bytes.ofInt f.lines.first ++ "-" ++ Bytes.ofInt f.lines.last, cell f.message,
    evidence f.evidence]

def findings (fs : List Finding) : Bytes :=
  let rows := if fs.isEmpty then row ["None", "-", "-", "-", "-", "-"] else fs.flatMap findingRow
  "## Findings\n\n" ++ header ["Smell", "Severity", "File", "Lines", "Message", "Evidence"] ++
    rows ++ "\n"

def errorLine (e : FileError) : Bytes :=
  "- " ++ cell e.file ++ ":" ++ Bytes.ofInt e.position.line ++ ":" ++
    Bytes.ofInt e.position.column ++ ": " ++ cell e.message ++ "\n"

def errors (es : List FileError) : Bytes :=
  let lines : Bytes := if es.isEmpty then "- None\n" else es.flatMap errorLine
  "## Parse Errors\n\n" ++ lines

def report (time target : Bytes) (a : Analysis) : Bytes :=
  "# Code Smell Report\n\n" ++ analysisHeader time target a ++ summary (Summary.ofAnalysis a) ++
    findings a.findings ++ errors a.errors

end CodeSmell.Markdown
