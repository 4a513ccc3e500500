import CodeSmell.Analysis
import CodeSmell.Decimal.Text

/-!
The report of an analysis as plain text, and the short summary that ends a run.
-/

namespace CodeSmell.PlainText

def rule (width : Nat) (mark : Char) : Bytes := List.replicate width mark.toUInt8 ++ "\n"

def line (name value : Bytes) : Bytes := name ++ ": " ++ value ++ "\n"

def countLine (count : Bytes × Nat) : Bytes := "  " ++ line count.1 (Bytes.ofNat count.2)

def counts (s : Summary) : Bytes :=
  "Smells by type:\n" ++ s.byKind.flatMap countLine ++ "\nSeverity breakdown:\n" ++
    countLine ("high", s.high) ++ countLine ("medium", s.medium) ++ countLine ("low", s.low)

def titled (title : Bytes) (lines : List Bytes) : Bytes :=
  if lines.isEmpty then [] else title ++ lines.flatten

def lineRange (lines : LineRange) : Bytes :=
  if lines.last = lines.first then Bytes.ofInt lines.first
  else Bytes.ofInt lines.first ++ "-" ++ Bytes.ofInt lines.last

def finding (f : Finding) : Bytes :=
  "\n" ++ f.kind.name ++ " - " ++ f.severity.name.upper ++ "\n" ++ line "File" f.file ++
    line "Line" (lineRange f.lines) ++ line "Message" f.message ++
    titled "Details:\n" (f.metrics.map fun (name, value) => "  " ++ line name (Decimal.short value)) ++
    titled "Evidence:\n" (f.evidence.map fun item => "  " ++ item ++ "\n")

def errorLine (e : FileError) : Bytes :=
  e.file ++ ":" ++ Bytes.ofInt e.position.line ++ ":" ++ Bytes.ofInt e.position.column ++ ": " ++
    e.message ++ "\n"

def totals (a : Analysis) : Bytes :=
  line "Files analyzed" (Bytes.ofNat a.files.length) ++
    line "Total smells found" (Bytes.ofNat a.findings.length) ++
    line "Active detectors" (Bytes.join ", " a.activeDetectors)

def report (time : Bytes) (a : Analysis) : Bytes :=
  "CODE SMELL DETECTION REPORT\n" ++ rule 50 '=' ++ "\n" ++ line "Generated at" time ++ totals a ++
    "\nSUMMARY\n" ++ rule 20 '-' ++ counts (Summary.ofAnalysis a) ++
    "\nDETAILED FINDINGS\n" ++ rule 20 '-' ++ a.findings.flatMap finding ++
    titled ("\nPARSE ERRORS\n" ++ rule 20 '-') (a.errors.map errorLine)

def summary (a : Analysis) : Bytes :=
  rule 60 '=' ++ "CODE SMELL DETECTION SUMMARY\n" ++ rule 60 '=' ++ totals a ++
    (if a.errors.isEmpty then [] else line "Files with parse errors" (Bytes.ofNat a.errors.length)) ++
    "\n" ++ counts (Summary.ofAnalysis a) ++ rule 60 '='

end CodeSmell.PlainText
