import CodeSmell.Analysis
import CodeSmell.Decimal.Text

/-!
The report of an analysis as a JSON document.
-/

namespace CodeSmell.Json

def hexDigit (n : Nat) : UInt8 := if n < 10 then (48 + n).toUInt8 else (87 + n).toUInt8

def unicodeEscape (b : UInt8) : Bytes :=
  "\\u00" ++ [hexDigit (b.toNat / 16), hexDigit (b.toNat % 16)]

def escapeByte (b : UInt8) : Bytes :=
  if b == '"' then "\\\""
  else if b == '\\' then "\\\\"
  else if b == Ascii.lineFeed then "\\n"
  else if b == Ascii.carriageReturn then "\\r"
  else if b == Ascii.tab then "\\t"
  else if b < 0x20 then unicodeEscape b
  else [b]

def escape (s : Bytes) : Bytes := s.flatMap escapeByte

def string (s : Bytes) : Bytes := "\"" ++ escape s ++ "\""

/-- Small integers without a fraction, other numbers to 15 significant digits; infinities and NaN
have no JSON number. -/
def number (x : Float) : Bytes :=
  if !x.isFinite then "null"
  else match Decimal.smallInteger? x with
    | some n => Bytes.ofInt n
    | none => Decimal.general 15 x

def field (name value : Bytes) : Bytes := string name ++ ": " ++ value

def array (separator : Bytes) (items : List Bytes) : Bytes :=
  "[" ++ Bytes.join separator items ++ "]"

def object (separator : Bytes) (fields : List Bytes) : Bytes :=
  "\x7b" ++ Bytes.join separator fields ++ "\x7d"

def strings (items : List Bytes) : Bytes := array ", " (items.map string)

def counts (tally : Tally) : Bytes :=
  object ", " (tally.map fun (name, count) => field name (Bytes.ofNat count))

def metadata (time : Bytes) (a : Analysis) : Bytes :=
  object ", " [field "generated_at" (string time),
    field "total_files_analyzed" (Bytes.ofNat a.files.length),
    field "total_smells_found" (Bytes.ofNat a.findings.length),
    field "active_detectors" (strings a.activeDetectors)]

def summary (s : Summary) : Bytes :=
  object ", " [field "smells_by_type" (counts s.byKind), field "smells_by_file" (counts s.byFile),
    field "severity_breakdown" (object ", " [field "high" (Bytes.ofNat s.high),
      field "medium" (Bytes.ofNat s.medium), field "low" (Bytes.ofNat s.low)])]

def finding (f : Finding) : Bytes :=
  object ", " [field "smell_type" (string f.kind.name), field "file_path" (string f.file),
    field "line_number" (Bytes.ofInt f.lines.first), field "end_line" (Bytes.ofInt f.lines.last),
    field "severity" (string f.severity.name), field "subject" (string f.subject),
    field "message" (string f.message),
    field "details" (object ", " (f.metrics.map fun (name, value) => field name (number value))),
    field "evidence" (strings f.evidence)]

def fileError (e : FileError) : Bytes :=
  object ", " [field "file_path" (string e.file),
    field "line_number" (Bytes.ofInt e.position.line), field "column" (Bytes.ofInt e.position.column),
    field "message" (string e.message)]

def report (time : Bytes) (a : Analysis) : Bytes :=
  object ",\n" [field "metadata" (metadata time a),
    field "summary" (summary (Summary.ofAnalysis a)),
    field "smells" (array ",\n" (a.findings.map finding)),
    field "errors" (array ",\n" (a.errors.map fileError))] ++ "\n"

end CodeSmell.Json
