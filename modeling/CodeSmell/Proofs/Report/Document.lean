import CodeSmell.Proofs.Report.Decode
import CodeSmell.Proofs.Report.Number
import Mathlib.Data.List.Forall2

/-!
The report of an analysis is a JSON text. `document` is the value that stands for an analysis, but
for the numbers among its metrics; `report_decodes` says that the report is a text of the grammar
with this value, whatever bytes the names and messages have.
-/

namespace CodeSmell.Json

open Grammar

/-- Whatever follows, the text is the part. -/
def Spells (text : Bytes) (part : Part) : Prop := ∀ rest, Reads part (text ++ rest) rest

theorem hexDigit_value : ∀ n < 16, Ascii.hexValue? (hexDigit n) = some n := by decide

theorem utf8_control : ∀ n < 32, utf8 n = [n.toUInt8] := by decide +kernel

theorem noSurrogate_control : ∀ n < 32, isHighSurrogate n = false ∧ isLowSurrogate n = false := by
  decide

theorem codeUnit_unicodeEscape {b : UInt8} (control : b < 0x20) (rest : Bytes) :
    CodeUnit b.toNat (unicodeEscape b ++ rest) rest := by
  have small : b.toNat < 32 := UInt8.lt_iff_toNat_lt.1 control
  have high := hexDigit_value (b.toNat / 16) (by omega)
  have low := hexDigit_value (b.toNat % 16) (by omega)
  have zero : Ascii.hexValue? '0' = some 0 := rfl
  refine .mk (t := '0' :: '0' :: hexDigit (b.toNat / 16) :: hexDigit (b.toNat % 16) :: rest) ?_
  simp [unit?, zero, high, low]
  omega

theorem character_escapeByte (b : UInt8) (rest : Bytes) :
    Character [b] (escapeByte b ++ rest) rest := by
  have escaped {letter c : UInt8} (known : escapes.lookup letter = some c)
      (same : (b == c) = true) : Character [b] ('\\' :: letter :: rest) rest := by
    rw [eq_of_beq same]
    exact .escape known
  unfold escapeByte
  split_ifs with quote backslash feed carriage tab control
  · exact escaped rfl quote
  · exact escaped rfl backslash
  · exact escaped rfl feed
  · exact escaped rfl carriage
  · exact escaped rfl tab
  · have small : b.toNat < 32 := UInt8.lt_iff_toNat_lt.1 control
    have read := Character.unicode (codeUnit_unicodeEscape control rest)
      (noSurrogate_control _ small).1 (noSurrogate_control _ small).2
    rw [utf8_control _ small] at read
    simpa using read
  · exact .plain (UInt8.not_lt.1 control) (by simpa using quote) (by simpa using backslash)

theorem characters_escape (s rest : Bytes) : Characters s (escape s ++ rest) rest := by
  induction s with
  | nil => exact .nil
  | cons b s ih =>
    rw [escape, List.flatMap_cons, List.append_assoc]
    exact .cons (character_escapeByte b _) ih

theorem spells_string (s : Bytes) : Spells (string s) (.value (.string s)) := fun rest => by
  have closed : string s ++ rest = ('"' : UInt8) :: (escape s ++ ('"' : UInt8) :: rest) := by
    rw [string, List.append_assoc, List.append_assoc]
    rfl
  rw [closed]
  exact .string (characters_escape s _)

theorem spells_ofInt (n : Int) : Spells (Bytes.ofInt n) (.value (.number n 0)) :=
  fun rest => .number (numeral_ofInt n rest)

theorem spells_ofNat (n : Nat) : Spells (Bytes.ofNat n) (.value (.number n 0)) := spells_ofInt n

def IsSeparator (separator : Bytes) : Prop :=
  ∃ blank, separator = (',' : UInt8) :: blank ∧ ∀ b ∈ blank, isBlank b = true

theorem isSeparator_comma : IsSeparator ", " := ⟨" ", rfl, by decide +kernel⟩

theorem isSeparator_line : IsSeparator ",\n" := ⟨"\n", rfl, by decide +kernel⟩

theorem space_append {blank : Bytes} (allBlank : ∀ b ∈ blank, isBlank b = true) (rest : Bytes) :
    Space (blank ++ rest) rest := by
  induction blank with
  | nil => exact .nil
  | cons b blank ih =>
    rw [List.forall_mem_cons] at allBlank
    exact .cons allBlank.1 (ih allBlank.2)

theorem spells_join {α : Type} {item : α → Part} {list : List α → Part} {separator : Bytes}
    (isSeparator : IsSeparator separator)
    (last : ∀ {x t t₁ t₂ rest}, Space t t₁ → Reads (item x) t₁ t₂ → Space t₂ rest →
      Reads (list [x]) t rest)
    (next : ∀ {x xs t t₁ t₂ t₃ rest}, Space t t₁ → Reads (item x) t₁ t₂ →
      Space t₂ ((',' : UInt8) :: t₃) → Reads (list xs) t₃ rest → Reads (list (x :: xs)) t rest)
    {text : Bytes} {x : α} {texts : List Bytes} {xs : List α} (first : Spells text (item x))
    (others : List.Forall₂ (fun text x => Spells text (item x)) texts xs) :
    Spells (Bytes.join separator (text :: texts)) (list (x :: xs)) := by
  obtain ⟨blank, rfl, allBlank⟩ := isSeparator
  intro rest
  suffices ∀ t, Space t (Bytes.join (',' :: blank) (text :: texts) ++ rest) →
      Reads (list (x :: xs)) t rest from this _ .nil
  induction others generalizing text x with
  | nil =>
    intro t before
    rw [Bytes.join, List.intercalate_singleton] at before
    exact last before (first rest) .nil
  | cons second others ih =>
    intro t before
    rw [Bytes.join, List.intercalate_cons_cons, List.append_assoc, List.append_assoc] at before
    exact next before (first _) .nil (ih second _ (space_append allBlank _))

theorem spells_array {separator : Bytes} (isSeparator : IsSeparator separator) {items : List Bytes}
    {vs : List Value} (h : List.Forall₂ (fun text v => Spells text (.value v)) items vs) :
    Spells (array separator items) (.value (.array vs)) := fun rest => by
  have closed : array separator items ++ rest =
      ('[' : UInt8) :: (Bytes.join separator items ++ (']' : UInt8) :: rest) := by
    rw [array, List.append_assoc, List.append_assoc]
    rfl
  rw [closed]
  cases h with
  | nil => exact .noElements .nil
  | cons first others =>
    exact .array (spells_join isSeparator .lastElement .elements first others _)

theorem spells_object {separator : Bytes} (isSeparator : IsSeparator separator)
    {fields : List Bytes} {ms : List (Bytes × Value)}
    (h : List.Forall₂ (fun text m => Spells text (.member m)) fields ms) :
    Spells (object separator fields) (.value (.object ms)) := fun rest => by
  have closed : object separator fields ++ rest =
      ('\x7b' : UInt8) :: (Bytes.join separator fields ++ ('\x7d' : UInt8) :: rest) := by
    rw [object, List.append_assoc, List.append_assoc]
    rfl
  rw [closed]
  cases h with
  | nil => exact .noMembers .nil
  | cons first others =>
    exact .object (spells_join isSeparator .lastMember .members first others _)

theorem spells_field (name : Bytes) {value : Bytes} {v : Value} (h : Spells value (.value v)) :
    Spells (field name value) (.member (name, v)) := fun rest => by
  have opened : field name value ++ rest = ('"' : UInt8) ::
      (escape name ++ ('"' : UInt8) :: (':' : UInt8) :: (' ' : UInt8) :: (value ++ rest)) := by
    simp only [field, string, List.append_assoc]
    rfl
  rw [opened]
  exact .member (characters_escape name _) .nil (.cons rfl .nil) (h rest)

theorem spells_array_map {α : Type} {separator : Bytes} (isSeparator : IsSeparator separator)
    {text : α → Bytes} {value : α → Value} (h : ∀ x, Spells (text x) (.value (value x)))
    (xs : List α) : Spells (array separator (xs.map text)) (.value (.array (xs.map value))) := by
  refine spells_array isSeparator ?_
  rw [List.forall₂_map_left_iff, List.forall₂_map_right_iff]
  exact List.forall₂_same.2 fun x _ => h x

theorem spells_object_map {α : Type} {separator : Bytes} (isSeparator : IsSeparator separator)
    {text : α → Bytes} {value : α → Value} (h : ∀ x, Spells (text x) (.value (value x)))
    (xs : List (Bytes × α)) :
    Spells (object separator (xs.map fun (name, x) => field name (text x)))
      (.value (.object (xs.map fun (name, x) => (name, value x)))) := by
  refine spells_object isSeparator ?_
  rw [List.forall₂_map_left_iff, List.forall₂_map_right_iff]
  exact List.forall₂_same.2 fun (name, x) _ => spells_field name (h x)

def stringsValue (items : List Bytes) : Value := .array (items.map .string)

def countsValue (tally : Tally) : Value :=
  .object (tally.map fun (name, count) => (name, .number count 0))

def metadataValue (time : Bytes) (a : Analysis) : Value :=
  .object [("generated_at", .string time), ("total_files_analyzed", .number a.files.length 0),
    ("total_smells_found", .number a.findings.length 0),
    ("active_detectors", stringsValue a.activeDetectors)]

def summaryValue (s : Summary) : Value :=
  .object [("smells_by_type", countsValue s.byKind), ("smells_by_file", countsValue s.byFile),
    ("severity_breakdown", .object [("high", .number s.high 0), ("medium", .number s.medium 0),
      ("low", .number s.low 0)])]

def findingValue (metric : Float → Value) (f : Finding) : Value :=
  .object [("smell_type", .string f.kind.name), ("file_path", .string f.file),
    ("line_number", .number f.lines.first 0), ("end_line", .number f.lines.last 0),
    ("severity", .string f.severity.name), ("subject", .string f.subject),
    ("message", .string f.message),
    ("details", .object (f.metrics.map fun (name, value) => (name, metric value))),
    ("evidence", stringsValue f.evidence)]

def errorValue (e : FileError) : Value :=
  .object [("file_path", .string e.file), ("line_number", .number e.position.line 0),
    ("column", .number e.position.column 0), ("message", .string e.message)]

/-- What the report of an analysis stands for, if `metric` is what metrics are written as. -/
def document (metric : Float → Value) (time : Bytes) (a : Analysis) : Value :=
  .object [("metadata", metadataValue time a), ("summary", summaryValue (Summary.ofAnalysis a)),
    ("smells", .array (a.findings.map (findingValue metric))),
    ("errors", .array (a.errors.map errorValue))]

theorem spells_strings (items : List Bytes) :
    Spells (strings items) (.value (stringsValue items)) :=
  spells_array_map isSeparator_comma spells_string items

theorem spells_counts (tally : Tally) : Spells (counts tally) (.value (countsValue tally)) :=
  spells_object_map isSeparator_comma spells_ofNat tally

theorem spells_metadata (time : Bytes) (a : Analysis) :
    Spells (metadata time a) (.value (metadataValue time a)) :=
  spells_object isSeparator_comma <| .cons (spells_field _ (spells_string time)) <|
    .cons (spells_field _ (spells_ofNat _)) <| .cons (spells_field _ (spells_ofNat _)) <|
    .cons (spells_field _ (spells_strings _)) .nil

theorem spells_summary (s : Summary) : Spells (summary s) (.value (summaryValue s)) := by
  have severities : Spells (object ", " [field "high" (Bytes.ofNat s.high),
      field "medium" (Bytes.ofNat s.medium), field "low" (Bytes.ofNat s.low)])
      (.value (.object [("high", .number s.high 0), ("medium", .number s.medium 0),
        ("low", .number s.low 0)])) :=
    spells_object isSeparator_comma <| .cons (spells_field _ (spells_ofNat _)) <|
      .cons (spells_field _ (spells_ofNat _)) <| .cons (spells_field _ (spells_ofNat _)) .nil
  exact spells_object isSeparator_comma <| .cons (spells_field _ (spells_counts _)) <|
    .cons (spells_field _ (spells_counts _)) <| .cons (spells_field _ severities) .nil

theorem spells_error (e : FileError) : Spells (fileError e) (.value (errorValue e)) :=
  spells_object isSeparator_comma <| .cons (spells_field _ (spells_string _)) <|
    .cons (spells_field _ (spells_ofInt _)) <| .cons (spells_field _ (spells_ofInt _)) <|
    .cons (spells_field _ (spells_string _)) .nil

section Metrics

variable {metric : Float → Value} (written : ∀ x, Spells (number x) (.value (metric x)))

include written

theorem spells_finding (f : Finding) : Spells (finding f) (.value (findingValue metric f)) :=
  spells_object isSeparator_comma <| .cons (spells_field _ (spells_string _)) <|
    .cons (spells_field _ (spells_string _)) <| .cons (spells_field _ (spells_ofInt _)) <|
    .cons (spells_field _ (spells_ofInt _)) <| .cons (spells_field _ (spells_string _)) <|
    .cons (spells_field _ (spells_string _)) <| .cons (spells_field _ (spells_string _)) <|
    .cons (spells_field _ (spells_object_map isSeparator_comma written f.metrics)) <|
    .cons (spells_field _ (spells_strings _)) .nil

theorem document_report (time : Bytes) (a : Analysis) :
    Document (report time a) (document metric time a) := by
  have smells := spells_array_map isSeparator_line (spells_finding written) a.findings
  have errors := spells_array_map isSeparator_line spells_error a.errors
  have whole := spells_object isSeparator_line <|
    .cons (spells_field "metadata" (spells_metadata time a)) <|
    .cons (spells_field "summary" (spells_summary (Summary.ofAnalysis a))) <|
    .cons (spells_field "smells" smells) <| .cons (spells_field "errors" errors) .nil
  exact ⟨_, "\n", .nil, whole "\n", .cons rfl .nil⟩

end Metrics

/-- The report of every analysis is a text of the grammar with the value of the analysis, and that
is what it decodes to. A metric is a number in it if it is finite, and null if not. -/
theorem report_decodes : ∃ metric : Float → Value,
    (∀ x : Float, if x.isFinite then ∃ m e, metric x = .number m e else metric x = .null) ∧
    ∀ time a, Document (report time a) (document metric time a) ∧
      decode (report time a) = some (document metric time a) := by
  choose metric written kind using reads_number
  refine ⟨metric, kind, fun time a => ?_⟩
  have isDocument := document_report written time a
  exact ⟨isDocument, decode_document isDocument⟩

end CodeSmell.Json
