import CodeSmell.Report.Json
import CodeSmell.Report.Markdown
import CodeSmell.Report.Text

/-!
The formats of a report: their names, the files they are written to, and the documents.
-/

namespace CodeSmell

inductive ReportFormat where
  | json | text | markdown
deriving DecidableEq, Repr, Inhabited

namespace ReportFormat

def all : List ReportFormat := [json, text, markdown]

def name : ReportFormat → Bytes
  | json => "json"
  | text => "text"
  | markdown => "markdown"

/-- Formats are read in any case and without the white space around them; `txt` and `md` are short
for `text` and `markdown`. -/
def ofName? (name : Bytes) : Option ReportFormat :=
  let wanted := Bytes.lower (Bytes.trim name)
  if wanted == "txt" then some text
  else if wanted == "md" then some markdown
  else all.find? fun format => format.name == wanted

def fileName (format : Bytes) : Bytes :=
  let ending : Bytes :=
    if format == text.name then "txt" else if format == markdown.name then "md" else format
  "smell_report." ++ ending

def render (format : ReportFormat) (time target : Bytes) (a : Analysis) : Bytes :=
  match format with
  | json => Json.report time a
  | text => PlainText.report time a
  | markdown => Markdown.report time target a

end ReportFormat

end CodeSmell
