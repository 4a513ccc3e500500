import CodeSmell.Registry.Standard
import CodeSmell.Sources

/-!
A run of the analysis: find the sources, choose the detectors, analyse each file on its own, and
render the reports. A file that cannot be analysed adds an error and the run goes on.
-/

namespace CodeSmell

inductive PipelineError where
  | incomplete
  | sources (error : SourceError)
  | registry (error : RegistryError)

def PipelineError.message : PipelineError → Bytes
  | incomplete => "Pipeline requires a source acquirer and a model builder"
  | sources error => error.message
  | registry error => error.message

/-- A computation that may fail and that logs events up to its failure. -/
abbrev Logged (ε : Type) := ExceptT ε (StateM (List LogEvent))

namespace Logged

variable {ε α : Type}

def log (level : LogLevel) (message : Bytes) (fields : List (Bytes × Bytes)) : Logged ε Unit :=
  modify fun events => events ++ [{ level, message, fields }]

def outcome (x : Logged ε α) : Except ε α × List LogEvent := Id.run (StateT.run (ExceptT.run x) [])

end Logged

abbrev Modeller := Bytes → Bytes → Except SyntaxError ModuleModel

def ModuleModel.findings (m : ModuleModel) (detectors : List Detector) : List Finding :=
  (detectors.foldl (fun (found : Collector) d => found.add (d.detect m)) {}).finish.1

abbrev SourceFinder := Settings → Logged PipelineError (List Bytes)

def FileTree.findSources (tree : FileTree) : SourceFinder := fun settings =>
  match tree.sources settings with
  | .error e => throw (.sources e)
  | .ok found => do
    if found.isSearched then
      Logged.log .info "Collected source files"
        [("count", Bytes.ofNat found.files.length), ("root", found.root)]
    pure found.files

/-- Detectors that are given take the place of those that the settings choose, and a reporter that
is given for a format takes the place of the registered one. -/
structure Pipeline where
  find : SourceFinder
  model : Modeller := ModuleModel.ofSource
  detectors : List Detector := []
  reporters : ByName (Option ReportFormat) := []
  registry : Registry ReportFormat := .standard

structure Reported where
  analysis : Analysis
  documents : ByName Bytes
deriving Inhabited

namespace Pipeline

def ofParts (find : Option SourceFinder) (model : Option Modeller) :
    Except PipelineError Pipeline :=
  match find, model with
  | some find, some model => .ok { find, model }
  | _, _ => .error .incomplete

def chosenDetectors (p : Pipeline) (settings : Settings) : Except RegistryError (List Detector) := do
  let names ← (p.registry.activeDetectors settings.detection settings.only settings.exclude).mapError
    .invalidOption
  names.mapM fun name => p.registry.makeDetector name settings.detection

def reporterFor (p : Pipeline) (format : Bytes) : Except RegistryError ReportFormat :=
  match (p.reporters.lookup format).join with
  | some reporter => .ok reporter
  | none => p.registry.makeReporter format

/-- One document for each format; without formats, one in the default format. -/
def render (p : Pipeline) (time : Bytes) (settings : Settings) (a : Analysis) :
    Except RegistryError (ByName Bytes) := do
  let formats :=
    if settings.formats.isEmpty then [p.registry.reporters.defaultName.getD []] else settings.formats
  let documents ← formats.mapM fun format => do
    pure (format, (← p.reporterFor format).render time settings.target a)
  pure (ByName.ofList documents)

def stage (name : Bytes) (fields : List (Bytes × Bytes)) : Logged PipelineError Unit :=
  Logged.log .debug "pipeline.stage.complete" (("stage", name) :: fields)

def fromRegistry {α : Type} : Except RegistryError α → Logged PipelineError α
  | .ok a => pure a
  | .error e => throw (.registry e)

/-- Analyses one more file; `read` has no content of a file that cannot be read. -/
def analyse (p : Pipeline) (read : Bytes → Option Bytes) (detectors : List Detector)
    (a : Analysis) (file : Bytes) : Logged PipelineError Analysis :=
  match read file with
  | none => do
    Logged.log .warn "pipeline.file.read_error" [("file", file)]
    pure { a with errors := a.errors ++ [{ file, message := "Failed to read source file" }] }
  | some source =>
    match p.model file source with
    | .error e => do
      Logged.log .warn "pipeline.file.parse_error"
        [("file", file), ("line", Bytes.ofInt e.position.line),
          ("column", Bytes.ofInt e.position.column), ("reason", e.reason)]
      pure { a with
        errors := a.errors ++ [{ file, position := e.position, message := e.reason }] }
    | .ok m => do
      Logged.log .debug "pipeline.file.parsed"
        [("file", file), ("functions", Bytes.ofNat m.functions.length),
          ("classes", Bytes.ofNat m.classes.length)]
      pure { a with findings := a.findings ++ m.findings detectors }

def report (p : Pipeline) (read : Bytes → Option Bytes) (time : Bytes) (settings : Settings) :
    Logged PipelineError Reported := do
  Logged.log .info "pipeline.start"
    [("target", settings.target), ("formats", Bytes.ofNat settings.formats.length)]
  let files ← p.find settings
  stage "source" [("file_count", Bytes.ofNat files.length)]
  let detectors ←
    if p.detectors.isEmpty then fromRegistry (p.chosenDetectors settings) else pure p.detectors
  stage "detectors" [("count", Bytes.ofNat detectors.length)]
  let analysis ← files.foldlM (p.analyse read detectors)
    { files, activeDetectors := detectors.map fun d => d.kind.name }
  stage "detect" [("findings", Bytes.ofNat analysis.findings.length),
    ("errors", Bytes.ofNat analysis.errors.length)]
  let documents ← fromRegistry (p.render time settings analysis)
  stage "render" [("documents", Bytes.ofNat documents.length)]
  pure { analysis, documents }

def completion (duration : Bytes) (a : Analysis) : LogEvent :=
  { level := .info, message := "pipeline.complete"
    fields := [("duration_ms", duration), ("findings", Bytes.ofNat a.findings.length)] }

def completed (duration : Bytes) (result : Except PipelineError Reported) (events : List LogEvent) :
    List LogEvent :=
  match result with
  | .ok reported => events ++ [completion duration reported.analysis]
  | .error _ => events

end Pipeline

end CodeSmell
