import CodeSmell.CommandLine.Arguments
import CodeSmell.CommandLine.Usage
import CodeSmell.Pipeline

/-!
The command line on a file tree. `Progress.start` does all the work of a run and `Progress.finish`
writes its results; between the two it becomes known how long the work took. How a file of options is
read is left open: an `OptionsFile` gives the options that it holds or refuses it. The clock is left
open as well, as the texts of a time and of a duration.
-/

namespace CodeSmell

inductive Request where
  | help (text : Bytes)
  | listDetectors (options : DetectionOptions)
  | analyze (options : RunOptions)

abbrev OptionsFile := Bytes → Except ArgumentError RunOptions

namespace Request

def ofDetectorsArguments (readFile : OptionsFile) (file : Option Bytes) :
    List Bytes → Except ArgumentError Request
  | [] => do
    let options ← match file with
      | some path => readFile path
      | none => .ok {}
    pure (.listDetectors (options.detection.getD {}))
  | argument :: rest =>
    if isHelpFlag argument then .ok (.help Usage.detectors)
    else if argument == Flag.config.name then
      match rest with
      | [] => .error (.missingValue argument)
      | path :: rest => ofDetectorsArguments readFile (some path) rest
    else .error (.unknownDetectorsArgument argument)

def ofAnalyzeArguments (readFile : OptionsFile) (arguments : List Bytes) :
    Except ArgumentError Request := do
  let options ← RunOptions.ofArguments arguments
  if options.showHelp then pure (.help Usage.analyze)
  else pure (.analyze (← options.resolve readFile))

def ofArguments (readFile : OptionsFile) (arguments : List Bytes) : Except ArgumentError Request :=
  match arguments with
  | [] => ofAnalyzeArguments readFile []
  | first :: rest =>
    if isHelpFlag first then .ok (.help Usage.overview)
    else if first == "analyze" then ofAnalyzeArguments readFile rest
    else if first == "detectors" then ofDetectorsArguments readFile none rest
    else ofAnalyzeArguments readFile arguments

end Request

inductive RunError where
  | argument (error : ArgumentError)
  | path (error : PathError)
  | pipeline (error : PipelineError)
  | unwritable (file : Bytes)

def RunError.message : RunError → Bytes
  | argument error => error.message
  | path error => error.message
  | pipeline error => error.message
  | unwritable file => "Failed to open output file: " ++ file

/-- What a run writes and how it ends. `files` are the reports by their paths, in the order in which
they are written, and `tree` is what they leave. -/
structure Outcome where
  exitStatus : Nat := 0
  output : Bytes := []
  errors : Bytes := []
  log : Bytes := []
  files : List (Bytes × Bytes) := []
  tree : FileTree
deriving Inhabited

namespace Outcome

def fail (o : Outcome) (e : RunError) : Outcome :=
  { o with exitStatus := 1, output := Usage.overview, errors := "Error: " ++ e.message ++ "\n" }

/-- Writes documents into a directory. Those before one that cannot be written stay. -/
def writeAll (o : Outcome) (directory : Bytes) : ByName Bytes → Outcome × Except RunError Unit
  | [] => (o, .ok ())
  | (format, document) :: rest =>
    let path := Path.within directory (ReportFormat.fileName format)
    match o.tree.write path document with
    | .ok tree => writeAll { o with tree, files := o.files ++ [(path, document)] } directory rest
    | .error _ => (o, .error (.unwritable path))

def skippedLine (e : FileError) : Bytes := "Skipped " ++ PlainText.errorLine e

def report (o : Outcome) (directory : Bytes) (reported : Reported) : Outcome :=
  match o.tree.makeDirectories directory with
  | .error e => o.fail (.path e)
  | .ok tree =>
    match writeAll { o with tree } directory reported.documents with
    | (o, .error e) => o.fail e
    | (o, .ok ()) =>
      let a := reported.analysis
      { o with
        exitStatus := a.exitStatus
        output := PlainText.summary a ++ "Reports written to: " ++ directory ++ "\n"
        errors := a.errors.flatMap skippedLine }

end Outcome

/-- How far a request is answered: at once, or up to the end of an analysis. -/
inductive Progress where
  | done (outcome : Outcome)
  | analysed (options : RunOptions) (result : Except PipelineError Reported)
      (events : List LogEvent)

namespace Progress

def start (tree : FileTree) (readFile : OptionsFile) (time : Bytes) (arguments : List Bytes) :
    Progress :=
  match Request.ofArguments readFile arguments with
  | .error e => .done (Outcome.fail { tree } (.argument e))
  | .ok (.help text) => .done { tree, output := text }
  | .ok (.listDetectors options) =>
    .done { tree, output := Usage.detectorList Registry.standard.detectors.names options }
  | .ok (.analyze options) =>
    match options.settings tree with
    | .error e => .done (Outcome.fail { tree } (.path e))
    | .ok settings =>
      let pipeline : Pipeline := { find := tree.findSources }
      let (result, events) := (pipeline.report tree.read? time settings).outcome
      .analysed options result events

def finish (tree : FileTree) (time duration : Bytes) : Progress → Outcome
  | .done outcome => outcome
  | .analysed options result events =>
    let logger := Logger.upTo (options.logLevel.getD .warn)
    let events := Pipeline.completed duration result events
    let o : Outcome := { tree, log := events.flatMap (logger.written time) }
    match result with
    | .error e => o.fail (.pipeline e)
    | .ok reported =>
      o.report (options.outputDirectory.getD (Location.path tree.current).text) reported

end Progress

end CodeSmell
