import CodeSmell.FileTree
import CodeSmell.Registry.Standard
import CodeSmell.Settings

/-!
The options of a run as they are given, on the command line or in a file. What is given twice is
decided by `RunOptions.override`; what is not given at all has its default in `RunOptions.settings`.
-/

namespace CodeSmell

inductive ArgumentError where
  | missingValue (flag : Bytes)
  | unexpected (argument : Bytes)
  | unknown (argument : Bytes)
  | unknownDetectorsArgument (argument : Bytes)
  | unsupportedFormat (format : Bytes)
  | unknownLogLevel (level : Bytes)
  | missingTarget
  | unreadableConfigFile (path : Bytes)
deriving DecidableEq, Repr

def ArgumentError.message : ArgumentError → Bytes
  | missingValue flag => flag ++ " requires a value"
  | unexpected argument => "Unexpected argument: " ++ argument
  | unknown argument => "Unknown argument: " ++ argument
  | unknownDetectorsArgument argument => "Unknown detectors argument: " ++ argument
  | unsupportedFormat format => "Unsupported format: " ++ format
  | unknownLogLevel level => "Unknown log level: " ++ level
  | missingTarget => "A target path is required (or set 'target' in the config file)"
  | unreadableConfigFile path => "Failed to read config file: " ++ path

/-- A list counts as given if it is not empty. -/
structure RunOptions where
  target : Option Bytes := none
  outputDirectory : Option Bytes := none
  configFile : Option Bytes := none
  formats : List Bytes := []
  only : List Bytes := []
  exclude : List Bytes := []
  ignoredPaths : List Bytes := []
  logLevel : Option LogLevel := none
  detection : Option DetectionOptions := none
  showHelp : Bool := false
deriving Inhabited

namespace RunOptions

def givenList (given other : List Bytes) : List Bytes := if given.isEmpty then other else given

/-- What is given takes the place of what a file holds. Help is not asked for again. -/
def override (file given : RunOptions) : RunOptions :=
  { target := given.target <|> file.target
    outputDirectory := given.outputDirectory <|> file.outputDirectory
    configFile := given.configFile <|> file.configFile
    formats := givenList given.formats file.formats
    only := givenList given.only file.only
    exclude := givenList given.exclude file.exclude
    ignoredPaths := givenList given.ignoredPaths file.ignoredPaths
    logLevel := given.logLevel <|> file.logLevel
    detection := given.detection <|> file.detection
    showHelp := file.showHelp }

/-- The options of a run with those of a file, if one is named. Only help needs no target. -/
def resolve (readFile : Bytes → Except ArgumentError RunOptions) (given : RunOptions) :
    Except ArgumentError RunOptions :=
  if given.showHelp then .ok given
  else do
    let file ← match given.configFile with
      | some path => readFile path
      | none => .ok {}
    let merged := override file given
    if merged.target.isNone then .error .missingTarget else .ok merged

def settings (options : RunOptions) (tree : FileTree) : Except PathError Settings := do
  let target ← match options.target with
    | some target => (tree.canonical target).map Path.text
    | none => .ok []
  pure
    { target
      formats := givenList options.formats [ReportFormat.json.name]
      ignoredPaths := options.ignoredPaths
      only := options.only
      exclude := options.exclude
      detection := options.detection.getD {}
      logLevel := options.logLevel.getD .warn }

end RunOptions

end CodeSmell
