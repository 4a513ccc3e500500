import CodeSmell.Registry.Standard

/-!
What the command line says about itself, and the list of detectors.
-/

namespace CodeSmell.Usage

def overview : Bytes :=
  "Usage: smell-detect <command> [options]\n\n" ++
  "Commands:\n" ++
  "  analyze     Detect code smells in Python sources (default if no\n" ++
  "              command is given).\n" ++
  "  detectors   List the available detectors and their options.\n\n" ++
  "Run 'smell-detect analyze --help' for analysis options.\n"

def analyze : Bytes :=
  "Usage: smell-detect analyze <target> [options]\n" ++
  "  <target>               Python file or directory to analyze\n" ++
  "Options:\n" ++
  "  --config <file>        Optional YAML config file\n" ++
  "  --out <path>           Directory for report outputs (default: current directory)\n" ++
  "  --format <list>        Comma-separated list of output formats\n" ++
  "                         (supported: json,text,markdown)\n" ++
  "  --only <list>          Run only the named detectors\n" ++
  "  --exclude <list>       Skip the named detectors\n" ++
  "  --ignored-paths <list> Comma-separated paths relative to the\n" ++
  "                         target to skip\n" ++
  "  --log-level <level>    Logging verbosity (error,warn,info,debug)\n" ++
  "  --verbose              Shortcut for --log-level info\n" ++
  "  --debug                Shortcut for --log-level debug\n" ++
  "  --help                 Show this message\n"

def detectors : Bytes :=
  "Usage: smell-detect detectors [--config <file>]\n" ++
  "Lists the registered detectors with their effective options.\n"

def optionLine (option : Bytes × Bytes) : Bytes := "    " ++ option.1 ++ ": " ++ option.2 ++ "\n"

def detectorEntry (options : DetectionOptions) (name : Bytes) : Bytes :=
  match Smell.ofName? name with
  | none => "  " ++ name ++ "\n"
  | some kind =>
    let mark : Bytes := if options.isEnabled kind then [] else " (disabled)"
    "  " ++ name ++ mark ++ "\n" ++ (options.describe kind).flatMap optionLine

def detectorList (names : List Bytes) (options : DetectionOptions) : Bytes :=
  "Available detectors:\n" ++ names.flatMap (detectorEntry options)

end CodeSmell.Usage
