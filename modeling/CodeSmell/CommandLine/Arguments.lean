import CodeSmell.CommandLine.Options

/-!
The arguments of an analysis. A flag takes the argument after it as its value, whatever that looks
like; any other argument that does not begin with a hyphen is the target.
-/

namespace CodeSmell

inductive Flag where
  | target | out | config | format | only | exclude | ignoredPaths | logLevel
deriving DecidableEq, Repr

namespace Flag

def all : List Flag := [target, out, config, format, only, exclude, ignoredPaths, logLevel]

def name : Flag → Bytes
  | target => "--target"
  | out => "--out"
  | config => "--config"
  | format => "--format"
  | only => "--only"
  | exclude => "--exclude"
  | ignoredPaths => "--ignored-paths"
  | logLevel => "--log-level"

def ofName? (name : Bytes) : Option Flag := all.find? fun flag => flag.name == name

end Flag

def isHelpFlag (argument : Bytes) : Bool := argument == "--help" || argument == "-h"

def formatNames (value : Bytes) : Except ArgumentError (List Bytes) :=
  value.entries.mapM fun entry =>
    match ReportFormat.ofName? entry with
    | some format => .ok format.name
    | none => .error (.unsupportedFormat entry)

namespace RunOptions

def set (options : RunOptions) (flag : Flag) (value : Bytes) : Except ArgumentError RunOptions :=
  match flag with
  | .target => .ok { options with target := some value }
  | .out => .ok { options with outputDirectory := some value }
  | .config => .ok { options with configFile := some value }
  | .format => do
    pure { options with formats := appendNew options.formats (← formatNames value) }
  | .only => .ok { options with only := appendNew options.only value.entries }
  | .exclude => .ok { options with exclude := appendNew options.exclude value.entries }
  | .ignoredPaths =>
    .ok { options with ignoredPaths := appendNew options.ignoredPaths value.entries }
  | .logLevel =>
    match LogLevel.ofName? value with
    | some level => .ok { options with logLevel := some level }
    | none => .error (.unknownLogLevel value)

/-- The options that arguments add; what follows a request for help is not read. -/
def parse (options : RunOptions) : List Bytes → Except ArgumentError RunOptions
  | [] => .ok options
  | argument :: rest =>
    if argument.head? ≠ some '-'.toUInt8 then
      if options.target.isSome then .error (.unexpected argument)
      else parse { options with target := some argument } rest
    else if isHelpFlag argument then .ok { options with showHelp := true }
    else if argument == "--verbose" then parse { options with logLevel := some .info } rest
    else if argument == "--debug" then parse { options with logLevel := some .debug } rest
    else match Flag.ofName? argument, rest with
      | none, _ => .error (.unknown argument)
      | some _, [] => .error (.missingValue argument)
      | some flag, value :: rest =>
        match set options flag value with
        | .error e => .error e
        | .ok options => parse options rest

def ofArguments (arguments : List Bytes) : Except ArgumentError RunOptions := parse {} arguments

end RunOptions

end CodeSmell
