import CodeSmell.Bytes

/-!
Log events and the line that is written for one. Values are quoted, so that a quote or backslash in
them cannot end them early; messages and keys are written as they are.
-/

namespace CodeSmell

inductive LogLevel where
  | error | warn | info | debug
deriving DecidableEq, Repr, Inhabited

namespace LogLevel

def number : LogLevel → Nat
  | error => 0
  | warn => 1
  | info => 2
  | debug => 3

def name : LogLevel → Bytes
  | error => "error"
  | warn => "warn"
  | info => "info"
  | debug => "debug"

/-- Levels are read in any case and with any white space; `warning` is another name of `warn`. -/
def ofName? (text : Bytes) : Option LogLevel :=
  let name := Bytes.lower (text.filter (!Ascii.isSpace ·))
  if name == "error" then some error
  else if name == "warn" || name == "warning" then some warn
  else if name == "info" then some info
  else if name == "debug" then some debug
  else none

def isEnabled (limit level : LogLevel) : Bool := level.number ≤ limit.number

end LogLevel

structure LogEvent where
  level : LogLevel
  message : Bytes
  fields : List (Bytes × Bytes) := []
deriving DecidableEq, Repr, Inhabited

namespace LogEvent

def escape (value : Bytes) : Bytes :=
  value.flatMap fun (b : UInt8) => if b == '"' || b == '\\' then ['\\'.toUInt8, b] else [b]

def fieldText (field : Bytes × Bytes) : Bytes :=
  "\"" ++ field.1 ++ "\": \"" ++ escape field.2 ++ "\""

def fieldsText (fields : List (Bytes × Bytes)) : Bytes :=
  "\x7b" ++ Bytes.join ", " (fields.map fieldText) ++ "\x7d"

def line (time : Bytes) (e : LogEvent) : Bytes :=
  "[" ++ time ++ "] level=" ++ e.level.name ++ " message=\"" ++ e.message ++ "\" fields=" ++
    fieldsText e.fields ++ "\n"

end LogEvent

inductive Logger where
  | silent
  | upTo (limit : LogLevel)
deriving DecidableEq, Repr, Inhabited

namespace Logger

/-- The last level that is enabled; a silent logger lets events pass and writes none of them. -/
def level : Logger → LogLevel
  | silent => .error
  | upTo limit => limit

def written (logger : Logger) (time : Bytes) (e : LogEvent) : Bytes :=
  match logger with
  | silent => []
  | upTo limit => if limit.isEnabled e.level then e.line time else []

end Logger

end CodeSmell
