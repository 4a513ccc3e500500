import CodeSmell.Position

/-!
Why a source text is not a module: the causes, where they stand, and the wording of each. A parser
whose bound runs out is `stuck`, which no list of tokens comes to.
-/

namespace CodeSmell

inductive SyntaxFault where
  | inconsistentDedent
  | strayBackslash
  | unterminatedString
  | unterminatedTripleString
  | invalidCharacter (character : UInt8)
  | unmatchedBracket (closing : UInt8)
  | mismatchedBracket (closing opening : UInt8)
  | unclosedBracket (opening : UInt8)
  | expected (text : Bytes)
  | expectedName
  | expectedBlock
  | expectedHandler
  | expectedCase
  | unexpectedIndent
  | invalidSyntax
  | invalidPattern
  | invalidTarget
  | invalidAnnotationTarget
  | invalidAugmentedTarget
  | stuck
deriving DecidableEq, Repr, Inhabited

def quoted (text : Bytes) : Bytes := "'" ++ text ++ "'"

def SyntaxFault.reason : SyntaxFault → Bytes
  | inconsistentDedent => "unindent does not match any outer indentation level"
  | strayBackslash => "unexpected character after line continuation character"
  | unterminatedString => "unterminated string literal"
  | unterminatedTripleString => "unterminated triple-quoted string literal"
  | invalidCharacter character => "invalid character " ++ quoted [character]
  | unmatchedBracket closing => "unmatched " ++ quoted [closing]
  | mismatchedBracket closing opening =>
    "closing parenthesis " ++ quoted [closing] ++ " does not match opening parenthesis " ++
      quoted [opening]
  | unclosedBracket opening => quoted [opening] ++ " was never closed"
  | expected text => "expected " ++ quoted text
  | expectedName => "expected name"
  | expectedBlock => "expected an indented block"
  | expectedHandler => "expected 'except' or 'finally' block"
  | expectedCase => "expected 'case' block"
  | unexpectedIndent => "unexpected indent"
  | invalidSyntax => "invalid syntax"
  | invalidPattern => "invalid pattern"
  | invalidTarget => "cannot assign to expression"
  | invalidAnnotationTarget => "illegal target for annotation"
  | invalidAugmentedTarget => "illegal expression for augmented assignment"
  | stuck => "no progress"

structure SyntaxError where
  fault : SyntaxFault
  position : Position
deriving DecidableEq, Repr, Inhabited

namespace SyntaxError

def reason (e : SyntaxError) : Bytes := e.fault.reason

def message (e : SyntaxError) (path : Bytes) : Bytes :=
  let place := Bytes.ofInt e.position.line ++ ":" ++ Bytes.ofInt e.position.column ++ ": " ++ e.reason
  if path.isEmpty then place else path ++ ":" ++ place

end SyntaxError

/-- A syntax error and the path of the file that it is in, which is empty if there is none. -/
structure ModuleError extends SyntaxError where
  path : Bytes := []
deriving DecidableEq, Repr, Inhabited

namespace ModuleError

def message (e : ModuleError) : Bytes := e.toSyntaxError.message e.path

def withPath (e : ModuleError) (path : Bytes) : ModuleError := { e with path }

/-- The error in the file at `path`, unless there is no path or the error has one already. -/
def attributed (e : ModuleError) (path : Bytes) : ModuleError :=
  if path.isEmpty || !e.path.isEmpty then e else e.withPath path

end ModuleError

end CodeSmell
