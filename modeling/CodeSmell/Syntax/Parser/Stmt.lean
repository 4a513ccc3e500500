import CodeSmell.Syntax.Parser.Pattern
import CodeSmell.Syntax.Stmt
import CodeSmell.Token.Lexer

/-!
The grammar of statements, over a parser for nested blocks. A line of simple statements is several
statements; every statement runs from the line of its first token to that of the last token with
text that was read by its end.
-/

namespace CodeSmell

namespace Parser

def linesFrom (first : Int) : Parser LineRange := do
  pure ⟨first, max first (← lastLine)⟩

def finish (start : Token) (form : StmtForm Stmt) : Parser Stmt := do
  pure ⟨← linesFrom start.position.line, form⟩

def exprOrYield : Parser Expr := do
  if ← test (·.atKeyword "yield") then yieldExpr Rule.parse else Rule.starExprs.parse

def accessor (keyword : Bytes) : Parser (Option Expr) := do
  if ← acceptKeyword keyword then some <$> Rule.test.parse else pure none

def expressionStatement : Parser (StmtForm Stmt) := do
  let first ← exprOrYield
  if ← acceptOperator ":" then
    if !first.isPlainTarget then failAt first.position .invalidAnnotationTarget
    else
      let annotation ← Rule.test.parse
      let value ← if ← acceptOperator "=" then some <$> exprOrYield else pure none
      pure (.annAssign first annotation value)
  else match (← peek).augmentedOp? with
    | some op =>
      if !first.isPlainTarget then failAt first.position .invalidAugmentedTarget
      else
        let _ ← advance
        let value ← exprOrYield
        pure (.augAssign first op value)
    | none =>
      if ← test (·.atOperator "=") then assignment first else pure (.expression first)
where
  assignment (first : Expr) : Parser (StmtForm Stmt) := do
    checkTarget first
    let _ ← advance
    let second ← exprOrYield
    let others ← manyTargets second
    let values := first :: others
    pure (.assign values.dropLast (values.getLast?.getD first))
  manyTargets (value : Expr) : Parser (List Expr) := fun c => targetLoop (c.left + 1) value c
  targetLoop : Nat → Expr → Parser (List Expr)
    | 0, _ => fail .stuck
    | bound + 1, value => do
      if ← test (·.atOperator "=") then
        checkTarget value
        let _ ← advance
        let next ← exprOrYield
        let others ← targetLoop bound next
        pure (value :: others)
      else pure [value]

def dottedTail : Parser (List Bytes) := many (·.atOperator ".") do
  let _ ← advance
  Token.text <$> expectName

def dottedName : Parser Bytes := do
  let first ← expectName
  let others ← dottedTail
  pure (Bytes.join "." (first.text :: others))

def nameAfter (keyword : Bytes) : Parser (Option Bytes) := do
  if ← acceptKeyword keyword then (fun t => t.text.nonempty?) <$> expectName else pure none

def importItem (name : Parser Bytes) : Parser Alias := do
  let name ← name
  let asName ← nameAfter "as"
  pure { name, asName }

def moduleName : Parser Bytes := do
  let dots ← many (fun c => c.atOperator "." || c.atOperator "...") advance
  let name ← if ← test (·.atKind .name) then dottedName else pure []
  let module := (dots.flatMap Token.text) ++ name
  if module.isEmpty then fail .invalidSyntax else pure module

def importFrom : Parser (StmtForm Stmt) := do
  let module ← moduleName
  let _ ← expectKeyword "import"
  if ← acceptOperator "*" then pure (.importFrom module [{ name := "*" }])
  else
    let item := importItem (Token.text <$> expectName)
    if ← acceptOperator "(" then
      let names ← commaList (·.atOperator ")") item
      let _ ← expectOperator ")"
      if names.isEmpty then fail .invalidSyntax else pure (.importFrom module names)
    else .importFrom module <$> commaSeparated item

def deletion : Parser (StmtForm Stmt) := do
  let targets ← commaList Cursor.atSimpleEnd do
    let target ← Rule.binary.parse
    checkTarget target
    pure target
  if targets.isEmpty then fail .invalidSyntax else pure (.delete targets)

def raising : Parser (StmtForm Stmt) := do
  if ← test Cursor.atSimpleEnd then pure (.raise none none)
  else
    let exception ← Rule.test.parse
    let cause ← accessor "from"
    pure (.raise (some exception) cause)

def assertion : Parser (StmtForm Stmt) := do
  let condition ← Rule.test.parse
  let message ← if ← acceptOperator "," then some <$> Rule.test.parse else pure none
  pure (.assert condition message)

def simpleForm : Parser (StmtForm Stmt) := do
  if ← acceptKeyword "pass" then pure .pass
  else if ← acceptKeyword "break" then pure .breakLoop
  else if ← acceptKeyword "continue" then pure .continueLoop
  else if ← acceptKeyword "return" then
    .ret <$> optional (!·.atSimpleEnd) Rule.starExprs.parse
  else if ← acceptKeyword "raise" then raising
  else if ← acceptKeyword "global" then (.scope · false) <$> commaSeparated (Token.text <$> expectName)
  else if ← acceptKeyword "nonlocal" then (.scope · true) <$> commaSeparated (Token.text <$> expectName)
  else if ← acceptKeyword "del" then deletion
  else if ← acceptKeyword "assert" then assertion
  else if ← acceptKeyword "import" then .importNames <$> commaSeparated (importItem dottedName)
  else if ← acceptKeyword "from" then importFrom
  else expressionStatement

def simpleStatement : Parser Stmt := do
  let start ← peek
  let form ← simpleForm
  finish start form

def simpleLine : Parser Block := do
  let first ← simpleStatement
  let others ← separatedTail ";" Cursor.atLineEnd simpleStatement
  endStatement
  pure (first :: others)

/-- A parenthesis after `with` groups items if an `as` stands directly inside it and a colon after
it. `depth` is the number of brackets that are open. -/
def groupsItems (depth : Nat) (aliased : Bool) : List Token → Bool
  | [] => false
  | t :: rest =>
    if t.kind == .newline || t.kind == .endMarker then false
    else if t.isOperator "(" || t.isOperator "[" || t.isOperator "\x7b" then
      groupsItems (depth + 1) aliased rest
    else if t.isOperator ")" || t.isOperator "]" || t.isOperator "\x7d" then
      if depth = 1 then aliased && rest.head?.any (·.isOperator ":")
      else groupsItems (depth - 1) aliased rest
    else groupsItems depth (aliased || (depth = 1 && t.isKeyword "as")) rest

def atGroupedItems (c : Cursor) : Bool := c.atOperator "(" && groupsItems 0 false c.rest

def endsWithColon (previous : Token) : List Token → Bool
  | [] => previous.isOperator ":"
  | t :: rest =>
    if t.kind == .newline || t.kind == .endMarker then previous.isOperator ":"
    else endsWithColon t rest

/-- Operators that follow `match` where it is a name like any other. -/
def afterPlainName (t : Token) : Bool :=
  let symbols : List Bytes := ["=", ".", ":", ",", ";", ")", "]", "\x7d"]
  t.augmentedOp?.isSome || (t.kind == .operator && symbols.contains t.text)

/-- At the soft keyword `match` with a subject after it and a colon at the end of the line. -/
def atMatch (c : Cursor) : Bool :=
  match c.rest with
  | t :: next :: rest =>
    t.kind == .name && t.text == "match" &&
      !(next.kind == .newline || next.kind == .endMarker || afterPlainName next) &&
      endsWithColon next rest
  | _ => false

def withItem : Parser WithItem := do
  let context ← Rule.test.parse
  if ← acceptKeyword "as" then
    let target ← Rule.binary.parse
    checkTarget target
    pure ⟨context, some target⟩
  else pure ⟨context, none⟩

section Statements

variable (block : Parser Block)

def branch : Parser (Int × Expr × Block) := do
  let start ← advance
  let test ← Rule.named.parse
  let body ← block
  pure (start.position.line, test, body)

def blockAfter (keyword : Bytes) : Parser Block := do
  if ← acceptKeyword keyword then block else pure []

/-- A chain of conditions; all its statements end together. -/
def conditionChain : Parser Stmt := do
  let (line, test, body) ← branch block
  let elifs ← many (·.atKeyword "elif") (branch block)
  let orelse ← blockAfter block "else"
  let last ← lastLine
  let orelse := elifs.foldr (fun (line, test, body) orelse =>
    [⟨⟨line, max line last⟩, .cond test body orelse true⟩]) orelse
  pure ⟨⟨line, max line last⟩, .cond test body orelse false⟩

def whileStatement (start : Token) : Parser Stmt := do
  let _ ← expectKeyword "while"
  let test ← Rule.named.parse
  let body ← block
  let orelse ← blockAfter block "else"
  finish start (.whileLoop test body orelse)

/-- `start` is at the `for`, also if `async` stands before it. -/
def forStatement (isAsync : Bool) : Parser Stmt := do
  let start ← expectKeyword "for"
  let target ← targetList Rule.parse
  checkTarget target
  let _ ← expectKeyword "in"
  let iterable ← Rule.starExprs.parse
  let body ← block
  let orelse ← blockAfter block "else"
  finish start (.forEach target iterable body orelse isAsync)

def handler : Parser (Handler Stmt × Bool) := do
  let start ← advance
  let isStar ← acceptOperator "*"
  let (type, name) ←
    if ← test (·.atOperator ":") then pure (none, none)
    else
      let type ← Rule.test.parse
      let name ← nameAfter "as"
      pure (some type, name)
  let body ← block
  let last ← lastLine
  pure ({ type, name, body, lines := ⟨start.position.line, last⟩ }, isStar)

def tryStatement : Parser Stmt := do
  let start ← expectKeyword "try"
  let body ← block
  let handlers ← many (·.atKeyword "except") (handler block)
  let orelse ← if handlers.isEmpty then pure [] else blockAfter block "else"
  let finalBody ← blockAfter block "finally"
  if handlers.isEmpty && finalBody.isEmpty then fail .expectedHandler
  else finish start (.tryExcept body (handlers.map Prod.fst) orelse finalBody (handlers.any Prod.snd))

def withStatement (isAsync : Bool) : Parser Stmt := do
  let start ← expectKeyword "with"
  let items ←
    if ← accept atGroupedItems then
      let items ← commaList (·.atOperator ")") withItem
      let _ ← expectOperator ")"
      pure items
    else commaSeparated withItem
  let body ← block
  finish start (.withItems items body isAsync)

def expectIndent : Parser Unit := do
  let _ ← advance
  if ← accept (·.atKind .indent) then pure () else fail .expectedBlock

def matchCase : Parser (MatchCase Stmt) := do
  let start ← peek
  if start.kind == .name && start.text == "case" then
    let _ ← advance
    let pattern ← casePattern
    let guard ← if ← acceptKeyword "if" then some <$> Rule.named.parse else pure none
    let body ← block
    let last ← lastLine
    pure { pattern, guard, body, lines := ⟨start.position.line, last⟩ }
  else fail .expectedCase

def matchStatement : Parser Stmt := do
  let start ← advance
  let subject ← Rule.starExprs.parse
  let _ ← expectOperator ":"
  if !(← test (·.atKind .newline)) then fail .invalidSyntax
  else
    expectIndent
    let cases ← many (!·.atBlockEnd) (matchCase block)
    if cases.isEmpty then fail .expectedCase
    else
      let _ ← accept (·.atKind .dedent)
      finish start (.matchOn subject cases)

def takenTokens (before after : Cursor) : List Token :=
  (before.rest.take (before.left - after.left)).filter (!·.isLayout)

def bodyWithTokens : Parser (Block × List Token) := fun before =>
  match block before with
  | .ok (body, after) => .ok ((body, (takenTokens before after).drop 1), after)
  | .error e => .error e

def functionDef (decorators : List Expr) (isAsync : Bool) (start : Token) : Parser Stmt := do
  let _ ← expectKeyword "def"
  let name ← expectName
  let _ ← expectOperator "("
  let parameters ← parameters Rule.parse ")" true
  let _ ← expectOperator ")"
  let returns ← if ← acceptOperator "->" then some <$> Rule.test.parse else pure none
  let (body, bodyTokens) ← bodyWithTokens block
  let lines ← linesFrom start.position.line
  pure ⟨lines, .function
    { name := name.text, isAsync, decorators, parameters, returns, body, bodyTokens, lines }⟩

def classDef (decorators : List Expr) (start : Token) : Parser Stmt := do
  let _ ← expectKeyword "class"
  let name ← expectName
  let (bases, keywords) ←
    if ← acceptOperator "(" then arguments Rule.parse else pure ([], [])
  let body ← block
  let lines ← linesFrom start.position.line
  pure ⟨lines, .classDef { name := name.text, decorators, bases, keywords, body, lines }⟩

def decorated : Parser Stmt := do
  let decorators ← many (·.atOperator "@") do
    let _ ← advance
    let decorator ← Rule.named.parse
    endStatement
    pure decorator
  let start ← peek
  if ← test (·.atKeyword "def") then functionDef block decorators false start
  else if ← accept (fun c => c.atKeyword "async" && c.peekSecond.isKeyword "def") then
    functionDef block decorators true start
  else if ← test (·.atKeyword "class") then classDef block decorators start
  else fail .invalidSyntax

/-- After `async`: only definitions, loops and `with`. -/
def asyncStatement : Parser Stmt := do
  let start ← advance
  if ← test (·.atKeyword "def") then functionDef block [] true start
  else if ← test (·.atKeyword "for") then forStatement block true
  else if ← test (·.atKeyword "with") then withStatement block true
  else fail .invalidSyntax

def statement : Parser Block := do
  let start ← peek
  if start.isKeyword "if" then one (conditionChain block)
  else if start.isKeyword "while" then one (whileStatement block start)
  else if start.isKeyword "for" then one (forStatement block false)
  else if start.isKeyword "try" then one (tryStatement block)
  else if start.isKeyword "with" then one (withStatement block false)
  else if start.isKeyword "def" then one (functionDef block [] false start)
  else if start.isKeyword "class" then one (classDef block [] start)
  else if start.isKeyword "async" then one (asyncStatement block)
  else if start.isOperator "@" then one (decorated block)
  else if ← test atMatch then one (matchStatement block)
  else simpleLine
where
  one (p : Parser Stmt) : Parser Block := do pure [← p]

def unindented : Parser Block := do
  if ← test (·.atKind .indent) then fail .unexpectedIndent else statement block

def blockBody : Parser Block := do
  let _ ← expectOperator ":"
  if !(← test (·.atKind .newline)) then simpleLine
  else
    expectIndent
    let statements ← many (!·.atBlockEnd) (unindented block)
    let _ ← accept (·.atKind .dedent)
    pure statements.flatten

def atFiller (c : Cursor) : Bool := c.atKind .newline || c.atKind .dedent

def moduleBody : Parser Block := do
  let statements ← many (!·.atKind .endMarker) do
    if ← accept atFiller then pure [] else unindented block
  pure statements.flatten

end Statements

def blockWithin : Nat → Parser Block
  | 0 => fail .stuck
  | bound + 1 => blockBody (blockWithin bound)

def block : Parser Block := fun c => blockWithin (c.left + 1) c

end Parser

/-- A cursor before a list of tokens. Without an end marker at its end, there is one on the line
where the last token ends. -/
def Cursor.ofTokens (tokens : List Token) : Cursor :=
  match tokens.getLast? with
  | none => { rest := [], stop := ⟨1, 0⟩ }
  | some last =>
    if last.kind == .endMarker then { rest := tokens.dropLast, stop := last.position }
    else { rest := tokens, stop := ⟨last.endLine, 0⟩ }

def parseTokens (tokens : List Token) : Except SyntaxError Block :=
  Prod.fst <$> Parser.moduleBody Parser.block (Cursor.ofTokens tokens)

def parseModule (source : Bytes) : Except SyntaxError Block := do
  parseTokens (← tokenize source)

end CodeSmell
