import CodeSmell.Syntax.Error
import CodeSmell.Token.Number
import CodeSmell.Token

/-!
From source text to tokens. The lengths of gaps and lexemes are functions of the text that is left,
so that a step takes a prefix of it and nothing is read twice. Indentation is measured at the start
of each line outside brackets, with tab stops every eight columns.
-/

namespace CodeSmell.Lexer

def startsName (b : UInt8) : Bool := Ascii.isAlpha b || b == '_' || 0x80 ≤ b

def continuesName (b : UInt8) : Bool := startsName b || Ascii.isDigit b

def isQuote (b : UInt8) : Bool := b == '\'' || b == '"'

def isBlank (b : UInt8) : Bool := b == ' ' || b == Ascii.tab || b == Ascii.formFeed

def runLength (p : UInt8 → Bool) (s : Bytes) : Nat := (s.takeWhile p).length

def holdsAt (p : UInt8 → Bool) (s : Bytes) (offset : Nat) : Bool := (s[offset]?).any p

def digitRun (s : Bytes) : Nat := runLength (fun b => Ascii.isDigit b || b == '_') s

def fractionLength (s : Bytes) : Nat :=
  if holdsAt (· == '.'.toUInt8) s 0 then 1 + digitRun (s.drop 1) else 0

/-- An exponent mark counts only if a digit follows, possibly after a sign. -/
def exponentLength (s : Bytes) : Nat :=
  let sign := if holdsAt (fun b => b == '+' || b == '-') s 1 then 1 else 0
  if holdsAt (Ascii.toLower · == 'e'.toUInt8) s 0 && holdsAt Ascii.isDigit s (1 + sign) then
    1 + sign + digitRun (s.drop (1 + sign))
  else 0

def realLength (s : Bytes) : Nat :=
  if holdsAt (· == '0'.toUInt8) s 0 && holdsAt (fun b => (Number.base? b).isSome) s 1 then
    2 + runLength (fun b => Ascii.isHexDigit b || b == '_') (s.drop 2)
  else
    let whole := digitRun s
    let fraction := whole + fractionLength (s.drop whole)
    fraction + exponentLength (s.drop fraction)

def isImaginary (s : Bytes) : Bool := holdsAt (Ascii.toLower · == 'j'.toUInt8) s (realLength s)

def numberLength (s : Bytes) : Nat := realLength s + if isImaginary s then 1 else 0

def isStringPrefix (b : UInt8) : Bool :=
  let b := Ascii.toLower b
  b == 'r' || b == 'b' || b == 'u' || b == 'f'

def stringPrefix? (s : Bytes) : Option Nat :=
  if holdsAt isQuote s 0 then some 0
  else if holdsAt isStringPrefix s 0 then
    if holdsAt isQuote s 1 then some 1
    else if holdsAt isStringPrefix s 1 && holdsAt isQuote s 2 then some 2
    else none
  else none

def singleLength? (quote : UInt8) : Bytes → Option Nat
  | [] => none
  | b :: rest =>
    if b == '\\' then
      match rest with
      | [] => none
      | _ :: rest => (singleLength? quote rest).map (· + 2)
    else if b == Ascii.lineFeed then none
    else if b == quote then some 1
    else (singleLength? quote rest).map (· + 1)

def tripleLength? (quote : UInt8) : Bytes → Option Nat
  | [] => none
  | b :: rest =>
    if b == '\\' then
      match rest with
      | [] => none
      | _ :: rest => (tripleLength? quote rest).map (· + 2)
    else if b == quote && holdsAt (· == quote) rest 0 && holdsAt (· == quote) rest 1 then some 3
    else (tripleLength? quote rest).map (· + 1)

def quotedLength : Bytes → Except SyntaxFault Nat
  | [] => .error .unterminatedString
  | quote :: rest =>
    if holdsAt (· == quote) rest 0 && holdsAt (· == quote) rest 1 then
      match tripleLength? quote (rest.drop 2) with
      | some n => .ok (3 + n)
      | none => .error .unterminatedTripleString
    else
      match singleLength? quote rest with
      | some n => .ok (1 + n)
      | none => .error .unterminatedString

/-- Longer operators come first. -/
def operators : List Bytes := List.map Bytes.ofString
  ["**=", "//=", ">>=", "<<=", "...",
   "->", "**", "//", "<<", ">>", "<=", ">=", "==", "!=", ":=", "+=", "-=", "*=", "/=", "%=", "&=",
   "|=", "^=", "@=",
   "+", "-", "*", "/", "%", "@", "&", "|", "^", "~", "<", ">", "(", ")", "[", "]", "\x7b", "\x7d", ",",
   ":", ";", ".", "="]

def operator? (s : Bytes) : Option Bytes := operators.find? (·.isPrefixOf s)

structure Bracket where
  symbol : UInt8
  position : Position
deriving DecidableEq, Repr

/-- `indents` holds the widths of the open indentations and `brackets` the open brackets, both
innermost first. -/
structure State where
  rest : Bytes
  position : Position := {}
  atLineStart : Bool := true
  indents : List Nat := []
  brackets : List Bracket := []

namespace State

def indent (s : State) : Nat := s.indents.head?.getD 0

def skip (s : State) (n : Nat) : State :=
  { s with rest := s.rest.drop n, position := s.position.after (s.rest.take n) }

def layout (s : State) (kind : TokenKind) (column : Int) : Token :=
  { kind, position := ⟨s.position.line, column⟩, endLine := s.position.line }

def take (s : State) (n : Nat) (kind : TokenKind) : Token × State :=
  let next := s.skip n
  ({ kind, text := s.rest.take n, position := s.position, endLine := next.position.line }, next)

def fail {α : Type} (s : State) (fault : SyntaxFault) : Except SyntaxError α :=
  .error ⟨fault, s.position⟩

end State

def commentLength (s : Bytes) : Nat := runLength (· != Ascii.lineFeed) s

def continuationLength? (s : Bytes) : Option Nat :=
  if holdsAt (· == Ascii.lineFeed) s 1 then some 2
  else if holdsAt (· == Ascii.carriageReturn) s 1 && holdsAt (· == Ascii.lineFeed) s 2 then some 3
  else none

def closingOf (opening : UInt8) : UInt8 :=
  if opening == '(' then ')' else if opening == '[' then ']' else '}'

def isOpening (b : UInt8) : Bool := b == '(' || b == '[' || b == '{'

def isClosing (b : UInt8) : Bool := b == ')' || b == ']' || b == '}'

def brackets (s : State) (operator : Bytes) : Except SyntaxError (List Bracket) :=
  match operator with
  | [b] =>
    if isOpening b then .ok (⟨b, s.position⟩ :: s.brackets)
    else if isClosing b then
      match s.brackets with
      | [] => s.fail (.unmatchedBracket b)
      | opened :: outer =>
        if closingOf opened.symbol == b then .ok outer
        else s.fail (.mismatchedBracket b opened.symbol)
    else .ok s.brackets
  | _ => .ok s.brackets

/-- The token that begins here: a string, a name, a number or an operator, in this order. -/
def lexeme (s : State) : Except SyntaxError (Token × State) :=
  match stringPrefix? s.rest with
  | some n =>
    match quotedLength (s.rest.drop n) with
    | .ok m => .ok (s.take (n + m) .string)
    | .error fault => s.fail fault
  | none =>
    if holdsAt startsName s.rest 0 then
      let n := runLength continuesName s.rest
      .ok (s.take n (if isKeyword (s.rest.take n) then .keyword else .name))
    else if holdsAt Ascii.isDigit s.rest 0 ||
        (holdsAt (· == '.'.toUInt8) s.rest 0 && holdsAt Ascii.isDigit s.rest 1) then
      let (token, next) := s.take (numberLength s.rest) .number
      .ok ({ token with value := Number.value token.text, imaginary := isImaginary s.rest }, next)
    else
      match operator? s.rest with
      | some operator => do
        let opened ← brackets s operator
        let (token, next) := s.take operator.length .operator
        .ok (token, { next with brackets := opened })
      | none => s.fail (.invalidCharacter (s.rest.headD 0))

/-- One gap or one token within a line. A line end inside brackets is a gap. -/
def lineStep (s : State) : Except SyntaxError (List Token × State) :=
  match s.rest with
  | [] => .ok ([], s)
  | b :: _ =>
    if isBlank b || b == Ascii.carriageReturn then .ok ([], s.skip 1)
    else if b == Ascii.lineFeed then
      if s.brackets.isEmpty then
        .ok ([s.layout .newline s.position.column], { s.skip 1 with atLineStart := true })
      else .ok ([], s.skip 1)
    else if b == '#' then .ok ([], s.skip (commentLength s.rest))
    else if b == '\\' then
      match continuationLength? s.rest with
      | some n => .ok ([], s.skip n)
      | none => s.fail .strayBackslash
    else do
      let (token, next) ← lexeme s
      .ok ([token], next)

/-- The width of an indentation: a tab goes on to the next stop, a form feed back to zero. -/
def indentWidth (blanks : Bytes) : Nat :=
  blanks.foldl (fun width (b : UInt8) =>
    if b == ' ' then width + 1 else if b == Ascii.tab then (width / 8 + 1) * 8 else 0) 0

def indentStep (s : State) (width : Nat) : Except SyntaxError (List Token × State) :=
  if s.indent < width then
    .ok ([s.layout .indent 1], { s with atLineStart := false, indents := width :: s.indents })
  else
    let closed := s.indents.takeWhile (width < ·)
    let kept := s.indents.dropWhile (width < ·)
    if kept.head?.getD 0 = width then
      .ok (closed.map fun _ => s.layout .dedent 1, { s with atLineStart := false, indents := kept })
    else s.fail .inconsistentDedent

/-- A line that is blank or holds only a comment has no indentation and no tokens. -/
def lineStartStep (s : State) : Except SyntaxError (List Token × State) :=
  let n := runLength isBlank s.rest
  let width := indentWidth (s.rest.take n)
  let s := s.skip n
  match s.rest with
  | [] => .ok ([], s)
  | b :: _ =>
    if b == '#' then .ok ([], s.skip (commentLength s.rest))
    else if b == Ascii.lineFeed || b == Ascii.carriageReturn then .ok ([], s.skip 1)
    else do
      let (layout, s) ← indentStep s width
      let (tokens, s) ← lineStep s
      .ok (layout ++ tokens, s)

def step (s : State) : Except SyntaxError (List Token × State) :=
  if s.atLineStart && s.brackets.isEmpty then lineStartStep s else lineStep s

/-- Steps until the text is used up, `tokens` being those read so far, last first. Each step takes a
byte, so that the length of the text bounds their number. -/
def scan : Nat → List Token → State → Except SyntaxError (List Token × State)
  | 0, tokens, s => .ok (tokens, s)
  | bound + 1, tokens, s =>
    if s.rest.isEmpty then .ok (tokens, s)
    else match step s with
      | .error e => .error e
      | .ok (new, s) => scan bound (new.reverse ++ tokens) s

/-- What the end of the text adds: a missing line end, the open dedents and the end marker. -/
def closing (tokens : List Token) (s : State) : Except SyntaxError (List Token) :=
  match s.brackets with
  | bracket :: _ => .error ⟨.unclosedBracket bracket.symbol, bracket.position⟩
  | [] =>
    let lineEnd := match tokens with
      | last :: _ => if last.kind == .newline then [] else [s.layout .newline s.position.column]
      | [] => []
    .ok (lineEnd ++ (s.indents.map fun _ => s.layout .dedent 1) ++
      [s.layout .endMarker s.position.column])

end Lexer

def tokenize (source : Bytes) : Except SyntaxError (List Token) := do
  let (tokens, s) ← Lexer.scan source.length [] { rest := source }
  let final ← Lexer.closing tokens s
  .ok (tokens.reverse ++ final)

end CodeSmell
