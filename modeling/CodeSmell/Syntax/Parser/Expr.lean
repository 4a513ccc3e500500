import CodeSmell.Syntax.Expr
import CodeSmell.Syntax.Parser.Basic

/-!
The grammar of expressions. Each rule is given over parsers for the rules below it, which it uses
only once it has taken a token; `Rule.parse` closes the recursion, the number of tokens left being
a bound on the depth.
-/

namespace CodeSmell

/-- The rules that expressions are nested through, the loosest first. -/
inductive Rule where
  | starExprs | starNamed | named | test | orTest | notTest | binary | unary | primary
deriving DecidableEq, Repr

namespace Token

def binaryOp? (t : Token) : Option BinaryOp :=
  if t.kind == .operator then BinaryOp.all.find? (·.symbol == t.text) else none

def augmentedOp? (t : Token) : Option BinaryOp :=
  if t.kind == .operator then BinaryOp.all.find? (·.augmented == t.text) else none

def compareOp? (t : Token) : Option CompareOp :=
  if t.kind == .operator then CompareOp.symbolic.find? (·.symbol == t.text) else none

def constant? (t : Token) : Option Constant :=
  if t.isKeyword "None" then some .none
  else if t.isKeyword "True" then some .true
  else if t.isKeyword "False" then some .false
  else if t.isOperator "..." then some .ellipsis
  else none

def opensExpression (t : Token) : Bool :=
  match t.kind with
  | .name | .number | .string => true
  | .keyword =>
    let words : List Bytes := ["not", "lambda", "await", "None", "True", "False"]
    words.contains t.text
  | .operator =>
    let symbols : List Bytes := ["(", "[", "\x7b", "-", "+", "~", "*", "..."]
    symbols.contains t.text
  | _ => false

def reference (t : Token) : Expr := ⟨t.position, .name t.text⟩

end Token

namespace Expr

def isPlainTarget (e : Expr) : Bool :=
  match e.form with
  | .name _ | .attr .. | .subscript .. => true
  | _ => false

/-- The elements of a starred expression, list or tuple, which can be assigned to if they can. -/
def targetParts? (e : Expr) : Option (List Expr) :=
  match e.form with
  | .starred value => some [value]
  | .sequence .list elements | .sequence .tuple elements => some elements
  | _ => none

theorem mem_children_of_targetParts? {e c : Expr} {parts : List Expr}
    (h : e.targetParts? = some parts) (mem : c ∈ parts) : c ∈ e.children := by
  obtain ⟨p, f⟩ := e
  simp only [targetParts?, form] at h
  split at h
  · cases h; simpa [children, form, Form.children] using mem
  all_goals simp_all [children, form, Form.children]

def badTarget? (e : Expr) : Option Position :=
  if e.isPlainTarget then none
  else match h : e.targetParts? with
    | none => some e.position
    | some parts => parts.attach.findSome? fun ⟨part, mem⟩ =>
      have := sizeOf_lt_of_mem_children (mem_children_of_targetParts? h mem)
      part.badTarget?
termination_by sizeOf e

end Expr

inductive Trailer where
  | attr (name : Bytes)
  | call (arguments : List Expr) (keywords : List (Keyword Expr))
  | subscript (index : Expr)

def Trailer.apply (e : Expr) (t : Trailer) : Expr :=
  ⟨e.position, match t with
    | .attr name => .attr e name
    | .call arguments keywords => .call e arguments keywords
    | .subscript index => .subscript e index⟩

inductive ParameterItem where
  | slash
  | star
  | parameter (p : Parameter Expr)

/-- The parameters so far; a bare star or a starred parameter makes those after it keyword-only. -/
structure ParameterList where
  keywordOnly : Bool := false
  parameters : List (Parameter Expr) := []

/-- A slash makes the regular parameters before it positional-only. -/
def ParameterList.add (list : ParameterList) : ParameterItem → ParameterList
  | .slash =>
    { list with parameters := list.parameters.map fun p =>
        if p.kind = .regular then { p with kind := .positionalOnly } else p }
  | .star => { list with keywordOnly := true }
  | .parameter p =>
    let kind := if p.kind = .regular && list.keywordOnly then .keywordOnly else p.kind
    { keywordOnly := list.keywordOnly || p.kind = .varPositional
      parameters := list.parameters ++ [{ p with kind, position := list.parameters.length }] }

def parametersOf (items : List ParameterItem) : List (Parameter Expr) :=
  (items.foldl ParameterList.add {}).parameters

inductive ArgumentItem where
  | argument (e : Expr)
  | keyword (k : Keyword Expr)

def ArgumentItem.argument? : ArgumentItem → Option Expr
  | argument e => some e
  | keyword _ => none

def ArgumentItem.keyword? : ArgumentItem → Option (Keyword Expr)
  | argument _ => none
  | keyword k => some k

namespace Parser

def checkTarget (e : Expr) : Parser Unit :=
  match e.badTarget? with
  | none => pure ()
  | some position => failAt position .invalidTarget

def tupleOrOne (stop : Cursor → Bool) (item : Parser Expr) : Parser Expr := do
  let first ← item
  if ← test (·.atOperator ",") then
    let others ← separatedTail "," stop item
    pure ⟨first.position, .sequence .tuple (first :: others)⟩
  else pure first

def atClause (c : Cursor) : Bool :=
  c.atKeyword "for" || (c.atKeyword "async" && c.peekSecond.isKeyword "for")

def atKeywordArgument (c : Cursor) : Bool := c.atKind .name && c.peekSecond.isOperator "="

section Rules

variable (self : Rule → Parser Expr)

def starred (item : Parser Expr) : Parser Expr := do
  let star ← advance
  let value ← item
  pure ⟨star.position, .starred value⟩

def targetList : Parser Expr :=
  tupleOrOne (!·.peek.opensExpression) do
    if ← test (·.atOperator "*") then starred (self .binary) else self .binary

def clause : Parser (Clause Expr) := do
  let isAsync ← acceptKeyword "async"
  let _ ← expectKeyword "for"
  let target ← targetList self
  checkTarget target
  let _ ← expectKeyword "in"
  let iterable ← self .orTest
  let conditions ← many (·.atKeyword "if") do
    let _ ← advance
    self .orTest
  pure { target, iterable, conditions, isAsync }

def clauses : Parser (List (Clause Expr)) := many atClause (clause self)

def yieldExpr : Parser Expr := do
  let start ← expectKeyword "yield"
  if ← acceptKeyword "from" then
    let value ← self .test
    pure ⟨start.position, .yieldFrom value⟩
  else
    let value ← optional (·.peek.opensExpression) (self .starExprs)
    pure ⟨start.position, .yield value⟩

def parameter (kind : ParameterKind) (annotated : Bool) : Parser (Parameter Expr) := do
  let name ← expectName
  let annotation ← optional (fun c => annotated && c.atOperator ":") do
    let _ ← advance
    self .test
  pure { name := name.text, kind, line := name.position.line, annotation }

def parameterItem (annotated : Bool) : Parser ParameterItem := do
  if ← acceptOperator "/" then pure .slash
  else if ← acceptOperator "*" then
    if ← test (·.atKind .name) then .parameter <$> parameter self .varPositional annotated
    else pure .star
  else if ← acceptOperator "**" then .parameter <$> parameter self .varKeyword annotated
  else
    let p ← parameter self .regular annotated
    let fallback ← optional (·.atOperator "=") do
      let _ ← advance
      self .test
    pure (.parameter { p with default := fallback })

def parameters (closing : Bytes) (annotated : Bool) : Parser (List (Parameter Expr)) :=
  parametersOf <$> commaList (·.atOperator closing) (parameterItem self annotated)

def argumentItem : Parser ArgumentItem := do
  if ← test (·.atOperator "*") then .argument <$> starred (self .test)
  else if ← acceptOperator "**" then
    let value ← self .test
    pure (.keyword ⟨none, value⟩)
  else if ← test atKeywordArgument then
    let name ← advance
    let _ ← advance
    let value ← self .test
    pure (.keyword ⟨name.text.nonempty?, value⟩)
  else
    let argument ← self .named
    if ← test atClause then
      let clauses ← clauses self
      pure (.argument ⟨argument.position, .comprehension .generator argument clauses⟩)
    else pure (.argument argument)

def arguments : Parser (List Expr × List (Keyword Expr)) := do
  let items ← commaList (·.atOperator ")") (argumentItem self)
  let _ ← expectOperator ")"
  pure (items.filterMap ArgumentItem.argument?, items.filterMap ArgumentItem.keyword?)

def atSliceEnd (c : Cursor) : Bool := c.atOperator "]" || c.atOperator ","

def sliceItem : Parser Expr := do
  let start ← peek
  let lower ← optional (!·.atOperator ":") (self .starNamed)
  match lower, ← acceptOperator ":" with
  | some index, false => pure index
  | _, _ =>
    let upper ← optional (fun c => !(c.atOperator ":" || atSliceEnd c)) (self .test)
    let step ← if ← acceptOperator ":" then optional (!atSliceEnd ·) (self .test) else pure none
    pure ⟨start.position, .slice lower upper step⟩

/-- The index between brackets; several are a tuple at the opening bracket. -/
def subscript : Parser Expr := do
  let opening ← expectOperator "["
  let first ← sliceItem self
  let index ←
    if ← test (·.atOperator ",") then
      let others ← separatedTail "," (·.atOperator "]") (sliceItem self)
      pure ⟨opening.position, .sequence .tuple (first :: others)⟩
    else pure first
  let _ ← expectOperator "]"
  pure index

def trailer : Parser Trailer := do
  if ← acceptOperator "." then
    let name ← expectName
    pure (.attr name.text)
  else if ← acceptOperator "(" then
    let (arguments, keywords) ← arguments self
    pure (.call arguments keywords)
  else .subscript <$> subscript self

def atTrailer (c : Cursor) : Bool := c.atOperator "." || c.atOperator "(" || c.atOperator "["

def parenthesized (opening : Token) : Parser Expr := do
  if ← acceptOperator ")" then pure ⟨opening.position, .sequence .tuple []⟩
  else if ← test (·.atKeyword "yield") then
    let value ← yieldExpr self
    let _ ← expectOperator ")"
    pure value
  else
    let first ← self .starNamed
    if ← test atClause then
      let clauses ← clauses self
      let _ ← expectOperator ")"
      pure ⟨opening.position, .comprehension .generator first clauses⟩
    else if ← test (·.atOperator ",") then
      let others ← separatedTail "," (·.atOperator ")") (self .starNamed)
      let _ ← expectOperator ")"
      pure ⟨opening.position, .sequence .tuple (first :: others)⟩
    else
      let _ ← expectOperator ")"
      pure first

def elements (opening : Token) (closing : Bytes) (kind : SequenceKind) (loop : ComprehensionKind)
    (first : Expr) : Parser Expr := do
  if ← test atClause then
    let clauses ← clauses self
    let _ ← expectOperator closing
    pure ⟨opening.position, .comprehension loop first clauses⟩
  else
    let others ← separatedTail "," (·.atOperator closing) (self .starNamed)
    let _ ← expectOperator closing
    pure ⟨opening.position, .sequence kind (first :: others)⟩

def bracketed (opening : Token) : Parser Expr := do
  if ← acceptOperator "]" then pure ⟨opening.position, .sequence .list []⟩
  else
    let first ← self .starNamed
    elements self opening "]" .list .list first

def unpackedEntry : Parser (Entry Expr) := do
  let value ← self .binary
  pure ⟨none, value⟩

def entry : Parser (Entry Expr) := do
  if ← acceptOperator "**" then unpackedEntry self
  else
    let key ← self .test
    let _ ← expectOperator ":"
    let value ← self .test
    pure ⟨some key, value⟩

def entries (opening : Token) (first : Entry Expr) : Parser Expr := do
  let others ← separatedTail "," (·.atOperator "\x7d") (entry self)
  let _ ← expectOperator "\x7d"
  pure ⟨opening.position, .dict (first :: others)⟩

/-- After an opening brace: what follows the first expression tells a dictionary from a set. -/
def braced (opening : Token) : Parser Expr := do
  if ← acceptOperator "\x7d" then pure ⟨opening.position, .dict []⟩
  else if ← acceptOperator "**" then
    let first ← unpackedEntry self
    entries self opening first
  else
    let first ← self .starNamed
    if ← acceptOperator ":" then
      let value ← self .test
      if ← test atClause then
        let clauses ← clauses self
        let _ ← expectOperator "\x7d"
        pure ⟨opening.position, .dictComprehension first value clauses⟩
      else entries self opening ⟨some first, value⟩
    else elements self opening "\x7d" .set .set first

/-- Adjacent strings are one, their texts apart by a space. -/
def stringRun : Parser Expr := do
  let first ← advance
  let others ← many (·.atKind .string) advance
  pure ⟨first.position, .string (Bytes.join " " ((first :: others).map Token.text))⟩

def atom : Parser Expr := do
  let t ← peek
  match t.kind with
  | .name =>
    let _ ← advance
    pure t.reference
  | .number =>
    let _ ← advance
    pure ⟨t.position, .number t.value t.text t.imaginary⟩
  | .string => stringRun
  | _ =>
    match t.constant? with
    | some constant =>
      let _ ← advance
      pure ⟨t.position, .constant constant⟩
    | none =>
      if ← acceptOperator "(" then parenthesized self t
      else if ← acceptOperator "[" then bracketed self t
      else if ← acceptOperator "\x7b" then braced self t
      else fail .invalidSyntax

def primary : Parser Expr := do
  if ← test (·.atKeyword "await") then
    let start ← advance
    let value ← self .primary
    pure ⟨start.position, .await value⟩
  else
    let base ← atom self
    let trailers ← many atTrailer (trailer self)
    pure (trailers.foldl Trailer.apply base)

def power : Parser Expr := do
  let base ← primary self
  if ← acceptOperator "**" then
    let exponent ← self .unary
    pure ⟨base.position, .binary .pow base exponent⟩
  else pure base

def sign? (t : Token) : Option UnaryOp :=
  if t.isOperator "-" then some .minus
  else if t.isOperator "+" then some .plus
  else if t.isOperator "~" then some .invert
  else none

def unary : Parser Expr := do
  let start ← peek
  match sign? start with
  | some op =>
    let _ ← advance
    let operand ← self .unary
    pure ⟨start.position, .unary op operand⟩
  | none => power self

def levelOp? (level : Nat) (t : Token) : Option BinaryOp :=
  t.binaryOp?.filter (·.level? == some level)

def chain (first : Expr) (links : List (BinaryOp × Expr)) : Expr :=
  links.foldl (fun left (op, right) => ⟨left.position, .binary op left right⟩) first

def binary : (depth : Nat) → Parser Expr
  | 0 => unary self
  | depth + 1 => do
    let level := 6 - depth
    let first ← binary depth
    let links ← manyKeyed (levelOp? level ·.peek) fun op => do
      let _ ← advance
      let right ← binary depth
      pure (op, right)
    pure (chain first links)

def operand : Parser Expr := binary self 6

def atComparison (c : Cursor) : Bool :=
  c.peek.compareOp?.isSome || c.atKeyword "in" ||
    (c.atKeyword "not" && c.peekSecond.isKeyword "in") || c.atKeyword "is"

def comparisonOp : Parser CompareOp := do
  let t ← advance
  match t.compareOp? with
  | some op => pure op
  | none =>
    if t.isKeyword "in" then pure .isIn
    else if t.isKeyword "not" then
      let _ ← advance
      pure .notIn
    else if ← acceptKeyword "not" then pure .isNot
    else pure .is

def comparison : Parser Expr := do
  let left ← operand self
  let links ← many atComparison do
    let op ← comparisonOp
    let right ← operand self
    pure (op, right)
  if links.isEmpty then pure left else pure ⟨left.position, .compare left links⟩

def notTest : Parser Expr := do
  if ← test (·.atKeyword "not") then
    let start ← advance
    let operand ← self .notTest
    pure ⟨start.position, .unary .not operand⟩
  else comparison self

def boolean (op : BoolOp) (item : Parser Expr) : Parser Expr := do
  let first ← item
  let others ← many (·.atKeyword op.symbol) do
    let _ ← advance
    item
  if others.isEmpty then pure first else pure ⟨first.position, .boolean op (first :: others)⟩

def andTest : Parser Expr := boolean .and (notTest self)

def orTest : Parser Expr := boolean .or (andTest self)

def lambda : Parser Expr := do
  let start ← expectKeyword "lambda"
  let parameters ← parameters self ":" false
  let _ ← expectOperator ":"
  let body ← self .test
  pure ⟨start.position, .lambda parameters body⟩

def conditional : Parser Expr := do
  if ← test (·.atKeyword "lambda") then lambda self
  else
    let body ← orTest self
    if ← acceptKeyword "if" then
      let condition ← orTest self
      let _ ← expectKeyword "else"
      let orelse ← self .test
      pure ⟨body.position, .conditional condition body orelse⟩
    else pure body

def named : Parser Expr := do
  if ← test (fun c => c.atKind .name && c.peekSecond.isOperator ":=") then
    let name ← advance
    let _ ← advance
    let value ← self .test
    pure ⟨name.position, .named name.reference value⟩
  else conditional self

def starNamed : Parser Expr := do
  if ← test (·.atOperator "*") then starred (self .binary) else named self

/-- A comma at the end is one that no expression can follow. -/
def starExprs : Parser Expr := tupleOrOne (!·.peek.opensExpression) (starNamed self)

end Rules

end Parser

namespace Rule

def body (self : Rule → Parser Expr) : Rule → Parser Expr
  | starExprs => Parser.starExprs self
  | starNamed => Parser.starNamed self
  | named => Parser.named self
  | test => Parser.conditional self
  | orTest => Parser.orTest self
  | notTest => Parser.notTest self
  | binary => Parser.operand self
  | unary => Parser.unary self
  | primary => Parser.primary self

/-- At most `bound` nested uses of rules. -/
def within : Nat → Rule → Parser Expr
  | 0 => fun _ => Parser.fail .stuck
  | bound + 1 => body (within bound)

def parse (rule : Rule) : Parser Expr := fun c => rule.within (c.left + 1) c

end Rule

end CodeSmell
