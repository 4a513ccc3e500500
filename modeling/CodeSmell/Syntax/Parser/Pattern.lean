import CodeSmell.Syntax.Parser.Expr

/-!
The grammar of patterns, which are read into expressions. As for expressions, the rules are given
over parsers for nested patterns, and a bound on the depth closes the recursion.
-/

namespace CodeSmell

inductive PatternRule where
  | alternatives | closed
deriving DecidableEq, Repr

namespace Parser

section PatternRules

variable (self : PatternRule → Parser Expr)

def capture : Parser Expr := Token.reference <$> expectName

/-- Patterns up to a closing bracket and with it; also whether there was a comma. -/
def patternList (closing : Bytes) : Parser (List Expr × Bool) := do
  if ← acceptOperator closing then pure ([], false)
  else
    let first ← self .alternatives
    let comma ← test (·.atOperator ",")
    let others ← separatedTail "," (·.atOperator closing) (self .alternatives)
    let _ ← expectOperator closing
    pure (first :: others, comma)

def mappingEntry : Parser (Entry Expr) := do
  if ← acceptOperator "**" then
    let value ← capture
    pure ⟨none, value⟩
  else
    let key ← self .closed
    let _ ← expectOperator ":"
    let value ← self .alternatives
    pure ⟨some key, value⟩

def classPatternItem : Parser ArgumentItem := do
  if ← test atKeywordArgument then
    let name ← advance
    let _ ← advance
    let value ← self .alternatives
    pure (.keyword ⟨name.text.nonempty?, value⟩)
  else .argument <$> self .alternatives

/-- A dotted name, which is a class pattern if an argument list follows. -/
def valuePattern : Parser Expr := do
  let start ← advance
  let names ← many (·.atOperator ".") do
    let _ ← advance
    expectName
  let value := names.foldl (fun e name => ⟨start.position, .attr e name.text⟩) start.reference
  if ← acceptOperator "(" then
    let items ← commaList (·.atOperator ")") (classPatternItem self)
    let _ ← expectOperator ")"
    pure ⟨start.position, .call value (items.filterMap ArgumentItem.argument?)
      (items.filterMap ArgumentItem.keyword?)⟩
  else pure value

def atLiteral (c : Cursor) : Bool :=
  c.atKind .number || c.atKind .string || c.atOperator "-" || c.atKeyword "None" ||
    c.atKeyword "True" || c.atKeyword "False"

def closedPattern : Parser Expr := do
  let t ← peek
  if ← acceptOperator "*" then
    let name ← capture
    pure ⟨t.position, .starred name⟩
  else if ← acceptOperator "(" then
    match ← patternList self ")" with
    | ([single], false) => pure single
    | (items, _) => pure ⟨t.position, .sequence .tuple items⟩
  else if ← acceptOperator "[" then
    let (items, _) ← patternList self "]"
    pure ⟨t.position, .sequence .list items⟩
  else if ← acceptOperator "\x7b" then
    let entries ← commaList (·.atOperator "\x7d") (mappingEntry self)
    let _ ← expectOperator "\x7d"
    pure ⟨t.position, .dict entries⟩
  else if ← test atLiteral then binary Rule.parse 2
  else if ← test (·.atKind .name) then valuePattern self
  else fail .invalidPattern

def alternatives : Parser Expr := do
  let first ← closedPattern self
  let others ← many (·.atOperator "|") do
    let _ ← advance
    closedPattern self
  let pattern := chain first (others.map (BinaryOp.bitOr, ·))
  if ← acceptKeyword "as" then
    let name ← capture
    pure ⟨pattern.position, .named name pattern⟩
  else pure pattern

end PatternRules

end Parser

namespace PatternRule

def body (self : PatternRule → Parser Expr) : PatternRule → Parser Expr
  | alternatives => Parser.alternatives self
  | closed => Parser.closedPattern self

def within : Nat → PatternRule → Parser Expr
  | 0 => fun _ => Parser.fail .stuck
  | bound + 1 => body (within bound)

def parse (rule : PatternRule) : Parser Expr := fun c => rule.within (c.left + 1) c

end PatternRule

def Parser.casePattern : Parser Expr := do
  let start ← peek
  let atEnd (c : Cursor) : Bool := c.atOperator ":" || c.atKeyword "if"
  if ← test atEnd then failAt start.position .invalidPattern
  else
    let first ← PatternRule.alternatives.parse
    if ← test (·.atOperator ",") then
      let others ← separatedTail "," atEnd PatternRule.alternatives.parse
      pure ⟨start.position, .sequence .tuple (first :: others)⟩
    else pure first

end CodeSmell
