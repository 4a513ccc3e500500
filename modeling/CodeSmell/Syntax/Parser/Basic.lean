import CodeSmell.Syntax.Error
import CodeSmell.Token

/-!
Parsers over a list of tokens. A cursor holds the tokens that are left; behind them there is an end
marker at `stop`, which no parser takes. Loops are bounded by the number of tokens that are left, and
one that would go on without taking tokens is stuck.
-/

namespace CodeSmell

/-- `lastLine` is where the last taken token that has text ends, and `left` is the number of tokens
that are left. -/
structure Cursor where
  rest : List Token
  stop : Position
  lastLine : Int := 0
  left : Nat := rest.length
  left_eq : left = rest.length := by rfl

namespace Cursor

def endMarker (c : Cursor) : Token := { kind := .endMarker, position := c.stop }

def peek (c : Cursor) : Token := c.rest.headD c.endMarker

def peekSecond (c : Cursor) : Token := c.rest.tail.headD c.endMarker

def atKind (c : Cursor) (kind : TokenKind) : Bool := c.peek.kind == kind

def atOperator (c : Cursor) (text : Bytes) : Bool := c.peek.isOperator text

def atKeyword (c : Cursor) (text : Bytes) : Bool := c.peek.isKeyword text

def atLineEnd (c : Cursor) : Bool := c.atKind .newline || c.atKind .endMarker

def atSimpleEnd (c : Cursor) : Bool := c.atLineEnd || c.atOperator ";"

def atBlockEnd (c : Cursor) : Bool := c.atKind .dedent || c.atKind .endMarker

/-- Past the next token; the end marker stays. -/
def advance (c : Cursor) : Cursor :=
  match h : c.rest with
  | [] => c
  | t :: rest =>
    { rest, stop := c.stop
      lastLine := if t.isLayout then c.lastLine else t.endLine
      left := c.left - 1
      left_eq := by rw [c.left_eq, h, List.length_cons, Nat.add_sub_cancel] }

end Cursor

def Parser (α : Type) := Cursor → Except SyntaxError (α × Cursor)

namespace Parser

variable {α β : Type}

instance : Monad Parser where
  pure x c := .ok (x, c)
  bind p f c :=
    match p c with
    | .ok (x, c) => f x c
    | .error e => .error e

def failAt (position : Position) (fault : SyntaxFault) : Parser α := fun _ => .error ⟨fault, position⟩

def fail (fault : SyntaxFault) : Parser α := fun c => .error ⟨fault, c.peek.position⟩

def test (p : Cursor → Bool) : Parser Bool := fun c => .ok (p c, c)

def peek : Parser Token := fun c => .ok (c.peek, c)

def advance : Parser Token := fun c => .ok (c.peek, c.advance)

def lastLine : Parser Int := fun c => .ok (c.lastLine, c)

def accept (p : Cursor → Bool) : Parser Bool := fun c =>
  if p c then .ok (true, c.advance) else .ok (false, c)

def acceptOperator (text : Bytes) : Parser Bool := accept (·.atOperator text)

def acceptKeyword (text : Bytes) : Parser Bool := accept (·.atKeyword text)

def expectOperator (text : Bytes) : Parser Token := do
  if ← test (·.atOperator text) then advance else fail (.expected text)

def expectKeyword (text : Bytes) : Parser Token := do
  if ← test (·.atKeyword text) then advance else fail (.expected text)

def expectName : Parser Token := do
  if ← test (·.atKind .name) then advance else fail .expectedName

/-- A line end is taken, the end marker is not. -/
def endStatement : Parser Unit := do
  if ← accept (·.atKind .newline) then pure ()
  else if ← test (·.atKind .endMarker) then pure ()
  else fail .invalidSyntax

def optional (p : Cursor → Bool) (item : Parser α) : Parser (Option α) := do
  if ← test p then some <$> item else pure none

def manyLoop {κ : Type} (start : Cursor → Option κ) (item : κ → Parser α) : Nat → Parser (List α)
  | 0 => fail .stuck
  | bound + 1 => fun c =>
    match start c with
    | some key => (do
        let x ← item key
        let xs ← manyLoop start item bound
        pure (x :: xs) : Parser (List α)) c
    | none => .ok ([], c)

def manyKeyed {κ : Type} (start : Cursor → Option κ) (item : κ → Parser α) : Parser (List α) :=
  fun c => manyLoop start item (c.left + 1) c

def many (start : Cursor → Bool) (item : Parser α) : Parser (List α) :=
  manyKeyed (fun c => if start c then some () else none) fun _ => item

def tailLoop (separator : Bytes) (stop : Cursor → Bool) (item : Parser α) : Nat → Parser (List α)
  | 0 => fail .stuck
  | bound + 1 => do
    if ← acceptOperator separator then
      if ← test stop then pure []
      else
        let x ← item
        let xs ← tailLoop separator stop item bound
        pure (x :: xs)
    else pure []

/-- Items after a separator each, up to a separator with nothing after it, as `stop` tells. -/
def separatedTail (separator : Bytes) (stop : Cursor → Bool) (item : Parser α) : Parser (List α) :=
  fun c => tailLoop separator stop item (c.left + 1) c

/-- One or more items between commas, without a comma at the end. -/
def commaSeparated (item : Parser α) : Parser (List α) := do
  let x ← item
  let xs ← separatedTail "," (fun _ => false) item
  pure (x :: xs)

/-- Any number of items between commas, possibly with a comma at the end. -/
def commaList (stop : Cursor → Bool) (item : Parser α) : Parser (List α) := do
  if ← test stop then pure []
  else
    let x ← item
    let xs ← separatedTail "," stop item
    pure (x :: xs)

end Parser

end CodeSmell
