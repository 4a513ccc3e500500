import CodeSmell.Proofs.Grammar.Expr
import CodeSmell.Syntax.Parser.Stmt

/-!
The grammar of statements. A layer of a statement holds its expressions and the statements of its
blocks as pieces; `Stmt.Reading` and `Block.Reading` say that a statement or block is a reading of
tokens. What stands before the line that a statement begins on (decorators, and `async` before a
loop or `with`) is kept apart as its lead.
-/

namespace CodeSmell

/-! ## Lines -/

def lastLineOf (line : Int) (ts : List Token) : Int :=
  ts.foldl (fun line t => if t.isLayout then line else t.endLine) line

theorem lastLineOf_append (line : Int) (ts us : List Token) :
    lastLineOf line (ts ++ us) = lastLineOf (lastLineOf line ts) us :=
  List.foldl_append

theorem lastLineOf_of_layout {ts : List Token} (h : ∀ t ∈ ts, t.isLayout = true) (line : Int) :
    lastLineOf line ts = line := by
  induction ts with
  | nil => rfl
  | cons t rest ih =>
    rw [List.forall_mem_cons] at h
    rw [lastLineOf, List.foldl_cons, if_pos h.1]
    exact ih h.2

theorem lastLineOf_of_text {ts : List Token} (h : ∃ t ∈ ts, t.isLayout = false) (line line' : Int) :
    lastLineOf line ts = lastLineOf line' ts := by
  induction ts generalizing line line' with
  | nil => simp at h
  | cons t rest ih =>
    simp only [lastLineOf, List.foldl_cons] at ih ⊢
    cases layout : t.isLayout with
    | false => rfl
    | true =>
      obtain ⟨u, mem, text⟩ := h
      rcases List.mem_cons.1 mem with rfl | mem
      · rw [layout] at text
        cases text
      · exact ih ⟨u, mem, text⟩ _ _

def spanOf (ts : List Token) : LineRange :=
  let first := (ts.headD default).position.line
  ⟨first, max first (lastLineOf 0 ts)⟩

/-! ## Blocks -/

def StmtForm.isElif : StmtForm Stmt → Bool
  | cond _ _ _ isElif => isElif
  | _ => false

def Stmt.isElif (s : Stmt) : Bool := s.form.isElif

def StmtForm.isSimple : StmtForm Stmt → Bool
  | cond .. | forEach .. | whileLoop .. | tryExcept .. | withItems .. | matchOn ..
  | function _ | classDef _ => false
  | _ => true

theorem StmtForm.isElif_of_isSimple {form : StmtForm Stmt} (h : form.isSimple = true) :
    form.isElif = false := by
  cases form with
  | cond => cases h
  | _ => rfl

inductive Simple : Block → List Piece → Prop where
  | intro {b : Block} {ps es : List Piece} : b ≠ [] → Separated IsStmt ";" b ps →
      Possibly (·.kind == .newline) es → (∀ s ∈ b, s.isElif = false) → Simple b (ps ++ es)

inductive Line : Block → List Piece → Prop where
  | compound {s : Stmt} {ts : List Token} : s.isElif = false → Line [s] [.stmt s ts]
  | simple {b : Block} {ps : List Piece} : Simple b ps → Line b ps

inductive ModuleLine : Block → List Piece → Prop where
  | line {b : Block} {ps : List Piece} : Line b ps → ModuleLine b ps
  | filler {t : Token} : t.kind = .newline ∨ t.kind = .dedent → ModuleLine [] [.token t]

inductive Block.Layer : Block → List Piece → Prop where
  | inline {b : Block} {colon : Token} {ps : List Piece} : colon.isOperator ":" → Simple b ps →
      Layer b (.token colon :: ps)
  | indented {bs : List Block} {colon lineEnd indent : Token} {ps es : List Piece} :
      colon.isOperator ":" → lineEnd.kind = .newline → indent.kind = .indent → Repeated Line bs ps →
      Possibly (·.kind == .dedent) es →
      Layer bs.flatten (.token colon :: .token lineEnd :: .token indent :: (ps ++ es))

/-- A block after a keyword; without the keyword it is empty. -/
inductive Branch (keyword : Bytes) : Block → List Piece → Prop where
  | absent : Branch keyword [] []
  | present {b : Block} {t : Token} {ps : List Piece} : t.isKeyword keyword → Block.Layer b ps →
      Branch keyword b (.token t :: ps)

inductive OrElse : Block → List Piece → Prop where
  | branch {b : Block} {ps : List Piece} : Branch "else" b ps → OrElse b ps
  | elif {lines : LineRange} {test : Expr} {body orelse : Block} {ts : List Token} :
      OrElse [⟨lines, .cond test body orelse true⟩] [.stmt ⟨lines, .cond test body orelse true⟩ ts]

/-! ## Parts of statements -/

inductive NameAfter (keyword : Bytes) : Option Bytes → List Piece → Prop where
  | absent : NameAfter keyword none []
  | present {t name : Token} : t.isKeyword keyword → name.kind = .name →
      NameAfter keyword name.text.nonempty? [.token t, .token name]

inductive Handler.Layer : Handler Stmt → Bool → List Piece → Prop where
  | intro {type : Option Expr} {name : Option Bytes} {body : Block} {isStar : Bool} {start : Token}
      {ms ts ns bs : List Piece} : start.isKeyword "except" →
      Marked (·.isOperator "*") isStar ms →
      Optionally IsExpr type ts → NameAfter "as" name ns → (type = none → ns = []) →
      Block.Layer body bs →
      Layer { type, name, body
              lines := ⟨start.position.line,
                lastLineOf 0 (tokensOf (.token start :: (ms ++ (ts ++ (ns ++ bs)))))⟩ } isStar
        (.token start :: (ms ++ (ts ++ (ns ++ bs))))

inductive WithItem.Layer : WithItem → List Piece → Prop where
  | intro {context : Expr} {target : Option Expr} {ts : List Token} {ps : List Piece} :
      Optionally (Led IsExpr (·.isKeyword "as")) target ps →
      (∀ t ∈ target, t.badTarget? = none) → Layer ⟨context, target⟩ (.expr context ts :: ps)

inductive MatchCase.Layer : MatchCase Stmt → List Piece → Prop where
  | intro {pattern : Expr} {guard : Option Expr} {body : Block} {start : Token} {ts : List Token}
      {gs bs : List Piece} : start.kind = .name → start.text = "case" →
      Optionally (Led IsExpr (·.isKeyword "if")) guard gs → Block.Layer body bs →
      Layer { pattern, guard, body
              lines := ⟨start.position.line,
                lastLineOf 0 (tokensOf (.token start :: .expr pattern ts :: (gs ++ bs)))⟩ }
        (.token start :: .expr pattern ts :: (gs ++ bs))

inductive IsName : Bytes → List Piece → Prop where
  | intro {t : Token} : t.kind = .name → IsName t.text [.token t]

inductive DottedName : Bytes → List Piece → Prop where
  | intro {t : Token} {names : List Bytes} {ps : List Piece} : t.kind = .name →
      Repeated (Led IsName (·.isOperator ".")) names ps →
      DottedName (Bytes.join "." (t.text :: names)) (.token t :: ps)

inductive Alias.Layer (W : Bytes → List Piece → Prop) : Alias → List Piece → Prop where
  | intro {name : Bytes} {asName : Option Bytes} {ps ns : List Piece} : W name ps →
      NameAfter "as" asName ns → Layer W { name, asName } (ps ++ ns)

inductive ModuleName : Bytes → List Piece → Prop where
  | intro {dots : List Token} {name : Option Bytes} {ps : List Piece} :
      (∀ t ∈ dots, t.isOperator "." ∨ t.isOperator "...") → Optionally DottedName name ps →
      dots.flatMap Token.text ++ name.getD [] ≠ [] →
      ModuleName (dots.flatMap Token.text ++ name.getD []) (dots.map .token ++ ps)

inductive ImportedNames : List Alias → List Piece → Prop where
  | star {t : Token} : t.isOperator "*" → ImportedNames [{ name := "*" }] [.token t]
  | plain {names : List Alias} {ps : List Piece} : names ≠ [] →
      Separated (Alias.Layer IsName) "," names ps → ImportedNames names ps
  | grouped {names : List Alias} {opening closing : Token} {ps : List Piece} : names ≠ [] →
      opening.isOperator "(" → Separated (Alias.Layer IsName) "," names ps →
      closing.isOperator ")" →
      ImportedNames names (.token opening :: (ps ++ [.token closing]))

inductive WithItems : List WithItem → List Piece → Prop where
  | plain {items : List WithItem} {ps : List Piece} : items ≠ [] →
      Separated WithItem.Layer "," items ps → WithItems items ps
  | grouped {items : List WithItem} {opening closing : Token} {ps : List Piece} :
      items ≠ [] → opening.isOperator "(" → Separated WithItem.Layer "," items ps →
      closing.isOperator ")" → WithItems items (.token opening :: (ps ++ [.token closing]))

inductive Assigned : Expr → List Piece → Prop where
  | intro {e : Expr} {ts : List Token} {equals : Token} : e.badTarget? = none →
      equals.isOperator "=" → Assigned e [.expr e ts, .token equals]

inductive Deleted : Expr → List Piece → Prop where
  | intro {e : Expr} {ts : List Token} : e.badTarget? = none → Deleted e [.expr e ts]

inductive Raised : Option Expr → Option Expr → List Piece → Prop where
  | absent : Raised none none []
  | present {e : Expr} {cause : Option Expr} {ts : List Token} {ps : List Piece} :
      Optionally (Led IsExpr (·.isKeyword "from")) cause ps →
      Raised (some e) cause (.expr e ts :: ps)

inductive Decorator : Expr → List Piece → Prop where
  | intro {t : Token} {e : Expr} {ts : List Token} {es : List Piece} : t.isOperator "@" →
      Possibly (·.kind == .newline) es → Decorator e (.token t :: .expr e ts :: es)

inductive Bases : List Expr → List (Keyword Expr) → List Piece → Prop where
  | absent : Bases [] [] []
  | present {items : List ArgumentItem} {opening closing : Token} {ps : List Piece} :
      opening.isOperator "(" → Separated ArgumentItem.Layer "," items ps →
      closing.isOperator ")" →
      Bases (items.filterMap ArgumentItem.argument?) (items.filterMap ArgumentItem.keyword?)
        (.token opening :: (ps ++ [.token closing]))

/-! ## One layer -/

/-- The tokens of a function's body without layout and without the colon before it. -/
def bodyTokensOf (ps : List Piece) : List Token := ((tokensOf ps).filter (!·.isLayout)).drop 1

/-- A statement with its lead and the pieces from its first line on. -/
inductive StmtForm.Layer : StmtForm Stmt → (lead main : List Piece) → Prop where
  | expression {e : Expr} {ts : List Token} : Layer (.expression e) [] [.expr e ts]
  | assign {targets : List Expr} {value : Expr} {ts : List Token} {ps : List Piece} : targets ≠ [] →
      Repeated Assigned targets ps → Layer (.assign targets value) [] (ps ++ [.expr value ts])
  | augAssign {target value : Expr} {op : BinaryOp} {t : Token} {ts us : List Token} :
      target.isPlainTarget → t.augmentedOp? = some op →
      Layer (.augAssign target op value) [] [.expr target ts, .token t, .expr value us]
  | annAssign {target annotation : Expr} {value : Option Expr} {colon : Token}
      {ts us : List Token} {ps : List Piece} : target.isPlainTarget → colon.isOperator ":" →
      Optionally (Led IsExpr (·.isOperator "=")) value ps →
      Layer (.annAssign target annotation value) []
        (.expr target ts :: .token colon :: .expr annotation us :: ps)
  | ret {value : Option Expr} {t : Token} {ps : List Piece} : t.isKeyword "return" →
      Optionally IsExpr value ps → Layer (.ret value) [] (.token t :: ps)
  | cond {test : Expr} {body orelse : Block} {isElif : Bool} {t : Token} {ts : List Token}
      {bs es : List Piece} : t.isKeyword (if isElif then "elif" else "if") → Block.Layer body bs →
      OrElse orelse es →
      Layer (.cond test body orelse isElif) [] (.token t :: .expr test ts :: (bs ++ es))
  | forEach {target iterable : Expr} {body orelse : Block} {isAsync : Bool} {loop within : Token}
      {ts us : List Token} {lead bs es : List Piece} :
      Marked (·.isKeyword "async") isAsync lead →
      loop.isKeyword "for" → target.badTarget? = none → within.isKeyword "in" →
      Block.Layer body bs → Branch "else" orelse es →
      Layer (.forEach target iterable body orelse isAsync) lead
        (.token loop :: .expr target ts :: .token within :: .expr iterable us :: (bs ++ es))
  | whileLoop {test : Expr} {body orelse : Block} {t : Token} {ts : List Token}
      {bs es : List Piece} : t.isKeyword "while" → Block.Layer body bs → Branch "else" orelse es →
      Layer (.whileLoop test body orelse) [] (.token t :: .expr test ts :: (bs ++ es))
  | tryExcept {body orelse finalBody : Block} {handlers : List (Handler Stmt × Bool)} {t : Token}
      {bs hs es fs : List Piece} : t.isKeyword "try" → Block.Layer body bs →
      Repeated (fun h => Handler.Layer h.1 h.2) handlers hs → Branch "else" orelse es →
      Branch "finally" finalBody fs → (handlers = [] → orelse = [] ∧ finalBody ≠ []) →
      Layer (.tryExcept body (handlers.map Prod.fst) orelse finalBody (handlers.any Prod.snd)) []
        (.token t :: (bs ++ (hs ++ (es ++ fs))))
  | withItems {items : List WithItem} {body : Block} {isAsync : Bool} {t : Token}
      {lead ps bs : List Piece} :
      Marked (·.isKeyword "async") isAsync lead →
      t.isKeyword "with" → WithItems items ps → Block.Layer body bs →
      Layer (.withItems items body isAsync) lead (.token t :: (ps ++ bs))
  | matchOn {subject : Expr} {cases : List (MatchCase Stmt)} {t colon lineEnd indent : Token}
      {ts : List Token} {ps es : List Piece} : t.kind = .name → t.text = "match" →
      colon.isOperator ":" → lineEnd.kind = .newline → indent.kind = .indent → cases ≠ [] →
      Repeated MatchCase.Layer cases ps → Possibly (·.kind == .dedent) es →
      Layer (.matchOn subject cases) [] (.token t :: .expr subject ts :: .token colon ::
        .token lineEnd :: .token indent :: (ps ++ es))
  | raise {exception cause : Option Expr} {t : Token} {ps : List Piece} : t.isKeyword "raise" →
      Raised exception cause ps → Layer (.raise exception cause) [] (.token t :: ps)
  | assert {test : Expr} {message : Option Expr} {t : Token} {ts : List Token} {ps : List Piece} :
      t.isKeyword "assert" → Optionally (Led IsExpr (·.isOperator ",")) message ps →
      Layer (.assert test message) [] (.token t :: .expr test ts :: ps)
  | delete {targets : List Expr} {t : Token} {ps : List Piece} : t.isKeyword "del" → targets ≠ [] →
      Separated Deleted "," targets ps → Layer (.delete targets) [] (.token t :: ps)
  | importNames {names : List Alias} {t : Token} {ps : List Piece} : t.isKeyword "import" →
      names ≠ [] → Separated (Alias.Layer DottedName) "," names ps →
      Layer (.importNames names) [] (.token t :: ps)
  | importFrom {module : Bytes} {names : List Alias} {t u : Token} {ps qs : List Piece} :
      t.isKeyword "from" → ModuleName module ps → u.isKeyword "import" → ImportedNames names qs →
      Layer (.importFrom module names) [] (.token t :: (ps ++ .token u :: qs))
  | scope {names : List Bytes} {isNonlocal : Bool} {t : Token} {ps : List Piece} :
      t.isKeyword (if isNonlocal then "nonlocal" else "global") → names ≠ [] →
      Separated IsName "," names ps → Layer (.scope names isNonlocal) [] (.token t :: ps)
  | pass {t : Token} : t.isKeyword "pass" → Layer .pass [] [.token t]
  | breakLoop {t : Token} : t.isKeyword "break" → Layer .breakLoop [] [.token t]
  | continueLoop {t : Token} : t.isKeyword "continue" → Layer .continueLoop [] [.token t]
  | function {decorators : List Expr} {isAsync : Bool} {items : List ParameterItem}
      {returns : Option Expr} {body : Block} {t name opening closing : Token}
      {ds as ps rs bs main : List Piece} : Repeated Decorator decorators ds →
      Marked (·.isKeyword "async") isAsync as →
      t.isKeyword "def" → name.kind = .name → opening.isOperator "(" →
      Separated ParameterItem.Layer "," items ps → closing.isOperator ")" →
      Optionally (Led IsExpr (·.isOperator "->")) returns rs → Block.Layer body bs →
      main = as ++ .token t :: .token name :: .token opening ::
        (ps ++ .token closing :: (rs ++ bs)) →
      Layer (.function
        { name := name.text, isAsync, decorators, parameters := parametersOf items, returns, body
          bodyTokens := bodyTokensOf bs, lines := spanOf (tokensOf main) }) ds main
  | classDef {decorators bases : List Expr} {keywords : List (Keyword Expr)} {body : Block}
      {t name : Token} {ds ps bs main : List Piece} : Repeated Decorator decorators ds →
      t.isKeyword "class" → name.kind = .name → Bases bases keywords ps → Block.Layer body bs →
      main = .token t :: .token name :: (ps ++ bs) →
      Layer (.classDef
        { name := name.text, decorators, bases, keywords, body, lines := spanOf (tokensOf main) })
        ds main

theorem StmtForm.Layer.hasText {form : StmtForm Stmt} {lead main : List Piece}
    (h : form.Layer lead main) : main.any Piece.hasText = true := by
  cases h with
  | ret isKey | tryExcept isKey | withItems _ isKey | raise isKey | delete isKey
  | importNames isKey | importFrom isKey | scope isKey | pass isKey | breakLoop isKey
  | continueLoop isKey => simp [hasText_of_isKeyword isKey]
  | function _ _ isKey _ _ _ _ _ _ same | classDef _ isKey _ _ _ same =>
    simp [same, hasText_of_isKeyword isKey]
  | _ => simp [Piece.hasText]

/-! ## Readings -/

inductive Stmt.Reading : Stmt → List Token → Prop where
  | intro {form : StmtForm Stmt} {lead main : List Piece} : form.Layer lead main →
      (∀ e ts, .expr e ts ∈ lead ++ main → e.Reading ts) →
      (∀ s ts, .stmt s ts ∈ lead ++ main → Reading s ts) →
      Reading ⟨spanOf (tokensOf main), form⟩ (tokensOf (lead ++ main))

/-- The tokens of a piece can be read as what it says. -/
def Piece.Spelled : Piece → Prop
  | token _ => True
  | expr e ts => e.Reading ts
  | stmt s ts => s.Reading ts

/-- A block with the colon before it. -/
inductive Block.Reading : Block → List Token → Prop where
  | intro {b : Block} {ps : List Piece} : Block.Layer b ps → (∀ p ∈ ps, p.Spelled) →
      Reading b (tokensOf ps)

theorem text_of_spelled {ps : List Piece} (h : ps.any Piece.hasText = true)
    (spelled : ∀ p ∈ ps, p.Spelled) : ∃ t ∈ tokensOf ps, t.isLayout = false := by
  obtain ⟨p, mem, text⟩ := List.any_eq_true.1 h
  cases p with
  | token t => exact ⟨t, List.mem_flatMap.2 ⟨_, mem, .head _⟩, by simpa [Piece.hasText] using text⟩
  | expr e ts =>
    have reading : e.Reading ts := spelled _ mem
    obtain ⟨t, mem', text⟩ := reading.text
    exact ⟨t, List.mem_flatMap.2 ⟨_, mem, mem'⟩, text⟩
  | stmt s ts => cases text

end CodeSmell
