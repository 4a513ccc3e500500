import CodeSmell.Proofs.Renaming.Stmt

/-!
The parser always stops. Every list of tokens is a renaming of itself, so that what is known of a rule
that goes together with itself holds of it alone: it is never stuck, whatever the tokens are, and where
it succeeds it has taken a token and has not gone behind the end marker.
-/

namespace CodeSmell

namespace Cursor

/-- The tokens that are in sight of a cursor; the end marker is the last of them. -/
def visible (c : Cursor) : List Token := c.rest ++ [c.endMarker]

theorem headD_mem (ts : List Token) (t : Token) : ts.headD t ∈ ts ++ [t] := by
  cases ts with
  | nil => exact .head _
  | cons u rest => exact .head _

theorem peek_mem (c : Cursor) : c.peek ∈ c.visible := headD_mem c.rest c.endMarker

theorem peekSecond_mem (c : Cursor) : c.peekSecond ∈ c.visible := by
  have all := List.Sublist.append_right (List.tail_sublist c.rest) [c.endMarker]
  exact all.subset (headD_mem c.rest.tail c.endMarker)

theorem advance_of_nil {c : Cursor} (h : c.rest = []) : c.advance = c := by
  obtain ⟨rest, stop, lastLine, left, left_eq⟩ := c
  obtain rfl : rest = [] := h
  rfl

theorem ofTokens_prefix (tokens : List Token) : (Cursor.ofTokens tokens).rest <+: tokens := by
  unfold Cursor.ofTokens
  split
  · exact List.nil_prefix
  · split
    · exact List.dropLast_prefix tokens
    · exact List.prefix_rfl

end Cursor

namespace Parser

open Cursor

variable {α : Type}

/-- A failure has a reason of the grammar, and a success has taken a token. -/
def Progresses (p : Parser α) : Prop := ∀ c,
  match p c with
  | .ok (_, c') => c.Moves 1 c'
  | .error e => e.fault ≠ .stuck

theorem progresses_of_tracks {V : α → α → Prop} {p : Parser α} (h : ∀ n, Tracks n 1 V p p) :
    Progresses p := by
  intro c
  have alone := h (c.left + 1) c c trivial (.refl c) (Nat.lt_succ_self _)
  generalize p c = r at alone
  cases alone with
  | ok _ _ moves => exact moves
  | error fault => exact fault

/-- The rules that give an expression. What follows an opening bracket is given its token, and what
follows an expression that expression. -/
inductive ExpressionRule where
  | closed (r : Rule) | rule (r : Rule) | targetList | yieldExpr | exprOrYield | lambda | andTest
  | comparison | binary (depth : Nat) | power | atom | parenthesized (opening : Token)
  | bracketed (opening : Token) | braced (opening : Token) | trailer (e : Expr) | sliceItem
  | closedPattern (r : PatternRule) | pattern (r : PatternRule) | casePattern | capture

def ExpressionRule.parser : ExpressionRule → Parser Expr
  | closed r => r.parse
  | rule r => r.body Rule.parse
  | targetList => Parser.targetList Rule.parse
  | yieldExpr => Parser.yieldExpr Rule.parse
  | exprOrYield => Parser.exprOrYield
  | lambda => Parser.lambda Rule.parse
  | andTest => Parser.andTest Rule.parse
  | comparison => Parser.comparison Rule.parse
  | binary depth => Parser.binary Rule.parse depth
  | power => Parser.power Rule.parse
  | atom => Parser.atom Rule.parse
  | parenthesized opening => Parser.parenthesized Rule.parse opening
  | bracketed opening => Parser.bracketed Rule.parse opening
  | braced opening => Parser.braced Rule.parse opening
  | trailer e => Trailer.apply e <$> Parser.trailer Rule.parse
  | sliceItem => Parser.sliceItem Rule.parse
  | closedPattern r => r.parse
  | pattern r => r.body PatternRule.parse
  | casePattern => Parser.casePattern
  | capture => Parser.capture

theorem ExpressionRule.tracks (r : ExpressionRule) (n : Nat) :
    Tracks n 1 Expr.Renamed r.parser r.parser := by
  cases r with
  | closed r => exact tracks_parse r
  | rule r => exact (tracks_body tracks_parse r).lower
  | targetList => exact tracks_targetList tracks_parse
  | yieldExpr => exact (tracks_yieldExpr tracks_parse).lower
  | exprOrYield => exact tracks_exprOrYield
  | lambda => exact (tracks_lambda tracks_parse).lower
  | andTest => exact (tracks_andTest tracks_parse).lower
  | comparison => exact (tracks_comparison tracks_parse).lower
  | binary depth => exact (tracks_binary tracks_parse depth).lower
  | power => exact (tracks_power tracks_parse).lower
  | atom => exact (tracks_atom tracks_parse).lower
  | parenthesized opening => exact tracks_parenthesized tracks_parse (.refl opening)
  | bracketed opening => exact tracks_bracketed tracks_parse (.refl opening)
  | braced opening => exact tracks_braced tracks_parse (.refl opening)
  | trailer e => exact ((tracks_trailer tracks_parse).map fun _ _ same => same.apply (.refl e)).lower
  | sliceItem => exact tracks_sliceItem tracks_parse
  | closedPattern r => exact tracks_patternParse r
  | pattern r => exact (tracks_patternBody tracks_patternParse r).lower
  | casePattern => exact tracks_casePattern
  | capture => exact tracks_capture

/-- The parser stops on all lists of tokens: with the tree of a prefix of them that it has read, or for
a reason of the grammar. Its cursors see nothing behind the end marker, where they stay, and each
statement and each expression takes a token. -/
theorem parser_stops :
    (∀ tokens : List Token, (∃ b c', parseTokens tokens = .ok b ∧
        moduleBody block (Cursor.ofTokens tokens) = .ok (b, c') ∧ (Cursor.ofTokens tokens).Moves 0 c') ∨
      ∃ e, parseTokens tokens = .error e ∧ e.fault ≠ .stuck) ∧
    (∀ tokens : List Token, (Cursor.ofTokens tokens).rest <+: tokens) ∧
    (∀ c : Cursor, c.peek ∈ c.visible ∧ c.peekSecond ∈ c.visible ∧ (c.rest = [] → c.advance = c)) ∧
    Progresses (statement block) ∧ ∀ r : ExpressionRule, Progresses r.parser := by
  refine ⟨fun tokens => ?_, ofTokens_prefix,
    fun c => ⟨c.peek_mem, c.peekSecond_mem, advance_of_nil⟩,
    progresses_of_tracks fun _ => (tracks_statement tracks_block).lower,
    fun r => progresses_of_tracks r.tracks⟩
  have run : Agreed 0 _ _ _ _ := tracks_moduleBody tracks_block (Cursor.ofTokens tokens)
    (Cursor.ofTokens tokens) trivial (.refl _) (Nat.lt_succ_self _)
  unfold parseTokens
  generalize moduleBody block (Cursor.ofTokens tokens) = r at run
  cases run with
  | ok _ _ moves => exact .inl ⟨_, _, rfl, rfl, moves⟩
  | error fault => exact .inr ⟨_, rfl, fault⟩

end Parser

end CodeSmell
