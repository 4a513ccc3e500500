import CodeSmell.Proofs.Places.Expr

/-!
Places of patterns, which are expressions and are kept like them.
-/

namespace CodeSmell.Parser

open Cursor

variable {S : Position → Prop} {k : Bool}

theorem keeps_capture : Keeps S k (Expr.Placed S) capture :=
  keeps_expectName.map fun _ place => .reference place

section PatternRules

variable {self : PatternRule → Parser Expr}
  (nested : ∀ rule {k : Bool}, Keeps S k (Expr.Placed S) (self rule))

include nested

theorem keeps_patternList {closing : Bytes} :
    Keeps S false (fun x => Each (Expr.Placed S) x.1) (patternList self closing) := by
  refine keeps_ifAccept (textual_atOperator _) (keeps_pure .nil) ?_
  refine (nested .alternatives).bind fun _ first => ?_
  refine (keeps_test (textual_atOperator _).blind).bind fun _ _ => ?_
  refine (keeps_separatedTail (textual_atOperator _).blind (nested .alternatives)).bind ?_
  exact fun _ others => keeps_expectOperator.bind fun _ _ => keeps_pure (.cons first others)

theorem keeps_mappingEntry : Keeps S false Whatever (mappingEntry self) := by
  refine keeps_ifAccept (textual_atOperator _) ?_ ?_
  · exact keeps_capture.bind fun _ _ => keeps_pure trivial
  · exact (nested .closed).bind fun _ _ => keeps_expectOperator.bind fun _ _ =>
      (nested .alternatives).bind fun _ _ => keeps_pure trivial

theorem keeps_classPatternItem : Keeps S false Whatever (classPatternItem self) := by
  refine keeps_byTest textual_atKeywordArgument.blind ?_
    ((nested .alternatives).map fun _ _ => trivial).always
  exact (keeps_advance.known textual_atKeywordArgument.text).bind fun _ _ =>
    keeps_skip ((nested .alternatives).bind fun _ _ => keeps_pure trivial)

theorem keeps_valuePattern : KeepsWhen S AtText k (Expr.Placed S) (valuePattern self) := by
  refine keeps_advance.bind fun start place => ?_
  refine (keeps_many (textual_atOperator _).blind (keeps_skip keeps_expectName).always).bind ?_
  intro names _
  have value := foldl_keeps (V := Expr.Placed S)
    (f := fun e (name : Token) => ⟨start.position, .attr e name.text⟩)
    (fun _ _ _ => .whole place rfl) names (.reference place)
  refine keeps_ifAccept (textual_atOperator _) ?_ (keeps_pure value)
  exact (keeps_commaList (textual_atOperator _).blind (keeps_classPatternItem nested)).bind fun _ _ =>
    keeps_expectOperator.bind fun _ _ => keeps_pure (.whole place rfl)

theorem keeps_closedPattern : Keeps S k (Expr.Placed S) (closedPattern self) := by
  refine keeps_look fun t place => KeepsWhen.always ?_
  refine keeps_ifAccept (textual_atOperator _) ?_ (keeps_ifAccept (textual_atOperator _) ?_ ?_)
  · exact keeps_capture.bind fun _ name => keeps_pure (.starred place name)
  · refine (keeps_patternList nested).bind fun items stands => ?_
    split
    · next single => exact keeps_pure (stands single (List.mem_singleton_self single))
    · exact keeps_pure (.sequence place stands)
  refine keeps_ifAccept (textual_atOperator _) ?_ (keeps_ifAccept (textual_atOperator _) ?_ ?_)
  · exact (keeps_patternList nested).bind fun _ items => keeps_pure (.sequence place items)
  · exact (keeps_commaList (textual_atOperator _).blind (keeps_mappingEntry nested)).bind fun _ _ =>
      keeps_expectOperator.bind fun _ _ => keeps_pure (.whole place rfl)
  refine keeps_ifTest textual_atLiteral.blind (keeps_binary (fun rule _ => keeps_parse rule) 2) ?_
  have name : Textual (·.atKind .name) := textual_atKind rfl
  exact keeps_byTest name.blind ((keeps_valuePattern nested).known name.text) keeps_fail.always

theorem keeps_alternatives : Keeps S k (Expr.Placed S) (alternatives self) := by
  refine (keeps_closedPattern nested).bind fun _ first => ?_
  refine (keeps_many (textual_atOperator _).blind (keeps_skip (keeps_closedPattern nested)).always).bind ?_
  intro others _
  have pattern := chain_placed first (others.map (BinaryOp.bitOr, ·))
  refine keeps_ifAccept (textual_atKeyword _) ?_ (keeps_pure pattern)
  exact keeps_capture.bind fun _ _ => keeps_pure (.whole pattern.position rfl)

theorem keeps_patternBody (rule : PatternRule) : Keeps S k (Expr.Placed S) (rule.body self) := by
  cases rule with
  | alternatives => exact keeps_alternatives nested
  | closed => exact keeps_closedPattern nested

end PatternRules

theorem keeps_patternWithin (bound : Nat) (rule : PatternRule) :
    Keeps S k (Expr.Placed S) (PatternRule.within bound rule) := by
  induction bound generalizing rule k with
  | zero => exact keeps_fail
  | succ bound ih => exact keeps_patternBody (fun rule _ => ih rule) rule

theorem keeps_patternParse (rule : PatternRule) : Keeps S k (Expr.Placed S) rule.parse := by
  intro c d _ same
  unfold PatternRule.parse
  rw [same.left]
  exact keeps_patternWithin (c.left + 1) rule c d trivial same

theorem keeps_casePattern : Keeps S k (Expr.Placed S) casePattern := by
  have atEnd : Blind fun c => c.atOperator ":" || c.atKeyword "if" :=
    ((textual_atOperator _).or (textual_atKeyword _)).blind
  refine keeps_look fun start place => KeepsWhen.always ?_
  refine keeps_ifTest atEnd (keeps_failAt place) ?_
  refine (keeps_patternParse .alternatives).bind fun _ first => ?_
  refine keeps_ifTest (textual_atOperator _).blind ?_ (keeps_pure first)
  exact (keeps_separatedTail atEnd (keeps_patternParse .alternatives)).bind
    fun _ others => keeps_pure (.sequence place (.cons first others))

end CodeSmell.Parser
