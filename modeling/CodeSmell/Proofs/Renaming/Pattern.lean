import CodeSmell.Proofs.Renaming.Expr

/-!
Patterns up to a renaming: as for expressions, every rule goes together with itself on renamed tokens.
-/

namespace CodeSmell.Parser

open Cursor

variable {n : Nat}

theorem tracks_capture : Tracks n 1 Expr.Renamed capture capture :=
  tracks_expectName.map fun _ _ same => .reference same

section PatternRules

variable {self : PatternRule → Parser Expr}
  (nested : ∀ rule, Tracks n 1 Expr.Renamed (self rule) (self rule))

include nested

theorem tracks_patternList {closing : Bytes} :
    Tracks n 0 (fun x y => List.Forall₂ Expr.Renamed x.1 y.1 ∧ x.2 = y.2)
      (patternList self closing) (patternList self closing) := by
  refine tracks_ifAccept? (steady_atOperator _) (tracks_pure ⟨.nil, rfl⟩) ?_
  refine (nested .alternatives).loose.bind fun _ _ first => ?_
  refine (tracks_test (steady_atOperator _)).bind fun _ _ comma => ?_
  refine (tracks_separatedTail (steady_atOperator _) (nested .alternatives).loose).bind ?_
  exact fun _ _ others => tracks_expectOperator.loose.bind
    fun _ _ _ => tracks_pure ⟨.cons first others, comma⟩

theorem tracks_mappingEntry : Tracks n 1 Any (mappingEntry self) (mappingEntry self) := by
  refine tracks_ifTaken (solid_atOperator _) ?_ ?_
  · exact tracks_capture.loose.bind fun _ _ _ => tracks_pure trivial
  · exact (nested .closed).bind fun _ _ _ => tracks_expectOperator.loose.bind fun _ _ _ =>
      (nested .alternatives).loose.bind fun _ _ _ => tracks_pure trivial

theorem tracks_classPatternItem : Tracks n 1 Any (classPatternItem self) (classPatternItem self) := by
  refine tracks_ifTest solid_atKeywordArgument.steady ?_ ((nested .alternatives).map fun _ _ _ => trivial)
  exact tracks_advance?.before fun _ _ _ => tracks_advance?.before fun _ _ _ =>
    (nested .alternatives).bind fun _ _ _ => tracks_pure trivial

theorem tracks_valuePattern :
    TracksWhen (·.rest ≠ []) (n + 1) 1 Expr.Renamed (valuePattern self) (valuePattern self) := by
  refine tracks_advance.next fun start start' same => ?_
  have name : Tracks n 1 Token.Renamed (do let _ ← advance; expectName)
      (do let _ ← advance; expectName) := tracks_advance?.before fun _ _ _ => tracks_expectName
  refine (tracks_many (steady_atOperator _) name.always).bind fun names names' more => ?_
  have value := foldl_related (V := Token.Renamed) (R := Expr.Renamed)
    (f := fun e name => ⟨start.position, .attr e name.text⟩)
    (g := fun e name => ⟨start'.position, .attr e name.text⟩)
    (fun _ _ _ _ _ _ => .whole same.position rfl rfl rfl rfl) more (.reference same)
  refine tracks_ifAccept? (steady_atOperator _) ?_ (tracks_pure value)
  refine (tracks_commaList (steady_atOperator _) (tracks_classPatternItem nested).loose).bind ?_
  exact fun _ _ _ => tracks_expectOperator.loose.bind
    fun _ _ _ => tracks_pure (.whole same.position rfl rfl rfl rfl)

theorem tracks_closedPattern :
    Tracks (n + 1) 1 Expr.Renamed (closedPattern self) (closedPattern self) := by
  refine tracks_peek.before fun t u same => ?_
  refine tracks_ifAccept (solid_atOperator _) ?_ (tracks_ifAccept (solid_atOperator _) ?_ ?_)
  · exact tracks_capture.loose.bind fun _ _ name => tracks_pure (.starred same.position name)
  · refine (tracks_patternList nested).bind ?_
    rintro ⟨items, comma⟩ ⟨items', _⟩ ⟨more, rfl⟩
    cases more with
    | nil => exact tracks_pure (.sequence same.position .nil)
    | cons one rest => cases rest with
      | cons two rest => exact tracks_pure (.sequence same.position (.cons one (.cons two rest)))
      | nil => cases comma with
        | false => exact tracks_pure one
        | true => exact tracks_pure (.sequence same.position (.cons one .nil))
  refine tracks_ifAccept (solid_atOperator _) ?_ (tracks_ifAccept (solid_atOperator _) ?_ ?_)
  · exact (tracks_patternList nested).bind fun _ _ items => tracks_pure (.sequence same.position items.1)
  · refine (tracks_commaList (steady_atOperator _) (tracks_mappingEntry nested).loose).bind ?_
    exact fun _ _ _ => tracks_expectOperator.loose.bind
      fun _ _ _ => tracks_pure (.whole same.position rfl rfl rfl rfl)
  refine tracks_ifTest steady_atLiteral (tracks_binary tracks_parse 2) ?_
  have name : Solid (·.atKind .name) := solid_atKind (by decide)
  exact tracks_byTest name.steady ((tracks_valuePattern nested).known name.rest)
    (tracks_fail (by decide)).always

theorem tracks_alternatives : Tracks (n + 1) 1 Expr.Renamed (alternatives self) (alternatives self) := by
  have closed := tracks_closedPattern nested
  refine closed.next fun _ _ first => ?_
  have other : Tracks n 1 Expr.Renamed (do let _ ← advance; closedPattern self)
      (do let _ ← advance; closedPattern self) := tracks_advance?.before fun _ _ _ => closed.lower
  refine (tracks_many (steady_atOperator _) other.always).bind fun _ _ others => ?_
  have links {xs ys : List Expr} (h : List.Forall₂ Expr.Renamed xs ys) :
      List.Forall₂ Any (xs.map (BinaryOp.bitOr, ·)) (ys.map (BinaryOp.bitOr, ·)) :=
    List.forall₂_map_left_iff.2 (List.forall₂_map_right_iff.2 (h.imp fun _ _ _ => trivial))
  have pattern := chain_renamed first (links others)
  refine tracks_ifAccept? (steady_atKeyword _) ?_ (tracks_pure pattern)
  exact tracks_capture.loose.bind fun _ _ _ => tracks_pure (.whole pattern.position rfl rfl rfl rfl)

theorem tracks_patternBody (rule : PatternRule) :
    Tracks (n + 1) 1 Expr.Renamed (rule.body self) (rule.body self) := by
  cases rule with
  | alternatives => exact tracks_alternatives nested
  | closed => exact tracks_closedPattern nested

end PatternRules

theorem tracks_patternWithin (bound : Nat) (rule : PatternRule) :
    Tracks bound 1 Expr.Renamed (PatternRule.within bound rule) (PatternRule.within bound rule) := by
  induction bound generalizing rule with
  | zero => exact fun _ _ _ _ less => (nomatch less)
  | succ bound ih => exact tracks_patternBody ih rule

theorem tracks_patternParse (rule : PatternRule) : Tracks n 1 Expr.Renamed rule.parse rule.parse := by
  intro c d _ same _
  unfold PatternRule.parse
  rw [← same.left]
  exact tracks_patternWithin (c.left + 1) rule c d trivial same (Nat.lt_succ_self _)

theorem tracks_casePattern : Tracks n 1 Expr.Renamed casePattern casePattern := by
  refine tracks_peek.before fun start start' same => ?_
  have atEnd : Steady fun c => c.atOperator ":" || c.atKeyword "if" :=
    (steady_atOperator _).or (steady_atKeyword _)
  refine tracks_ifTest atEnd ?_ ?_
  · rw [same.position]
    exact tracks_failAt (by decide)
  refine (tracks_patternParse .alternatives).bind fun _ _ first => ?_
  refine tracks_ifTest (steady_atOperator _) ?_ (tracks_pure first)
  exact (tracks_separatedTail atEnd (tracks_patternParse .alternatives).loose).bind
    fun _ _ others => tracks_pure (.sequence same.position (.cons first others))

end CodeSmell.Parser
