import CodeSmell.Proofs.Grammar.Reading
import Mathlib.Data.List.SplitBy

/-!
Strings of tokens and of trees. Neighbouring strings are one: the strings of a list of tokens are its
maximal runs of string tokens. Lists that do not meet in strings have the strings of both,
`strings_append`.
-/

namespace CodeSmell

namespace Token

def isString (t : Token) : Bool := t.kind == .string

def runs (ts : List Token) : List (List Token) :=
  (ts.splitBy fun t u => t.isString && u.isString).filter (·.all isString)

def runNode (run : List Token) : Expr :=
  ⟨(run.headD default).position, .string (Bytes.join " " (run.map Token.text))⟩

def strings (ts : List Token) : Multiset Expr := ↑((runs ts).map runNode)

/-- The last of `ts` and the first of `us` are not both strings. -/
def Apart (ts us : List Token) : Prop :=
  ∀ t ∈ ts.getLast?, ∀ u ∈ us.head?, (t.isString && u.isString) = false

theorem Apart.append {ts us vs : List Token} (h : Apart us vs) (h' : Apart ts (us ++ vs)) :
    Apart (ts ++ us) vs := by
  by_cases empty : us = []
  · subst empty
    rwa [List.append_nil]
  · intro t last
    rw [List.getLast?_append_of_ne_nil _ empty] at last
    exact h t last

theorem Apart.of_append {ts us vs : List Token} (h : Apart ts (us ++ vs)) : Apart ts us := by
  intro t last u first
  refine h t last u ?_
  obtain ⟨rest, rfl⟩ := List.head?_eq_some_iff.1 first
  rfl

theorem strings_append {ts us : List Token} (h : Apart ts us) :
    strings (ts ++ us) = strings ts + strings us := by
  rw [strings, runs, List.splitBy_append h, List.filter_append, List.map_append, ← Multiset.coe_add]
  rfl

@[simp] theorem strings_nil : strings [] = 0 := rfl

theorem strings_singleton {t : Token} (h : t.isString = false) : strings [t] = 0 := by
  have one : [t].splitBy (fun t u => t.isString && u.isString) = [[t]] :=
    List.splitBy_of_isChain (List.cons_ne_nil _ _) (.singleton _)
  simp [strings, runs, one, h]

theorem strings_run {t : Token} {ts : List Token} (h : ∀ u ∈ t :: ts, u.isString = true) :
    strings (t :: ts) = {runNode (t :: ts)} := by
  have chain : (t :: ts).IsChain fun t u => (t.isString && u.isString) = true := by
    refine List.Pairwise.isChain (List.Pairwise.imp_of_mem (R := fun _ _ => True) ?_ ?_)
    · intro u v hu hv _
      rw [h u hu, h v hv]
      rfl
    · exact List.pairwise_of_forall fun _ _ => trivial
  have one := List.splitBy_of_isChain (List.cons_ne_nil t ts) chain
  have all : (t :: ts).all isString = true := List.all_eq_true.2 h
  rw [strings, runs, one, List.filter_cons, all]
  rfl

theorem apart_of_last {ts us : List Token} (h : ∀ t ∈ ts.getLast?, t.isString = false) :
    Apart ts us := by
  intro t last u _
  rw [h t last, Bool.false_and]

end Token

namespace Expr

def isString (e : Expr) : Bool :=
  match e.form with
  | .string _ => true
  | _ => false

def strings (e : Expr) : Multiset Expr := ↑(e.preorder.filter isString)

theorem strings_eq {e : Expr} (other : e.isString = false) :
    e.strings = (e.children.map strings).sum := by
  rw [strings, preorder_eq, List.filter_cons, other, List.filter_flatMap]
  exact coe_flatMap e.children _

theorem strings_string {p : Position} {text : Bytes} :
    strings ⟨p, .string text⟩ = {⟨p, .string text⟩} := by
  rw [strings, preorder_eq]
  rfl

end Expr

def Block.strings (b : Block) : Multiset Expr := ↑(b.nodes.filter Expr.isString)

namespace Block

theorem nodes_append (a b : Block) : Block.nodes (a ++ b) = Block.nodes a ++ Block.nodes b := by
  rw [nodes, deep_append, List.flatMap_append]
  rfl

theorem strings_append (a b : Block) :
    Block.strings (a ++ b) = Block.strings a + Block.strings b := by
  rw [Block.strings, nodes_append, List.filter_append, ← Multiset.coe_add]
  rfl

theorem strings_eq_sum (b : Block) : b.strings = (b.map fun s => Block.strings [s]).sum := by
  induction b with
  | nil =>
    rw [Block.strings, nodes, deep_nil]
    rfl
  | cons s rest ih =>
    rw [← List.singleton_append, strings_append, ih, List.singleton_append, List.map_cons,
      List.sum_cons]

theorem strings_flatten (bs : List Block) :
    Block.strings bs.flatten = (bs.map Block.strings).sum := by
  rw [strings_eq_sum, sum_map_flatten]
  exact congrArg List.sum (List.map_congr_left fun b _ => (strings_eq_sum b).symm)

theorem strings_singleton (s : Stmt) : Block.strings [s] =
    (s.expressions.map Expr.strings).sum + Block.strings s.nested.flatten := by
  have own : nodes [s] = s.expressions.flatMap Expr.preorder ++ nodes s.nested.flatten := by
    rw [nodes, deep_cons, deep_nil, List.append_nil, List.flatMap_cons]
    rfl
  rw [Block.strings, own, List.filter_append, ← Multiset.coe_add, List.filter_flatMap,
    coe_flatMap]
  rfl

end Block

def stringsOf (ps : List Piece) : Multiset Expr :=
  total ((Weight.zero (Multiset Expr)).piece Expr.strings fun s => Block.strings [s]) ps

@[simp] theorem stringsOf_nil : stringsOf [] = 0 := rfl

@[simp] theorem stringsOf_token (t : Token) (ps : List Piece) :
    stringsOf (.token t :: ps) = stringsOf ps := by
  simp [stringsOf]

@[simp] theorem stringsOf_expr (e : Expr) (ts : List Token) (ps : List Piece) :
    stringsOf (.expr e ts :: ps) = e.strings + stringsOf ps := by
  simp [stringsOf]

@[simp] theorem stringsOf_stmt (s : Stmt) (ts : List Token) (ps : List Piece) :
    stringsOf (.stmt s ts :: ps) = Block.strings [s] + stringsOf ps := by
  simp [stringsOf]

@[simp] theorem stringsOf_append (ps qs : List Piece) :
    stringsOf (ps ++ qs) = stringsOf ps + stringsOf qs :=
  total_append ps qs

theorem Expr.Layer.strings {e : Expr} {ps : List Piece} (h : e.Layer ps)
    (other : e.isString = false) : stringsOf ps = e.strings := by
  rw [stringsOf, h.weighs, e.strings_eq other]
  simp

theorem StmtForm.Layer.strings {form : StmtForm Stmt} {lead main : List Piece} {lines : LineRange}
    (h : form.Layer lead main) : stringsOf (lead ++ main) = Block.strings [⟨lines, form⟩] := by
  rw [stringsOf, h.weighs _ _ _ lines, Block.strings_singleton, Block.strings_eq_sum]
  simp [Stmt.expressions, Stmt.form]

theorem ModuleLine.strings {b : Block} {ps : List Piece} (h : ModuleLine b ps) :
    stringsOf ps = b.strings := by
  rw [stringsOf, h.weighs, Block.strings_eq_sum]

end CodeSmell
