import CodeSmell.Proofs.Lists
import CodeSmell.Syntax.Parser.Expr
import CodeSmell.Syntax.Stmt
import Mathlib.Tactic

/-!
The names that a tree holds. Names of modules are dotted; what counts of them are the parts between
the dots.
-/

namespace CodeSmell

namespace Bytes

def components (name : Bytes) : List Bytes := (name.splitOn '.').filter (!·.isEmpty)

@[simp] theorem components_nil : components [] = [] := rfl

theorem components_append (s t : Bytes) :
    components (s ++ '.'.toUInt8 :: t) = s.components ++ t.components := by
  rw [components, splitOn_append, List.filter_append]
  rfl

theorem components_plain {s : Bytes} (plain : '.'.toUInt8 ∉ s) (nonempty : s ≠ []) :
    s.components = [s] := by
  rw [components, splitOn_plain plain]
  simp [nonempty]

theorem components_of_mem {s part : Bytes} (h : part ∈ s.components) : part.components = [part] := by
  obtain ⟨piece, nonempty⟩ := List.mem_filter.1 h
  exact components_plain (not_mem_splitOn piece) (by simpa using nonempty)

theorem components_join (first : Bytes) (names : List Bytes) :
    (join "." (first :: names)).components = (first :: names).flatMap components := by
  induction names generalizing first with
  | nil => simp [join]
  | cons name rest ih =>
    have dotted : join "." (first :: name :: rest) = first ++ '.'.toUInt8 :: join "." (name :: rest) := by
      simp only [join, List.intercalate_cons_cons, List.append_assoc]
      rfl
    rw [dotted, components_append, ih]
    rfl

theorem components_dots {dots name : Bytes} (h : ∀ b ∈ dots, b = '.'.toUInt8) :
    (dots ++ name).components = name.components := by
  induction dots with
  | nil => rfl
  | cons b rest ih =>
    rw [List.forall_mem_cons] at h
    rw [List.cons_append, h.1, ← ih h.2]
    exact components_append [] _

end Bytes

def ParameterItem.names : ParameterItem → List Bytes
  | parameter p => [p.name]
  | _ => []

def ArgumentItem.names : ArgumentItem → List Bytes
  | keyword k => k.name.toList
  | argument _ => []

def Expr.names (e : Expr) : List Bytes :=
  match e.form with
  | .name id => [id]
  | .attr _ name => [name]
  | .call _ _ keywords => keywords.filterMap Keyword.name
  | .lambda parameters _ => parameters.map Parameter.name
  | _ => []

def Alias.names (a : Alias) : List Bytes :=
  (if a.name = "*" then [] else a.name.components) ++ a.asName.toList

namespace StmtForm

variable {σ : Type}

def names : StmtForm σ → List Bytes
  | tryExcept _ handlers _ _ _ => handlers.filterMap Handler.name
  | importNames names => names.flatMap Alias.names
  | importFrom module names => module.components ++ names.flatMap Alias.names
  | scope names _ => names
  | function f => f.name :: f.parameters.map Parameter.name
  | classDef c => c.name :: c.keywords.filterMap Keyword.name
  | _ => []

def softKeywords : StmtForm σ → List Bytes
  | matchOn _ cases => "match" :: cases.map fun _ => "case"
  | _ => []

end StmtForm

end CodeSmell
