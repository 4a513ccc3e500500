import CodeSmell.Proofs.Grammar.Reading
import CodeSmell.Proofs.Renaming.Expr

/-!
Statements up to a renaming. What is compared of a function is its outline: its lines, the roles of
its tokens and the kinds of its statements. Two blocks are renamed if their statements are of the same
kinds and if the functions anywhere in them have the same outlines, one by one.
-/

namespace CodeSmell

def FunctionDef.outline (f : FunctionDef Stmt) : LineRange × Signature := (f.lines, .ofFunction f)

def Block.outlines (b : Block) : List (LineRange × Signature) := b.functionDefs.map FunctionDef.outline

structure Block.Renamed (a b : Block) : Prop where
  tags : a.tags = b.tags
  outlines : a.outlines = b.outlines

namespace Block

@[simp] theorem tags_nil : Block.tags [] = [] := by rw [tags, walk_nil, List.flatMap_nil]

theorem tags_cons (s : Stmt) (rest : Block) :
    Block.tags (s :: rest) = s.tags ++ (Block.tags s.blocks.flatten ++ Block.tags rest) := by
  rw [tags, walk_cons, List.flatMap_cons, List.flatMap_append, tags, tags]

theorem tags_append (a b : Block) : Block.tags (a ++ b) = a.tags ++ b.tags := by
  rw [tags, walk_append, List.flatMap_append, tags, tags]

theorem outlines_cons (s : Stmt) (rest : Block) : Block.outlines (s :: rest) =
    (s.function?.map FunctionDef.outline).toList ++
      (Block.outlines s.nested.flatten ++ Block.outlines rest) := by
  rw [outlines, functionDefs, deep_cons, ← List.singleton_append, List.filterMap_append,
    List.filterMap_append, List.map_append, List.map_append, List.filterMap_cons, List.filterMap_nil]
  cases s.function? <;> rfl

theorem outlines_append (a b : Block) : Block.outlines (a ++ b) = a.outlines ++ b.outlines := by
  rw [outlines, functionDefs, deep_append, List.filterMap_append, List.map_append]
  rfl

namespace Renamed

variable {a a' b b' : Block}

theorem refl (b : Block) : b.Renamed b := ⟨rfl, rfl⟩

theorem append (h : a.Renamed a') (h' : b.Renamed b') : Block.Renamed (a ++ b) (a' ++ b') where
  tags := by rw [tags_append, tags_append, h.tags, h'.tags]
  outlines := by rw [outlines_append, outlines_append, h.outlines, h'.outlines]

theorem flatten {bs bs' : List Block} (h : List.Forall₂ Block.Renamed bs bs') :
    Block.Renamed bs.flatten bs'.flatten := by
  induction h with
  | nil => exact .refl []
  | cons one _ ih => exact one.append ih

theorem isEmpty (h : b.Renamed b') : b.isEmpty = b'.isEmpty := by
  have tags := h.tags
  cases b with
  | nil => cases b' with
    | nil => rfl
    | cons s rest => simp [tags_cons, Stmt.tags] at tags
  | cons s rest => cases b' with
    | cons t rest' => rfl
    | nil => simp [tags_cons, Stmt.tags] at tags

end Renamed

end Block

def Stmt.Renamed (s t : Stmt) : Prop := Block.Renamed [s] [t]

def StmtForm.Renamed (f g : StmtForm Stmt) : Prop := ∀ l m : LineRange, Stmt.Renamed ⟨l, f⟩ ⟨m, g⟩

theorem Stmt.Renamed.ofForm {f g : StmtForm Stmt} {l m : LineRange} (h : f.Renamed g) :
    Stmt.Renamed ⟨l, f⟩ ⟨m, g⟩ := h l m

theorem Block.Renamed.ofStmts {a b : Block} (h : List.Forall₂ Stmt.Renamed a b) : a.Renamed b := by
  induction h with
  | nil => exact .refl []
  | cons one _ ih => exact one.append ih

namespace StmtForm.Renamed

variable {f g : StmtForm Stmt}

theorem intro (tags : ∀ l m : LineRange, Stmt.tags ⟨l, f⟩ = Stmt.tags ⟨m, g⟩)
    (outline : ∀ l m : LineRange, (Stmt.function? ⟨l, f⟩).map FunctionDef.outline =
      (Stmt.function? ⟨m, g⟩).map FunctionDef.outline)
    (blocks : List.Forall₂ Block.Renamed f.blocks g.blocks)
    (body : Option.Rel Block.Renamed f.body? g.body?) : f.Renamed g := by
  intro l m
  have bodies : List.Forall₂ Block.Renamed f.body?.toList g.body?.toList := by
    generalize f.body? = a, g.body? = b at body
    cases body with
    | none => exact .nil
    | some h => exact .cons h .nil
  have nested : Block.Renamed (Stmt.nested ⟨l, f⟩).flatten (Stmt.nested ⟨m, g⟩).flatten :=
    .flatten (List.rel_append blocks bodies)
  constructor
  · rw [Block.tags_cons, Block.tags_cons, tags l m]
    exact congrArg (fun below => _ ++ (below ++ _)) (Block.Renamed.flatten blocks).tags
  · rw [Block.outlines_cons, Block.outlines_cons, outline l m, nested.outlines]

theorem compound (tags : ∀ l m : LineRange, Stmt.tags ⟨l, f⟩ = Stmt.tags ⟨m, g⟩)
    (blocks : List.Forall₂ Block.Renamed f.blocks g.blocks) (body : f.body? = none)
    (body' : g.body? = none) : f.Renamed g := by
  have other {f : StmtForm Stmt} (body : f.body? = none) (l : LineRange) :
      Stmt.function? ⟨l, f⟩ = none := by
    cases f with
    | function => cases body
    | _ => rfl
  refine .intro tags (fun l m => by rw [other body l, other body' m]) blocks ?_
  rw [body, body']
  exact .none

theorem expression {e d : Expr} (h : e.Renamed d) :
    StmtForm.Renamed (.expression e) (.expression d) := by
  have label {e : Expr} {l : LineRange} :
      Stmt.label ⟨l, .expression e⟩ = if e.isCall then "Call" else "Expr" := by
    obtain ⟨p, form⟩ := e
    cases form <;> rfl
  refine .compound (fun l m => ?_) .nil rfl rfl
  rw [Stmt.tags, Stmt.tags, label, label, h.isCall]
  rfl

theorem function {f g : FunctionDef Stmt} (outline : f.outline = g.outline)
    (body : Block.Renamed f.body g.body) : StmtForm.Renamed (.function f) (.function g) :=
  .intro (fun _ _ => rfl) (fun _ _ => congrArg some outline) .nil (.some body)

theorem classDef {f g : ClassDef Stmt} (body : Block.Renamed f.body g.body) :
    StmtForm.Renamed (.classDef f) (.classDef g) :=
  .intro (fun _ _ => rfl) (fun _ _ => rfl) .nil (.some body)

end StmtForm.Renamed

end CodeSmell
