import CodeSmell.Proofs.Grammar.Reading
import CodeSmell.Proofs.Lexer.Lines

/-!
The lines of a reading. When the tokens come line by line, a statement, handler or case runs from the
first of its tokens to the last one with text: `LineRange.Spans`. The statements of a block are read
one after another, so that they stand in the order of their lines.
-/

namespace CodeSmell

/-- The lines run from the first of the tokens to the end of the last one with text. -/
structure LineRange.Spans (lines : LineRange) (ts : List Token) : Prop where
  first : ∃ t ∈ ts, t.position.line = lines.first
  last : ∃ t ∈ ts, t.isLayout = false ∧ t.endLine = lines.last
  lower : ∀ t ∈ ts, lines.first ≤ t.position.line
  upper : ∀ t ∈ ts, t.isLayout = false → t.endLine ≤ lines.last

structure LineRange.Within (lines : LineRange) (count : Nat) : Prop where
  first : 1 ≤ lines.first
  ordered : lines.first ≤ lines.last
  last : lines.last ≤ count

structure LineRange.Inside (inner outer : LineRange) : Prop where
  first : outer.first ≤ inner.first
  last : inner.last ≤ outer.last

variable {a b : Int} {ts us : List Token}

namespace LineRange.Spans

variable {lines inner : LineRange}

theorem bounds (h : lines.Spans ts) (lined : Lined a ts b) :
    a ≤ lines.first ∧ lines.first ≤ lines.last ∧ lines.last ≤ b := by
  obtain ⟨t, first, same⟩ := h.first
  obtain ⟨u, last, text, same'⟩ := h.last
  have := lined.mem first
  have := lined.mem last
  have := h.lower u last
  omega

theorem within {count : Nat} (h : lines.Spans ts) (lined : Lined 1 ts b)
    (ends : ∀ t ∈ ts, t.isLayout = false → t.endLine ≤ count) : lines.Within count := by
  obtain ⟨u, last, text, same⟩ := h.last
  have := ends u last text
  obtain ⟨first, ordered, -⟩ := h.bounds lined
  exact ⟨first, ordered, by omega⟩

theorem inside (h : lines.Spans ts) (h' : inner.Spans us) (subset : us ⊆ ts) :
    inner.Inside lines := by
  obtain ⟨t, first, same⟩ := h'.first
  obtain ⟨u, last, text, same'⟩ := h'.last
  exact ⟨same ▸ h.lower t (subset first), same' ▸ h.upper u (subset last) text⟩

end LineRange.Spans

namespace Lined

theorem last (h : Lined a ts b) (text : ∃ t ∈ ts, t.isLayout = false) (line : Int) :
    ∃ u ∈ ts, u.isLayout = false ∧ u.endLine = lastLineOf line ts ∧
      ∀ t ∈ ts, t.isLayout = false → t.endLine ≤ u.endLine := by
  induction ts generalizing a line with
  | nil => simp at text
  | cons t ts ih =>
    cases h with
    | cons first ordered rest =>
      by_cases more : ∃ u ∈ ts, u.isLayout = false
      · obtain ⟨u, mem, text, same, upper⟩ := ih rest more (lastLineOf line [t])
        obtain ⟨before, ordered, -⟩ := rest.mem mem
        refine ⟨u, .tail _ mem, text, ?_, List.forall_mem_cons.2 ⟨fun _ => by omega, upper⟩⟩
        rw [same, ← lastLineOf_append, List.singleton_append]
      · have layout : ∀ u ∈ ts, u.isLayout = true := by simpa using more
        obtain ⟨u, mem, text⟩ := text
        rcases List.mem_cons.1 mem with rfl | mem
        · refine ⟨u, .head _, text, ?_, fun v mem text => ?_⟩
          · rw [← List.singleton_append, lastLineOf_append, lastLineOf_of_layout layout]
            simp [lastLineOf, text]
          · rcases List.mem_cons.1 mem with rfl | mem
            · exact Int.le_refl _
            · rw [layout v mem] at text
              cases text
        · rw [layout u mem] at text
          cases text

theorem spans (h : Lined a ts b) (text : ∃ t ∈ ts, t.isLayout = false) (line : Int) :
    LineRange.Spans ⟨(ts.headD default).position.line, lastLineOf line ts⟩ ts := by
  obtain ⟨u, mem, isText, last, upper⟩ := h.last text line
  cases h with
  | nil => cases mem
  | @cons _ _ t ts first ordered rest =>
    refine ⟨⟨t, .head _, rfl⟩, ⟨u, mem, isText, last⟩, fun v mem => ?_, last ▸ upper⟩
    rcases List.mem_cons.1 mem with rfl | mem
    · exact Int.le_refl _
    · have := rest.mem mem
      change t.position.line ≤ v.position.line
      omega

theorem spanOf_spans (h : Lined a ts b) (text : ∃ t ∈ ts, t.isLayout = false) :
    (spanOf ts).Spans ts := by
  have spans := h.spans text 0
  have ordered := (spans.bounds h).2.1
  have same : spanOf ts = ⟨(ts.headD default).position.line, lastLineOf 0 ts⟩ := by
    rw [spanOf, max_eq_right ordered]
  rw [same]
  exact spans

end Lined

def Piece.stmt? : Piece → Option Stmt
  | stmt s _ => some s
  | _ => none

def stmtsOf (ps : List Piece) : Block := ps.filterMap Piece.stmt?

@[simp] theorem stmtsOf_nil : stmtsOf [] = [] := rfl

@[simp] theorem stmtsOf_token (t : Token) (ps : List Piece) :
    stmtsOf (.token t :: ps) = stmtsOf ps := rfl

@[simp] theorem stmtsOf_stmt (s : Stmt) (ts : List Token) (ps : List Piece) :
    stmtsOf (.stmt s ts :: ps) = s :: stmtsOf ps := rfl

@[simp] theorem stmtsOf_append (ps qs : List Piece) :
    stmtsOf (ps ++ qs) = stmtsOf ps ++ stmtsOf qs :=
  List.filterMap_append

section Layers

variable {block : Block} {ps : List Piece}

theorem SeparatedTail.stmtsOf {separator : Bytes} (h : SeparatedTail IsStmt separator block ps) :
    stmtsOf ps = block := by
  induction h with
  | nil | trailing => rfl
  | cons _ one _ ih =>
    cases one
    simp [ih]

theorem Separated.stmtsOf {separator : Bytes} (h : Separated IsStmt separator block ps) :
    stmtsOf ps = block := by
  cases h with
  | nil => rfl
  | cons one tail =>
    cases one
    simp [tail.stmtsOf]

theorem Possibly.stmtsOf {p : Token → Bool} (h : Possibly p ps) : stmtsOf ps = [] := by
  cases h <;> rfl

theorem Repeated.stmtsOf {W : Block → List Piece → Prop} {bs : List Block} (h : Repeated W bs ps)
    (item : ∀ b ps, W b ps → stmtsOf ps = b) : stmtsOf ps = bs.flatten := by
  induction h with
  | nil => rfl
  | cons one _ ih => rw [stmtsOf_append, item _ _ one, ih, List.flatten_cons]

theorem Simple.stmtsOf (h : Simple block ps) : stmtsOf ps = block := by
  cases h with
  | intro _ list lineEnd => rw [stmtsOf_append, list.stmtsOf, lineEnd.stmtsOf, List.append_nil]

theorem Line.stmtsOf (h : Line block ps) : stmtsOf ps = block := by
  cases h with
  | compound => rfl
  | simple simple => exact simple.stmtsOf

theorem ModuleLine.stmtsOf (h : ModuleLine block ps) : stmtsOf ps = block := by
  cases h with
  | line line => exact line.stmtsOf
  | filler => rfl

theorem Block.Layer.stmtsOf (h : Block.Layer block ps) : stmtsOf ps = block := by
  cases h with
  | inline _ simple => exact simple.stmtsOf
  | indented _ _ _ lines dedent =>
    simp [lines.stmtsOf fun _ _ => Line.stmtsOf, dedent.stmtsOf]

theorem Branch.stmtsOf {keyword : Bytes} (h : Branch keyword block ps) : stmtsOf ps = block := by
  cases h with
  | absent => rfl
  | present _ body => exact body.stmtsOf

theorem OrElse.stmtsOf (h : OrElse block ps) : stmtsOf ps = block := by
  cases h with
  | branch branch => exact branch.stmtsOf
  | elif => rfl

theorem Handler.Layer.stmtsOf {handler : Handler Stmt} {isStar : Bool}
    (h : handler.Layer isStar ps) :
    ∃ qs : List Piece, qs.Sublist ps ∧ CodeSmell.stmtsOf qs = handler.body := by
  cases h with
  | intro _ _ _ _ _ body => exact ⟨_, by grind, body.stmtsOf⟩

theorem MatchCase.Layer.stmtsOf {case : MatchCase Stmt} (h : case.Layer ps) :
    ∃ qs : List Piece, qs.Sublist ps ∧ CodeSmell.stmtsOf qs = case.body := by
  cases h with
  | intro _ _ _ body => exact ⟨_, by grind, body.stmtsOf⟩

theorem StmtForm.Layer.blocks {form : StmtForm Stmt} {lead main : List Piece} {lines : LineRange}
    (h : form.Layer lead main) (mem : block ∈ (Stmt.mk lines form).nested) :
    ∃ qs : List Piece, qs.Sublist main ∧ stmtsOf qs = block := by
  cases h with
  | cond _ body orelse =>
    rcases List.mem_cons.1 mem with rfl | mem
    · exact ⟨_, by grind, body.stmtsOf⟩
    · obtain rfl := List.mem_singleton.1 mem
      exact ⟨_, by grind, orelse.stmtsOf⟩
  | forEach _ _ _ _ body orelse =>
    rcases List.mem_cons.1 mem with rfl | mem
    · exact ⟨_, by grind, body.stmtsOf⟩
    · obtain rfl := List.mem_singleton.1 mem
      exact ⟨_, by grind, orelse.stmtsOf⟩
  | whileLoop _ body orelse =>
    rcases List.mem_cons.1 mem with rfl | mem
    · exact ⟨_, by grind, body.stmtsOf⟩
    · obtain rfl := List.mem_singleton.1 mem
      exact ⟨_, by grind, orelse.stmtsOf⟩
  | tryExcept _ body handlers orelse final =>
    simp only [Stmt.nested, Stmt.blocks, Stmt.body?, Stmt.form, StmtForm.blocks, StmtForm.body?,
      Option.toList_none, List.append_nil, List.mem_cons, List.mem_append, List.map_map] at mem
    rcases mem with rfl | mem | rfl | mem
    · exact ⟨_, by grind, body.stmtsOf⟩
    · obtain ⟨handler, found, rfl⟩ := List.mem_map.1 mem
      obtain ⟨qs, layer, within⟩ := handlers.mem found
      obtain ⟨rs, within', same⟩ := layer.stmtsOf
      exact ⟨rs, (within'.trans within).trans (by grind), same⟩
    · exact ⟨_, by grind, orelse.stmtsOf⟩
    · obtain rfl : block = _ := by simpa using mem
      exact ⟨_, by grind, final.stmtsOf⟩
  | withItems _ _ _ body =>
    obtain rfl := List.mem_singleton.1 mem
    exact ⟨_, by grind, body.stmtsOf⟩
  | matchOn _ _ _ _ _ _ cases =>
    simp only [Stmt.nested, Stmt.blocks, Stmt.body?, Stmt.form, StmtForm.blocks, StmtForm.body?,
      Option.toList_none, List.append_nil] at mem
    obtain ⟨case, found, rfl⟩ := List.mem_map.1 mem
    obtain ⟨qs, layer, within⟩ := cases.mem found
    obtain ⟨rs, within', same⟩ := layer.stmtsOf
    exact ⟨rs, (within'.trans within).trans (by grind), same⟩
  | function _ _ _ _ _ _ _ _ body same =>
    obtain rfl := List.mem_singleton.1 mem
    exact ⟨_, by grind, body.stmtsOf⟩
  | classDef _ _ _ _ body same =>
    obtain rfl := List.mem_singleton.1 mem
    exact ⟨_, by grind, body.stmtsOf⟩
  | _ => cases mem

end Layers

def Stmt.clauseLines (s : Stmt) : List LineRange :=
  match s.form with
  | .tryExcept _ handlers _ _ _ => handlers.map Handler.lines
  | .matchOn _ cases => cases.map MatchCase.lines
  | _ => []

theorem StmtForm.Layer.clauses {form : StmtForm Stmt} {lead main : List Piece}
    {lines clause : LineRange} (h : form.Layer lead main)
    (mem : clause ∈ (Stmt.mk lines form).clauseLines) :
    ∃ qs : List Piece, qs.Sublist main ∧ qs.any Piece.hasText = true ∧
      clause = ⟨((tokensOf qs).headD default).position.line, lastLineOf 0 (tokensOf qs)⟩ := by
  cases h with
  | tryExcept _ _ handlers =>
    change clause ∈ (_ : List (Handler Stmt)).map _ at mem
    rw [List.map_map] at mem
    obtain ⟨handler, found, rfl⟩ := List.mem_map.1 mem
    obtain ⟨qs, layer, within⟩ := handlers.mem found
    refine ⟨qs, within.trans (by grind), ?_⟩
    obtain ⟨handler, isStar⟩ := handler
    cases layer with
    | intro isExcept => exact ⟨by simp [hasText_of_isKeyword isExcept], rfl⟩
  | matchOn _ _ _ _ _ _ cases =>
    change clause ∈ (_ : List (MatchCase Stmt)).map _ at mem
    obtain ⟨case, found, rfl⟩ := List.mem_map.1 mem
    obtain ⟨qs, layer, within⟩ := cases.mem found
    refine ⟨qs, within.trans (by grind), ?_⟩
    cases layer with
    | intro isName => exact ⟨by simp [hasText_of_kind isName rfl], rfl⟩
  | _ => cases mem

/-- The statements of a block are read one after another from some of the tokens. -/
inductive Block.Among (block : Block) (ts : List Token) : Prop where
  | intro {qs : List Piece} : stmtsOf qs = block → (∀ p ∈ qs, p.Spelled) →
      (tokensOf qs).Sublist ts → Among block ts

namespace Block.Among

variable {block : Block} {s : Stmt}

theorem mem (h : Block.Among block ts) (mem : s ∈ block) : ∃ us, s.Reading us ∧ us.Sublist ts := by
  cases h with
  | @intro qs same spelled within =>
    subst same
    obtain ⟨p, piece, isStmt⟩ := List.mem_filterMap.1 mem
    cases p with
    | stmt s us =>
      cases isStmt
      exact ⟨us, spelled _ piece, (tokens_within piece).sublist.trans within⟩
    | _ => cases isStmt

end Block.Among

theorem Stmt.Reading.spans {s : Stmt} (h : s.Reading ts) (lined : Lined a ts b) :
    ∃ us : List Token, us.Sublist ts ∧ s.lines.Spans us ∧
      (∀ clause ∈ s.clauseLines, ∃ vs, vs.Sublist us ∧ clause.Spans vs) ∧
      ∀ block ∈ s.nested, Block.Among block us := by
  cases h with
  | @intro form lead main layer exprs stmts =>
    have spelled : ∀ p ∈ main, p.Spelled := by
      intro p mem
      cases p with
      | token t => trivial
      | expr e ts => exact exprs e ts (List.mem_append_right _ mem)
      | stmt s ts => exact stmts s ts (List.mem_append_right _ mem)
    have within : (tokensOf main).Sublist (tokensOf (lead ++ main)) :=
      tokensOf_sublist (List.sublist_append_right _ _)
    refine ⟨tokensOf main, within, ?_, fun clause mem => ?_, fun block mem => ?_⟩
    · exact (lined.sublist within).spanOf_spans (text_of_spelled layer.hasText spelled)
    · obtain ⟨qs, part, text, rfl⟩ := layer.clauses mem
      have inner := tokensOf_sublist part
      refine ⟨_, inner, (lined.sublist (inner.trans within)).spans ?_ 0⟩
      exact text_of_spelled text fun p mem => spelled p (part.subset mem)
    · obtain ⟨qs, part, same⟩ := layer.blocks mem
      exact .intro same (fun p mem => spelled p (part.subset mem)) (tokensOf_sublist part)

theorem Block.Among.pairwise {block : Block} (h : Block.Among block ts) (lined : Lined a ts b) :
    block.Pairwise fun s d => s.lines.last ≤ d.lines.first := by
  cases h with
  | @intro qs same spelled within =>
    replace lined := lined.sublist within
    subst same
    clear within
    induction qs generalizing a with
    | nil => exact .nil
    | cons p qs ih =>
      rw [List.forall_mem_cons] at spelled
      obtain ⟨m, before, after⟩ := lined.left
      cases p with
      | token t => exact ih spelled.2 after
      | expr e us => exact ih spelled.2 after
      | stmt s us =>
        refine .cons (fun d mem => ?_) (ih spelled.2 after)
        obtain ⟨vs, reading, inner⟩ := Block.Among.mem (.intro rfl spelled.2 (.refl _)) mem
        have reading' : s.Reading us := spelled.1
        obtain ⟨us', inner', spans', -⟩ := reading'.spans before
        obtain ⟨vs', inner'', spans, -⟩ := reading.spans (after.sublist inner)
        have := spans'.bounds (before.sublist inner')
        have := spans.bounds (after.sublist (inner''.trans inner))
        omega

theorem Stmt.Reading.inside {s d : Stmt} (h : s.Reading ts) (lined : Lined a ts b)
    (mem : d ∈ s.nested.flatten) : d.lines.Inside s.lines := by
  obtain ⟨us, within, spans, -, blocks⟩ := h.spans lined
  obtain ⟨block, nested, mem⟩ := List.mem_flatten.1 mem
  obtain ⟨vs, reading, inner⟩ := (blocks block nested).mem mem
  obtain ⟨ws, inner', spans', -⟩ := reading.spans (lined.sublist (inner.trans within))
  exact spans.inside spans' (inner'.trans inner).subset

theorem ModuleReading.among {block : Block} (h : ModuleReading block ts) :
    Block.Among block ts := by
  cases h with
  | intro lines spelled =>
    exact .intro (lines.stmtsOf fun _ _ => ModuleLine.stmtsOf) spelled (.refl _)

end CodeSmell
