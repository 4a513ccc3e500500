import CodeSmell.Proofs.Grammar.Weight

/-!
What a reading says about the whole tree below it. `Block.deep` lists all statements of a block, the
bodies of definitions included; each of them has a reading within the tokens of the block. The
weight of the tokens is that of all statements with all their expressions.
-/

namespace CodeSmell

/-- The statements of a block and all that is nested in them, in source order. -/
def Block.deep : Block → List Stmt
  | [] => []
  | s :: rest => s :: (Block.deep s.nested.flatten ++ Block.deep rest)
termination_by b => sizeOf b
decreasing_by
  · have := Block.sizeOf_flatten_le s.nested
    have := s.sizeOf_nested_le
    have := Block.sizeOf_pos rest
    simp only [List.cons.sizeOf_spec]
    omega
  · simp only [List.cons.sizeOf_spec]
    omega

namespace Block

theorem walk_nil : Block.walk [] = [] := by rw [walk]

theorem walk_cons (s : Stmt) (rest : Block) :
    Block.walk (s :: rest) = s :: (Block.walk s.blocks.flatten ++ Block.walk rest) := by rw [walk]

theorem walk_append (a b : Block) : Block.walk (a ++ b) = Block.walk a ++ Block.walk b := by
  induction a with
  | nil => rw [List.nil_append, walk_nil, List.nil_append]
  | cons s rest ih => rw [List.cons_append, walk_cons, ih, walk_cons, List.cons_append, List.append_assoc]

@[simp] theorem deep_nil : Block.deep [] = [] := by rw [deep]

theorem deep_cons (s : Stmt) (rest : Block) :
    Block.deep (s :: rest) = s :: (Block.deep s.nested.flatten ++ Block.deep rest) := by rw [deep]

theorem deep_append (a b : Block) : Block.deep (a ++ b) = Block.deep a ++ Block.deep b := by
  induction a with
  | nil => simp
  | cons s rest ih => simp [deep_cons, ih]

theorem deep_eq_flatMap (b : Block) : b.deep = b.flatMap fun s => Block.deep [s] := by
  induction b with
  | nil => simp
  | cons s rest ih => rw [← List.singleton_append, deep_append, List.flatMap_append, ih]; simp

end Block

def Stmt.function? (s : Stmt) : Option (FunctionDef Stmt) :=
  match s.form with
  | .function f => some f
  | _ => none

def Stmt.class? (s : Stmt) : Option (ClassDef Stmt) :=
  match s.form with
  | .classDef c => some c
  | _ => none

theorem Stmt.function?_eq_some {s : Stmt} {f : FunctionDef Stmt} :
    s.function? = some f ↔ s.form = .function f := by
  unfold function?
  split
  · next g isFunction => rw [isFunction, Option.some.injEq, StmtForm.function.injEq]
  · next other => exact ⟨nofun, fun same => (other f same).elim⟩

theorem Stmt.class?_eq_some {s : Stmt} {c : ClassDef Stmt} :
    s.class? = some c ↔ s.form = .classDef c := by
  unfold class?
  split
  · next d isClass => rw [isClass, Option.some.injEq, StmtForm.classDef.injEq]
  · next other => exact ⟨nofun, fun same => (other c same).elim⟩

def Block.functionDefs (b : Block) : List (FunctionDef Stmt) := b.deep.filterMap Stmt.function?

def Block.classDefs (b : Block) : List (ClassDef Stmt) := b.deep.filterMap Stmt.class?

def Block.nodes (b : Block) : List Expr :=
  b.deep.flatMap fun s => s.expressions.flatMap Expr.preorder

section Weights

variable {M : Type} [AddCommMonoid M] (w : Weight M)

namespace Weight

def tree (e : Expr) : M := (e.preorder.map fun d => w.expr d + w.named d.names).sum

def stmt (s : Stmt) : M :=
  w.form s.form + w.named (s.form.softKeywords ++ s.form.names) + (s.expressions.map w.tree).sum

def block (b : Block) : M := (b.deep.map w.stmt).sum

theorem tree_eq (e : Expr) :
    w.tree e = w.expr e + w.named e.names + (e.children.map w.tree).sum := by
  rw [tree, Expr.preorder_eq, List.map_cons, List.sum_cons, sum_map_flatMap]
  rfl

theorem tree_eq_add (e : Expr) :
    w.tree e = (e.preorder.map w.expr).sum + (e.preorder.map fun d => w.named d.names).sum :=
  List.sum_map_add

theorem tree_of_unnamed (unnamed : ∀ name, w.name name = 0) (e : Expr) :
    w.tree e = (e.preorder.map w.expr).sum := by
  simp [tree, w.named_of_unnamed unnamed]

theorem stmt_of_unnamed (unnamed : ∀ name, w.name name = 0) (s : Stmt) :
    w.stmt s = w.form s.form + (s.expressions.map w.tree).sum := by
  rw [stmt, w.named_of_unnamed unnamed, add_zero]

theorem block_cons (s : Stmt) (b : Block) : w.block (s :: b) = w.block [s] + w.block b := by
  rw [← List.singleton_append, block, Block.deep_append, List.map_append, List.sum_append]
  rfl

theorem block_eq_sum (b : Block) : w.block b = (b.map fun s => w.block [s]).sum := by
  induction b with
  | nil => simp [block]
  | cons s rest ih => rw [block_cons, ih, List.map_cons, List.sum_cons]

theorem block_singleton (s : Stmt) : w.block [s] = w.stmt s + w.block s.nested.flatten := by
  rw [block, Block.deep_cons, Block.deep_nil, List.append_nil, List.map_cons, List.sum_cons]
  rfl

theorem sum_tokensOf {f : Expr → M} {g : Stmt → M} {ps : List Piece}
    (exprs : ∀ e ts, .expr e ts ∈ ps → (ts.map w.token).sum = f e)
    (stmts : ∀ s ts, .stmt s ts ∈ ps → (ts.map w.token).sum = g s) :
    ((tokensOf ps).map w.token).sum = total (w.piece f g) ps := by
  rw [tokensOf, sum_map_flatMap]
  refine congrArg List.sum (List.map_congr_left fun p mem => ?_)
  cases p with
  | token t => simp [Piece.tokens]
  | expr e ts => exact exprs e ts mem
  | stmt s ts => exact stmts s ts mem

end Weight

def Weight.zero (M : Type) [AddCommMonoid M] : Weight M where
  number _ := 0
  keyword _ := 0
  silent _ _ := rfl

namespace Weight

@[simp] theorem zero_number (e : Expr) : (zero M).number e = 0 := rfl

@[simp] theorem zero_keyword (word : Bytes) : (zero M).keyword word = 0 := rfl

@[simp] theorem zero_named (names : List Bytes) : (zero M).named names = 0 :=
  (zero M).named_of_unnamed (fun _ => rfl) names

@[simp] theorem zero_token (t : Token) : (zero M).token t = 0 := by
  unfold token
  split <;> rfl

@[simp] theorem zero_clause (c : Clause Expr) : (zero M).clause c = 0 := by simp [clause]

@[simp] theorem zero_guard (c : MatchCase Stmt) : (zero M).guard c = 0 := by simp [guard]

@[simp] theorem zero_expr (e : Expr) : (zero M).expr e = 0 := by
  obtain ⟨p, f⟩ := e
  cases f <;> simp [expr, Expr.form, funext zero_clause]

@[simp] theorem zero_form (f : StmtForm Stmt) : (zero M).form f = 0 := by
  cases f <;> simp [form, funext zero_guard]

end Weight

theorem Expr.Layer.no_stmt {e : Expr} {ps : List Piece} (h : e.Layer ps) (s : Stmt) (ts : List Token) :
    .stmt s ts ∉ ps := by
  intro mem
  have none := h.weighs (Weight.zero ℕ) (fun _ => 0) fun _ => 1
  simp only [Weight.zero_expr, Weight.zero_named, List.map_const', List.sum_replicate, smul_zero,
    add_zero] at none
  have one := List.sum_eq_zero_iff.1 none _ (List.mem_map_of_mem mem)
  cases one

theorem Expr.Reading.weight {e : Expr} {ts : List Token} (h : e.Reading ts) :
    (ts.map w.token).sum = w.tree e := by
  induction h with
  | @layer e ps layer _ ih =>
    have stmts : ∀ s ts, .stmt s ts ∈ ps → (ts.map w.token).sum = (fun _ => 0) s :=
      fun s ts mem => (layer.no_stmt s ts mem).elim
    rw [w.sum_tokensOf ih stmts, layer.weighs, w.tree_eq]
  | grouped isOpening _ isClosing ih =>
    simp [w.token_operator isOpening, w.token_operator isClosing, ih]

theorem Stmt.Reading.weight {s : Stmt} {ts : List Token} (h : s.Reading ts) :
    (ts.map w.token).sum = w.block [s] := by
  induction h with
  | @intro form lead main layer exprs stmts ih =>
    have trees : ∀ e ts, .expr e ts ∈ lead ++ main → (ts.map w.token).sum = w.tree e :=
      fun e ts mem => (exprs e ts mem).weight w
    rw [w.sum_tokensOf trees ih, layer.weighs _ _ _ (spanOf (tokensOf main)), w.block_singleton,
      ← w.block_eq_sum]
    rfl

theorem Piece.Spelled.weight {ps : List Piece} (h : ∀ p ∈ ps, p.Spelled) :
    ((tokensOf ps).map w.token).sum = total (w.piece w.tree fun s => w.block [s]) ps :=
  w.sum_tokensOf (fun _ _ mem => Expr.Reading.weight w (h _ mem))
    fun _ _ mem => Stmt.Reading.weight w (h _ mem)

theorem Block.Reading.weight {b : Block} {ts : List Token} (h : b.Reading ts) :
    (ts.map w.token).sum = w.block b := by
  cases h with
  | intro layer spelled => rw [Piece.Spelled.weight w spelled, layer.weighs, w.block_eq_sum]

end Weights

theorem coe_flatMap {α β : Type} (xs : List α) (f : α → List β) :
    (↑(xs.flatMap f) : Multiset β) = (xs.map fun x => (f x : Multiset β)).sum := by
  induction xs with
  | nil => rfl
  | cons x rest ih => simp [← Multiset.coe_add, ih]

theorem mem_sum_map {α β : Type} {xs : List α} {f : α → Multiset β} {b : β} :
    b ∈ (xs.map f).sum ↔ ∃ x ∈ xs, b ∈ f x := by
  induction xs with
  | nil => simp
  | cons x rest ih => simp [ih]

theorem mem_of_total {β : Type} {φ : Piece → Multiset β} {ps : List Piece} {xs : List β} {x : β}
    (h : total φ ps = (xs.map fun x => {x}).sum) (mem : x ∈ xs) : ∃ p ∈ ps, x ∈ φ p := by
  have here : x ∈ (xs.map fun x => ({x} : Multiset β)).sum :=
    mem_sum_map.2 ⟨x, mem, Multiset.mem_singleton_self x⟩
  rw [← h] at here
  exact mem_sum_map.1 here

theorem mem_of_total_stmts {ps : List Piece} {b : Block} {s : Stmt}
    (h : total ((Weight.zero (Multiset Stmt)).piece (fun _ => 0) fun s => {s}) ps =
      (b.map fun s => {s}).sum) (mem : s ∈ b) : ∃ ts, .stmt s ts ∈ ps := by
  obtain ⟨p, mem, here⟩ := mem_of_total h mem
  cases p with
  | token t => simp at here
  | expr e ts => simp at here
  | stmt d ts =>
    obtain rfl := Multiset.mem_singleton.1 here
    exact ⟨ts, mem⟩

theorem mem_of_total_exprs {ps : List Piece} {es : List Expr} {e : Expr}
    (h : total ((Weight.zero (Multiset Expr)).piece (fun e => {e}) fun _ => 0) ps =
      (es.map fun e => {e}).sum) (mem : e ∈ es) : ∃ ts, .expr e ts ∈ ps := by
  obtain ⟨p, mem, here⟩ := mem_of_total h mem
  cases p with
  | token t => simp at here
  | expr d ts =>
    obtain rfl := Multiset.mem_singleton.1 here
    exact ⟨ts, mem⟩
  | stmt s ts => simp at here

theorem StmtForm.Layer.mem_nested {form : StmtForm Stmt} {lead main : List Piece} {lines : LineRange}
    {s : Stmt} (h : form.Layer lead main) (mem : s ∈ (Stmt.mk lines form).nested.flatten) :
    ∃ ts, .stmt s ts ∈ lead ++ main := by
  refine mem_of_total_stmts ?_ mem
  rw [h.weighs (Weight.zero (Multiset Stmt)) (fun _ => 0) (fun s => {s}) lines]
  simp

theorem Expr.Layer.mem_children {e c : Expr} {ps : List Piece} (h : e.Layer ps)
    (mem : c ∈ e.children) : ∃ ts, .expr c ts ∈ ps := by
  refine mem_of_total_exprs ?_ mem
  rw [h.weighs (Weight.zero (Multiset Expr)) (fun e => {e}) fun _ => 0]
  simp

theorem StmtForm.Layer.mem_expressions {form : StmtForm Stmt} {lead main : List Piece} {e : Expr}
    (h : form.Layer lead main) (mem : e ∈ form.expressions) : ∃ ts, .expr e ts ∈ lead ++ main := by
  refine mem_of_total_exprs ?_ mem
  rw [h.weighs (Weight.zero (Multiset Expr)) (fun e => {e}) (fun _ => 0) default]
  simp only [Weight.zero_form, Weight.zero_named, zero_add, List.map_const', List.sum_replicate, smul_zero, add_zero]

theorem tokensOf_sublist {ps qs : List Piece} (h : ps.Sublist qs) :
    (tokensOf ps).Sublist (tokensOf qs) := by
  induction h with
  | slnil => exact .refl _
  | cons p _ ih => exact ih.trans (List.sublist_append_right _ _)
  | cons_cons p _ ih => exact List.Sublist.append (.refl _) ih

theorem tokensOf_within {ps qs : List Piece} (h : ps <:+: qs) : tokensOf ps <:+: tokensOf qs := by
  obtain ⟨before, after, rfl⟩ := h
  exact ⟨tokensOf before, tokensOf after, by simp⟩

theorem tokens_within {p : Piece} {ps : List Piece} (mem : p ∈ ps) : p.tokens <:+: tokensOf ps := by
  obtain ⟨before, after, rfl⟩ := List.append_of_mem mem
  exact ⟨tokensOf before, tokensOf after, by simp⟩

theorem Expr.Reading.preorder {e c : Expr} {ts : List Token} (h : e.Reading ts)
    (mem : c ∈ e.preorder) : ∃ us, c.Reading us ∧ us <:+: ts := by
  induction h with
  | @layer e ps layer readings ih =>
    rw [Expr.preorder_eq, List.mem_cons] at mem
    rcases mem with rfl | mem
    · exact ⟨_, .layer layer readings, List.infix_rfl⟩
    · obtain ⟨d, child, mem⟩ := List.mem_flatMap.1 mem
      obtain ⟨ts, piece⟩ := layer.mem_children child
      obtain ⟨us, reading, within⟩ := ih d ts piece mem
      exact ⟨us, reading, within.trans (tokens_within piece)⟩
  | grouped _ _ _ ih =>
    obtain ⟨us, reading, within⟩ := ih mem
    exact ⟨us, reading, within.trans ⟨[_], [_], rfl⟩⟩

theorem Stmt.Reading.expressions {s : Stmt} {e : Expr} {ts : List Token} (h : s.Reading ts)
    (mem : e ∈ s.expressions) : ∃ us, e.Reading us ∧ us <:+: ts := by
  cases h with
  | intro layer readings _ =>
    obtain ⟨us, piece⟩ := layer.mem_expressions mem
    exact ⟨us, readings e us piece, tokens_within piece⟩

theorem Stmt.Reading.deep {s d : Stmt} {ts : List Token} (h : s.Reading ts)
    (mem : d ∈ Block.deep [s]) : ∃ us, d.Reading us ∧ us <:+: ts := by
  induction h with
  | @intro form lead main layer exprs stmts ih =>
    rw [Block.deep_cons, Block.deep_nil, List.append_nil, List.mem_cons] at mem
    rcases mem with rfl | mem
    · exact ⟨_, .intro layer exprs stmts, List.infix_rfl⟩
    · rw [Block.deep_eq_flatMap] at mem
      obtain ⟨s, nested, mem⟩ := List.mem_flatMap.1 mem
      obtain ⟨ts, piece⟩ := layer.mem_nested nested
      obtain ⟨us, reading, within⟩ := ih s ts piece mem
      exact ⟨us, reading, within.trans (tokens_within piece)⟩

theorem Stmt.Reading.function {s : Stmt} {definition : FunctionDef Stmt} {ts : List Token}
    (h : s.Reading ts) (isFunction : s.form = .function definition) :
    ∃ us, Block.Reading definition.body us ∧
      definition.bodyTokens = (us.filter (!·.isLayout)).drop 1 ∧ us <:+: ts := by
  obtain ⟨lines, form⟩ := s
  obtain rfl : form = .function definition := isFunction
  cases h with
  | @intro form lead main layer exprs stmts =>
    cases layer with
    | @function _ _ _ _ _ _ _ _ _ _ _ _ _ bs _ _ _ _ _ _ _ _ _ body same =>
      have within : bs <:+ lead ++ main := by
        simp only [same, ← List.append_assoc, ← List.cons_append, List.suffix_append]
      refine ⟨tokensOf bs, .intro body fun p mem => ?_, rfl, tokensOf_within within.isInfix⟩
      cases p with
      | token t => trivial
      | expr e ts => exact exprs e ts (within.subset mem)
      | stmt s ts => exact stmts s ts (within.subset mem)

theorem Weight.sum_text {M : Type} [AddCommMonoid M] (w : Weight M) (ts : List Token) :
    ((ts.filter (!·.isLayout)).map w.token).sum = (ts.map w.token).sum := by
  induction ts with
  | nil => rfl
  | cons t ts ih =>
    cases layout : t.isLayout with
    | false => simp [layout, ih]
    | true =>
      have silent : w.token t = 0 := by
        unfold Weight.token
        unfold Token.isLayout TokenKind.isLayout at layout
        split <;> simp_all
      simp [layout, ih, silent]

theorem Block.Reading.colon {b : Block} {ts : List Token} (h : b.Reading ts) :
    ∃ (colon : Token) (us : List Token), colon.isOperator ":" = true ∧ ts = colon :: us := by
  cases h with
  | intro layer _ => cases layer with
    | inline isColon _ => exact ⟨_, _, isColon, rfl⟩
    | indented isColon _ _ _ _ => exact ⟨_, _, isColon, rfl⟩

theorem Block.Reading.weight_bodyTokens {M : Type} [AddCommMonoid M] (w : Weight M) {b : Block}
    {ts : List Token} (h : b.Reading ts) :
    (((ts.filter (!·.isLayout)).drop 1).map w.token).sum = w.block b := by
  obtain ⟨colon, us, isColon, rfl⟩ := h.colon
  rw [← h.weight w, List.filter_cons, colon.not_isLayout_of_isOperator isColon]
  simp [w.token_operator isColon, w.sum_text]

/-- The lines of a module, line ends and dedents between them. -/
inductive ModuleReading : Block → List Token → Prop where
  | intro {bs : List Block} {ps : List Piece} : Repeated ModuleLine bs ps → (∀ p ∈ ps, p.Spelled) →
      ModuleReading bs.flatten (tokensOf ps)

theorem ModuleLine.weighs {M : Type} [AddCommMonoid M] (w : Weight M) (f : Expr → M) (g : Stmt → M)
    {b : Block} {ps : List Piece} (h : ModuleLine b ps) :
    total (w.piece f g) ps = (b.map g).sum := by
  cases h with
  | line line => exact line.weighs w f g
  | @filler t filler =>
    have silent : w.token t = 0 := by
      rcases filler with kind | kind
      · exact w.token_kind kind (by decide) (by decide) (by decide)
      · exact w.token_kind kind (by decide) (by decide) (by decide)
    simp [silent]

theorem sum_map_flatten {M : Type} [AddCommMonoid M] (bs : List Block) (g : Stmt → M) :
    (bs.flatten.map g).sum = (bs.map fun b => (b.map g).sum).sum := by
  rw [List.map_flatten, List.sum_flatten, List.map_map]
  rfl

namespace ModuleReading

variable {b : Block} {ts : List Token}

theorem weight {M : Type} [AddCommMonoid M] (w : Weight M) (h : ModuleReading b ts) :
    (ts.map w.token).sum = w.block b := by
  cases h with
  | intro lines spelled =>
    rw [Piece.Spelled.weight w spelled, lines.total_eq fun _ _ => ModuleLine.weighs w _ _,
      w.block_eq_sum, sum_map_flatten]

theorem deep {d : Stmt} (h : ModuleReading b ts) (mem : d ∈ b.deep) :
    ∃ us, d.Reading us ∧ us <:+: ts := by
  cases h with
  | @intro bs ps lines spelled =>
    rw [Block.deep_eq_flatMap] at mem
    obtain ⟨s, nested, mem⟩ := List.mem_flatMap.1 mem
    obtain ⟨us, piece⟩ : ∃ us, .stmt s us ∈ ps := by
      refine mem_of_total_stmts ?_ nested
      rw [lines.total_eq fun _ _ => ModuleLine.weighs _ _ _, sum_map_flatten]
    have reading : s.Reading us := spelled _ piece
    obtain ⟨vs, reading, within⟩ := reading.deep mem
    exact ⟨vs, reading, within.trans (tokens_within piece)⟩

theorem node {e : Expr} (h : ModuleReading b ts) (mem : e ∈ b.nodes) :
    ∃ us, e.Reading us ∧ us <:+: ts := by
  obtain ⟨s, hs, below⟩ := List.mem_flatMap.1 mem
  obtain ⟨d, hd, below⟩ := List.mem_flatMap.1 below
  obtain ⟨us, statement, within₁⟩ := h.deep hs
  obtain ⟨vs, expression, within₂⟩ := statement.expressions hd
  obtain ⟨ws, node, within₃⟩ := expression.preorder below
  exact ⟨ws, node, within₃.trans (within₂.trans within₁)⟩

end ModuleReading

end CodeSmell
