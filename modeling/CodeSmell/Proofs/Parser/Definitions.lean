import CodeSmell.Proofs.Lexer.Breaks
import CodeSmell.Proofs.Parser.Module
import CodeSmell.Proofs.Renaming.Progress

/-!
Definitions begin on lines of their own. A definition that is nested in another one, or stands behind
it, is parsed after a line end, and text after a line end is on a later line: the first lines of the
definitions of a tree, in source order, are strictly increasing.

`c.Defines lines c'` is what a parser keeps: between the cursors begin definitions on these lines, all
of them above the text that is left. `Ensures P p Q` states this for rules of the grammar; expressions
define nothing, so that all that is used of their rules is that they go forward.
-/

namespace CodeSmell

/-! ## First lines -/

def StmtForm.start? : StmtForm Stmt → Option Int
  | function f => some f.lines.first
  | classDef c => some c.lines.first
  | _ => none

/-- The lines on which the definitions of a block begin, nested ones included, in source order. -/
def Block.starts (b : Block) : List Int := b.deep.filterMap fun s => s.form.start?

def StmtForm.starts (form : StmtForm Stmt) : List Int :=
  form.start?.toList ++ Block.starts (form.blocks ++ form.body?.toList).flatten

namespace Block

@[simp] theorem starts_nil : Block.starts [] = [] := by simp [starts]

@[simp] theorem starts_append (a b : Block) : Block.starts (a ++ b) = a.starts ++ b.starts := by
  simp [starts, deep_append]

@[simp] theorem starts_flatten (bs : List Block) :
    Block.starts bs.flatten = bs.flatMap Block.starts := by
  induction bs with
  | nil => exact starts_nil
  | cons b bs ih => rw [List.flatten_cons, starts_append, ih, List.flatMap_cons]

theorem starts_singleton (s : Stmt) : Block.starts [s] = s.form.starts := by
  rw [starts, deep_cons, deep_nil, List.append_nil, List.filterMap_cons]
  unfold StmtForm.starts
  cases s.form.start? <;> rfl

theorem starts_foldr {α : Type} {link : α → Block → Block} (own : α → List Int)
    (h : ∀ x rest, Block.starts (link x rest) = own x ++ rest.starts) (xs : List α) (b : Block) :
    Block.starts (xs.foldr link b) = xs.flatMap own ++ b.starts := by
  induction xs with
  | nil => rfl
  | cons x xs ih => rw [List.foldr_cons, h, ih, List.flatMap_cons, List.append_assoc]

end Block

theorem StmtForm.starts_eq_blocks {form : StmtForm Stmt} (h : form.body? = none) :
    form.starts = form.blocks.flatMap Block.starts := by
  rw [← Block.starts_flatten]
  cases form with
  | function | classDef => cases h
  | _ => simp only [starts, start?, body?, Option.toList_none, List.append_nil, List.nil_append]

theorem StmtForm.starts_simple {form : StmtForm Stmt} (h : form.isSimple = true) :
    form.starts = [] := by
  cases form with
  | cond | forEach | whileLoop | tryExcept | withItems | matchOn | function | classDef => cases h
  | _ => exact starts_eq_blocks rfl

theorem Block.starts_simple {b : Block} (h : ∀ s ∈ b, s.form.isSimple) : b.starts = [] := by
  induction b with
  | nil => exact starts_nil
  | cons s b ih =>
    rw [List.forall_mem_cons] at h
    rw [← List.singleton_append, starts_append, starts_singleton, StmtForm.starts_simple h.1, ih h.2,
      List.append_nil]

theorem Block.starts_cond {lines : LineRange} {test : Expr} {body orelse : Block} {isElif : Bool} :
    Block.starts [⟨lines, .cond test body orelse isElif⟩] = body.starts ++ orelse.starts := by
  have blocks : (StmtForm.cond test body orelse isElif).starts = _ := StmtForm.starts_eq_blocks rfl
  rw [starts_singleton, Stmt.form, blocks]
  simp [StmtForm.blocks]

/-! ## Cursors -/

namespace Cursor

variable {c c' c'' : Cursor} {line : Int} {a b : List Int}

/-- All text that is left is below the line. -/
def Past (line : Int) (c : Cursor) : Prop :=
  ∀ u ∈ c.rest, u.isLayout = false → line < u.position.line

/-- All text that is left after the next layout token is below the line. -/
def On (line : Int) (c : Cursor) : Prop := ∀ e u, [e, u].Sublist c.rest → e.isLayout = true →
  u.isLayout = false → line < u.position.line

theorem Past.mono (h : c.Past line) (moves : c'.rest <:+ c.rest) : c'.Past line :=
  fun u mem => h u (moves.subset mem)

theorem On.mono (h : c.On line) (moves : c'.rest <:+ c.rest) : c'.On line :=
  fun e u within => h e u (within.trans moves.sublist)

theorem On.past (h : c.On line) (layout : c.peek.isLayout = true) : c.Past line := by
  intro u mem text
  unfold peek at layout
  cases rest : c.rest with
  | nil => rw [rest] at mem; cases mem
  | cons e ts =>
    rw [rest] at mem layout
    rcases List.mem_cons.1 mem with rfl | mem
    · rw [List.headD_cons, text] at layout
      cases layout
    · refine h e u ?_ layout text
      rw [rest]
      exact (List.singleton_sublist.2 mem).cons_cons e

/-- Between the cursors begin definitions on these lines, below what is above the first cursor and
above the text that is left. -/
structure Defines (c : Cursor) (lines : List Int) (c' : Cursor) : Prop where
  moves : c'.rest <:+ c.rest
  below : ∀ line, c.Past line → ∀ first ∈ lines, line < first
  sorted : lines.Pairwise (· < ·)
  past : ∀ first ∈ lines, c'.Past first

namespace Defines

theorem none (moves : c'.rest <:+ c.rest) : c.Defines [] c' := ⟨moves, nofun, .nil, nofun⟩

theorem append (h : c.Defines a c') (h' : c'.Defines b c'') : c.Defines (a ++ b) c'' where
  moves := h'.moves.trans h.moves
  below line past first mem := by
    rcases List.mem_append.1 mem with mem | mem
    · exact h.below line past first mem
    · exact h'.below line (past.mono h.moves) first mem
  sorted := List.pairwise_append.2
    ⟨h.sorted, h'.sorted, fun line mem => h'.below line (h.past line mem)⟩
  past first mem := by
    rcases List.mem_append.1 mem with mem | mem
    · exact (h.past first mem).mono h'.moves
    · exact h'.past first mem

theorem forward (h : c.Defines a c') (moves : c''.rest <:+ c'.rest) : c.Defines a c'' := by
  have all := h.append (none moves)
  rwa [List.append_nil] at all

end Defines

/-- As `Defines`, within one more definition that begins on the given line. -/
structure Opens (c : Cursor) (lines : List Int) (line : Int) (c' : Cursor) : Prop where
  before : c.Defines lines c'
  below : ∀ l, c.Past l → l < line
  last : ∀ l ∈ lines, l < line
  on : c'.On line

namespace Opens

theorem start (broken : LayoutBreaks c.rest) (h : c.Defines a c') (text : c'.peek.isLayout = false) :
    c.Opens a c'.peek.position.line c'.advance := by
  have inner : c'.peek.kind ≠ .endMarker := by
    intro marker
    rw [Token.isLayout, marker] at text
    cases text
  have rest := (advance_eq inner).1
  have mem : c'.peek ∈ c'.rest := by rw [rest]; exact .head _
  have moves : c'.advance.rest <:+ c'.rest := by
    conv_rhs => rw [rest]
    exact List.suffix_cons _ _
  refine ⟨h.forward moves, fun l past => past.mono h.moves _ mem text,
    fun l found => h.past l found _ mem text, fun e u within layout text' => ?_⟩
  refine broken c'.peek e u (List.Sublist.trans ?_ h.moves.sublist) text layout text'
  rw [rest]
  exact within.cons_cons _

theorem forward {line : Int} (h : c.Opens a line c') (moves : c''.rest <:+ c'.rest) :
    c.Opens a line c'' :=
  ⟨h.before.forward moves, h.below, h.last, h.on.mono moves⟩

theorem close (h : c.Opens a line c') (body : c'.Defines b c'') (past : c''.Past line)
    (within : ∀ first ∈ b, line < first) : c.Defines (a ++ line :: b) c'' where
  moves := body.moves.trans h.before.moves
  below l above first mem := by
    rcases List.mem_append.1 mem with mem | mem
    · exact h.before.below l above first mem
    rcases List.mem_cons.1 mem with rfl | mem
    · exact h.below l above
    · exact body.below l (above.mono h.before.moves) first mem
  sorted := by
    refine List.pairwise_append.2 ⟨h.before.sorted, .cons within body.sorted, fun l mem first mem' => ?_⟩
    rcases List.mem_cons.1 mem' with rfl | mem'
    · exact h.last l mem
    · exact body.below l (h.before.past l mem) first mem'
  past first mem := by
    rcases List.mem_append.1 mem with mem | mem
    · exact (h.before.past first mem).mono body.moves
    rcases List.mem_cons.1 mem with rfl | mem
    · exact past
    · exact body.past first mem

end Opens

end Cursor

namespace Parser

open Cursor

variable {α β : Type} {P : Cursor → Prop} {p q : Parser α} {Q : α → Cursor → Prop}
  {R : β → Cursor → Prop}

/-! ## Rules for parsers -/

/-- From cursors where `P` holds, successes end where `Q` holds of the value. -/
def Ensures (P : Cursor → Prop) (p : Parser α) (Q : α → Cursor → Prop) : Prop :=
  ∀ c x c', P c → p c = .ok (x, c') → Q x c'

namespace Ensures

theorem weaken {P' : Cursor → Prop} (h : Ensures P p Q) (known : ∀ c, P' c → P c) :
    Ensures P' p Q :=
  fun c x c' holds eq => h c x c' (known c holds) eq

theorem pure {x : α} (h : ∀ c, P c → Q x c) : Ensures P (Pure.pure x) Q := by
  intro c y c' holds eq
  obtain ⟨rfl, rfl⟩ := pure_ok.1 eq
  exact h c holds

theorem fail {fault : SyntaxFault} : Ensures P (Parser.fail fault) Q :=
  fun _ _ _ _ eq => (fail_ok.1 eq).elim

theorem bind {f : α → Parser β} (first : Ensures P p Q) (second : ∀ x, Ensures (Q x) (f x) R) :
    Ensures P (p >>= f) R := by
  intro c y c' holds eq
  obtain ⟨x, c₁, eq₁, eq₂⟩ := bind_ok.1 eq
  exact second x c₁ y c' (first c x c₁ holds eq₁) eq₂

theorem ite {b : Prop} [Decidable b] (yes : b → Ensures P p Q) (no : ¬b → Ensures P q Q) :
    Ensures P (if b then p else q) Q := by
  split
  · next h => exact yes h
  · next h => exact no h

theorem look {f : Token → Parser β} (h : ∀ t, Ensures (fun c => P c ∧ c.peek = t) (f t) R) :
    Ensures P (peek >>= f) R := by
  intro c y c' holds eq
  obtain ⟨_, _, seen, eq⟩ := bind_ok.1 eq
  obtain ⟨rfl, rfl⟩ := peek_ok.1 seen
  exact h c.peek c y c' ⟨holds, rfl⟩ eq

theorem ifTest {t : Cursor → Bool} (yes : Ensures (fun c => P c ∧ t c = true) p Q)
    (no : Ensures P q Q) : Ensures P (do if ← test t then p else q) Q := by
  intro c x c' holds eq
  simp only [bind_ok, test_ok, ite_ok] at eq
  obtain ⟨b, _, ⟨rfl, rfl⟩, ⟨tested, eq⟩ | ⟨-, eq⟩⟩ := eq
  · exact yes c x c' ⟨holds, tested⟩ eq
  · exact no c x c' holds eq

end Ensures

def Kept (P : Cursor → Prop) : Prop := ∀ c c' : Cursor, P c → c'.rest <:+ c.rest → P c'

theorem moves_of_tracks {V : α → α → Prop} (h : ∀ n, Tracks n 0 V p p) {c c' : Cursor} {x : α}
    (eq : p c = .ok (x, c')) : c'.rest <:+ c.rest := by
  have alone := h (c.left + 1) c c trivial (.refl c) (Nat.lt_succ_self _)
  rw [eq] at alone
  cases alone with
  | ok _ _ moves => exact moves.rest

theorem Kept.skip {V : α → α → Prop} {f : α → Parser β} (kept : Kept P) (h : ∀ n, Tracks n 0 V p p)
    (rest : ∀ x, Ensures P (f x) R) : Ensures P (p >>= f) R :=
  Ensures.bind (fun c _ c' holds eq => kept c c' holds (moves_of_tracks h eq)) rest

theorem kept_defines {c₀ : Cursor} {lines : List Int} : Kept (c₀.Defines lines) :=
  fun _ _ => Defines.forward

theorem kept_opens {c₀ : Cursor} {lines : List Int} {line : Int} : Kept (c₀.Opens lines line) :=
  fun _ _ => Opens.forward

theorem ensures_many {c₀ : Cursor} {lines : List Int} {start : Cursor → Bool} {item : Parser α}
    {f : α → List Int}
    (each : ∀ lines, Ensures (c₀.Defines lines) item fun x => c₀.Defines (lines ++ f x)) :
    Ensures (c₀.Defines lines) (many start item) fun xs => c₀.Defines (lines ++ xs.flatMap f) := by
  have loop (bound : Nat) : ∀ lines, Ensures (c₀.Defines lines)
      (manyLoop (fun c => if start c then some () else none) (fun _ => item) bound)
      fun xs => c₀.Defines (lines ++ xs.flatMap f) := by
    induction bound with
    | zero => exact fun _ => .fail
    | succ bound ih =>
      intro lines c xs c' holds eq
      unfold manyLoop at eq
      split at eq
      · have more := (each lines).bind (R := fun xs => c₀.Defines (lines ++ xs.flatMap f)) fun x =>
          (ih (lines ++ f x)).bind fun xs => .pure (x := x :: xs) fun c holds => by
            rwa [List.flatMap_cons, ← List.append_assoc]
        exact more c xs c' holds eq
      · obtain ⟨rfl, rfl⟩ := Prod.mk.inj (Except.ok.inj eq)
        simpa using holds
  exact fun c xs c' holds eq => loop (c.left + 1) lines c xs c' holds eq

/-! ## Statements -/

/-- The block ends its line: text behind it and definitions within it begin below. -/
def Settles (block : Parser Block) : Prop := ∀ c b c', LayoutBreaks c.rest → block c = .ok (b, c') →
  c.Defines b.starts c' ∧
    ∀ line, c.On line → c'.Past line ∧ ∀ first ∈ b.starts, line < first

section Statements

variable {block : Parser Block} (settles : Settles block) {c₀ : Cursor}
  (broken : LayoutBreaks c₀.rest) {lines : List Int}

theorem ensures_finish {start : Token} {form : StmtForm Stmt} {all : List Int}
    (compound : form.body? = none) (same : all = lines ++ form.blocks.flatMap Block.starts) :
    Ensures (c₀.Defines all) (finish start form) fun s => c₀.Defines (lines ++ Block.starts [s]) := by
  intro c s c' holds eq
  obtain ⟨rfl, rfl⟩ := finish_ok.1 eq
  rw [Block.starts_singleton, Stmt.form, StmtForm.starts_eq_blocks compound, ← same]
  exact holds

theorem ensures_simpleLine : Ensures (c₀.Defines lines) simpleLine
    fun b => c₀.Defines (lines ++ b.starts) := by
  intro c b c' holds eq
  rw [Block.starts_simple (yields_simpleLine c b c' eq), List.append_nil]
  exact holds.forward (moves_of_tracks (fun _ => tracks_simpleLine.loose) eq)

theorem layout_of_endStatement {c c' : Cursor} {u : Unit} (h : endStatement c = .ok (u, c')) :
    c.peek.isLayout = true := by
  have layout {kind : TokenKind} (at_ : c.atKind kind = true) (isLayout : kind.isLayout = true) :
      c.peek.isLayout = true := by
    rw [Token.isLayout, eq_of_beq at_, isLayout]
  simp only [endStatement, bind_ok, ite_ok, pure_ok, test_ok, fail_ok, and_false, or_false] at h
  obtain ⟨b, c₁, accepted, ⟨rfl, -⟩ | ⟨refused, _, _, ⟨rfl, -⟩, atEnd, -⟩⟩ := h
  · exact layout (accept_ok.1 accepted).1 rfl
  · obtain rfl := Bool.eq_false_iff.2 refused
    obtain rfl := eq_of_refused accepted
    exact layout atEnd rfl

theorem past_simpleLine {c c' : Cursor} {b : Block} {line : Int} (on : c.On line)
    (eq : simpleLine c = .ok (b, c')) : c'.Past line := by
  simp only [simpleLine, bind_ok, pure_ok] at eq
  obtain ⟨first, c₁, eq₁, others, c₂, eq₂, _, c₃, eq₃, -, rfl⟩ := eq
  have on₁ := on.mono (moves_of_tracks (fun _ => tracks_simpleStatement.loose) eq₁)
  have on₂ := on₁.mono (moves_of_tracks
    (fun _ => tracks_separatedTail steady_atLineEnd tracks_simpleStatement.loose) eq₂)
  exact (on₂.past (layout_of_endStatement eq₃)).mono
    (moves_of_tracks (fun _ => tracks_endStatement) eq₃)

include settles broken

theorem ensures_block : Ensures (c₀.Defines lines) block fun b => c₀.Defines (lines ++ b.starts) :=
  fun c b c' holds eq =>
    holds.append (settles c b c' (broken.mono holds.moves.sublist) eq).1

theorem ensures_body {line : Int} : Ensures (c₀.Opens lines line) block
    fun b => c₀.Defines (lines ++ line :: b.starts) := by
  intro c b c' opens eq
  obtain ⟨defines, ends⟩ := settles c b c' (broken.mono opens.before.moves.sublist) eq
  exact opens.close defines (ends line opens.on).1 (ends line opens.on).2

theorem ensures_blockAfter (keyword : Bytes) : Ensures (c₀.Defines lines) (blockAfter block keyword)
    fun b => c₀.Defines (lines ++ b.starts) :=
  kept_defines.skip (fun _ => tracks_acceptKeyword) fun _ =>
    .ite (fun _ => ensures_block settles broken) fun _ => .pure fun c holds => by simpa using holds

theorem ensures_branch : Ensures (c₀.Defines lines) (branch block)
    fun x => c₀.Defines (lines ++ x.2.2.starts) := by
  refine kept_defines.skip (fun _ => tracks_advance?) fun start => ?_
  refine kept_defines.skip (fun _ => (tracks_parse _).loose) fun test => ?_
  exact (ensures_block settles broken).bind fun body => .pure fun _ => id

theorem ensures_conditionChain : Ensures (c₀.Defines lines) (conditionChain block)
    fun s => c₀.Defines (lines ++ Block.starts [s]) := by
  refine (ensures_branch settles broken).bind ?_
  rintro ⟨line, test, body⟩
  refine (ensures_many fun _ => ensures_branch settles broken).bind fun elifs => ?_
  refine (ensures_blockAfter settles broken _).bind fun orelse => ?_
  refine kept_defines.skip (fun _ => tracks_lastLine) fun last => .pure fun c holds => ?_
  rw [Block.starts_cond, Block.starts_foldr (·.2.2.starts) fun _ _ => Block.starts_cond]
  simpa only [List.append_assoc] using holds

theorem ensures_whileStatement {start : Token} : Ensures (c₀.Defines lines)
    (whileStatement block start) fun s => c₀.Defines (lines ++ Block.starts [s]) := by
  refine kept_defines.skip (fun _ => tracks_expectKeyword.loose) fun _ => ?_
  refine kept_defines.skip (fun _ => (tracks_parse _).loose) fun test => ?_
  refine (ensures_block settles broken).bind fun body => ?_
  refine (ensures_blockAfter settles broken _).bind fun orelse => ensures_finish rfl ?_
  simp [StmtForm.blocks]

theorem ensures_forStatement (isAsync : Bool) : Ensures (c₀.Defines lines)
    (forStatement block isAsync) fun s => c₀.Defines (lines ++ Block.starts [s]) := by
  refine kept_defines.skip (fun _ => tracks_expectKeyword.loose) fun start => ?_
  refine kept_defines.skip (fun _ => (tracks_targetList tracks_parse).loose) fun target => ?_
  refine kept_defines.skip (fun _ => tracks_checkTarget (.refl target)) fun _ => ?_
  refine kept_defines.skip (fun _ => tracks_expectKeyword.loose) fun _ => ?_
  refine kept_defines.skip (fun _ => (tracks_parse _).loose) fun iterable => ?_
  refine (ensures_block settles broken).bind fun body => ?_
  refine (ensures_blockAfter settles broken _).bind fun orelse => ensures_finish rfl ?_
  simp [StmtForm.blocks]

theorem ensures_handler : Ensures (c₀.Defines lines) (handler block)
    fun h => c₀.Defines (lines ++ Block.starts h.1.body) := by
  refine kept_defines.skip (fun _ => tracks_advance?) fun start => ?_
  refine kept_defines.skip (fun _ => tracks_acceptOperator) fun isStar => ?_
  have caught (x : Option Expr × Option Bytes) : Ensures (c₀.Defines lines)
      (do
        let body ← block
        let last ← lastLine
        pure (({ type := x.1, name := x.2, body, lines := ⟨start.position.line, last⟩ } : Handler Stmt),
          isStar))
      fun h => c₀.Defines (lines ++ Block.starts h.1.body) :=
    (ensures_block settles broken).bind fun body =>
      kept_defines.skip (fun _ => tracks_lastLine) fun last => .pure fun _ => id
  refine kept_defines.skip (fun _ => tracks_test (steady_atOperator _)) fun bare => .ite ?_ ?_
  · exact fun _ => kept_defines.skip (fun _ => tracks_pure rfl) caught
  · refine fun _ => kept_defines.skip (fun _ => (tracks_parse _).loose) fun type => ?_
    refine kept_defines.skip (fun _ => tracks_nameAfter _) fun name => ?_
    exact kept_defines.skip (fun _ => tracks_pure rfl) caught

theorem ensures_tryStatement : Ensures (c₀.Defines lines) (tryStatement block)
    fun s => c₀.Defines (lines ++ Block.starts [s]) := by
  refine kept_defines.skip (fun _ => tracks_expectKeyword.loose) fun start => ?_
  refine (ensures_block settles broken).bind fun body => ?_
  refine (ensures_many fun _ => ensures_handler settles broken).bind fun handlers => ?_
  have ending (orelse : Block) : Ensures
      (c₀.Defines (lines ++ body.starts ++ handlers.flatMap (Block.starts ·.1.body) ++ orelse.starts))
      (tryEnd block start body handlers orelse) fun s => c₀.Defines (lines ++ Block.starts [s]) := by
    refine (ensures_blockAfter settles broken _).bind fun finalBody => .ite (fun _ => .fail) fun _ => ?_
    refine ensures_finish rfl ?_
    simp [StmtForm.blocks, List.flatMap_map]
  refine .ite (fun _ => ?_) fun _ => (ensures_blockAfter settles broken _).bind ending
  exact (Ensures.pure (x := []) fun c holds => by simpa using holds).bind ending

theorem ensures_withStatement (isAsync : Bool) : Ensures (c₀.Defines lines)
    (withStatement block isAsync) fun s => c₀.Defines (lines ++ Block.starts [s]) := by
  refine kept_defines.skip (fun _ => tracks_expectKeyword.loose) fun start => ?_
  have body (items : List WithItem) : Ensures (c₀.Defines lines)
      (do let body ← block; finish start (.withItems items body isAsync))
      fun s => c₀.Defines (lines ++ Block.starts [s]) :=
    (ensures_block settles broken).bind fun body =>
      ensures_finish rfl (by simp [StmtForm.blocks])
  refine kept_defines.skip (fun _ => tracks_accept solid_atGroupedItems.steady) fun _ => .ite ?_ ?_
  · refine fun _ => kept_defines.skip
      (fun _ => tracks_commaList (steady_atOperator _) tracks_withItem.loose) fun items => ?_
    refine kept_defines.skip (fun _ => tracks_expectOperator.loose) fun _ => ?_
    exact kept_defines.skip (fun _ => tracks_pure rfl) body
  · exact fun _ => kept_defines.skip (fun _ => (tracks_commaSeparated tracks_withItem).loose) body

theorem ensures_matchCase : Ensures (c₀.Defines lines) (matchCase block)
    fun case => c₀.Defines (lines ++ Block.starts case.body) := by
  refine kept_defines.skip (fun _ => tracks_peek) fun start => .ite (fun _ => ?_) fun _ => .fail
  refine kept_defines.skip (fun _ => tracks_advance?) fun _ => ?_
  refine kept_defines.skip (fun _ => tracks_casePattern.loose) fun pattern => ?_
  have ending (guard : Option Expr) : Ensures (c₀.Defines lines)
      (do
        let body ← block
        let last ← lastLine
        pure ({ pattern, guard, body, lines := ⟨start.position.line, last⟩ } : MatchCase Stmt))
      fun case => c₀.Defines (lines ++ Block.starts case.body) :=
    (ensures_block settles broken).bind fun body =>
      kept_defines.skip (fun _ => tracks_lastLine) fun last => .pure fun _ => id
  refine kept_defines.skip (fun _ => tracks_acceptKeyword) fun _ => .ite (fun _ => ?_) fun _ => ?_
  · exact kept_defines.skip
      (fun _ => (tracks_parse _).loose.map (W := Any) fun _ _ _ => trivial) ending
  · exact kept_defines.skip (fun _ => tracks_pure rfl) ending

theorem ensures_matchStatement : Ensures (c₀.Defines lines) (matchStatement block)
    fun s => c₀.Defines (lines ++ Block.starts [s]) := by
  refine kept_defines.skip (fun _ => tracks_advance?) fun start => ?_
  refine kept_defines.skip (fun _ => (tracks_parse _).loose) fun subject => ?_
  refine kept_defines.skip (fun _ => tracks_expectOperator.loose) fun _ => ?_
  refine kept_defines.skip (fun _ => tracks_test (steady_atKind _)) fun _ =>
    .ite (fun _ => .fail) fun _ => ?_
  refine kept_defines.skip (fun _ => tracks_expectIndent) fun _ => ?_
  refine (ensures_many fun _ => ensures_matchCase settles broken).bind fun cases =>
    .ite (fun _ => .fail) fun _ => ?_
  refine kept_defines.skip (fun _ => tracks_accept (steady_atKind _)) fun _ => ensures_finish rfl ?_
  simp [StmtForm.blocks, List.flatMap_map]

omit settles in
theorem opens_keyword {c : Cursor} {text : Bytes} (h : c₀.Defines lines c)
    (atKeyword : c.atKeyword text = true) : c₀.Opens lines c.peek.position.line c.advance :=
  .start broken h (c.peek.not_isLayout_of_isKeyword atKeyword)

omit settles in
theorem opens_expectKeyword {start : Token} {text : Bytes} :
    Ensures (fun c => c₀.Defines lines c ∧ c.peek = start) (expectKeyword text)
      fun _ => c₀.Opens lines start.position.line := by
  rintro c t c' ⟨defines, rfl⟩ eq
  simp only [expectKeyword, bind_ok, test_ok, ite_ok, advance_ok, fail_ok, and_false, or_false] at eq
  obtain ⟨_, _, ⟨rfl, rfl⟩, atKeyword, rfl, rfl⟩ := eq
  exact opens_keyword broken defines atKeyword

theorem ensures_bodyWithTokens {line : Int} : Ensures (c₀.Opens lines line) (bodyWithTokens block)
    fun x => c₀.Defines (lines ++ line :: x.1.starts) := by
  intro c x c' opens eq
  unfold bodyWithTokens at eq
  split at eq
  · next body after read =>
    cases eq
    exact ensures_body settles broken c body c' opens read
  · cases eq

omit settles broken in
theorem ensures_linesFrom {line : Int} : Ensures P (linesFrom line)
    fun range c => line = range.first ∧ P c := by
  intro c range c' holds eq
  obtain ⟨rfl, rfl⟩ := linesFrom_ok.1 eq
  exact ⟨rfl, holds⟩

theorem ensures_functionDef {decorators : List Expr} {isAsync : Bool} {start : Token}
    (first : Ensures P (expectKeyword "def") fun _ => c₀.Opens lines start.position.line) :
    Ensures P (functionDef block decorators isAsync start)
      fun s => c₀.Defines (lines ++ Block.starts [s]) := by
  refine first.bind fun _ => kept_opens.skip (fun _ => tracks_expectName.loose) fun name => ?_
  refine kept_opens.skip (fun _ => tracks_expectOperator.loose) fun _ => ?_
  refine kept_opens.skip (fun _ => tracks_parameters tracks_parse _ _) fun parameters => ?_
  refine kept_opens.skip (fun _ => tracks_expectOperator.loose) fun _ => ?_
  refine kept_opens.skip (fun _ => tracks_acceptOperator) fun _ => ?_
  refine .ite (fun _ => kept_opens.skip
    (fun _ => (tracks_parse _).loose.map (W := Any) fun _ _ _ => trivial) ?_)
    fun _ => kept_opens.skip (fun _ => tracks_pure rfl) ?_
  -- with or without a return type, the same parser is left
  all_goals
    intro returns
    refine (ensures_bodyWithTokens settles broken).bind ?_
    rintro ⟨body, bodyTokens⟩
    refine ensures_linesFrom.bind fun range => .pure ?_
    rintro c ⟨same, holds⟩
    rw [Block.starts_singleton]
    simpa [same, Stmt.form, StmtForm.starts, StmtForm.start?, StmtForm.blocks, StmtForm.body?]
      using holds

theorem ensures_classDef {decorators : List Expr} {start : Token} :
    Ensures (fun c => c₀.Defines lines c ∧ c.peek = start) (classDef block decorators start)
      fun s => c₀.Defines (lines ++ Block.starts [s]) := by
  refine (opens_expectKeyword broken).bind fun _ => ?_
  refine kept_opens.skip (fun _ => tracks_expectName.loose) fun name => ?_
  have ending (x : List Expr × List (Keyword Expr)) : Ensures (c₀.Opens lines start.position.line)
      (classEnd block decorators start name x.1 x.2)
      fun s => c₀.Defines (lines ++ Block.starts [s]) := by
    refine (ensures_body settles broken).bind fun body => ?_
    refine ensures_linesFrom.bind fun range => .pure ?_
    rintro c ⟨same, holds⟩
    rw [Block.starts_singleton]
    simpa [same, Stmt.form, StmtForm.starts, StmtForm.start?, StmtForm.blocks, StmtForm.body?] using holds
  refine kept_opens.skip (fun _ => tracks_acceptOperator) fun _ => .ite (fun _ => ?_) fun _ => ?_
  · exact kept_opens.skip (fun _ => (tracks_arguments tracks_parse).loose) ending
  · exact kept_opens.skip (fun _ => tracks_pure rfl) ending

theorem ensures_decorated : Ensures (c₀.Defines lines) (decorated block)
    fun s => c₀.Defines (lines ++ Block.starts [s]) := by
  have decorator (n : Nat) : Tracks n 1 Any
      (do let _ ← advance; let decorator ← Rule.named.parse; endStatement; pure decorator)
      (do let _ ← advance; let decorator ← Rule.named.parse; endStatement; pure decorator) :=
    tracks_advance?.before fun _ _ _ => (tracks_parse _).bind fun _ _ _ =>
      tracks_endStatement.bind fun _ _ _ => tracks_pure trivial
  refine kept_defines.skip
    (fun n => tracks_many (steady_atOperator _) (decorator n).always) fun decorators => ?_
  refine .look fun start => .ifTest ?_ (fun c s c' known eq => ?_)
  · exact ensures_functionDef settles broken
      ((opens_expectKeyword broken).weaken fun c known => known.1)
  simp only [bind_ok, ite_ok, test_ok, fail_ok, and_false, or_false] at eq
  obtain ⟨b, c₁, accepted, ⟨rfl, eq⟩ | ⟨refused, _, _, ⟨-, rfl⟩, -, eq⟩⟩ := eq
  · obtain ⟨atAsync, rfl⟩ := accept_ok.1 accepted
    have opens := opens_keyword broken known.1 (Bool.and_eq_true_iff.1 atAsync).1
    rw [known.2] at opens
    refine ensures_functionDef settles broken ?_ _ s c' opens eq
    exact fun c _ c' opens eq => opens.forward (moves_of_tracks (fun _ => tracks_expectKeyword.loose) eq)
  · obtain rfl := Bool.eq_false_iff.2 refused
    obtain rfl := eq_of_refused accepted
    exact ensures_classDef settles broken _ s c' known eq

theorem ensures_asyncStatement : Ensures (fun c => c₀.Defines lines c ∧ c.atKeyword "async" = true)
    (asyncStatement block) fun s => c₀.Defines (lines ++ Block.starts [s]) := by
  have first : Ensures (fun c => c₀.Defines lines c ∧ c.atKeyword "async" = true) advance
      fun start => c₀.Opens lines start.position.line := by
    rintro c t c' ⟨defines, atAsync⟩ eq
    obtain ⟨rfl, rfl⟩ := advance_ok.1 eq
    exact opens_keyword broken defines atAsync
  refine first.bind fun start => .ifTest ?_ (.ifTest ?_ (.ifTest ?_ .fail))
  · refine ensures_functionDef settles broken fun c _ c' known eq => ?_
    exact known.1.forward (moves_of_tracks (fun _ => tracks_expectKeyword.loose) eq)
  · exact (ensures_forStatement settles broken true).weaken fun c known => known.1.before
  · exact (ensures_withStatement settles broken true).weaken fun c known => known.1.before

theorem ensures_statement : Ensures (c₀.Defines lines) (statement block)
    fun b => c₀.Defines (lines ++ b.starts) := by
  have one {P : Cursor → Prop} {p : Parser Stmt}
      (h : Ensures P p fun s => c₀.Defines (lines ++ Block.starts [s])) :
      Ensures P (statement.one p) fun b => c₀.Defines (lines ++ b.starts) :=
    h.bind fun s => .pure fun _ => id
  have plain {p : Parser Stmt} {start : Token}
      (h : Ensures (c₀.Defines lines) p fun s => c₀.Defines (lines ++ Block.starts [s])) :
      Ensures (fun c => c₀.Defines lines c ∧ c.peek = start) (statement.one p)
        fun b => c₀.Defines (lines ++ b.starts) :=
    one (h.weaken fun _ known => known.1)
  refine .look fun start => ?_
  refine .ite (fun _ => plain (ensures_conditionChain settles broken)) fun _ => ?_
  refine .ite (fun _ => plain (ensures_whileStatement settles broken)) fun _ => ?_
  refine .ite (fun _ => plain (ensures_forStatement settles broken false)) fun _ => ?_
  refine .ite (fun _ => plain (ensures_tryStatement settles broken)) fun _ => ?_
  refine .ite (fun _ => plain (ensures_withStatement settles broken false)) fun _ => ?_
  refine .ite (fun _ => one (ensures_functionDef settles broken (opens_expectKeyword broken))) fun _ => ?_
  refine .ite (fun _ => one (ensures_classDef settles broken)) fun _ => ?_
  refine .ite (fun isAsync => one ((ensures_asyncStatement settles broken).weaken ?_)) fun _ => ?_
  · rintro c ⟨defines, rfl⟩
    exact ⟨defines, isAsync⟩
  refine .ite (fun _ => plain (ensures_decorated settles broken)) fun _ => .ifTest ?_ ?_
  · exact one ((ensures_matchStatement settles broken).weaken fun _ known => known.1.1)
  · exact ensures_simpleLine.weaken fun _ known => known.1

theorem ensures_unindented : Ensures (c₀.Defines lines) (unindented block)
    fun b => c₀.Defines (lines ++ b.starts) :=
  .ifTest .fail (ensures_statement settles broken)

omit broken in
theorem settles_blockBody : Settles (blockBody block) := by
  intro c b c' broken eq
  simp only [blockBody, bind_ok, test_ok, ite_ok, pure_ok] at eq
  obtain ⟨colon, c₁, eq₁, b, _, ⟨isLineEnd, rfl⟩, eq⟩ := eq
  have moves₁ := moves_of_tracks (fun _ => tracks_expectOperator.loose) eq₁
  rcases eq with ⟨-, eq⟩ | ⟨lineEnd, _, c₂, eq₂, bs, c₃, eq₃, _, c₄, eq₄, rfl, rfl⟩
  · have none := Block.starts_simple (yields_simpleLine c₁ _ c' eq)
    have moves₂ := moves_of_tracks (fun _ => tracks_simpleLine.loose) eq
    rw [none]
    refine ⟨.none (moves₂.trans moves₁), fun line on => ⟨past_simpleLine (on.mono moves₁) eq, ?_⟩⟩
    exact List.forall_mem_nil _
  have layout : c₁.peek.isLayout = true := by
    have newline : c₁.atKind .newline = true := by
      rw [isLineEnd]
      simpa using lineEnd
    rw [Token.isLayout, eq_of_beq newline]
    rfl
  have moves₂ := moves_of_tracks (fun _ => tracks_expectIndent) eq₂
  have moves₄ := moves_of_tracks (fun _ => tracks_accept (steady_atKind _)) eq₄
  have defines : c₂.Defines (bs.flatMap Block.starts) c₃ := ensures_many
    (fun _ => ensures_unindented settles (broken.mono (moves₂.trans moves₁).sublist))
    c₂ bs c₃ (.none List.suffix_rfl) eq₃
  rw [← Block.starts_flatten] at defines
  refine ⟨((Defines.none (moves₂.trans moves₁)).append defines).forward moves₄, fun line on => ?_⟩
  have past := ((on.mono moves₁).past layout).mono moves₂
  exact ⟨past.mono (moves₄.trans defines.moves), defines.below line past⟩

end Statements

theorem settles_blockWithin (bound : Nat) : Settles (blockWithin bound) := by
  induction bound with
  | zero => exact fun _ _ _ _ eq => (fail_ok.1 eq).elim
  | succ bound ih => exact settles_blockBody ih

theorem settles_block : Settles block :=
  fun c b c' broken eq => settles_blockWithin (c.left + 1) c b c' broken eq

theorem defines_moduleBody {c c' : Cursor} {b : Block} (broken : LayoutBreaks c.rest)
    (eq : moduleBody block c = .ok (b, c')) : c.Defines b.starts c' := by
  have line (lines : List Int) : Ensures (c.Defines lines)
      (do if ← accept atFiller then pure [] else unindented block)
      fun b => c.Defines (lines ++ Block.starts b) :=
    kept_defines.skip (fun _ => tracks_accept solid_atFiller.steady) fun _ =>
      .ite (fun _ => .pure fun c holds => by simpa using holds)
        fun _ => ensures_unindented settles_block broken
  have all : Ensures (c.Defines []) (moduleBody block) fun b => c.Defines b.starts :=
    (ensures_many line).bind fun bs => .pure fun c holds => by
      rwa [Block.starts_flatten]
  exact all c b c' (.none List.suffix_rfl) eq

end Parser

theorem parseModule_starts {source : Bytes} {b : Block} (h : parseModule source = .ok b) :
    b.starts.Pairwise (· < ·) := by
  obtain ⟨tokens, lexed, parsed⟩ := parseModule_ok h
  obtain ⟨c', parsed⟩ := parseTokens_ok parsed
  have broken := (Lexer.tokenize_breaks lexed).mono (Cursor.ofTokens_prefix tokens).sublist
  exact (Parser.defines_moduleBody broken parsed).sorted

end CodeSmell
