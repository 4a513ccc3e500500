import CodeSmell.Proofs.Grammar.Spelling
import CodeSmell.Proofs.Parser.Module

/-!
The leaves of a tree are the leaves of its text: `leaves_conserved` says that the names, numbers and
strings of a module are those of its tokens, each once.
-/

namespace CodeSmell

namespace Expr

def number? (e : Expr) : Option Bytes :=
  match e.form with
  | .number _ text _ => some text
  | _ => none

end Expr

def Bytes.counted (name : Bytes) : List Bytes := name.components.filter fun part => part != "*"

def nameCount : Weight (Multiset Bytes) where
  number _ := 0
  keyword _ := 0
  silent _ _ := rfl
  name text := ↑text.counted
  parts text := by
    have own : ∀ part ∈ text.components, (↑part.counted : Multiset Bytes) =
        ↑([part].filter fun part => part != Bytes.ofString "*") := by
      intro part mem
      rw [Bytes.counted, Bytes.components_of_mem mem]
    rw [List.map_congr_left own, ← coe_flatMap, ← List.filter_flatMap]
    simp [Bytes.counted]
  star := by decide

def numberCount : Weight (Multiset Bytes) where
  number e := ↑e.number?.toList
  keyword _ := 0
  silent _ _ := rfl

variable {M : Type} [AddCommMonoid M] {w : Weight M}

theorem Weight.form_of_silent (silent : ∀ word, w.keyword word = 0) (form : StmtForm Stmt) :
    w.form form = 0 := by
  cases form with
  | matchOn subject cases =>
    have guard (c : MatchCase Stmt) : w.guard c = 0 := by simp [Weight.guard, silent]
    simp [Weight.form, funext guard]
  | _ => simp [Weight.form, silent]

theorem Weight.block_of_silent (silent : ∀ word, w.keyword word = 0) (b : Block) :
    w.block b = w.named (b.softKeywords ++ b.names) + (b.nodes.map w.expr).sum := by
  have forms : (b.deep.map fun s => w.form s.form).sum = 0 := by
    simp [Weight.form_of_silent silent]
  rw [w.block_eq, forms, zero_add]

theorem Weight.expr_of_silent (silent : ∀ word, w.keyword word = 0) (e : Expr)
    (other : e.number? = none) : w.expr e = 0 := by
  have clause (c : Clause Expr) : w.clause c = 0 := by simp [Weight.clause, silent]
  obtain ⟨p, f⟩ := e
  cases f with
  | number => cases other
  | _ => simp [Weight.expr, Expr.form, silent, funext clause]

theorem nameCount_expr (e : Expr) : nameCount.expr e = 0 := by
  cases number : e.number? with
  | none => exact Weight.expr_of_silent (fun _ => rfl) e number
  | some text =>
    obtain ⟨p, f⟩ := e
    cases f <;> cases number
    rfl

theorem numberCount_expr (e : Expr) : numberCount.expr e = ↑e.number?.toList := by
  cases number : e.number? with
  | none => exact Weight.expr_of_silent (fun _ => rfl) e number
  | some text =>
    obtain ⟨p, f⟩ := e
    cases f <;> cases number
    rfl

theorem nameCount_name {name : Bytes} (plain : name.components = [name]) (star : name ≠ "*") :
    nameCount.name name = {name} := by
  change (↑name.counted : Multiset Bytes) = _
  rw [Bytes.counted, plain, List.filter_cons_of_pos (by simpa using star)]
  rfl

theorem nameCount_named {names : List Bytes} (h : ∀ n ∈ names, nameCount.name n = {n}) :
    nameCount.named names = ↑names := by
  rw [Weight.named, List.map_congr_left h, ← Multiset.sum_coe, ← Multiset.map_coe,
    Multiset.sum_map_singleton]

theorem nameCount_tokens {ts : List Token}
    (h : ∀ t ∈ ts, t.kind = .name → nameCount.name t.text = {t.text}) :
    (ts.map nameCount.token).sum = ↑((ts.filter (·.kind == .name)).map Token.text) := by
  induction ts with
  | nil => rfl
  | cons t ts ih =>
    rw [List.forall_mem_cons] at h
    rw [List.map_cons, List.sum_cons, ih h.2, List.filter_cons]
    cases kind : t.kind
    case name => simp [nameCount.token_name kind, h.1 kind]
    all_goals simp [Weight.token, kind, nameCount]

theorem numberCount_tokens (ts : List Token) :
    (ts.map numberCount.token).sum = ↑((ts.filter (·.kind == .number)).map Token.text) := by
  induction ts with
  | nil => rfl
  | cons t ts ih =>
    rw [List.map_cons, List.sum_cons, ih, List.filter_cons]
    cases kind : t.kind <;>
      simp [Weight.token, kind, numberCount, Token.number, Expr.number?, Expr.form]

theorem StmtForm.mem_softKeywords {form : StmtForm Stmt} {word : Bytes}
    (h : word ∈ form.softKeywords) : word = "match" ∨ word = "case" := by
  cases form with
  | matchOn subject cases =>
    rcases List.mem_cons.1 h with rfl | h
    · exact .inl rfl
    · obtain ⟨-, -, rfl⟩ := List.mem_map.1 h
      exact .inr rfl
  | _ => cases h

theorem Lexer.tokenize_plain {source : Bytes} {tokens : List Token} (h : tokenize source = .ok tokens)
    {t : Token} (mem : t ∈ tokens) (name : t.kind = .name) :
    t.text.components = [t.text] ∧ t.text ≠ "*" := by
  obtain ⟨nonempty, bytes⟩ := tokenize_name h mem name
  constructor
  · refine Bytes.components_plain (fun dot => ?_) nonempty
    exact absurd (bytes _ dot) (by decide)
  · intro star
    rw [star] at bytes
    exact absurd (bytes _ (.head _)) (by decide)

/-- The names of a tree are the names of its text, where `match` and `case` are names as well; its
numbers are the numbers, and its strings the runs of strings. -/
theorem leaves_conserved {source : Bytes} {tokens : List Token} {b : Block}
    (lexed : tokenize source = .ok tokens) (parsed : parseTokens tokens = .ok b) :
    ((tokens.filter (·.kind == .name)).map Token.text).Perm (b.softKeywords ++ b.names) ∧
      ((tokens.filter (·.kind == .number)).map Token.text).Perm (b.nodes.filterMap Expr.number?) ∧
      ((Token.runs tokens).map Token.runNode).Perm (b.nodes.filter Expr.isString) := by
  obtain ⟨inside, marker, rfl, isMarker, text⟩ := Lexer.tokenize_endMarker lexed
  have reading := parseTokens_reading isMarker text parsed
  have spelled : ∀ t ∈ inside, t.kind = .name → nameCount.name t.text = {t.text} := by
    intro t mem name
    obtain ⟨plain, star⟩ := Lexer.tokenize_plain lexed (List.mem_append_left _ mem) name
    exact nameCount_name plain star
  have last : (marker.kind == .name) = false ∧ (marker.kind == .number) = false := by
    rw [isMarker]
    decide
  rw [List.filter_append, List.filter_append, List.filter_singleton, List.filter_singleton, last.1,
    last.2]
  refine ⟨?_, ?_, ?_⟩
  · have known : ∀ n ∈ b.softKeywords ++ b.names, nameCount.name n = {n} := by
      intro n mem
      rcases List.mem_append.1 mem with word | name
      · obtain ⟨s, -, word⟩ := List.mem_flatMap.1 word
        rcases StmtForm.mem_softKeywords word with rfl | rfl
        · exact nameCount_name (by decide) (by decide)
        · exact nameCount_name (by decide) (by decide)
      · obtain ⟨t, inner, isName, same⟩ := reading.names name
        obtain ⟨plain, -⟩ := Lexer.tokenize_plain lexed (List.mem_append_left _ inner) isName
        obtain rfl : n = t.text := by simpa [plain] using same
        exact spelled t inner isName
    have same := reading.weight nameCount
    rw [nameCount_tokens spelled, Weight.block_of_silent fun _ => rfl, nameCount_named known,
      funext nameCount_expr, List.map_const', List.sum_replicate, smul_zero, add_zero] at same
    rw [Bool.cond_false, List.append_nil]
    exact Multiset.coe_eq_coe.1 same
  · have same := reading.weight numberCount
    rw [numberCount_tokens, Weight.block_of_silent fun _ => rfl,
      numberCount.named_of_unnamed fun _ => rfl, zero_add, funext numberCount_expr, ← coe_flatMap,
      ← List.filterMap_eq_flatMap_toList] at same
    rw [Bool.cond_false, List.append_nil]
    exact Multiset.coe_eq_coe.1 same
  · have other : marker.isString = false := by
      rw [Token.isString, isMarker]
      rfl
    have strings := parseTokens_strings isMarker text parsed
    have apart : Token.Apart inside [marker] := by
      intro t _ u first
      rw [← Option.some.inj first, other, Bool.and_false]
    have whole : Token.strings (inside ++ [marker]) = b.strings := by
      rw [Token.strings_append apart, Token.strings_singleton other, strings, add_zero]
    exact Multiset.coe_eq_coe.1 whole

def mixedSource : Bytes :=
  "import os.path as p\nmatch f(k=1):\n    case x.y:\n        'a' 'b'\n"

theorem leaves_conserved_mixed : ∃ tokens b, tokenize mixedSource = .ok tokens ∧
    parseTokens tokens = .ok b ∧ (tokens.filter (·.kind == .name)).map Token.text =
      ["os", "path", "p", "match", "f", "k", "case", "x", "y"] ∧
    ((tokens.filter (·.kind == .name)).map Token.text).Perm (b.softKeywords ++ b.names) ∧
      ((tokens.filter (·.kind == .number)).map Token.text).Perm (b.nodes.filterMap Expr.number?) ∧
      ((Token.runs tokens).map Token.runNode).Perm (b.nodes.filter Expr.isString) := by
  obtain ⟨tokens, lexed, ⟨b, parsed⟩, names⟩ : ∃ tokens, tokenize mixedSource = .ok tokens ∧
      (∃ b, parseTokens tokens = .ok b) ∧ (tokens.filter (·.kind == .name)).map Token.text =
        ["os", "path", "p", "match", "f", "k", "case", "x", "y"] := by
    decide +kernel
  exact ⟨tokens, b, lexed, parsed, names, leaves_conserved lexed parsed⟩

end CodeSmell
