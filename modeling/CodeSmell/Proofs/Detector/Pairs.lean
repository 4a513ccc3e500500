import CodeSmell.Detector.BuiltIn
import CodeSmell.Proofs.Lists
import CodeSmell.Proofs.Model.Definitions

/-!
Pairs of functions that are alike. The functions of a module begin on lines of their own, so that
sorting leaves them in order, and the findings are those of all alike pairs of places `i < j`, in
lexicographic order.
-/

namespace CodeSmell.DuplicatedCode

section Pairs

variable {α β : Type}

theorem pairs_map (f : α → β) (xs : List α) : pairs (xs.map f) = (pairs xs).map (Prod.map f f) := by
  induction xs with
  | nil => rfl
  | cons x xs ih => simp [pairs, ih]

theorem pairs_filter (p : α → Bool) (xs : List α) :
    pairs (xs.filter p) = (pairs xs).filter fun ab => p ab.1 && p ab.2 := by
  induction xs with
  | nil => rfl
  | cons x xs ih =>
    cases keep : p x with
    | false => simp [pairs, keep, ih]
    | true => simp [pairs, keep, ih, List.filter_map, Function.comp_def]

variable [LinearOrder α] {xs : List α}

theorem mem_pairs (sorted : xs.Pairwise (· < ·)) {a b : α} :
    (a, b) ∈ pairs xs ↔ a ∈ xs ∧ b ∈ xs ∧ a < b := by
  induction sorted with
  | nil => simp [pairs]
  | @cons x xs before sorted ih =>
    simp only [pairs, List.mem_append, List.mem_map, Prod.mk.injEq, List.mem_cons, ih]
    constructor
    · rintro (⟨y, mem, rfl, rfl⟩ | ⟨mem, mem', less⟩)
      · exact ⟨.inl rfl, .inr mem, before y mem⟩
      · exact ⟨.inr mem, .inr mem', less⟩
    · rintro ⟨rfl | mem, rfl | mem', less⟩
      · exact absurd less (lt_irrefl _)
      · exact .inl ⟨b, mem', rfl, rfl⟩
      · exact absurd less (before a mem).asymm
      · exact .inr ⟨mem, mem', less⟩

theorem pairs_sorted (sorted : xs.Pairwise (· < ·)) :
    (pairs xs).Pairwise fun p q => toLex p < toLex q := by
  induction sorted with
  | nil => exact .nil
  | @cons x xs before sorted ih =>
    refine List.pairwise_append.2 ⟨List.pairwise_map.2 (sorted.imp fun less => ?_), ih, ?_⟩
    · exact Prod.Lex.toLex_lt_toLex.2 (.inr ⟨rfl, less⟩)
    · rintro p first ⟨a, b⟩ later
      obtain ⟨y, -, rfl⟩ := List.mem_map.1 first
      exact Prod.Lex.toLex_lt_toLex.2 (.inl (before a ((mem_pairs sorted).1 later).1))

end Pairs

def score (f g : FunctionModel) : Similarity :=
  (Signature.ofFunction f.definition).compare (.ofFunction g.definition)

/-- Both functions have statements enough, the lower one lines enough, and they are similar enough. -/
structure Alike (options : DuplicatedCode.Options) (f g : FunctionModel) : Prop where
  tagged : options.minChunkSize ≤ (Block.tags f.definition.body).length
  tagged' : options.minChunkSize ≤ (Block.tags g.definition.body).length
  tall : options.minChunkSize ≤ min f.lines.height g.lines.height
  similar : ¬(score f g).combined < options.minSimilarity

instance (options : DuplicatedCode.Options) (f g : FunctionModel) : Decidable (Alike options f g) :=
  decidable_of_iff
    (options.minChunkSize ≤ (Block.tags f.definition.body).length ∧
      options.minChunkSize ≤ (Block.tags g.definition.body).length ∧
      options.minChunkSize ≤ min f.lines.height g.lines.height ∧
      ¬(score f g).combined < options.minSimilarity)
    ⟨fun ⟨tagged, tagged', tall, similar⟩ => ⟨tagged, tagged', tall, similar⟩,
      fun ⟨tagged, tagged', tall, similar⟩ => ⟨tagged, tagged', tall, similar⟩⟩

def alikePlaces (options : DuplicatedCode.Options) (m : ModuleModel) :
    List (Fin m.functions.length × Fin m.functions.length) :=
  (pairs (List.finRange m.functions.length)).filter fun ij =>
    Alike options m.functions[ij.1] m.functions[ij.2]

theorem mem_alikePlaces {options : DuplicatedCode.Options} {m : ModuleModel}
    {i j : Fin m.functions.length} : (i, j) ∈ alikePlaces options m ↔
      i < j ∧ Alike options m.functions[i] m.functions[j] := by
  rw [alikePlaces, List.mem_filter, mem_pairs (List.pairwise_lt_finRange _), decide_eq_true_iff]
  simp

theorem alikePlaces_sorted (options : DuplicatedCode.Options) (m : ModuleModel) :
    (alikePlaces options m).Pairwise fun p q => toLex p < toLex q :=
  (pairs_sorted (List.pairwise_lt_finRange _)).filter _

def metric? (x : Finding) (name : Bytes) : Option Float := x.metrics.lookup name

structure Reports (path : Bytes) (f g : FunctionModel) (x : Finding) : Prop where
  kind : x.kind = .duplicatedCode
  file : x.file = path
  lines : x.lines = f.lines
  subject : x.subject = f.qualifiedName ++ " / " ++ g.qualifiedName
  evidence : x.evidence = [location f, location g]
  combined : metric? x "similarity" = some (score f g).combined
  token : metric? x "token_similarity" = some (score f g).token
  structural : metric? x "structural_similarity" = some (score f g).structural
  firstLine : metric? x "function1_line" = some (.ofInt f.lines.first)
  secondLine : metric? x "function2_line" = some (.ofInt g.lines.first)

section Findings

variable {options : DuplicatedCode.Options} {path : Bytes} {f g : FunctionModel}

theorem isEligible_ofFunction : Candidate.isEligible options (.ofFunction f) = true ↔
    options.minChunkSize ≤ (Block.tags f.definition.body).length :=
  decide_eq_true_iff

theorem findings_alike (h : Alike options f g) :
    ∃ x, findings options path (.ofFunction f) (.ofFunction g) = [x] ∧ Reports path f g x := by
  refine ⟨_, (if_neg (not_lt.2 h.tall)).trans (if_neg h.similar), ?_⟩
  constructor <;> rfl

theorem findings_unalike (h : ¬Alike options f g)
    (eligible : (Candidate.isEligible options (.ofFunction f) &&
      Candidate.isEligible options (.ofFunction g)) = true) :
    findings options path (.ofFunction f) (.ofFunction g) = [] := by
  rw [Bool.and_eq_true, isEligible_ofFunction, isEligible_ofFunction] at eligible
  by_cases tall : options.minChunkSize ≤ min f.lines.height g.lines.height
  · have below : (score f g).combined < options.minSimilarity :=
      not_not.1 fun similar => h ⟨eligible.1, eligible.2, tall, similar⟩
    exact (if_neg (not_lt.2 tall)).trans (if_pos below)
  · exact if_pos (not_le.1 tall)

end Findings

section Sorted

variable {m : ModuleModel} (sorted : (m.functions.map (·.lines.first)).Pairwise (· < ·))

include sorted

theorem candidates_eq (options : DuplicatedCode.Options) : candidates options m =
    (m.functions.map Candidate.ofFunction).filter (Candidate.isEligible options) := by
  refine List.mergeSort_of_pairwise (List.Pairwise.filter _ (List.pairwise_map.2 ?_))
  exact (List.pairwise_map.1 sorted).imp fun less => decide_eq_true less.le

theorem detect_eq (options : DuplicatedCode.Options) : detect options m =
    ((pairs (List.finRange m.functions.length)).filter fun ij =>
      Candidate.isEligible options (.ofFunction m.functions[ij.1]) &&
        Candidate.isEligible options (.ofFunction m.functions[ij.2])).flatMap fun ij =>
      findings options m.path (.ofFunction m.functions[ij.1]) (.ofFunction m.functions[ij.2]) := by
  have places : m.functions.map Candidate.ofFunction =
      (List.finRange m.functions.length).map fun i => Candidate.ofFunction m.functions[i] := by
    conv_lhs => rw [← List.map_get_finRange m.functions, List.map_map]
    rfl
  rw [detect, candidates_eq sorted, pairs_filter, places, pairs_map, List.filter_map,
    List.flatMap_map]
  rfl

theorem detect_reports (options : DuplicatedCode.Options) :
    List.Forall₂ (fun ij x => Reports m.path m.functions[ij.1] m.functions[ij.2] x)
      (alikePlaces options m) (detect options m) := by
  rw [detect_eq sorted]
  set eligible := (pairs (List.finRange m.functions.length)).filter fun ij =>
    Candidate.isEligible options (.ofFunction m.functions[ij.1]) &&
      Candidate.isEligible options (.ofFunction m.functions[ij.2])
  have among : alikePlaces options m =
      eligible.filter fun ij => Alike options m.functions[ij.1] m.functions[ij.2] := by
    rw [List.filter_filter, alikePlaces]
    refine List.filter_congr fun ij _ => ?_
    rw [Bool.eq_iff_iff, Bool.and_eq_true, Bool.and_eq_true, isEligible_ofFunction,
      isEligible_ofFunction, decide_eq_true_iff]
    exact ⟨fun h => ⟨h, h.tagged, h.tagged'⟩, And.left⟩
  rw [among]
  refine forall₂_filter_flatMap (fun ij _ alike => findings_alike (of_decide_eq_true alike))
    fun ij mem unalike => findings_unalike (fun h => unalike (decide_eq_true h)) ?_
  exact (List.mem_filter.1 mem).2

end Sorted

/-- In a module that is read from a source, the findings are those of all places `i < j` of functions
that are alike, each pair once and in lexicographic order. -/
theorem detect_enumerates {path source : Bytes} {m : ModuleModel} {options : DetectionOptions}
    (built : ModuleModel.build path source = .ok m)
    (valid : options.validate .duplicatedCode = .ok ()) :
    ∃ detector, Detector.builtIn .duplicatedCode options = .ok detector ∧
      m.functions.Pairwise (fun f g => f.lines.first < g.lines.first) ∧
      ∃ places : List (Fin m.functions.length × Fin m.functions.length),
        places.Pairwise (fun p q => toLex p < toLex q) ∧
        (∀ i j, (i, j) ∈ places ↔
          i < j ∧ Alike options.duplicatedCode m.functions[i] m.functions[j]) ∧
        List.Forall₂ (fun ij x => Reports path m.functions[ij.1] m.functions[ij.2] x) places
          (detector.detect m) := by
  obtain ⟨b, parsed, rfl⟩ := ModuleModel.ofSource_ok (ModuleModel.build_ok built)
  have sorted := @ModuleModel.functions_sorted path source.lineCount b (parseModule_starts parsed)
  have made : Detector.builtIn .duplicatedCode options =
      .ok { kind := .duplicatedCode, detect := detect options.duplicatedCode } := by
    rw [Detector.builtIn, valid]
    rfl
  exact ⟨_, made, List.pairwise_map.1 sorted, alikePlaces options.duplicatedCode _,
    alikePlaces_sorted _ _, fun i j => mem_alikePlaces, detect_reports sorted _⟩

def twoDiscounts : Bytes :=
  "class A:\n def f(self, x):\n  y = x.a\n  if y: y = 1\n  return y\n" ++
    " def g(self, z):\n  b = z.c\n  if b: b = 2\n  return b\n def h(self): pass\n"

theorem detect_enumerates_twoDiscounts : ∃ m, ModuleModel.build "a.py" twoDiscounts = .ok m ∧
    DetectionOptions.validate {} .duplicatedCode = .ok () ∧
    (alikePlaces {} m).map (fun ij => (ij.1.val, ij.2.val)) = [(0, 1)] ∧
    ∃ detector, Detector.builtIn .duplicatedCode {} = .ok detector ∧
      m.functions.Pairwise (fun f g => f.lines.first < g.lines.first) ∧
      ∃ places : List (Fin m.functions.length × Fin m.functions.length),
        places.Pairwise (fun p q => toLex p < toLex q) ∧
        (∀ i j, (i, j) ∈ places ↔ i < j ∧ Alike {} m.functions[i] m.functions[j]) ∧
        List.Forall₂ (fun ij x => Reports "a.py" m.functions[ij.1] m.functions[ij.2] x) places
          (detector.detect m) := by
  obtain ⟨m, built, places⟩ : ∃ m, ModuleModel.build "a.py" twoDiscounts = .ok m ∧
      (alikePlaces {} m).map (fun ij => (ij.1.val, ij.2.val)) = [(0, 1)] := by
    decide +kernel
  exact ⟨m, built, rfl, places, detect_enumerates built rfl⟩

end CodeSmell.DuplicatedCode
