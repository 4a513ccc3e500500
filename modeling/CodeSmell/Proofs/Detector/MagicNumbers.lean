import CodeSmell.Proofs.Decimal.Values
import CodeSmell.Proofs.Detector.Place
import CodeSmell.Proofs.Lists
import CodeSmell.Proofs.Model.Literals

/-!
Numbers that occur often. The literals of a source are numbers and so in a linear order; putting them
in groups keeps the groups in increasing order, with all literals of one value in one group as they
stand. The findings are then those of the values that occur often enough.
-/

namespace CodeSmell

open Decimal

theorem Expr.literal?_numeral {e : Expr} {x : Float} {text : Bytes} (h : e.literal? = some (x, text)) :
    ∃ p value written, e.numeral = ⟨p, .number value written false⟩ ∧ (x = value ∨ x = -value) := by
  obtain ⟨p, f⟩ := e
  unfold literal? at h
  split at h
  · next value written isNumber =>
    obtain rfl : f = .number value written false := isNumber
    obtain ⟨rfl, rfl⟩ := Prod.mk.inj (Option.some.inj h)
    exact ⟨p, value, written, rfl, .inl rfl⟩
  · next q value written isMinus =>
    obtain rfl : f = _ := isMinus
    obtain ⟨rfl, rfl⟩ := Prod.mk.inj (Option.some.inj h)
    exact ⟨q, value, written, rfl, .inr rfl⟩
  · next q value written isPlus =>
    obtain rfl : f = _ := isPlus
    obtain ⟨rfl, rfl⟩ := Prod.mk.inj (Option.some.inj h)
    exact ⟨q, value, written, rfl, .inl rfl⟩
  · cases h

theorem ModuleModel.literal_values {path source : Bytes} {m : ModuleModel}
    (built : build path source = .ok m) : ∀ l ∈ m.literals, l.value.isNaN = false := by
  obtain ⟨b, inside, marker, rfl, lexed, -, reading⟩ := ofSource_reading (build_ok built)
  intro l mem
  rw [← recordedIn_literals] at mem
  obtain ⟨⟨l, e⟩, recorded, rfl⟩ := List.mem_map.1 mem
  obtain ⟨-, literal, -⟩ := @mem_recordedIn path source.lineCount b l e recorded
  have numeral : e.numeral ∈ (inside.filter Token.isReal).map Token.number :=
    (recordedIn_numbers reading).subset (List.mem_map.2 ⟨_, recorded, rfl⟩)
  obtain ⟨t, isToken, number⟩ := List.mem_map.1 numeral
  have isNumber : t.value.isNaN = false :=
    Lexer.tokenize_values lexed t (List.mem_append_left _ (List.mem_of_mem_filter isToken))
  obtain ⟨p, value, written, same, sign⟩ := Expr.literal?_numeral literal
  obtain ⟨-, same⟩ := Expr.mk.inj (number.trans same)
  obtain ⟨rfl, -, -⟩ := Form.number.inj same
  rcases sign with positive | negative
  · rw [positive]
    exact isNumber
  · rw [negative]
    exact isNaN_neg isNumber

namespace MagicNumbers

/-- Where a literal goes among groups in increasing order: to the end of the group of its value, or to
a group of its own. -/
theorem insert_cases {l : Literal} {gs : List Group} (number : l.value.isNaN = false)
    (numbers : ∀ g ∈ gs, g.value.isNaN = false) (sorted : gs.Pairwise (·.value < ·.value)) :
    (∃ before g after, gs = before ++ g :: after ∧ (l.value == g.value) = true ∧
      insert l gs = before ++ { g with others := g.others ++ [l] } :: after) ∨
    (∃ before after, gs = before ++ after ∧ insert l gs = before ++ { first := l } :: after ∧
      (∀ g ∈ before, g.value < l.value) ∧ ∀ g ∈ after, l.value < g.value) := by
  induction gs with
  | nil => exact .inr ⟨[], [], rfl, rfl, by simp, by simp⟩
  | cons g gs ih =>
    obtain ⟨above, sorted⟩ := List.pairwise_cons.1 sorted
    rw [List.forall_mem_cons] at numbers
    by_cases less : l.value < g.value
    · have behind : ∀ h ∈ g :: gs, l.value < h.value :=
        List.forall_mem_cons.2 ⟨less, fun h mem => lt_trans less (above h mem)⟩
      exact .inr ⟨[], g :: gs, rfl, if_pos less, by simp, behind⟩
    by_cases greater : g.value < l.value
    · have next : insert l (g :: gs) = g :: insert l gs := (if_neg less).trans (if_pos greater)
      rcases ih numbers.2 sorted with ⟨before, h, after, split, same, inserted⟩ |
        ⟨before, after, split, inserted, below, behind⟩
      · exact .inl ⟨g :: before, h, after, by rw [split]; rfl, same, by rw [next, inserted]; rfl⟩
      · refine .inr ⟨g :: before, after, by rw [split]; rfl, by rw [next, inserted]; rfl, ?_, behind⟩
        exact List.forall_mem_cons.2 ⟨greater, below⟩
    · have same : (l.value == g.value) = true := beq_of_not_lt number numbers.1 less greater
      exact .inl ⟨[], g, gs, rfl, same, (if_neg less).trans (if_neg greater)⟩

/-- The groups hold the literals: they are in increasing order, each has all literals of its value as
they stand, and each literal has a group. -/
structure Grouped (ls : List Literal) (gs : List Group) : Prop where
  sorted : (gs.map Group.value).Pairwise (· < ·)
  literals : ∀ g ∈ gs, g.literals = ls.filter (·.value == g.value)
  covers : ∀ l ∈ ls, ∃ v ∈ gs.map Group.value, (l.value == v) = true

section Grouped

variable {ls : List Literal} {gs : List Group} {l : Literal}

theorem filter_concat_other {v : Float} (other : ¬(l.value == v) = true) :
    (ls ++ [l]).filter (·.value == v) = ls.filter (·.value == v) := by
  simp [List.filter_append, other]

theorem filter_concat_same {v : Float} (same : (l.value == v) = true) :
    (ls ++ [l]).filter (·.value == v) = ls.filter (·.value == v) ++ [l] := by
  simp [List.filter_append, same]

theorem Grouped.numbers (grouped : Grouped ls gs) (numbers : ∀ l ∈ ls, l.value.isNaN = false) :
    ∀ g ∈ gs, g.value.isNaN = false := by
  intro g mem
  have first : g.first ∈ g.literals := .head _
  rw [grouped.literals g mem] at first
  exact numbers g.first (List.mem_of_mem_filter first)

theorem Grouped.filter_eq_nil (grouped : Grouped ls gs) {v : Float}
    (other : ∀ g ∈ gs, ¬(v == g.value) = true) : ls.filter (·.value == v) = [] := by
  apply List.filter_eq_nil_iff.2
  intro l mem same
  obtain ⟨u, value, found⟩ := grouped.covers l mem
  obtain ⟨g, mem, rfl⟩ := List.mem_map.1 value
  exact other g mem (BEq.trans (BEq.symm same) found)

theorem Grouped.join {before after : List Group} {g : Group}
    (grouped : Grouped ls (before ++ g :: after)) (same : (l.value == g.value) = true) :
    Grouped (ls ++ [l]) (before ++ { g with others := g.others ++ [l] } :: after) := by
  have values : (before ++ { g with others := g.others ++ [l] } :: after).map Group.value =
      (before ++ g :: after).map Group.value := by
    simp [Group.value]
  obtain ⟨-, rest, below⟩ := List.pairwise_append.1 (List.pairwise_map.1 grouped.sorted)
  have other {v : Float} (apart : ¬(g.value == v) = true) : ¬(l.value == v) = true :=
    fun found => apart (BEq.trans (BEq.symm same) found)
  constructor
  case sorted =>
    rw [values]
    exact grouped.sorted
  case literals =>
    intro h mem
    rcases List.mem_append.1 mem with mem | mem
    · have less : h.value < g.value := below h mem g (.head _)
      rw [filter_concat_other (other fun found => not_beq_of_lt less (BEq.symm found))]
      exact grouped.literals h (List.mem_append_left _ mem)
    rcases List.mem_cons.1 mem with rfl | mem
    · show g.literals ++ [l] = (ls ++ [l]).filter (·.value == g.value)
      rw [filter_concat_same same, grouped.literals g (by simp)]
    · have less : g.value < h.value := (List.pairwise_cons.1 rest).1 h mem
      rw [filter_concat_other (other (not_beq_of_lt less))]
      exact grouped.literals h (by simp [mem])
  case covers =>
    rw [values]
    intro l' mem
    rcases List.mem_append.1 mem with mem | mem
    · exact grouped.covers l' mem
    · obtain rfl := List.mem_singleton.1 mem
      exact ⟨g.value, by simp, same⟩

theorem Grouped.add {before after : List Group} (grouped : Grouped ls (before ++ after))
    (number : l.value.isNaN = false) (below : ∀ g ∈ before, g.value < l.value)
    (above : ∀ g ∈ after, l.value < g.value) :
    Grouped (ls ++ [l]) (before ++ { first := l } :: after) := by
  have other : ∀ g ∈ before ++ after, ¬(l.value == g.value) = true := by
    intro g mem
    rcases List.mem_append.1 mem with mem | mem
    · exact fun same => not_beq_of_lt (below g mem) (BEq.symm same)
    · exact not_beq_of_lt (above g mem)
  constructor
  case sorted =>
    obtain ⟨sorted, sorted', between⟩ := List.pairwise_append.1 (List.pairwise_map.1 grouped.sorted)
    rw [List.pairwise_map, List.pairwise_append, List.pairwise_cons]
    refine ⟨sorted, ⟨above, sorted'⟩, fun g mem => List.forall_mem_cons.2 ⟨below g mem, between g mem⟩⟩
  case literals =>
    intro g mem
    by_cases new : g = { first := l }
    · subst new
      show [l] = (ls ++ [l]).filter (·.value == l.value)
      rw [filter_concat_same (beq_self number), grouped.filter_eq_nil other]
      rfl
    · have old : g ∈ before ++ after := by simpa [new] using mem
      rw [filter_concat_other (other g old)]
      exact grouped.literals g old
  case covers =>
    intro l' mem
    rcases List.mem_append.1 mem with mem | mem
    · obtain ⟨v, value, found⟩ := grouped.covers l' mem
      refine ⟨v, ?_, found⟩
      simp only [List.map_append, List.map_cons, List.mem_append, List.mem_cons] at value ⊢
      tauto
    · obtain rfl := List.mem_singleton.1 mem
      exact ⟨l'.value, by simp [Group.value], beq_self number⟩

theorem grouped_groups (numbers : ∀ l ∈ ls, l.value.isNaN = false) : Grouped ls (groups ls) := by
  induction ls using List.reverseRecOn with
  | nil => exact ⟨.nil, by simp [groups], by simp⟩
  | append_singleton ls l ih =>
    obtain ⟨numbers, number⟩ := List.forall_mem_append.1 numbers
    rw [List.forall_mem_singleton] at number
    have grouped := ih numbers
    rw [groups, List.foldl_concat]
    change Grouped (ls ++ [l]) (insert l (groups ls))
    rcases insert_cases number (grouped.numbers numbers) (List.pairwise_map.1 grouped.sorted) with
      ⟨before, g, after, split, same, inserted⟩ | ⟨before, after, split, inserted, below, above⟩
    · rw [inserted]
      exact (split ▸ grouped).join same
    · rw [inserted]
      exact (split ▸ grouped).add number below above

end Grouped

/-- A literal that counts: its value lies in the range and is none of the whitelist, and it is no
part of the definition of a constant, unless these are not ignored. -/
@[mk_iff]
structure Candidate (options : MagicNumbers.Options) (l : Literal) : Prop where
  atLeast : options.minValue ≤ l.value
  atMost : l.value ≤ options.maxValue
  unlisted : ∀ v ∈ options.whitelist, (v == l.value) = false
  outside : options.ignoreConstantDefinitions = true → l.inConstant = false

instance (options : MagicNumbers.Options) : DecidablePred (Candidate options) := fun l =>
  decidable_of_iff _ (candidate_iff options l).symm

def occurrences (options : MagicNumbers.Options) (m : ModuleModel) (v : Float) : List Literal :=
  m.literals.filter fun l => l.value == v && decide (Candidate options l)

structure Reports (options : MagicNumbers.Options) (path : Bytes) (v : Float) (found : List Literal)
    (x : Finding) : Prop where
  kind : x.kind = .magicNumbers
  severity : x.severity = .medium
  file : x.file = path
  subject : x.subject = Decimal.short v
  message : x.message =
    "Magic number " ++ Decimal.short v ++ " appears " ++ Bytes.ofInt found.length ++ " times"
  value : x.metrics.lookup ("value" : Bytes) = some v
  count : x.metrics.lookup ("occurrences" : Bytes) = some (.ofInt found.length)
  threshold : x.metrics.lookup ("min_occurrences" : Bytes) = some (.ofInt options.minOccurrences)
  evidence : x.evidence = found.map fun l =>
    Bytes.ofInt l.position.line ++ ":" ++ Bytes.ofInt l.position.column
  first : IsLeast {line | ∃ l ∈ found, l.position.line = line} x.lines.first
  last : IsGreatest {line | ∃ l ∈ found, l.position.line = line} x.lines.last

theorem Group.lines_bound (g : Group) :
    ∀ l ∈ g.literals, g.lines.first ≤ l.position.line ∧ l.position.line ≤ g.lines.last := by
  obtain ⟨first, others⟩ := g
  induction others using List.reverseRecOn with
  | nil => simp [Group.literals, Group.lines]
  | append_singleton others last ih =>
    intro l mem
    have lines : Group.lines ⟨first, others ++ [last]⟩ =
        ⟨min (Group.lines ⟨first, others⟩).first last.position.line,
          max (Group.lines ⟨first, others⟩).last last.position.line⟩ := by
      simp only [Group.lines, List.foldl_concat]
    rw [Group.literals, ← List.cons_append] at mem
    rw [lines]
    rcases List.mem_append.1 mem with mem | mem
    · obtain ⟨low, high⟩ := ih l mem
      exact ⟨min_le_of_left_le low, le_max_of_le_left high⟩
    · rw [List.mem_singleton.1 mem]
      exact ⟨min_le_right _ _, le_max_right _ _⟩

theorem Group.isLeast_first (g : Group) :
    IsLeast {line | ∃ l ∈ g.literals, l.position.line = line} g.lines.first := by
  obtain ⟨l, mem, l', -, lines, -⟩ := g.lines_eq
  constructor
  · exact ⟨l, mem, by rw [lines]⟩
  · rintro line ⟨k, among, rfl⟩
    exact (g.lines_bound k among).1

theorem Group.isGreatest_last (g : Group) :
    IsGreatest {line | ∃ l ∈ g.literals, l.position.line = line} g.lines.last := by
  obtain ⟨l, -, l', mem, lines, -⟩ := g.lines_eq
  constructor
  · exact ⟨l', mem, by rw [lines]⟩
  · rintro line ⟨k, among, rfl⟩
    exact (g.lines_bound k among).2

section Findings

variable {options : MagicNumbers.Options} {path : Bytes} {g : Group}

theorem findings_often (often : options.minOccurrences ≤ g.literals.length) :
    ∃ x, findings options path g = [x] ∧ Reports options path g.value g.literals x := by
  refine ⟨_, if_neg (not_lt.2 often), ?_⟩
  constructor
  case first => exact g.isLeast_first
  case last => exact g.isGreatest_last
  all_goals rfl

theorem findings_seldom (seldom : ¬options.minOccurrences ≤ g.literals.length) :
    findings options path g = [] :=
  if_pos (not_le.1 seldom)

theorem isCounted_iff {l : Literal} (low : options.minValue.isNaN = false)
    (high : options.maxValue.isNaN = false) (number : l.value.isNaN = false) :
    isCounted options l = true ↔ Candidate options l := by
  have atLeast := not_lt_iff_le number low
  have atMost := not_lt_iff_le high number
  rw [candidate_iff, ← atLeast, ← atMost]
  cases ignored : options.ignoreConstantDefinitions <;> cases constant : l.inConstant <;>
    simp [isCounted, ignored, constant, and_assoc]

end Findings

theorem of_validate {options : DetectionOptions} (valid : options.validate .magicNumbers = .ok ()) :
    1 ≤ options.magicNumbers.minOccurrences ∧ options.magicNumbers.minValue.isNaN = false ∧
      options.magicNumbers.maxValue.isNaN = false := by
  simp only [DetectionOptions.validate, DetectionOptions.checkMinimum, DetectionOptions.checkFinite,
    bind, Except.bind] at valid
  by_cases few : options.magicNumbers.minOccurrences < 1
  · simp [few] at valid
  by_cases low : options.magicNumbers.minValue.isFinite = true
  · by_cases high : options.magicNumbers.maxValue.isFinite = true
    · exact ⟨not_lt.1 few, isNaN_of_isFinite low, isNaN_of_isFinite high⟩
    · simp [few, low, high] at valid
  · simp [few, low] at valid

section Detection

variable {options : MagicNumbers.Options} {m : ModuleModel}
  (numbers : ∀ l ∈ m.literals, l.value.isNaN = false)
  (low : options.minValue.isNaN = false) (high : options.maxValue.isNaN = false)

def frequent (options : MagicNumbers.Options) (m : ModuleModel) : List Group :=
  (groups (m.literals.filter (isCounted options))).filter fun g =>
    options.minOccurrences ≤ g.literals.length

theorem occurrences_congr {u v : Float} (same : (u == v) = true) :
    occurrences options m u = occurrences options m v := by
  apply List.filter_congr
  intro l _
  congr 1
  rw [Bool.eq_iff_iff]
  exact ⟨fun h => BEq.trans h same, fun h => BEq.trans h (BEq.symm same)⟩

include numbers

theorem grouped_counted :
    Grouped (m.literals.filter (isCounted options)) (groups (m.literals.filter (isCounted options))) :=
  grouped_groups fun l mem => numbers l (List.mem_of_mem_filter mem)

theorem frequent_sorted : ((frequent options m).map Group.value).Pairwise (· < ·) :=
  (grouped_counted numbers).sorted.sublist (List.filter_sublist.map Group.value)

include low high

theorem counted_eq (v : Float) :
    (m.literals.filter (isCounted options)).filter (·.value == v) = occurrences options m v := by
  rw [List.filter_filter]
  apply List.filter_congr
  intro l mem
  rw [Bool.eq_iff_iff, Bool.and_eq_true, Bool.and_eq_true, decide_eq_true_iff,
    isCounted_iff low high (numbers l mem)]

theorem group_literals {g : Group} (mem : g ∈ groups (m.literals.filter (isCounted options))) :
    g.literals = occurrences options m g.value := by
  rw [(grouped_counted numbers).literals g mem, counted_eq numbers low high]

theorem mem_frequent (positive : 1 ≤ options.minOccurrences) (v : Float) :
    (∃ u ∈ (frequent options m).map Group.value, (u == v) = true) ↔
      options.minOccurrences ≤ (occurrences options m v).length := by
  constructor
  · rintro ⟨u, value, same⟩
    obtain ⟨g, mem, rfl⟩ := List.mem_map.1 value
    obtain ⟨mem, often⟩ := List.mem_filter.1 mem
    rw [← occurrences_congr same, ← group_literals numbers low high mem]
    exact of_decide_eq_true often
  · intro often
    obtain ⟨l, found⟩ : ∃ l, l ∈ occurrences options m v := by
      apply List.exists_mem_of_length_pos
      omega
    rw [← counted_eq numbers low high] at found
    obtain ⟨counted, same⟩ := List.mem_filter.1 found
    obtain ⟨u, value, same'⟩ := (grouped_counted numbers).covers l counted
    obtain ⟨g, mem, rfl⟩ := List.mem_map.1 value
    have same : (g.value == v) = true := BEq.trans (BEq.symm same') same
    refine ⟨g.value, List.mem_map_of_mem (List.mem_filter.2 ⟨mem, ?_⟩), same⟩
    rw [decide_eq_true_iff, group_literals numbers low high mem, occurrences_congr same]
    exact often

theorem detect_reports : List.Forall₂ (fun v x => Reports options m.path v (occurrences options m v) x)
    ((frequent options m).map Group.value) (detect options m) := by
  rw [List.forall₂_map_left_iff]
  apply forall₂_filter_flatMap
  · intro g mem often
    rw [← group_literals numbers low high mem]
    exact findings_often (of_decide_eq_true often)
  · intro g _ seldom
    exact findings_seldom fun often => seldom (decide_eq_true often)

end Detection

/-- In a module that is read from a source, the findings are those of the distinct values that occur
often enough, in increasing order, each with all its occurrences. -/
theorem detect_groups {path source : Bytes} {m : ModuleModel} {options : DetectionOptions}
    (built : ModuleModel.build path source = .ok m)
    (valid : options.validate .magicNumbers = .ok ()) :
    ∃ detector, Detector.builtIn .magicNumbers options = .ok detector ∧
      (∀ l ∈ m.literals, l.value.isNaN = false) ∧
      ∃ values : List Float, values.Pairwise (· < ·) ∧
        (∀ v, (∃ u ∈ values, (u == v) = true) ↔ options.magicNumbers.minOccurrences ≤
          (occurrences options.magicNumbers m v).length) ∧
        List.Forall₂ (fun v x => Reports options.magicNumbers path v
          (occurrences options.magicNumbers m v) x) values (detector.detect m) := by
  obtain ⟨positive, low, high⟩ := of_validate valid
  have numbers := ModuleModel.literal_values built
  obtain ⟨b, -, rfl⟩ := ModuleModel.ofSource_ok (ModuleModel.build_ok built)
  have made : Detector.builtIn .magicNumbers options =
      .ok { kind := .magicNumbers, detect := detect options.magicNumbers } := by
    rw [Detector.builtIn, valid]
    rfl
  exact ⟨_, made, numbers, _, frequent_sorted numbers, mem_frequent numbers low high positive,
    detect_reports numbers low high⟩

def fivesAndNines : Bytes := "f(9, 5)\ng(5.0, 9)\nh(9.0, 0x5, 7)\nK = 5\n"

theorem detect_groups_fivesAndNines : ∃ m, ModuleModel.build "a.py" fivesAndNines = .ok m ∧
    DetectionOptions.validate {} .magicNumbers = .ok () ∧
    (detect {} m).map Finding.evidence =
      ([["1:6", "2:3", "3:8"], ["1:3", "2:8", "3:3"]] : List (List Bytes)) ∧
    ∃ detector, Detector.builtIn .magicNumbers {} = .ok detector ∧
      (∀ l ∈ m.literals, l.value.isNaN = false) ∧
      ∃ values : List Float, values.Pairwise (· < ·) ∧
        (∀ v, (∃ u ∈ values, (u == v) = true) ↔ 3 ≤ ((occurrences {} m v).length : Int)) ∧
        List.Forall₂ (fun v x => Reports {} "a.py" v (occurrences {} m v) x) values
          (detector.detect m) := by
  obtain ⟨m, built, evidence⟩ : ∃ m, ModuleModel.build "a.py" fivesAndNines = .ok m ∧
      (detect {} m).map Finding.evidence =
        ([["1:6", "2:3", "3:8"], ["1:3", "2:8", "3:3"]] : List (List Bytes)) := by
    decide +kernel
  have valid : DetectionOptions.validate {} .magicNumbers = .ok () := rfl
  exact ⟨m, built, valid, evidence, detect_groups built valid⟩

end MagicNumbers

end CodeSmell
