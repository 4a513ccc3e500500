import CodeSmell.CommandLine.Arguments
import CodeSmell.Proofs.Lists
import CodeSmell.Proofs.Results
import Mathlib.Data.List.DropRight
import Mathlib.Tactic

/-!
Options that are lists. Their values are read as entries between commas, and reading is additive: a value
may be given at once or in pieces. A run of arguments only ever adds entries that a list does not hold.
-/

namespace CodeSmell

namespace Bytes

structure IsEntry (x : Bytes) : Prop where
  nonempty : x ≠ []
  noComma : ','.toUInt8 ∉ x
  first : ∀ b ∈ x.head?, Ascii.isSpace b = false
  last : ∀ b ∈ x.getLast?, Ascii.isSpace b = false

theorem trim_eq (s : Bytes) : s.trim = (s.dropWhile Ascii.isSpace).rdropWhile Ascii.isSpace := rfl

theorem trim_subset (s : Bytes) : s.trim ⊆ s := by
  rw [trim_eq]
  exact ((List.rdropWhile_prefix _ _).sublist.trans (List.dropWhile_sublist _)).subset

theorem head_trim {s : Bytes} {b : UInt8} (h : b ∈ s.trim.head?) : Ascii.isSpace b = false := by
  obtain ⟨rest, trimmed⟩ := List.head?_eq_some_iff.1 h
  obtain ⟨tail, whole⟩ := List.rdropWhile_prefix Ascii.isSpace (s.dropWhile Ascii.isSpace)
  have stops := List.head?_dropWhile_not Ascii.isSpace s
  rw [← whole, ← trim_eq, trimmed] at stops
  exact stops

theorem getLast_trim {s : Bytes} {b : UInt8} (h : b ∈ s.trim.getLast?) :
    Ascii.isSpace b = false := by
  obtain ⟨nonempty, rfl⟩ := List.mem_getLast?_eq_getLast h
  exact Bool.eq_false_iff.2 (List.rdropWhile_last_not _ _ nonempty)

theorem isEntry_of_mem_entries {s x : Bytes} (h : x ∈ s.entries) : x.IsEntry := by
  obtain ⟨trimmed, nonempty⟩ := List.mem_filter.1 h
  obtain ⟨piece, mem, rfl⟩ := List.mem_map.1 trimmed
  exact ⟨by simpa using nonempty, fun comma => not_mem_splitOn mem (trim_subset piece comma),
    fun b => head_trim, fun b => getLast_trim⟩

theorem entries_append (s t : Bytes) :
    entries (s ++ ','.toUInt8 :: t) = s.entries ++ t.entries := by
  rw [entries, splitOn_append, List.map_append, List.filter_append]
  rfl

end Bytes

theorem ReportFormat.isEntry_name (format : ReportFormat) : format.name.IsEntry := by
  have ends : format.name.head?.all (!Ascii.isSpace ·) = true ∧
      format.name.getLast?.all (!Ascii.isSpace ·) = true := by
    cases format <;> decide
  rw [Option.all_eq_true, Option.all_eq_true] at ends
  constructor
  · cases format <;> decide
  · cases format <;> decide
  · exact fun b first => by simpa using ends.1 b first
  · exact fun b last => by simpa using ends.2 b last

theorem formatNames_append (s t : Bytes) :
    formatNames (s ++ ','.toUInt8 :: t) =
      (do return (← formatNames s) ++ (← formatNames t)) := by
  rw [formatNames, Bytes.entries_append, List.mapM_append]
  rfl

theorem isEntry_of_formatNames {s x : Bytes} {xs : List Bytes} (h : formatNames s = .ok xs)
    (mem : x ∈ xs) : x.IsEntry := by
  obtain ⟨entry, -, found⟩ := mem_of_mapM_ok h mem
  cases known : ReportFormat.ofName? entry with
  | none => simp [known] at found
  | some format =>
    rw [known] at found
    exact Except.ok.inj found ▸ format.isEntry_name

namespace Flag

def lists : List Flag := [format, only, exclude, ignoredPaths]

def entriesOf (flag : Flag) (value : Bytes) : Except ArgumentError (List Bytes) :=
  match flag with
  | format => formatNames value
  | _ => .ok value.entries

theorem entriesOf_append (flag : Flag) (s t : Bytes) : flag.entriesOf (s ++ ','.toUInt8 :: t) =
    (do return (← flag.entriesOf s) ++ (← flag.entriesOf t)) := by
  cases flag with
  | format => exact formatNames_append s t
  | _ => exact congrArg Except.ok (Bytes.entries_append s t)

theorem isEntry_of_entriesOf {flag : Flag} {value x : Bytes} {xs : List Bytes}
    (h : flag.entriesOf value = .ok xs) (mem : x ∈ xs) : x.IsEntry := by
  cases flag with
  | format => exact isEntry_of_formatNames h mem
  | _ =>
    obtain rfl := Except.ok.inj h
    exact Bytes.isEntry_of_mem_entries mem

end Flag

namespace RunOptions

variable {options options' : RunOptions} {flag : Flag}

def list (options : RunOptions) : Flag → List Bytes
  | .format => options.formats
  | .only => options.only
  | .exclude => options.exclude
  | .ignoredPaths => options.ignoredPaths
  | _ => []

def withList (options : RunOptions) (flag : Flag) (xs : List Bytes) : RunOptions :=
  match flag with
  | .format => { options with formats := xs }
  | .only => { options with only := xs }
  | .exclude => { options with exclude := xs }
  | .ignoredPaths => { options with ignoredPaths := xs }
  | _ => options

theorem list_withList (h : flag ∈ Flag.lists) (xs : List Bytes) :
    (options.withList flag xs).list flag = xs := by
  simp only [Flag.lists, List.mem_cons, List.not_mem_nil, or_false] at h
  rcases h with rfl | rfl | rfl | rfl <;> rfl

theorem list_withList_of_ne {other : Flag} (h : other ≠ flag) (xs : List Bytes) :
    (options.withList flag xs).list other = options.list other := by
  cases flag <;> cases other <;> first | rfl | exact absurd rfl h

theorem withList_withList (xs ys : List Bytes) :
    (options.withList flag xs).withList flag ys = options.withList flag ys := by
  cases flag <;> rfl

theorem set_eq (h : flag ∈ Flag.lists) (value : Bytes) : options.set flag value = (do
    return options.withList flag (appendNew (options.list flag) (← flag.entriesOf value))) := by
  simp only [Flag.lists, List.mem_cons, List.not_mem_nil, or_false] at h
  rcases h with rfl | rfl | rfl | rfl <;> rfl

theorem set_ok {value : Bytes} (h : flag ∈ Flag.lists) (eq : options.set flag value = .ok options') :
    ∃ new, (∀ x ∈ new, x.IsEntry) ∧
      options' = options.withList flag (appendNew (options.list flag) new) := by
  rw [set_eq h] at eq
  obtain ⟨new, read, eq⟩ := bind_eq_ok.1 eq
  exact ⟨new, fun x => Flag.isEntry_of_entriesOf read, (Except.ok.inj eq).symm⟩

theorem set_append (h : flag ∈ Flag.lists) (a b : Bytes) :
    options.set flag (a ++ ','.toUInt8 :: b) = (options.set flag a >>= (set · flag b)) := by
  simp only [set_eq h, Flag.entriesOf_append, bind_assoc, pure_bind, list_withList h,
    withList_withList, appendNew_append]

theorem parse_flag (options : RunOptions) (flag : Flag) (value : Bytes) (rest : List Bytes) :
    parse options (flag.name :: value :: rest) = (options.set flag value >>= (parse · rest)) := by
  have dash : flag.name.head? = some '-'.toUInt8 := by cases flag <;> rfl
  have notHelp : isHelpFlag flag.name = false := by cases flag <;> rfl
  have notVerbose : (flag.name == "--verbose") = false := by cases flag <;> rfl
  have notDebug : (flag.name == "--debug") = false := by cases flag <;> rfl
  have known : Flag.ofName? flag.name = some flag := by cases flag <;> rfl
  rw [parse.eq_def]
  simp only [dash, notHelp, notVerbose, notDebug, known, ne_eq, not_true_eq_false, Bool.false_eq_true,
    ↓reduceIte]
  cases options.set flag value <;> rfl

/-- Every list has grown by entries that it did not hold. -/
def Grows (options options' : RunOptions) : Prop :=
  ∀ flag, ∃ new, (∀ x ∈ new, x.IsEntry) ∧ options'.list flag = appendNew (options.list flag) new

namespace Grows

theorem same (h : options'.list = options.list) : options.Grows options' :=
  fun flag => ⟨[], nofun, congrFun h flag⟩

theorem trans {options'' : RunOptions} (h : options.Grows options') (h' : options'.Grows options'') :
    options.Grows options'' := by
  intro flag
  obtain ⟨new, entries, eq⟩ := h flag
  obtain ⟨new', entries', eq'⟩ := h' flag
  exact ⟨new ++ new', List.forall_mem_append.2 ⟨entries, entries'⟩, by
    rw [eq', eq, appendNew_append]⟩

theorem isPrefix (h : options.Grows options') (flag : Flag) :
    options.list flag <+: options'.list flag := by
  obtain ⟨new, -, eq⟩ := h flag
  exact eq ▸ prefix_appendNew _ new

end Grows

theorem set_grows {value : Bytes} (h : options.set flag value = .ok options') :
    options.Grows options' := by
  by_cases isList : flag ∈ Flag.lists
  · obtain ⟨new, entries, rfl⟩ := set_ok isList h
    intro other
    by_cases same : other = flag
    · subst same
      exact ⟨new, entries, list_withList isList _⟩
    · exact ⟨[], nofun, list_withList_of_ne same _⟩
  · refine .same ?_
    cases flag with
    | target | out | config =>
      obtain rfl := Except.ok.inj h
      rfl
    | logLevel =>
      simp only [set] at h
      split at h
      · obtain rfl := Except.ok.inj h
        rfl
      · cases h
    | format | only | exclude | ignoredPaths => exact absurd (by decide) isList

theorem parse_grows {arguments : List Bytes} (h : parse options arguments = .ok options') :
    options.Grows options' := by
  fun_induction parse options arguments with
  | case1 => exact Except.ok.inj h ▸ .same rfl
  | case2 | case7 | case8 | case9 => cases h
  | case3 _ _ _ _ _ ih | case5 _ _ _ _ _ _ ih | case6 _ _ _ _ _ _ _ ih =>
    exact Grows.trans (.same rfl) (ih h)
  | case4 => exact Except.ok.inj h ▸ .same rfl
  | case10 _ _ _ _ _ _ _ _ _ _ _ found ih => exact (set_grows found).trans (ih h)

theorem Grows.entries (h : options.Grows options')
    (distinct : (options.list flag).Nodup) (each : ∀ x ∈ options.list flag, x.IsEntry) :
    (options'.list flag).Nodup ∧ ∀ x ∈ options'.list flag, x.IsEntry := by
  obtain ⟨new, entries, eq⟩ := h flag
  rw [eq]
  refine ⟨nodup_appendNew distinct, fun x mem => ?_⟩
  rcases mem_appendNew.1 mem with old | mem
  · exact each x old
  · exact entries x mem

/-- The value of a list may be given at once or in pieces, wherever it stands among the arguments. The
lists of a run hold distinct entries, and one more value only adds to the end of its list. -/
theorem lists_additive :
    (∀ (options : RunOptions), ∀ flag ∈ Flag.lists, ∀ (a b : Bytes) (rest : List Bytes),
      parse options (flag.name :: (a ++ ','.toUInt8 :: b) :: rest) =
        parse options (flag.name :: a :: flag.name :: b :: rest)) ∧
    (∀ arguments options, ofArguments arguments = .ok options → ∀ flag,
      (options.list flag).Nodup ∧ ∀ x ∈ options.list flag, x.IsEntry) ∧
    (∀ (options options' : RunOptions), ∀ flag ∈ Flag.lists, ∀ value,
      options.set flag value = .ok options' →
        ∃ new, options' = options.withList flag (options.list flag ++ new)) ∧
    ∀ (options options' : RunOptions) (arguments : List Bytes),
      parse options arguments = .ok options' → ∀ flag, options.list flag <+: options'.list flag := by
  refine ⟨fun options flag isList a b rest => ?_, fun arguments options h flag => ?_,
    fun options options' flag isList value h => ?_, fun options options' arguments h => ?_⟩
  · simp only [parse_flag, set_append isList, bind_assoc]
  · have empty : list {} flag = [] := by cases flag <;> rfl
    refine (parse_grows h).entries ?_ ?_
    · rw [empty]
      exact .nil
    · rw [empty]
      exact List.forall_mem_nil _
  · obtain ⟨entries, -, rfl⟩ := set_ok isList h
    obtain ⟨new, grown⟩ := prefix_appendNew (options.list flag) entries
    exact ⟨new, by rw [grown]⟩
  · exact (parse_grows h).isPrefix

theorem lists_additive_formats :
    parse { formats := ["json"] } ["--format", " md ,,TXT", "a.py"] =
      parse { formats := ["json"] } ["--format", " md ,", "--format", "TXT", "a.py"] ∧
    ofArguments ["--format", " md ,,TXT", "--only", "x"] =
      .ok { formats := ["markdown", "text"], only := ["x"] } ∧
    (∀ flag, (list { formats := ["markdown", "text"], only := ["x"] } flag).Nodup ∧
      ∀ x ∈ list { formats := ["markdown", "text"], only := ["x"] } flag, x.IsEntry) ∧
    (∃ new, ({ only := ["a", "b"] } : RunOptions) =
      withList { only := ["a"] } .only (list { only := ["a"] } .only ++ new)) ∧
    ∀ flag, list { only := ["a"] } flag <+: list { only := ["a", "b"], target := some "c" } flag := by
  obtain ⟨pieces, entries, adds, grows⟩ := lists_additive
  exact ⟨pieces { formats := ["json"] } .format (by decide) " md ," "TXT" ["a.py"], rfl,
    entries ["--format", " md ,,TXT", "--only", "x"] _ rfl,
    adds { only := ["a"] } _ .only (by decide) " b ,a" rfl,
    grows { only := ["a"] } _ ["--only", "a,b", "c"] rfl⟩

end RunOptions

end CodeSmell
