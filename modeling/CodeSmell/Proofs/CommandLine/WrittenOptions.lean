import CodeSmell.Proofs.CommandLine.ListOptions

/-!
Options written as arguments: each one that is set as its flag and its value, a list with commas
between its entries. A flag takes in the one option that is its own and leaves the others as they are,
so that what a run of arguments reads does not depend on the order of its flags.
-/

namespace CodeSmell

namespace Bytes

instance decidableIsEntry (x : Bytes) : Decidable x.IsEntry :=
  decidable_of_iff (x ≠ [] ∧ ','.toUInt8 ∉ x ∧ x.head?.all (!Ascii.isSpace ·) = true ∧
      x.getLast?.all (!Ascii.isSpace ·) = true) <| by
    simp only [Option.all_eq_true, Bool.not_eq_true']
    exact ⟨fun ⟨nonempty, noComma, first, last⟩ => ⟨nonempty, noComma, first, last⟩,
      fun h => ⟨h.nonempty, h.noComma, h.first, h.last⟩⟩

theorem IsEntry.trim {x : Bytes} (h : x.IsEntry) : x.trim = x := by
  have noneBefore : x.dropWhile Ascii.isSpace = x := by
    refine List.dropWhile_eq_self_iff.2 fun inside => ?_
    simp [h.first _ (List.head?_eq_getElem? ▸ List.getElem?_eq_getElem inside)]
  have noneBehind : x.rdropWhile Ascii.isSpace = x := by
    refine List.rdropWhile_eq_self_iff.2 fun nonempty => ?_
    simp [h.last _ (List.getLast?_eq_some_getLast nonempty)]
  rw [trim_eq, noneBefore, noneBehind]

theorem IsEntry.entries {x : Bytes} (h : x.IsEntry) : x.entries = [x] := by
  rw [Bytes.entries, splitOn_plain h.noComma, List.map_singleton, h.trim]
  simp [h.nonempty]

theorem entries_join {xs : List Bytes} (h : ∀ x ∈ xs, x.IsEntry) : (join "," xs).entries = xs := by
  induction xs with
  | nil => rfl
  | cons x xs ih =>
    rw [List.forall_mem_cons] at h
    cases xs with
    | nil => rw [join_singleton, h.1.entries]
    | cons y rest =>
      have comma : join "," (x :: y :: rest) = x ++ ','.toUInt8 :: join "," (y :: rest) := by
        rw [join_cons_cons, List.append_assoc]
        rfl
      rw [comma, entries_append, h.1.entries, ih h.2, List.singleton_append]

end Bytes

theorem ReportFormat.ofName?_name (format : ReportFormat) : ofName? format.name = some format := by
  cases format <;> rfl

theorem LogLevel.ofName?_name (level : LogLevel) : ofName? level.name = some level := by
  cases level <;> rfl

theorem formatNames_join {xs : List Bytes}
    (h : ∀ x ∈ xs, x ∈ ReportFormat.all.map ReportFormat.name) :
    formatNames (Bytes.join "," xs) = .ok xs := by
  have entries : ∀ x ∈ xs, x.IsEntry := fun x mem => by
    obtain ⟨format, -, rfl⟩ := List.mem_map.1 (h x mem)
    exact format.isEntry_name
  rw [formatNames, Bytes.entries_join entries]
  refine (mapM_ok fun x mem => ?_).trans (congrArg _ (List.map_id xs))
  obtain ⟨format, -, rfl⟩ := List.mem_map.1 (h x mem)
  rw [ReportFormat.ofName?_name]
  rfl

namespace RunOptions

variable {options : RunOptions} {flag : Flag} {flags : List Flag}

def value? (options : RunOptions) : Flag → Option Bytes
  | .target => options.target
  | .out => options.outputDirectory
  | .config => options.configFile
  | .logLevel => options.logLevel.map LogLevel.name
  | flag => if options.list flag = [] then none else some (Bytes.join "," (options.list flag))

def written (options : RunOptions) (flag : Flag) : List Bytes :=
  match options.value? flag with
  | some value => [flag.name, value]
  | none => []

/-- Options that arguments can stand for: neither help nor what only a file sets, and lists of distinct
entries. -/
structure Writable (options : RunOptions) : Prop where
  noDetection : options.detection = none
  noHelp : options.showHelp = false
  formats : ∀ x ∈ options.formats, x ∈ ReportFormat.all.map ReportFormat.name
  distinct : ∀ flag ∈ Flag.lists, (options.list flag).Nodup
  entries : ∀ flag ∈ Flag.lists, ∀ x ∈ options.list flag, x.IsEntry

theorem value?_list (h : flag ∈ Flag.lists) : options.value? flag =
    if options.list flag = [] then none else some (Bytes.join "," (options.list flag)) := by
  simp only [Flag.lists, List.mem_cons, List.not_mem_nil, or_false] at h
  rcases h with rfl | rfl | rfl | rfl <;> rfl

theorem list_of_value? (h : flag ∈ Flag.lists) (unset : options.value? flag = none) :
    options.list flag = [] := by
  rw [value?_list h] at unset
  split_ifs at unset with empty
  exact empty

theorem Writable.entriesOf (h : options.Writable) (isList : flag ∈ Flag.lists) :
    flag.entriesOf (Bytes.join "," (options.list flag)) = .ok (options.list flag) := by
  cases flag with
  | format => exact formatNames_join h.formats
  | _ => exact congrArg Except.ok (Bytes.entries_join (h.entries _ isList))

def limitedTo (options : RunOptions) (flags : List Flag) : RunOptions :=
  { target := if .target ∈ flags then options.target else none
    outputDirectory := if .out ∈ flags then options.outputDirectory else none
    configFile := if .config ∈ flags then options.configFile else none
    formats := if .format ∈ flags then options.formats else []
    only := if .only ∈ flags then options.only else []
    exclude := if .exclude ∈ flags then options.exclude else []
    ignoredPaths := if .ignoredPaths ∈ flags then options.ignoredPaths else []
    logLevel := if .logLevel ∈ flags then options.logLevel else none }

theorem list_limitedTo : (options.limitedTo flags).list flag =
    if flag ∈ flags then options.list flag else [] := by
  cases flag <;> simp [limitedTo, list]

theorem withList_limitedTo (isList : flag ∈ Flag.lists) :
    (options.limitedTo flags).withList flag (options.list flag) =
      options.limitedTo (flag :: flags) := by
  simp only [Flag.lists, List.mem_cons, List.not_mem_nil, or_false] at isList
  rcases isList with rfl | rfl | rfl | rfl <;> simp [limitedTo, withList, list]

theorem limitedTo_unset (unset : options.value? flag = none) :
    options.limitedTo (flag :: flags) = options.limitedTo flags := by
  cases flag with
  | format | only | exclude | ignoredPaths =>
    have empty := list_of_value? (by decide) unset
    simp only [list] at empty
    simp [limitedTo, empty]
  | target | out | config =>
    simp only [value?] at unset
    simp [limitedTo, unset]
  | logLevel =>
    simp only [value?, Option.map_eq_none_iff] at unset
    simp [limitedTo, unset]

theorem limitedTo_all (h : options.Writable) (all : ∀ flag, flag ∈ flags) :
    options.limitedTo flags = options := by
  obtain ⟨target, out, config, formats, only, exclude, ignored, level, detection, help⟩ := options
  obtain rfl : detection = none := h.noDetection
  obtain rfl : help = false := h.noHelp
  simp [limitedTo, all]

theorem set_limitedTo (h : options.Writable) (new : flag ∉ flags) {value : Bytes}
    (given : options.value? flag = some value) :
    (options.limitedTo flags).set flag value = .ok (options.limitedTo (flag :: flags)) := by
  by_cases isList : flag ∈ Flag.lists
  · rw [value?_list isList] at given
    obtain ⟨-, joined⟩ := Option.ite_none_left_eq_some.1 given
    obtain rfl := Option.some.inj joined
    have distinct : appendNew [] (options.list flag) = options.list flag :=
      appendNew_distinct (h.distinct flag isList)
    rw [set_eq isList, h.entriesOf isList, list_limitedTo, if_neg new, ← withList_limitedTo isList]
    exact congrArg (fun xs => Except.ok (withList _ flag xs)) distinct
  · cases flag with
    | target | out | config =>
      simp only [value?] at given
      simp [set, limitedTo, given]
    | logLevel =>
      obtain ⟨level, set, rfl⟩ := Option.map_eq_some_iff.1 given
      simp [RunOptions.set, LogLevel.ofName?_name, limitedTo, set]
    | format | only | exclude | ignoredPaths => exact absurd (by decide) isList

theorem parse_written (h : options.Writable) {done : List Flag}
    (nodup : (flags.reverse ++ done).Nodup) :
    parse (options.limitedTo done) (flags.flatMap options.written) =
      .ok (options.limitedTo (flags.reverse ++ done)) := by
  -- The options are limited to the flags read so far at every point of the run.
  induction flags generalizing done with
  | nil => rfl
  | cons flag flags ih =>
    rw [List.reverse_cons, List.append_assoc, List.singleton_append] at nodup ⊢
    have new : flag ∉ done := (List.nodup_cons.1 (List.nodup_append.1 nodup).2.1).1
    rw [List.flatMap_cons, ← ih nodup, written]
    cases given : options.value? flag with
    | none => rw [List.nil_append, limitedTo_unset given]
    | some value =>
      rw [List.cons_append, List.singleton_append, parse_flag, set_limitedTo h new given]
      rfl

theorem ofArguments_written (options : RunOptions) (h : options.Writable) (flags : List Flag)
    (order : flags.Perm Flag.all) : ofArguments (flags.flatMap options.written) = .ok options := by
  have all : ∀ flag, flag ∈ flags.reverse ++ [] := fun flag => by
    rw [List.append_nil, List.mem_reverse, order.mem_iff]
    cases flag <;> decide
  have nodup : (flags.reverse ++ []).Nodup := by
    rw [List.append_nil, List.nodup_reverse, order.nodup_iff]
    decide
  exact (parse_written h nodup).trans (congrArg _ (limitedTo_all h all))

theorem ofArguments_written_flagLike :
    let options : RunOptions :=
      { target := some "--help", outputDirectory := some "", configFile := some "--only"
        formats := ["markdown", "json"], only := ["--exclude", "-x y"], ignoredPaths := ["-", "--"]
        logLevel := some .debug }
    options.Writable ∧ Flag.all.reverse.Perm Flag.all ∧
      Flag.all.reverse.flatMap options.written =
        ["--log-level", "debug", "--ignored-paths", "-,--", "--only", "--exclude,-x y",
          "--format", "markdown,json", "--config", "--only", "--out", "", "--target", "--help"] ∧
      ofArguments ["--log-level", "debug", "--ignored-paths", "-,--", "--only", "--exclude,-x y",
        "--format", "markdown,json", "--config", "--only", "--out", "", "--target", "--help"] =
          .ok options := by
  intro options
  have writable : options.Writable := ⟨rfl, rfl, by decide, by decide, by decide +kernel⟩
  exact ⟨writable, List.reverse_perm _, rfl,
    ofArguments_written options writable Flag.all.reverse (List.reverse_perm _)⟩

end RunOptions

end CodeSmell
