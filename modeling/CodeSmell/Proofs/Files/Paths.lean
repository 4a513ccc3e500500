import CodeSmell.Proofs.Lists
import CodeSmell.Sources
import Mathlib.Data.List.TakeWhile
import Mathlib.Tactic

/-!
Paths as texts. The pieces of a path are its names without the empty one for a separator at the end; the
path of something in a directory has the pieces of both. Of names that a directory can hold, a path is
read back from its text.
-/

namespace CodeSmell

structure IsEntryName (name : Bytes) : Prop where
  nonempty : name ≠ []
  notHere : name ≠ Path.here
  notAbove : name ≠ Path.above
  fits : name.length ≤ FileTree.maxNameLength

structure IsFileName (name : Bytes) : Prop extends IsEntryName name where
  noSeparator : Path.separator ∉ name
  noZero : (0 : UInt8) ∉ name

instance (name : Bytes) : Decidable (IsFileName name) :=
  decidable_of_iff (name ≠ [] ∧ name ≠ Path.here ∧ name ≠ Path.above ∧
      name.length ≤ FileTree.maxNameLength ∧ Path.separator ∉ name ∧ (0 : UInt8) ∉ name)
    ⟨fun ⟨nonempty, notHere, notAbove, fits, noSeparator, noZero⟩ =>
        ⟨⟨nonempty, notHere, notAbove, fits⟩, noSeparator, noZero⟩,
      fun h => ⟨h.nonempty, h.notHere, h.notAbove, h.fits, h.noSeparator, h.noZero⟩⟩

theorem Bytes.mem_of_mem_splitOn {sep b : UInt8} {s piece : Bytes} (h : piece ∈ splitOn sep s)
    (mem : b ∈ piece) : b ∈ s := by
  induction s generalizing piece with
  | nil => rwa [List.mem_singleton.1 h] at mem
  | cons a rest ih =>
    rw [splitOn] at h
    split_ifs at h with isSep
    · rcases List.mem_cons.1 h with rfl | h
      · cases mem
      · exact .tail _ (ih h mem)
    · split at h
      · next first pieces eq =>
        rw [eq, List.forall_mem_cons] at ih
        rcases List.mem_cons.1 h with rfl | h
        · exact (List.mem_cons.1 mem).elim (· ▸ .head _) fun mem => .tail _ (ih.1 mem)
        · exact .tail _ (ih.2 piece h mem)
      · rw [List.mem_singleton.1 h] at mem
        exact List.mem_singleton.1 mem ▸ .head _

namespace Path

variable {text directory path : Bytes} {names : List Bytes}

def pieces (text : Bytes) : List Bytes := (text.splitOn separator).filter (!·.isEmpty)

theorem names_ofText (text : Bytes) :
    (ofText text).names = if pieces text ≠ [] ∧ text.getLast? = some separator
      then pieces text ++ [[]] else pieces text :=
  rfl

theorem isAbsolute_ofText : (ofText text).isAbsolute = decide (text.head? = some separator) := rfl

theorem not_separator_of_mem_names {name : Bytes} (h : name ∈ (ofText text).names) :
    separator ∉ name := by
  have inPieces {name : Bytes} (h : name ∈ pieces text) : separator ∉ name :=
    Bytes.not_mem_splitOn (List.mem_filter.1 h).1
  rw [names_ofText] at h
  split_ifs at h
  · rcases List.mem_append.1 h with h | h
    · exact inPieces h
    · rw [List.mem_singleton.1 h]
      exact List.not_mem_nil
  · exact inPieces h

theorem mem_of_mem_names {name : Bytes} {b : UInt8} (h : name ∈ (ofText text).names) (mem : b ∈ name) :
    b ∈ text := by
  have inPieces {name : Bytes} (h : name ∈ pieces text) (mem : b ∈ name) : b ∈ text :=
    Bytes.mem_of_mem_splitOn (List.mem_filter.1 h).1 mem
  rw [names_ofText] at h
  split_ifs at h
  · rcases List.mem_append.1 h with h | h
    · exact inPieces h mem
    · rw [List.mem_singleton.1 h] at mem
      cases mem
  · exact inPieces h mem

theorem pieces_append (s t : Bytes) : pieces (s ++ separator :: t) = pieces s ++ pieces t := by
  rw [pieces, Bytes.splitOn_append, List.filter_append]
  rfl

section Plain

variable (plain : ∀ name ∈ names, name ≠ [] ∧ separator ∉ name)

include plain

theorem splitOn_join (some : names ≠ []) :
    (Bytes.join [separator] names).splitOn separator = names := by
  induction names with
  | nil => exact absurd rfl some
  | cons name rest ih =>
    rw [List.forall_mem_cons] at plain
    cases rest with
    | nil => rw [Bytes.join_singleton, Bytes.splitOn_plain plain.1.2]
    | cons second rest =>
      rw [Bytes.join_cons_cons, List.append_assoc, List.singleton_append, Bytes.splitOn_append,
        Bytes.splitOn_plain plain.1.2, ih plain.2 (List.cons_ne_nil _ _), List.singleton_append]

theorem pieces_join : pieces (Bytes.join [separator] names) = names := by
  cases names with
  | nil => rfl
  | cons name rest =>
    rw [pieces, splitOn_join plain (List.cons_ne_nil _ _)]
    exact List.filter_eq_self.2 fun name mem => by simpa using (plain name mem).1

theorem head_join : (Bytes.join [separator] names).head? ≠ some separator := by
  cases names with
  | nil => exact nofun
  | cons name rest =>
    obtain ⟨nonempty, none⟩ := plain name (.head _)
    obtain ⟨b, tail, rfl⟩ := List.exists_cons_of_ne_nil nonempty
    have other : b ≠ separator := fun same => none (same ▸ .head _)
    cases rest with
    | nil => simpa [Bytes.join_singleton] using other
    | cons second rest => simpa [Bytes.join_cons_cons] using other

theorem join_ne_nil (some : names ≠ []) : Bytes.join [separator] names ≠ [] := by
  intro nil
  have joined := pieces_join plain
  rw [nil] at joined
  exact some joined.symm

theorem getLast_join : (Bytes.join [separator] names).getLast? ≠ some separator := by
  induction names with
  | nil => exact nofun
  | cons name rest ih =>
    rw [List.forall_mem_cons] at plain
    cases rest with
    | nil =>
      rw [Bytes.join_singleton]
      exact fun last => plain.1.2 (List.mem_of_getLast? last)
    | cons second rest =>
      have nonempty := join_ne_nil plain.2 (List.cons_ne_nil second rest)
      rw [Bytes.join_cons_cons, List.getLast?_append_of_ne_nil _ nonempty]
      exact ih plain.2

theorem fileName_join : fileName (Bytes.join [separator] names) = names.getLast?.getD [] := by
  cases names with
  | nil => rfl
  | cons name rest => rw [fileName, splitOn_join plain (List.cons_ne_nil _ _)]

end Plain

/-! ## Paths in a directory -/

theorem within_eq (isRelative : path.head? ≠ some separator) (nonempty : directory ≠ []) :
    within directory path = if directory.getLast? = some separator then directory ++ path
      else directory ++ separator :: path := by
  rw [within, if_neg isRelative]
  simp only [nonempty, false_or]

theorem pieces_within (isRelative : path.head? ≠ some separator) (nonempty : directory ≠ []) :
    pieces (within directory path) = pieces directory ++ pieces path := by
  rw [within_eq isRelative nonempty]
  split_ifs with closed
  · obtain ⟨d, rfl⟩ := List.getLast?_eq_some_iff.1 closed
    rw [List.append_assoc, List.singleton_append, pieces_append, pieces_append]
    simp [pieces, Bytes.splitOn]
  · exact pieces_append directory path

theorem head_within (isRelative : path.head? ≠ some separator) (nonempty : directory ≠ []) :
    (within directory path).head? = directory.head? := by
  rw [within_eq isRelative nonempty]
  split_ifs <;> exact List.head?_append_of_ne_nil _ nonempty

theorem getLast_within (isRelative : path.head? ≠ some separator) (nonempty : directory ≠ [])
    (some : path ≠ []) : (within directory path).getLast? = path.getLast? := by
  rw [within_eq isRelative nonempty]
  split_ifs
  · exact List.getLast?_append_of_ne_nil _ some
  · rw [List.getLast?_append_of_ne_nil _ (List.cons_ne_nil _ _), List.getLast?_cons_of_ne_nil some]

/-! ## Zero bytes -/

theorem noZero_beforeZero (path : Bytes) : (0 : UInt8) ∉ beforeZero path := by
  intro zero
  simpa using List.mem_takeWhile_imp zero

theorem beforeZero_eq (noZero : (0 : UInt8) ∉ path) : beforeZero path = path :=
  List.takeWhile_eq_self_iff.2 fun _ mem => bne_iff_ne.2 fun zero => noZero (zero ▸ mem)

theorem mem_join {names : List Bytes} {b : UInt8} (h : b ∈ Bytes.join [separator] names) :
    b = separator ∨ ∃ name ∈ names, b ∈ name := by
  induction names with
  | nil => cases h
  | cons name rest ih =>
    cases rest with
    | nil =>
      rw [Bytes.join_singleton] at h
      exact .inr ⟨name, .head _, h⟩
    | cons second rest =>
      rw [Bytes.join_cons_cons, List.append_assoc, List.mem_append, List.mem_append] at h
      rcases h with mem | mem | mem
      · exact .inr ⟨name, .head _, mem⟩
      · exact .inl (List.mem_singleton.1 mem)
      · exact (ih mem).imp_right fun ⟨name, inRest, mem⟩ => ⟨name, .tail _ inRest, mem⟩

theorem noZero_join {names : List Bytes} (noZero : ∀ name ∈ names, (0 : UInt8) ∉ name) :
    (0 : UInt8) ∉ Bytes.join [separator] names := by
  intro zero
  rcases mem_join zero with isSeparator | ⟨name, mem, zero⟩
  · exact absurd isSeparator (by decide)
  · exact noZero name mem zero

theorem noZero_text {p : Path} (noZero : ∀ name ∈ p.names, (0 : UInt8) ∉ name) : (0 : UInt8) ∉ p.text := by
  have joined := noZero_join noZero
  rw [text]
  split_ifs
  · exact List.not_mem_cons_of_ne_of_not_mem (by decide) joined
  · exact joined

theorem fileName_append (s t : Bytes) : fileName (s ++ separator :: t) = fileName t := by
  rw [fileName, Bytes.splitOn_append, List.getLast?_append_of_ne_nil _ (Bytes.splitOn_ne_nil _ _)]
  rfl

theorem fileName_within (isRelative : path.head? ≠ some separator) (nonempty : directory ≠ []) :
    fileName (within directory path) = fileName path := by
  rw [within_eq isRelative nonempty]
  split_ifs with closed
  · obtain ⟨d, rfl⟩ := List.getLast?_eq_some_iff.1 closed
    rw [List.append_assoc, List.singleton_append, fileName_append]
  · exact fileName_append directory path

theorem noZero_within (isRelative : path.head? ≠ some separator) (nonempty : directory ≠ [])
    (inDirectory : (0 : UInt8) ∉ directory) (inPath : (0 : UInt8) ∉ path) :
    (0 : UInt8) ∉ within directory path := by
  rw [within_eq isRelative nonempty]
  split_ifs
  · exact List.not_mem_append inDirectory inPath
  · exact List.not_mem_append inDirectory (List.not_mem_cons_of_ne_of_not_mem (by decide) inPath)

/-! ## Entries of directories -/

section Entries

variable (isName : ∀ name ∈ names, IsFileName name) (nonempty : directory ≠ [])

include isName

theorem plain_of_isFileName : ∀ name ∈ names, name ≠ [] ∧ separator ∉ name :=
  fun name mem => ⟨(isName name mem).nonempty, (isName name mem).noSeparator⟩

include nonempty

theorem names_entry (some : names ≠ []) :
    (ofText (within directory (Bytes.join [separator] names))).names = pieces directory ++ names := by
  have plain := plain_of_isFileName isName
  have isRelative := head_join plain
  rw [names_ofText, if_neg, pieces_within isRelative nonempty, pieces_join plain]
  rintro ⟨-, closed⟩
  rw [getLast_within isRelative nonempty (join_ne_nil plain some)] at closed
  exact getLast_join plain closed

theorem fileName_entry :
    fileName (within directory (Bytes.join [separator] names)) = names.getLast?.getD [] := by
  have plain := plain_of_isFileName isName
  rw [fileName_within (head_join plain) nonempty, fileName_join plain]

theorem head_entry :
    (within directory (Bytes.join [separator] names)).head? = directory.head? :=
  head_within (head_join (plain_of_isFileName isName)) nonempty

theorem entry_ne_nil : within directory (Bytes.join [separator] names) ≠ [] := by
  intro nil
  have begins := head_entry isName nonempty
  rw [nil] at begins
  exact nonempty (List.head?_eq_none_iff.1 begins.symm)

theorem noZero_entry (noZero : (0 : UInt8) ∉ directory) :
    (0 : UInt8) ∉ within directory (Bytes.join [separator] names) :=
  noZero_within (head_join (plain_of_isFileName isName)) nonempty noZero
    (noZero_join fun name mem => (isName name mem).noZero)

end Entries

/-! ## Normal paths -/

theorem mem_addName {isAbsolute : Bool} {done : List Bytes} {name other : Bytes}
    (h : other ∈ addName isAbsolute done name) :
    other ∈ done ∨ other = name ∨ other = [] ∨ other = above := by
  have closed : (if done.head? = some [] then done.tail else done) ⊆ done := by
    split_ifs
    · exact List.tail_subset done
    · exact List.Subset.refl done
  rw [addName] at h
  generalize (if done.head? = some [] then done.tail else done) = rest at h closed
  grind

theorem mem_foldl_addName {isAbsolute : Bool} {names done : List Bytes} {other : Bytes}
    (h : other ∈ names.foldl (addName isAbsolute) done) :
    other ∈ done ∨ other ∈ names ∨ other = [] ∨ other = above := by
  induction names generalizing done with
  | nil => exact .inl h
  | cons first names ih =>
    rcases ih h with mem | mem | dots
    · rcases mem_addName mem with mem | rfl | dots
      · exact .inl mem
      · exact .inr (.inl (.head _))
      · exact .inr (.inr dots)
    · exact .inr (.inl (.tail _ mem))
    · exact .inr (.inr dots)

theorem closeAbove_subset (done : List Bytes) : closeAbove done ⊆ done := by
  unfold closeAbove
  split
  · split_ifs
    · exact List.subset_cons_self ..
    · exact List.Subset.refl _
  · exact List.Subset.refl _

theorem mem_normal {p : Path} {name : Bytes} (h : name ∈ p.normal.names) :
    name ∈ p.names ∨ name = [] ∨ name = here ∨ name = above := by
  unfold normal at h
  split_ifs at h
  · exact .inl h
  simp only at h
  split_ifs at h
  · exact .inr (.inr (.inl (List.mem_singleton.1 h)))
  · rcases mem_foldl_addName (closeAbove_subset _ (List.mem_reverse.1 h)) with mem | mem | mem | mem
    · cases mem
    · exact .inl mem
    · exact .inr (.inl mem)
    · exact .inr (.inr (.inr mem))

end Path

/-! ## Paths of locations -/

namespace Location

variable {l : Location}

theorem text_path (l : Location) : l.path.text = Path.separator :: Bytes.join [Path.separator] l := rfl

theorem text_path_ne_nil (l : Location) : l.path.text ≠ [] := List.cons_ne_nil _ _

theorem ofText_text (names : ∀ name ∈ l, IsFileName name) : Path.ofText l.path.text = l.path := by
  have plain := Path.plain_of_isFileName names
  have pieces : Path.pieces l.path.text = l :=
    (Path.pieces_append [] _).trans (Path.pieces_join plain)
  have notClosed : ¬(l ≠ [] ∧ l.path.text.getLast? = some Path.separator) := by
    rintro ⟨some, closed⟩
    rw [text_path, List.getLast?_cons_of_ne_nil (Path.join_ne_nil plain some)] at closed
    exact Path.getLast_join plain closed
  have same : (Path.ofText l.path.text).names = l := by
    rw [Path.names_ofText, pieces, if_neg notClosed]
  exact congrArg (Path.mk true) same

theorem fileName_text (names : ∀ name ∈ l, IsFileName name) :
    Path.fileName l.path.text = l.getLast?.getD [] :=
  (Path.fileName_append [] _).trans (Path.fileName_join (Path.plain_of_isFileName names))

theorem noZero_text (names : ∀ name ∈ l, IsFileName name) : (0 : UInt8) ∉ l.path.text :=
  Path.noZero_text fun name mem => (names name mem).noZero

end Location

end CodeSmell
