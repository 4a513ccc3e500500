import CodeSmell.Proofs.Files.Resolved
import CodeSmell.Proofs.Results

/-!
The sources of a directory, and each of them as a target of its own. A source of a directory has the path
of a resolved location, so that as a target it is found under the same path; whether it is a source then
depends on that path's own name.
-/

namespace CodeSmell

namespace FileTree

variable {tree : FileTree} {l place : Location} {ignored names : List Bytes} {root path file : Bytes}
  {content : Bytes}

/-- No ignored path leads to what has the path `p`, by its names. -/
def Spared (tree : FileTree) (ignored : List Bytes) (p : Path) : Prop :=
  ∀ path ∈ ignored, ∃ q, tree.canonical path = .ok q ∧ q.leadsTo p = false

theorem spared_of_not_isIgnored {p : Path} (h : tree.isIgnored ignored p = .ok false) :
    tree.Spared ignored p := by
  intro path mem
  obtain ⟨q, canonical, other⟩ := bind_eq_ok.1 (anyM_eq_false h path mem)
  exact ⟨q, canonical, Except.ok.inj other⟩

structure IsSource (tree : FileTree) (ignored : List Bytes) (place : Location) (content : Bytes) :
    Prop where
  resolved : tree.Resolved place
  isFile : tree.node? place = some (.file content)
  spared : tree.Spared ignored place.path

theorem status_eq_file (h : tree.status path = .ok (some (.file content))) :
    ∃ place, tree.locate path = .ok place ∧ tree.node? place = some (.file content) := by
  unfold status at h
  split at h
  · next place located => exact ⟨place, located, Except.ok.inj h⟩
  all_goals cases h

theorem status_eq_directory (h : tree.status path = .ok (some .directory)) :
    ∃ place, tree.locate path = .ok place ∧ tree.node? place = some .directory := by
  unfold status at h
  split at h
  · next place located => exact ⟨place, located, Except.ok.inj h⟩
  all_goals cases h

/-- A source that is found at `l` under this path: it stands there, or a link at `l` leads to it. -/
structure FoundAt (tree : FileTree) (ignored : List Bytes) (l : Location) (path : Bytes)
    (place : Location) (content : Bytes) : Prop extends tree.IsSource ignored place content where
  located : tree.locate path = .ok place
  isPython : isPythonName (Path.fileName path) = true
  stands : place = l ∨ ∃ target, tree.node? l = some (.link target)

theorem locate_of_linked (direct : ∀ content, tree.node? l = some (.file content) → tree.locate path = .ok l)
    (linked : tree.linked l path = .ok (some (.file content))) :
    ∃ place, tree.locate path = .ok place ∧ tree.node? place = some (.file content) ∧
      (place = l ∨ ∃ target, tree.node? l = some (.link target)) := by
  unfold FileTree.linked at linked
  split at linked
  · next target isLink =>
    obtain ⟨place, located, isFile⟩ := status_eq_file linked
    exact ⟨place, located, isFile, .inr ⟨target, isLink⟩⟩
  · have isFile := Except.ok.inj linked
    exact ⟨l, direct content isFile, isFile, .inl rfl⟩

theorem Sound.source (sound : tree.Sound) (noZero : (0 : UInt8) ∉ path)
    (direct : ∀ content, tree.node? l = some (.file content) → path.length ≤ maxPathLength →
      tree.locate path = .ok l)
    (found : tree.source? ignored l path = .ok (some file)) :
    ∃ place content, tree.FoundAt ignored l path place content ∧ file = place.path.text := by
  rw [source?] at found
  obtain ⟨candidate, canonical, found⟩ := bind_eq_ok.1 found
  obtain ⟨node, linked, found⟩ := bind_eq_ok.1 found
  have short : path.length ≤ maxPathLength := by
    refine Nat.le_of_not_lt fun long => ?_
    rw [canonical_of_long noZero long] at canonical
    cases canonical
  rcases node with _ | (_ | content | _ | _)
  case none | link | device => cases found
  case directory =>
    simp only at found
    cases skipped : tree.isSkipped ignored path <;> simp [skipped, Except.map] at found
  case file =>
    obtain ⟨place, located, isFile, stands⟩ :=
      locate_of_linked (fun content isFile => direct content isFile short) linked
    obtain rfl := Except.ok.inj (canonical.symm.trans (canonical_of_locate located))
    simp only at found
    split_ifs at found with other
    · cases found
    rw [Bool.not_eq_true', Bool.not_eq_false] at other
    obtain ⟨inside, outside, found⟩ := bind_eq_ok.1 found
    cases inside with
    | true => cases found
    | false =>
      have source : tree.IsSource ignored place content :=
        ⟨sound.resolved located, isFile, spared_of_not_isIgnored outside⟩
      exact ⟨place, content, ⟨source, located, other, stands⟩,
        (Option.some.inj (Except.ok.inj found)).symm⟩

theorem isEntered_eq_true (h : tree.isEntered ignored l path = .ok true) :
    tree.node? l = some .directory := by
  unfold isEntered at h
  split_ifs at h with directory
  · exact any_isDirectory.1 directory
  · cases h

theorem Sound.sourceBelow (sound : tree.Sound) (noZero : (0 : UInt8) ∉ root)
    (located : tree.locate root = .ok l) (directory : tree.node? l = some .directory)
    (isName : ∀ name ∈ names, IsFileName name) (some : names ≠ [])
    (found : tree.sourceBelow? ignored l root names = .ok (.some file)) :
    ∃ place content, tree.FoundAt ignored (l ++ names)
      (Path.within root (Bytes.join [Path.separator] names)) place content ∧
      file = place.path.text := by
  rw [sourceBelow?] at found
  obtain ⟨entered, onTheWay, found⟩ := bind_eq_ok.1 found
  cases entered with
  | false => cases found
  | true =>
    have nonempty : root ≠ [] := Path.beforeZero_eq noZero ▸ nonempty_of_locate located
    refine sound.source (Path.noZero_entry isName nonempty noZero) (fun content isFile short => ?_) found
    refine locate_entry noZero located isName some (fun before name after split => ?_) isFile nofun short
    cases before with
    | nil => exact (List.append_nil l).symm ▸ directory
    | cons first before =>
      have isOnTheWay : first :: before ∈ (List.range names.length).tail.map names.take := by
        refine List.mem_map.2 ⟨before.length + 1, ?_, split ▸ List.take_left' rfl⟩
        rw [List.tail_range, List.mem_range'_1, split, List.length_append, List.length_cons,
          List.length_cons]
        omega
      exact isEntered_eq_true (allM_eq_true onTheWay _ isOnTheWay)

theorem Sound.sourcesBelow (sound : tree.Sound) (noZero : (0 : UInt8) ∉ root)
    (located : tree.locate root = .ok l) (directory : tree.node? l = some .directory)
    {files : List Bytes} (found : tree.sourcesBelow ignored l root = .ok files) :
    files.Pairwise (· < ·) ∧ ∀ file ∈ files, ∃ names place content,
      (∀ name ∈ names, IsFileName name) ∧
      tree.FoundAt ignored (l ++ names) (Path.within root (Bytes.join [Path.separator] names)) place
        content ∧
      file = place.path.text := by
  obtain ⟨results, searched, found⟩ := bind_eq_ok.1 found
  obtain rfl := Except.ok.inj found
  refine ⟨sortedSet_sorted _, fun file mem => ?_⟩
  obtain ⟨result, mem, rfl⟩ := List.mem_filterMap.1 (mem_sortedSet.1 mem)
  obtain ⟨names, mem, found⟩ := mem_of_mapM_ok searched mem
  obtain ⟨entry, inTree, below⟩ := List.mem_filterMap.1 mem
  unfold namesBelow? at below
  split_ifs at below with isBelow
  obtain rfl := Option.some.inj below
  rw [Bool.and_eq_true, decide_eq_true_eq] at isBelow
  have isName : ∀ name ∈ entry.1.drop l.length, IsFileName name :=
    fun name mem => sound.names entry inTree name (List.mem_of_mem_drop mem)
  have some : entry.1.drop l.length ≠ [] := mt List.drop_eq_nil_iff.1 (Nat.not_le.2 isBelow.2)
  obtain ⟨place, content, foundAt, same⟩ := sound.sourceBelow noZero located directory isName some found
  exact ⟨_, place, content, isName, foundAt, same⟩

def sourcesOfFile (file : Bytes) : Except SourceError Sources :=
  if maxPathLength < file.length then
    .error (.unresolved { operation := "status", fault := .nameTooLong, path := file })
  else if isPythonName (Path.fileName file) then
    .ok { files := [file], root := (Path.ofText file).parent.text, isSearched := false }
  else .error (.notPython file)

theorem IsSource.sources_target (h : tree.IsSource ignored place content) {direct : Settings}
    (target : direct.target = place.path.text) :
    tree.sources direct = sourcesOfFile place.path.text := by
  rw [sources, sourcesOfFile, target, if_neg (Location.text_path_ne_nil place),
    Location.ofText_text h.resolved.isFileName]
  by_cases long : maxPathLength < place.path.text.length
  · rw [if_pos long, canonical_of_long (Location.noZero_text h.resolved.isFileName) long]
    rfl
  · have located := h.resolved.locate_text (Nat.le_of_not_lt long)
    have status : tree.status place.path.text = .ok (some (.file content)) := by
      rw [FileTree.status, located, ← h.isFile]
    rw [if_neg long, canonical_of_locate located]
    simp only [Except.mapError, bind, Except.bind, pure, Except.pure, status]
    rfl

def LinkedBelow (tree : FileTree) (root file : Bytes) : Prop :=
  ∃ l names target place, tree.locate root = .ok l ∧ tree.node? (l ++ names) = some (.link target) ∧
    isPythonName (names.getLast?.getD []) = true ∧
    tree.locate (Path.within root (Bytes.join [Path.separator] names)) = .ok place ∧
    file = place.path.text

/-- A source of the directory at `root`. No ignored path leads to it; as a target of its own it is the
only source, if it has the name of a Python file, and all others are reached through links. -/
structure IsSourceOf (tree : FileTree) (ignoredPaths : List Bytes) (root file : Bytes) : Prop where
  spared : ∀ ignored ∈ ignoredPaths, ∃ q, tree.canonical (Path.within root ignored) = .ok q ∧
    q.leadsTo (Path.ofText file) = false
  target : ∀ direct : Settings, direct.target = file → tree.sources direct = sourcesOfFile file
  named : isPythonName (Path.fileName file) = true ∨ tree.LinkedBelow root file

theorem FoundAt.isSourceOf {ignoredPaths : List Bytes} (located : tree.locate root = .ok l)
    (nonempty : root ≠ []) (isName : ∀ name ∈ names, IsFileName name)
    (h : tree.FoundAt (ignoredPaths.map (Path.within root)) (l ++ names)
      (Path.within root (Bytes.join [Path.separator] names)) place content) :
    tree.IsSourceOf ignoredPaths root place.path.text where
  spared ignored mem := by
    rw [Location.ofText_text h.resolved.isFileName]
    exact h.spared _ (List.mem_map_of_mem mem)
  target _ same := h.sources_target same
  named := by
    have isPython := h.isPython
    rw [Path.fileName_entry isName nonempty] at isPython
    rcases h.stands with rfl | ⟨target, isLink⟩
    · have some : names ≠ [] := by
        rintro rfl
        exact absurd isPython (by decide)
      left
      rw [Location.fileName_text h.resolved.isFileName, List.getLast?_append_of_ne_nil _ some]
      exact isPython
    · exact .inr ⟨l, names, target, place, located, isLink, isPython, h.located, rfl⟩

theorem sources_of_directory {settings : Settings} {target : Path} {found : Sources}
    (resolved : tree.canonical settings.target = .ok target)
    (directory : tree.status target.text = .ok (some .directory))
    (ok : tree.sources settings = .ok found) :
    found.root = target.text ∧ ∃ l, tree.locate found.root = .ok l ∧
      tree.node? l = some .directory ∧
      tree.sourcesBelow (settings.ignoredPaths.map (Path.within found.root)) l found.root =
        .ok found.files := by
  obtain ⟨l, located, isDirectory⟩ := status_eq_directory directory
  rw [sources] at ok
  split_ifs at ok
  · cases ok
  obtain ⟨_, canonical, ok⟩ := bind_eq_ok.1 ok
  obtain rfl := Except.ok.inj (resolved.symm.trans (mapError_eq_ok.1 canonical))
  obtain ⟨_, status, ok⟩ := bind_eq_ok.1 ok
  obtain rfl := Except.ok.inj (directory.symm.trans (mapError_eq_ok.1 status))
  simp only [located, Except.toOption, Option.getD_some] at ok
  obtain ⟨files, below, ok⟩ := bind_eq_ok.1 ok
  split_ifs at ok
  · cases ok
  · obtain rfl := Except.ok.inj ok
    exact ⟨rfl, l, located, isDirectory, mapError_eq_ok.1 below⟩

/-- The search of a directory gives its sources in order, each once, and each of them is as a target what
it is as a source, unless a link has lent it the name of a Python file. -/
theorem sources_targets {settings : Settings} {target : Path} {found : Sources} (sound : tree.Sound)
    (noZero : (0 : UInt8) ∉ settings.target) (resolved : tree.canonical settings.target = .ok target)
    (directory : tree.status target.text = .ok (some .directory))
    (ok : tree.sources settings = .ok found) :
    found.files.Pairwise (· < ·) ∧
      ∀ file ∈ found.files, tree.IsSourceOf settings.ignoredPaths found.root file := by
  obtain ⟨isRoot, l, located, isDirectory, below⟩ := sources_of_directory resolved directory ok
  have noZero : (0 : UInt8) ∉ found.root := isRoot ▸ sound.noZero_canonical noZero resolved
  have nonempty : found.root ≠ [] := Path.beforeZero_eq noZero ▸ nonempty_of_locate located
  obtain ⟨sorted, each⟩ := sound.sourcesBelow noZero located isDirectory below
  refine ⟨sorted, fun file mem => ?_⟩
  obtain ⟨names, place, content, isName, foundAt, rfl⟩ := each file mem
  exact foundAt.isSourceOf located nonempty isName

def linkedTree : FileTree where
  nodes := [(["r"], .directory), (["r", "a.txt"], .file "x = 1"), (["r", "b.py"], .link "a.txt"),
    (["r", "c.py"], .file "y = 2"), (["r", "d"], .directory), (["r", "d", "e.py"], .file "z = 3"),
    (["r", "f.py"], .link "../r/c.py")]
  current := ["r"]

theorem sources_targets_linked :
    let settings : Settings := { target := ".", ignoredPaths := ["d"] }
    let found : Sources := { files := ["/r/a.txt", "/r/c.py"], root := "/r", isSearched := true }
    linkedTree.Sound ∧ (0 : UInt8) ∉ settings.target ∧
      linkedTree.canonical settings.target = .ok (Location.path ["r"]) ∧
      linkedTree.status (Location.path ["r"]).text = .ok (some .directory) ∧
      linkedTree.sources settings = .ok found ∧ found.files.Pairwise (· < ·) ∧
      ∀ file ∈ found.files, linkedTree.IsSourceOf settings.ignoredPaths found.root file := by
  intro settings found
  have sound : linkedTree.Sound := by
    refine ⟨by decide, ?_⟩
    change linkedTree.Resolved (([] : Location) ++ [("r" : Bytes)])
    exact .entry .root rfl (by decide) rfl nofun
  have noZero : (0 : UInt8) ∉ settings.target := by decide
  have resolved : linkedTree.canonical settings.target = .ok (Location.path ["r"]) := by decide +kernel
  have directory : linkedTree.status (Location.path ["r"]).text = .ok (some .directory) := by decide +kernel
  have ok : linkedTree.sources settings = .ok found := by decide +kernel
  exact ⟨sound, noZero, resolved, directory, ok, sources_targets sound noZero resolved directory ok⟩

theorem linked_text_refused :
    ∃ found, linkedTree.sources { target := ".", ignoredPaths := ["d"] } = .ok found ∧
      ("/r/a.txt" : Bytes) ∈ found.files ∧
      linkedTree.sources { target := "/r/a.txt" } = .error (.notPython "/r/a.txt") :=
  ⟨{ files := ["/r/a.txt", "/r/c.py"], root := "/r", isSearched := true }, by decide +kernel,
    List.mem_cons_self, by decide +kernel⟩

end FileTree
end CodeSmell
