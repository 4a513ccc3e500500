import CodeSmell.Proofs.Files.Paths

/-!
What paths lead to. `Leads` says how names are followed through directories and links; a location that
they lead to is resolved: directories are above it, it is no link itself, and its own path leads to it
again.
-/

namespace CodeSmell

def Node.IsLink (node : Node) : Prop := ∃ target, node = .link target

namespace FileTree

variable {tree : FileTree} {n m k : Nat} {l l' place : Location} {names rest : List Bytes}

theorem any_isDirectory {node : Option Node} :
    node.any Node.isDirectory = true ↔ node = some .directory := by
  rcases node with _ | (_ | _ | _ | _) <;> simp [Node.isDirectory]

/-- From `l` the names lead to a place, and of the `n` links that may be followed some are left. -/
inductive Leads (tree : FileTree) : Nat → Location → List Bytes → Nat → Location → Prop
  | done {n : Nat} {l : Location} : Leads tree n l [] n l
  | here {n m : Nat} {l place : Location} {name : Bytes} {rest : List Bytes} :
    tree.node? l = some .directory → name = [] ∨ name = Path.here → Leads tree n l rest m place →
    Leads tree n l (name :: rest) m place
  | above {n m : Nat} {l place : Location} {rest : List Bytes} : tree.node? l = some .directory →
    Leads tree n l.dropLast rest m place → Leads tree n l (Path.above :: rest) m place
  | entry {n m : Nat} {l place : Location} {name : Bytes} {rest : List Bytes} {node : Node} :
    tree.node? l = some .directory → IsEntryName name → tree.node? (l ++ [name]) = some node →
    ¬node.IsLink → Leads tree n (l ++ [name]) rest m place → Leads tree n l (name :: rest) m place
  | link {n m : Nat} {l place : Location} {name target : Bytes} {rest : List Bytes} :
    tree.node? l = some .directory → IsEntryName name →
    tree.node? (l ++ [name]) = some (.link target) →
    Leads tree n (if (Path.ofText (Path.beforeZero target)).isAbsolute then [] else l)
      ((Path.ofText (Path.beforeZero target)).names ++ rest) m place →
    Leads tree (n + 1) l (name :: rest) m place

theorem leads_of_followBy {jump : Location → List Bytes → Except PathFault Location}
    (jumps : ∀ l names place, jump l names = .ok place →
      ∃ k m, n = k + 1 ∧ tree.Leads k l names m place)
    (h : tree.followBy false jump l names = .ok place) : ∃ m, tree.Leads n l names m place := by
  induction names generalizing l with
  | nil => exact ⟨n, Except.ok.inj h ▸ .done⟩
  | cons name rest ih =>
    simp only [followBy, Bool.false_eq_true, false_and, ↓reduceIte] at h
    split_ifs at h with directory here above long
    all_goals rw [Bool.not_eq_true', Bool.not_eq_false, any_isDirectory] at directory
    · obtain ⟨m, leads⟩ := ih h
      exact ⟨m, .here directory here leads⟩
    · obtain ⟨m, leads⟩ := ih h
      exact ⟨m, above ▸ .above directory leads⟩
    · rw [not_or] at here
      have isName : IsEntryName name := ⟨here.1, here.2, above, Nat.le_of_not_lt long⟩
      split at h
      · cases h
      · next target found =>
        obtain ⟨k, m, rfl, leads⟩ := jumps _ _ _ h
        exact ⟨m, .link directory isName found leads⟩
      · next node notLink found =>
        obtain ⟨m, leads⟩ := ih h
        exact ⟨m, .entry directory isName found (fun ⟨target, isLink⟩ => notLink target isLink) leads⟩

theorem leads_of_follow (h : tree.follow false n l names = .ok place) :
    ∃ m, tree.Leads n l names m place := by
  induction n generalizing l names place with
  | zero => exact leads_of_followBy (fun _ _ _ jumped => by cases jumped) h
  | succ n ih =>
    refine leads_of_followBy (fun l names place jumped => ?_) h
    obtain ⟨m, leads⟩ := ih jumped
    exact ⟨n, m, rfl, leads⟩

theorem follow_eq (tree : FileTree) (n : Nat) :
    ∃ jump, tree.follow false n = tree.followBy false jump := by
  cases n with
  | zero => exact ⟨_, rfl⟩
  | succ n => exact ⟨_, rfl⟩

theorem Leads.follow (h : tree.Leads n l names m place) :
    tree.follow false n l names = .ok place := by
  induction h with
  | @done n =>
    obtain ⟨jump, same⟩ := tree.follow_eq n
    rw [same, followBy]
  | @here n _ _ _ _ _ directory here _ ih =>
    obtain ⟨jump, same⟩ := tree.follow_eq n
    rw [same] at ih ⊢
    simpa [followBy, directory, Node.isDirectory, here] using ih
  | @above n _ _ _ _ directory _ ih =>
    obtain ⟨jump, same⟩ := tree.follow_eq n
    have notHere : ¬(Path.above = [] ∨ Path.above = Path.here) := by decide
    rw [same] at ih ⊢
    simpa [followBy, directory, Node.isDirectory, notHere] using ih
  | @entry n _ _ _ _ _ node directory isName found notLink _ ih =>
    obtain ⟨jump, same⟩ := tree.follow_eq n
    rw [same] at ih ⊢
    cases node with
    | link target => exact absurd ⟨target, rfl⟩ notLink
    | directory | file | device =>
      simpa [followBy, directory, Node.isDirectory, found, isName.nonempty, isName.notHere,
        isName.notAbove, Nat.not_lt.2 isName.fits] using ih
  | link directory isName found _ ih =>
    simpa [FileTree.follow, followBy, directory, Node.isDirectory, found, isName.nonempty,
      isName.notHere, isName.notAbove, Nat.not_lt.2 isName.fits] using ih

theorem Leads.append (h : tree.Leads n l names m l') (more : tree.Leads m l' rest k place) :
    tree.Leads n l (names ++ rest) k place := by
  induction h with
  | done => exact more
  | here directory here _ ih => exact .here directory here (ih more)
  | above directory _ ih => exact .above directory (ih more)
  | entry directory isName found notLink _ ih => exact .entry directory isName found notLink (ih more)
  | link directory isName found _ ih =>
    exact .link directory isName found (List.append_assoc .. ▸ ih more)

theorem Leads.split (h : tree.Leads n l (names ++ rest) k place) :
    ∃ m l', tree.Leads n l names m l' ∧ tree.Leads m l' rest k place := by
  generalize whole : names ++ rest = all at h
  induction h generalizing names with
  | done =>
    obtain ⟨rfl, rfl⟩ := List.append_eq_nil_iff.1 whole
    exact ⟨_, _, .done, .done⟩
  | here directory here leads ih =>
    obtain ⟨rfl, rfl⟩ | ⟨names, rfl, rfl⟩ := List.append_eq_cons_iff.1 whole
    · exact ⟨_, _, .done, .here directory here leads⟩
    · obtain ⟨m, l', first, second⟩ := ih rfl
      exact ⟨m, l', .here directory here first, second⟩
  | above directory leads ih =>
    obtain ⟨rfl, rfl⟩ | ⟨names, rfl, rfl⟩ := List.append_eq_cons_iff.1 whole
    · exact ⟨_, _, .done, .above directory leads⟩
    · obtain ⟨m, l', first, second⟩ := ih rfl
      exact ⟨m, l', .above directory first, second⟩
  | entry directory isName found notLink leads ih =>
    obtain ⟨rfl, rfl⟩ | ⟨names, rfl, rfl⟩ := List.append_eq_cons_iff.1 whole
    · exact ⟨_, _, .done, .entry directory isName found notLink leads⟩
    · obtain ⟨m, l', first, second⟩ := ih rfl
      exact ⟨m, l', .entry directory isName found notLink first, second⟩
  | link directory isName found leads ih =>
    obtain ⟨rfl, rfl⟩ | ⟨names, rfl, rfl⟩ := List.append_eq_cons_iff.1 whole
    · exact ⟨_, _, .done, .link directory isName found leads⟩
    · obtain ⟨m, l', first, second⟩ := ih (List.append_assoc ..)
      exact ⟨m, l', .link directory isName found first, second⟩

/-- All of the way to the location leads through directories, and nothing on it is a link. -/
inductive Resolved (tree : FileTree) : Location → Prop
  | root : Resolved tree []
  | entry {l : Location} {name : Bytes} {node : Node} : Resolved tree l →
    tree.node? l = some .directory → IsFileName name → tree.node? (l ++ [name]) = some node →
    ¬node.IsLink → Resolved tree (l ++ [name])

theorem Resolved.isFileName (h : tree.Resolved l) : ∀ name ∈ l, IsFileName name := by
  induction h with
  | root => exact nofun
  | entry _ _ isName _ _ ih =>
    exact List.forall_mem_append.2 ⟨ih, List.forall_mem_singleton.2 isName⟩

theorem Resolved.dropLast (h : tree.Resolved l) : tree.Resolved l.dropLast := by
  cases h with
  | root => exact .root
  | entry resolved => rwa [List.dropLast_concat]

theorem Resolved.leads (h : tree.Resolved l) (n : Nat) : tree.Leads n [] l n l := by
  induction h with
  | root => exact .done
  | entry _ directory isName found notLink ih =>
    exact ih.append (.entry directory isName.toIsEntryName found notLink .done)

def Clean (names : List Bytes) : Prop := ∀ name ∈ names, Path.separator ∉ name ∧ (0 : UInt8) ∉ name

theorem clean_ofText (path : Bytes) : Clean (Path.ofText (Path.beforeZero path)).names :=
  fun _ mem => ⟨Path.not_separator_of_mem_names mem,
    fun zero => Path.noZero_beforeZero path (Path.mem_of_mem_names mem zero)⟩

theorem Leads.resolved (h : tree.Leads n l names m place) (start : tree.Resolved l)
    (clean : Clean names) : tree.Resolved place := by
  induction h with
  | done => exact start
  | here _ _ _ ih => exact ih start (List.forall_mem_cons.1 clean).2
  | above _ _ ih => exact ih start.dropLast (List.forall_mem_cons.1 clean).2
  | entry directory isName found notLink _ ih =>
    obtain ⟨first, rest⟩ := List.forall_mem_cons.1 clean
    exact ih (.entry start directory ⟨isName, first.1, first.2⟩ found notLink) rest
  | link _ _ _ _ ih =>
    refine ih ?_ (List.forall_mem_append.2 ⟨clean_ofText _, (List.forall_mem_cons.1 clean).2⟩)
    split_ifs
    · exact .root
    · exact start

theorem Leads.opened (h : tree.Leads n l (names ++ [[]]) m place) : tree.Leads n l names m place := by
  obtain ⟨k, l', leads, last⟩ := h.split
  cases last with
  | here _ _ done =>
    cases done
    exact leads
  | entry _ isName | link _ isName => exact absurd rfl isName.nonempty

theorem leads_below (entries : ∀ name ∈ names, IsEntryName name)
    (directories : ∀ before name after, names = before ++ name :: after →
      tree.node? (l ++ before) = some .directory)
    {node : Node} (found : tree.node? (l ++ names) = some node) (notLink : ¬node.IsLink) :
    tree.Leads n l names n (l ++ names) := by
  induction names generalizing l with
  | nil => exact (List.append_nil l).symm ▸ .done
  | cons name rest ih =>
    rw [List.forall_mem_cons] at entries
    have directory := directories [] name rest rfl
    rw [List.append_nil] at directory
    rw [List.append_cons] at found ⊢
    have later (before : List Bytes) (next : Bytes) (after : List Bytes)
        (split : rest = before ++ next :: after) :
        tree.node? (l ++ [name] ++ before) = some .directory := by
      have directory := directories (name :: before) next after (congrArg (name :: ·) split)
      rwa [List.append_cons] at directory
    obtain ⟨first, isFirst, notLink'⟩ :
        ∃ first, tree.node? (l ++ [name]) = some first ∧ ¬first.IsLink := by
      cases rest with
      | nil => exact ⟨node, List.append_nil (l ++ [name]) ▸ found, notLink⟩
      | cons next after =>
        have directory := later [] next after rfl
        rw [List.append_nil] at directory
        exact ⟨.directory, directory, nofun⟩
    exact .entry directory entries.1 isFirst notLink' (ih entries.2 later found)

def base (tree : FileTree) (path : Bytes) : Location :=
  if path.head? = some Path.separator then [] else tree.current

/-- The tree has names that a path can be written with, and its current directory is resolved. -/
structure Sound (tree : FileTree) : Prop where
  names : ∀ entry ∈ tree.nodes, ∀ name ∈ entry.1, IsFileName name
  current : tree.Resolved tree.current

theorem Sound.base (sound : tree.Sound) (path : Bytes) : tree.Resolved (tree.base path) := by
  unfold FileTree.base
  split_ifs
  · exact .root
  · exact sound.current

variable {path : Bytes}

theorem locate_of_long (long : maxPathLength < (Path.beforeZero path).length) :
    tree.locate path = .error .nameTooLong := by
  have nonempty : Path.beforeZero path ≠ [] := by
    intro nil
    rw [nil] at long
    exact Nat.not_lt_zero _ long
  rw [locate, start]
  simp only [if_neg nonempty, if_pos long]
  rfl

theorem locate_eq (nonempty : Path.beforeZero path ≠ [])
    (short : (Path.beforeZero path).length ≤ maxPathLength) :
    tree.locate path = tree.follow false maxLinks
      (tree.base (Path.beforeZero path)) (Path.ofText (Path.beforeZero path)).names := by
  rw [locate, start]
  simp only [if_neg nonempty, if_neg (Nat.not_lt.2 short), Path.isAbsolute_ofText,
    decide_eq_true_eq]
  rfl

theorem nonempty_of_locate (h : tree.locate path = .ok place) : Path.beforeZero path ≠ [] := by
  intro nil
  rw [locate, start] at h
  simp only [if_pos nil] at h
  cases h

theorem leads_of_locate (h : tree.locate path = .ok place) : ∃ m, tree.Leads maxLinks
    (tree.base (Path.beforeZero path)) (Path.ofText (Path.beforeZero path)).names m place := by
  refine leads_of_follow ((locate_eq (nonempty_of_locate h) ?_).symm.trans h)
  refine Nat.le_of_not_lt fun long => ?_
  rw [locate_of_long long] at h
  cases h

theorem locate_of_leads (nonempty : path ≠ []) (noZero : (0 : UInt8) ∉ path)
    (short : path.length ≤ maxPathLength)
    (h : tree.Leads maxLinks (tree.base path) (Path.ofText path).names m place) :
    tree.locate path = .ok place := by
  have located : _ → _ → tree.locate path = _ := locate_eq
  rw [Path.beforeZero_eq noZero] at located
  rw [located nonempty short]
  exact h.follow

theorem Sound.resolved (sound : tree.Sound) (h : tree.locate path = .ok place) :
    tree.Resolved place := by
  obtain ⟨m, leads⟩ := leads_of_locate h
  exact leads.resolved (sound.base _) (clean_ofText path)

theorem canonical_of_locate (h : tree.locate path = .ok place) :
    tree.canonical path = .ok place.path := by
  rw [canonical, h]

theorem canonical_cases {p : Path} (h : tree.canonical path = .ok p) :
    (∃ l, tree.locate path = .ok l ∧ p = l.path) ∨
    (∃ beginning l count, tree.locate beginning = .ok l ∧
      p = Path.normal { isAbsolute := true, names := l ++ (Path.ofText path).names.drop count }) ∨
    p = (Path.ofText path).normal := by
  unfold canonical at h
  split at h
  · next l located => exact .inl ⟨l, located, (Except.ok.inj h).symm⟩
  case h_4 => cases h
  all_goals
    simp only at h
    split at h
    · next l located => exact .inr (.inl ⟨_, l, _, located, (Except.ok.inj h).symm⟩)
    · exact .inr (.inr (Except.ok.inj h).symm)

theorem Sound.noZero_canonical (sound : tree.Sound) (noZero : (0 : UInt8) ∉ path) {p : Path}
    (h : tree.canonical path = .ok p) : (0 : UInt8) ∉ p.text := by
  have own : ∀ name ∈ (Path.ofText path).names, (0 : UInt8) ∉ name :=
    fun name mem zero => noZero (Path.mem_of_mem_names mem zero)
  have normal {p : Path} (names : ∀ name ∈ p.names, (0 : UInt8) ∉ name) :
      (0 : UInt8) ∉ p.normal.text := by
    refine Path.noZero_text fun name mem => ?_
    rcases Path.mem_normal mem with mem | rfl | rfl | rfl
    · exact names name mem
    all_goals decide
  obtain ⟨l, located, rfl⟩ | ⟨_, l, count, located, rfl⟩ | rfl := canonical_cases h
  · exact Location.noZero_text (sound.resolved located).isFileName
  · exact normal (List.forall_mem_append.2
      ⟨fun name mem => ((sound.resolved located).isFileName name mem).noZero,
        fun name mem => own name (List.mem_of_mem_drop mem)⟩)
  · exact normal own

theorem Resolved.locate_text (h : tree.Resolved l) (short : l.path.text.length ≤ maxPathLength) :
    tree.locate l.path.text = .ok l := by
  have leads : tree.Leads maxLinks (tree.base l.path.text) (Path.ofText l.path.text).names
      maxLinks l := by
    rw [Location.ofText_text h.isFileName]
    exact h.leads maxLinks
  exact locate_of_leads (Location.text_path_ne_nil l) (Location.noZero_text h.isFileName) short leads

theorem canonical_of_long (noZero : (0 : UInt8) ∉ path) (long : maxPathLength < path.length) :
    tree.canonical path = .error { operation := "status", fault := .nameTooLong, path } := by
  rw [canonical, locate_of_long (by rwa [Path.beforeZero_eq noZero])]

theorem locate_entry {root : Bytes} (noZero : (0 : UInt8) ∉ root) (located : tree.locate root = .ok l)
    (isName : ∀ name ∈ names, IsFileName name) (some : names ≠ [])
    (directories : ∀ before name after, names = before ++ name :: after →
      tree.node? (l ++ before) = .some .directory)
    {node : Node} (found : tree.node? (l ++ names) = .some node) (notLink : ¬node.IsLink)
    (short : (Path.within root (Bytes.join [Path.separator] names)).length ≤ maxPathLength) :
    tree.locate (Path.within root (Bytes.join [Path.separator] names)) = .ok (l ++ names) := by
  obtain ⟨m, leads⟩ := leads_of_locate located
  have nonempty := nonempty_of_locate located
  rw [Path.beforeZero_eq noZero] at leads nonempty
  have toRoot : tree.Leads maxLinks (tree.base root) (Path.pieces root) m l := by
    rw [Path.names_ofText] at leads
    split_ifs at leads
    · exact leads.opened
    · exact leads
  have below : tree.Leads m l names m (l ++ names) :=
    leads_below (fun name mem => (isName name mem).toIsEntryName) directories found notLink
  have all := toRoot.append below
  rw [← Path.names_entry isName nonempty some, base, ← Path.head_entry isName nonempty] at all
  exact locate_of_leads (Path.entry_ne_nil isName nonempty) (Path.noZero_entry isName nonempty noZero)
    short all

end FileTree
end CodeSmell
