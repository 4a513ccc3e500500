import CodeSmell.Path

/-!
A tree of directories, files and symbolic links, and what a path leads to in it. A path is followed
name by name; a link is replaced by the path that it holds.
-/

namespace CodeSmell

abbrev Location := List Bytes

def Location.path (l : Location) : Path := { isAbsolute := true, names := l }

inductive Node where
  | directory
  | file (content : Bytes)
  | link (target : Bytes)
  | device
deriving DecidableEq, Repr

def Node.isDirectory : Node → Bool
  | directory => true
  | _ => false

inductive PathFault where
  | notFound | notDirectory | tooManyLinks | nameTooLong | alreadyExists | isDirectory | emptyPath
deriving DecidableEq, Repr

def PathFault.reason : PathFault → Bytes
  | notFound => "No such file or directory"
  | notDirectory => "Not a directory"
  | tooManyLinks => "Too many levels of symbolic links"
  | nameTooLong => "File name too long"
  | alreadyExists => "File exists"
  | isDirectory => "Is a directory"
  | emptyPath => "Invalid argument"

structure PathError where
  operation : Bytes
  fault : PathFault
  path : Bytes
deriving DecidableEq, Repr

def PathError.message (e : PathError) : Bytes :=
  "filesystem error: " ++ e.operation ++ ": " ++ e.fault.reason ++ " [" ++ e.path ++ "]"

/-- The nodes below the root by their locations, and the directory where relative paths begin. The
root itself is a directory. -/
structure FileTree where
  nodes : List (Location × Node) := []
  current : Location := []
deriving Inhabited

namespace FileTree

def node? (tree : FileTree) (l : Location) : Option Node :=
  if l = [] then some .directory else (tree.nodes.find? (·.1 == l)).map (·.2)

def set (tree : FileTree) (l : Location) (node : Node) : FileTree :=
  if tree.nodes.any (·.1 == l) then
    { tree with nodes := tree.nodes.map fun entry => if entry.1 == l then (l, node) else entry }
  else { tree with nodes := tree.nodes ++ [(l, node)] }

def maxNameLength : Nat := 255

def maxPathLength : Nat := 4095

def maxLinks : Nat := 40

def maxMissing : Nat := 1000

/-- Where names lead from a location. At a link it is `jump` that goes on, from where the path that the
link holds begins and with its names before the others. With `isNew` the last name may be missing from
its directory. -/
def followBy (tree : FileTree) (isNew : Bool)
    (jump : Location → List Bytes → Except PathFault Location) (l : Location) :
    List Bytes → Except PathFault Location
  | [] => .ok l
  | name :: rest =>
    if !(tree.node? l).any Node.isDirectory then .error .notDirectory
    else if name = [] ∨ name = Path.here then followBy tree isNew jump l rest
    else if name = Path.above then followBy tree isNew jump l.dropLast rest
    else if maxNameLength < name.length then .error .nameTooLong
    else match tree.node? (l ++ [name]) with
      | none => if isNew ∧ rest = [] then .ok (l ++ [name]) else .error .notFound
      | some (.link target) =>
        let p := Path.ofText (Path.beforeZero target)
        jump (if p.isAbsolute then [] else l) (p.names ++ rest)
      | some _ => followBy tree isNew jump (l ++ [name]) rest

def follow (tree : FileTree) (isNew : Bool) :
    (links : Nat) → Location → List Bytes → Except PathFault Location
  | 0 => tree.followBy isNew fun _ _ => .error .tooManyLinks
  | links + 1 => tree.followBy isNew (follow tree isNew links)

def start (tree : FileTree) (path : Bytes) : Except PathFault (Location × List Bytes) :=
  let path := Path.beforeZero path
  let p := Path.ofText path
  if path = [] then .error .notFound
  else if maxPathLength < path.length then .error .nameTooLong
  else .ok (if p.isAbsolute then [] else tree.current, p.names)

def locate (tree : FileTree) (path : Bytes) : Except PathFault Location := do
  let (l, names) ← tree.start path
  tree.follow false maxLinks l names

def status (tree : FileTree) (path : Bytes) : Except PathError (Option Node) :=
  match tree.locate path with
  | .ok l => .ok (tree.node? l)
  | .error .notFound | .error .notDirectory => .ok none
  | .error fault => .error { operation := "status", fault, path }

def read? (tree : FileTree) (path : Bytes) : Option Bytes :=
  match tree.locate path with
  | .ok l => (tree.node? l).map fun
    | .file content => content
    | _ => []
  | .error _ => none

def existingNames (tree : FileTree) (isAbsolute : Bool) (names : List Bytes) : Nat → Nat
  | 0 => 0
  | n + 1 =>
    match tree.locate (Path.text { isAbsolute, names := names.take (n + 1) }) with
    | .ok _ => n + 1
    | .error _ => existingNames tree isAbsolute names n

/-- The path without links and dots. What does not exist is kept as it is named, and is only
normalized; a relative path stays relative if not even its first name exists. -/
def canonical (tree : FileTree) (path : Bytes) : Except PathError Path :=
  match tree.locate path with
  | .ok l => .ok (Location.path l)
  | .error .notFound | .error .notDirectory =>
    let p := Path.ofText path
    let count := existingNames tree p.isAbsolute p.names p.names.length
    let beginning : Bytes := Path.text { p with names := p.names.take count }
    match tree.locate beginning with
    | .ok l => .ok (Path.normal { isAbsolute := true, names := l ++ p.names.drop count })
    | .error _ => .ok p.normal
  | .error fault => .error { operation := "status", fault, path }

def makeDirectory (tree : FileTree) (path : Bytes) : Except PathFault FileTree := do
  let (l, names) ← tree.start path
  let parent ← tree.follow false maxLinks l names.dropLast
  let name := names.getLast?.getD []
  if !(tree.node? parent).any Node.isDirectory then throw .notDirectory
  if maxNameLength < name.length then throw .nameTooLong
  match tree.node? (parent ++ [name]) with
  | none => pure (tree.set (parent ++ [name]) .directory)
  | some _ =>
    match tree.locate path with
    | .ok found => if (tree.node? found).any Node.isDirectory then pure tree else throw .alreadyExists
    | .error _ => throw .alreadyExists

/-- The paths of the directories to make, from the top down, for a path that leads nowhere and is
given by its names from its end. There may be at most `room` of them, whatever is above them. -/
def missingDirectories (tree : FileTree) (isAbsolute : Bool) (room : Nat) :
    List Bytes → Except PathFault (List Bytes)
  | [] => .ok []
  | name :: outer => do
    let path (names : List Bytes) : Bytes := Path.text { isAbsolute, names := names.reverse }
    let last := if name = Path.here ∨ name = Path.above then [] else [path (name :: outer)]
    if room < last.length then throw .nameTooLong
    if outer = [] ∧ !isAbsolute then return last
    match tree.locate (path outer) with
    | .ok l => if (tree.node? l).any Node.isDirectory then return last else throw .notDirectory
    | .error .notFound | .error .notDirectory =>
      return (← missingDirectories tree isAbsolute (room - last.length) outer) ++ last
    | .error fault => throw fault

def makeDirectories (tree : FileTree) (path : Bytes) : Except PathError FileTree :=
  let made : Except PathFault FileTree := do
    if path = [] then throw .emptyPath
    match tree.locate path with
    | .ok l => if (tree.node? l).any Node.isDirectory then pure tree else throw .notDirectory
    | .error .notFound | .error .notDirectory =>
      let p := Path.ofText path
      let names := p.names.reverse
      let missing ← tree.missingDirectories p.isAbsolute maxMissing
        (if names.head? = some [] then names.tail else names)
      missing.foldlM makeDirectory tree
    | .error fault => throw fault
  match made with
  | .ok tree => .ok tree
  | .error fault => .error { operation := "cannot create directories", fault, path }

/-- Writes a file, which may be new. A device keeps nothing. -/
def write (tree : FileTree) (path content : Bytes) : Except PathFault FileTree := do
  let (l, names) ← tree.start path
  let found ← tree.follow true maxLinks l names
  match tree.node? found with
  | some .directory => throw .isDirectory
  | some .device => pure tree
  | _ => pure (tree.set found (.file content))

end FileTree

end CodeSmell
