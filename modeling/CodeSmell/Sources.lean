import CodeSmell.FileTree
import CodeSmell.Settings

/-!
The source files of a target. A file is its own only source; for a directory, all Python files
below it are sources, except those in skipped directories and on ignored paths. Linked directories
are not entered, and a linked file counts under its own path.
-/

namespace CodeSmell

inductive SourceError where
  | emptyTarget
  | missingTarget (path : Bytes)
  | notPython (path : Bytes)
  | notFileOrDirectory (path : Bytes)
  | noSources (path : Bytes)
  | unresolved (error : PathError)
deriving DecidableEq, Repr

def SourceError.message : SourceError → Bytes
  | emptyTarget => "AnalysisConfig.target_path must not be empty."
  | missingTarget path => "Target path does not exist: " ++ path
  | notPython path => "Target is not a Python source file: " ++ path
  | notFileOrDirectory path => "Target path is not a file or directory: " ++ path
  | noSources path => "No Python files found under: " ++ path
  | unresolved error => error.message

/-- The files of a target, and the directory that holds them. A single file needs no search. -/
structure Sources where
  files : List Bytes
  root : Bytes
  isSearched : Bool
deriving DecidableEq, Repr, Inhabited

/-- A name with something before the extension `.py`. -/
def isPythonName (name : Bytes) : Bool :=
  let ending : Bytes := ".py"
  ending.isSuffixOf name && ending.length < name.length

def isSkippedName (name : Bytes) : Bool :=
  let skipped : List Bytes := [".git", "__pycache__", ".venv", "venv", ".tox"]
  skipped.contains name

namespace Path

/-- Is the other path, or leads to it name by name. -/
def leadsTo (p other : Path) : Bool :=
  p.isAbsolute == other.isAbsolute && p.names.isPrefixOf other.names

def parent (p : Path) : Path := { p with names := p.names.dropLast }

end Path

namespace FileTree

def isIgnored (tree : FileTree) (ignored : List Bytes) (candidate : Path) : Except PathError Bool :=
  ignored.anyM fun path => do pure ((← tree.canonical path).leadsTo candidate)

def isSkipped (tree : FileTree) (ignored : List Bytes) (path : Bytes) : Except PathError Bool := do
  let candidate ← tree.canonical path
  if isSkippedName (Path.fileName path) then pure true else tree.isIgnored ignored candidate

def isEntered (tree : FileTree) (ignored : List Bytes) (l : Location) (path : Bytes) :
    Except PathError Bool :=
  if (tree.node? l).any Node.isDirectory then do pure !(← tree.isSkipped ignored path)
  else pure false

def linked (tree : FileTree) (l : Location) (path : Bytes) : Except PathError (Option Node) :=
  match tree.node? l with
  | some (.link _) => tree.status path
  | node => .ok node

def source? (tree : FileTree) (ignored : List Bytes) (l : Location) (path : Bytes) :
    Except PathError (Option Bytes) := do
  let candidate ← tree.canonical path
  match ← tree.linked l path with
  | some .directory => (tree.isSkipped ignored path).map fun _ => none
  | some (.file _) =>
    if !isPythonName (Path.fileName path) then pure none
    else if ← tree.isIgnored ignored candidate then pure none
    else pure (some candidate.text)
  | _ => pure none

def namesBelow? (l : Location) (node : Location) : Option (List Bytes) :=
  if l.isPrefixOf node && l.length < node.length then some (node.drop l.length) else none

def sourceBelow? (tree : FileTree) (ignored : List Bytes) (l : Location) (root : Bytes)
    (names : List Bytes) : Except PathError (Option Bytes) := do
  let path (names : List Bytes) : Bytes := Path.within root (Bytes.join [Path.separator] names)
  let onTheWay := (List.range names.length).tail.map names.take
  if ← onTheWay.allM fun names => tree.isEntered ignored (l ++ names) (path names) then
    tree.source? ignored (l ++ names) (path names)
  else pure none

def sourcesBelow (tree : FileTree) (ignored : List Bytes) (l : Location) (root : Bytes) :
    Except PathError (List Bytes) := do
  let names := tree.nodes.filterMap fun entry => namesBelow? l entry.1
  let found ← names.mapM (tree.sourceBelow? ignored l root)
  pure (sortedSet (found.filterMap id))

/-- Ignored paths are taken from the target on. -/
def sources (tree : FileTree) (settings : Settings) : Except SourceError Sources := do
  if settings.target = [] then throw .emptyTarget
  let target ← (tree.canonical settings.target).mapError .unresolved
  match ← (tree.status target.text).mapError .unresolved with
  | none => throw (.missingTarget target.text)
  | some (.file _) =>
    if isPythonName (Path.fileName target.text) then
      pure { files := [target.text], root := target.parent.text, isSearched := false }
    else throw (.notPython target.text)
  | some .directory =>
    let ignored := settings.ignoredPaths.map (Path.within target.text)
    let l := (tree.locate target.text).toOption.getD []
    let files ← (tree.sourcesBelow ignored l target.text).mapError .unresolved
    if files.isEmpty then throw (.noSources target.text)
    pure { files, root := target.text, isSearched := true }
  | some _ => throw (.notFileOrDirectory target.text)

end FileTree

end CodeSmell
