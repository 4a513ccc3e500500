import CodeSmell.CommandLine.Run
import Std.Time

/-!
The command `smell-detect`: looks at the part of the file system that the arguments name, runs the
command line on it, and writes what comes of that.
-/

namespace CodeSmell.Main

def toText (b : Bytes) : String :=
  let array : ByteArray := ⟨b.toArray⟩
  (String.fromUTF8? array).getD ""

def locationText (l : Location) : String := toText (Location.path l).text

def toLocation (path : String) : Location := (Path.ofText path).names

/-- Adds the node at `l`, and with `isDeep` all that is below it. A link is recorded with the path of
what it leads to; what cannot be looked at counts as missing. -/
partial def observe (tree : FileTree) (isDeep : Bool) (l : Location) : IO FileTree := do
  let path := locationText l
  try
    let real ← IO.FS.realPath path
    if real.toString ≠ path then
      let target := toLocation real.toString
      let tree ← (List.range target.length).foldlM
        (fun tree n => observe tree false (target.take (n + 1))) tree
      return tree.set l (.link real.toString)
    match (← real.metadata).type with
    | .dir =>
      let tree := if (tree.node? l).isNone then tree.set l .directory else tree
      if !isDeep then return tree
      (← real.readDir).foldlM (fun tree entry => do
        let name := Bytes.ofString entry.fileName
        observe tree (!isSkippedName name) (l ++ [name])) tree
    | .file =>
      if isDeep && !isPythonName (l.getLast?.getD []) then return tree.set l (.file [])
      return tree.set l (.file (← IO.FS.readBinFile path).toList)
    | _ => return tree.set l .device
  catch _ => return tree

def observePath (tree : FileTree) (isDeep : Bool) (path : Bytes) : IO FileTree := do
  let p := Path.ofText path
  let step := fun (tree, l) name => do
    if name = [] ∨ name = Path.here then return (tree, l)
    if name = Path.above then return (tree, l.dropLast)
    let tree ← observe tree false (l ++ [name])
    return (tree, (tree.locate (Location.path (l ++ [name])).text).toOption.getD (l ++ [name]))
  let (tree, l) ← p.names.foldlM step (tree, if p.isAbsolute then [] else tree.current)
  if isDeep then observe tree true l else return tree

def observeRequest (tree : FileTree) : Request → IO FileTree
  | .analyze options => do
    let target := options.target.getD []
    let tree ← observePath tree true target
    let directory := options.outputDirectory.getD (Location.path tree.current).text
    let reports := ReportFormat.all.map fun format =>
      Path.within directory (ReportFormat.fileName format.name)
    (reports ++ options.ignoredPaths.map (Path.within target)).foldlM (observePath · false) tree
  | _ => return tree

def noOptionsFile : OptionsFile := fun path => .error (.unreadableConfigFile path)

def perform (before : FileTree) (outcome : Outcome) : IO Unit := do
  for (l, node) in outcome.tree.nodes do
    if node.isDirectory && (before.node? l).isNone then IO.FS.createDirAll (locationText l)
  for (path, content) in outcome.files do
    IO.FS.writeBinFile (toText path) ⟨content.toArray⟩
  (← IO.getStdout).write ⟨outcome.output.toArray⟩
  (← IO.getStderr).write ⟨(outcome.log ++ outcome.errors).toArray⟩

def run (arguments : List Bytes) : IO UInt32 := do
  let current ← IO.FS.realPath "."
  let empty : FileTree := { current := toLocation current.toString }
  let tree ← empty.current.length.foldM
    (fun n _ tree => observe tree false (empty.current.take (n + 1))) empty
  let tree ← match Request.ofArguments noOptionsFile arguments with
    | .ok request => observeRequest tree request
    | .error _ => pure tree
  let now ← Std.Time.DateTime.now
  let reportTime := now.format "uuuu-MM-dd'T'HH:mm:ss"
  let logTime := now.format "uuuu-MM-dd'T'HH:mm:ssxx"
  let start ← IO.monoMsNow
  let progress ← IO.lazyPure fun _ => Progress.start tree noOptionsFile reportTime arguments
  let stop ← IO.monoMsNow
  let outcome := progress.finish tree logTime (Bytes.ofNat (stop - start))
  perform tree outcome
  return outcome.exitStatus.toUInt32

end CodeSmell.Main

def main (arguments : List String) : IO UInt32 :=
  CodeSmell.Main.run (arguments.map CodeSmell.Bytes.ofString)
