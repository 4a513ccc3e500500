import CodeSmell.Detector.Basic

/-!
Numbers that occur often outside the definitions of constants, one finding for each value in
increasing order.
-/

namespace CodeSmell.MagicNumbers

def isCounted (options : MagicNumbers.Options) (l : Literal) : Bool :=
  !(options.ignoreConstantDefinitions && l.inConstant) &&
    !(l.value < options.minValue || options.maxValue < l.value) &&
    !options.whitelist.any (· == l.value)

structure Group where
  first : Literal
  others : List Literal := []

namespace Group

def value (g : Group) : Float := g.first.value

def literals (g : Group) : List Literal := g.first :: g.others

end Group

def insert (l : Literal) : List Group → List Group
  | [] => [{ first := l }]
  | g :: rest =>
    if l.value < g.value then { first := l } :: g :: rest
    else if g.value < l.value then g :: insert l rest
    else { g with others := g.others ++ [l] } :: rest

def groups (literals : List Literal) : List Group :=
  literals.foldl (fun groups l => insert l groups) []

def Group.lines (g : Group) : LineRange :=
  let first := g.first.position.line
  { first := g.others.foldl (fun line l => min line l.position.line) first
    last := g.others.foldl (fun line l => max line l.position.line) first }

def findings (options : MagicNumbers.Options) (path : Bytes) (g : Group) : List Finding :=
  let count : Int := g.literals.length
  if count < options.minOccurrences then []
  else
    let subject := Decimal.short g.value
    [{ kind := .magicNumbers
       severity := .medium
       file := path
       lines := g.lines
       subject
       message := "Magic number " ++ subject ++ " appears " ++ Bytes.ofInt count ++ " times"
       metrics := .ofList
        [("value", g.value), ("occurrences", .ofInt count),
          ("min_occurrences", .ofInt options.minOccurrences)]
       evidence := g.literals.map fun l =>
        Bytes.ofInt l.position.line ++ ":" ++ Bytes.ofInt l.position.column }]

def detect (options : MagicNumbers.Options) (m : ModuleModel) : List Finding :=
  (groups (m.literals.filter (isCounted options))).flatMap (findings options m.path)

end CodeSmell.MagicNumbers
