import CodeSmell.Complexity
import CodeSmell.Detector.Basic

/-!
Functions that are too long or too complex.
-/

namespace CodeSmell.LongMethod

def findings (options : LongMethod.Options) (path : Bytes) (f : FunctionModel) : List Finding :=
  let length := f.lines.height
  let complexity : Int := Block.complexity f.definition.body
  let tooLong := options.maxLines < length
  let tooComplex := options.maxComplexity < complexity
  if !tooLong && !tooComplex then []
  else
    let reasons : List Bytes :=
      (if tooLong then
        ["too long (" ++ Bytes.ofInt length ++ " lines, threshold: " ++
          Bytes.ofInt options.maxLines ++ ")"]
      else []) ++
      (if tooComplex then [exceeds "too complex (complexity " complexity options.maxComplexity]
      else [])
    [{ kind := .longMethod
       severity :=
        if 3 * options.maxLines < 2 * length || 3 * options.maxComplexity < 2 * complexity then .high
        else .medium
       file := path
       lines := f.lines
       subject := f.qualifiedName
       message := "Method '" ++ f.qualifiedName ++ "' is " ++ Bytes.join " and " reasons
       metrics := .ofList
        [("line_count", .ofInt length), ("max_lines", .ofInt options.maxLines),
          ("complexity", .ofInt complexity), ("max_complexity", .ofInt options.maxComplexity)] }]

def detect (options : LongMethod.Options) (m : ModuleModel) : List Finding :=
  m.functions.flatMap (findings options m.path)

end CodeSmell.LongMethod
