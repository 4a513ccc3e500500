import CodeSmell.Detector.Basic

/-!
Functions with too many parameters. The receiver of a method does not count.
-/

namespace CodeSmell.LargeParameterList

def countedNames (f : FunctionModel) : List Bytes :=
  let names := f.definition.parameters.map Parameter.name
  if f.frame.receiver?.isSome then names.drop 1 else names

def findings (options : LargeParameterList.Options) (path : Bytes) (f : FunctionModel) :
    List Finding :=
  let names := countedNames f
  let count : Int := names.length
  if count ≤ options.maxParameters then []
  else
    [{ kind := .largeParameterList
       severity := if 2 * options.maxParameters < count then .high else .medium
       file := path
       lines := f.lines
       subject := f.qualifiedName
       message := "Function '" ++ f.qualifiedName ++ "' has " ++
        exceeds "too many parameters (" count options.maxParameters
       metrics := .ofList
        [("parameter_count", .ofInt count), ("max_parameters", .ofInt options.maxParameters)]
       evidence := names }]

def detect (options : LargeParameterList.Options) (m : ModuleModel) : List Finding :=
  m.functions.flatMap (findings options m.path)

end CodeSmell.LargeParameterList
