import CodeSmell.Detector.Basic

/-!
Classes with too many fields, methods or lines.
-/

namespace CodeSmell.GodClass

/-- How often the threshold goes into the value; anything is infinitely more than none. -/
def ratio (value threshold : Int) : Float :=
  if threshold = 0 then if 0 < value then 1 / 0 else 0
  else Float.ofInt value / Float.ofInt threshold

def larger (a b : Float) : Float := if a < b then b else a

def findings (options : GodClass.Options) (path : Bytes) (c : ClassModel) : List Finding :=
  let fields : Int := c.fields.length
  let methods : Int := c.methods.length
  let lines := c.definition.lines.height
  let reason (what : Bytes) (value threshold : Int) : List Bytes :=
    if threshold < value then [exceeds (what ++ " (") value threshold] else []
  let reasons := reason "too many fields" fields options.maxFields ++
    reason "too many methods" methods options.maxMethods ++
    reason "too many lines" lines options.maxLines
  if reasons.isEmpty then []
  else
    let worst := larger (larger (ratio fields options.maxFields) (ratio methods options.maxMethods))
      (ratio lines options.maxLines)
    [{ kind := .godClass
       severity := if 1.5 < worst then .high else .medium
       file := path
       lines := c.definition.lines
       subject := c.definition.name
       message := "Class '" ++ c.definition.name ++ "' is a god class: " ++ Bytes.join ", " reasons
       metrics := .ofList
        [("field_count", .ofInt fields), ("max_fields", .ofInt options.maxFields),
          ("method_count", .ofInt methods), ("max_methods", .ofInt options.maxMethods),
          ("line_count", .ofInt lines), ("max_lines", .ofInt options.maxLines),
          ("max_ratio", worst)]
       evidence := c.fields }]

def detect (options : GodClass.Options) (m : ModuleModel) : List Finding :=
  m.classes.flatMap (findings options m.path)

end CodeSmell.GodClass
