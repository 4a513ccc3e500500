import CodeSmell.Detector.Basic
import CodeSmell.Similarity

/-!
Pairs of functions whose bodies are alike. Each pair is compared once, the earlier function first.
-/

namespace CodeSmell.DuplicatedCode

structure Candidate where
  function : FunctionModel
  signature : Signature

def Candidate.ofFunction (f : FunctionModel) : Candidate :=
  { function := f, signature := .ofFunction f.definition }

def Candidate.isEligible (options : DuplicatedCode.Options) (c : Candidate) : Bool :=
  options.minChunkSize ≤ c.signature.tags.length

def candidates (options : DuplicatedCode.Options) (m : ModuleModel) : List Candidate :=
  ((m.functions.map Candidate.ofFunction).filter (Candidate.isEligible options)).mergeSort
    fun a b => a.function.lines.first ≤ b.function.lines.first

def location (f : FunctionModel) : Bytes :=
  f.qualifiedName ++ ": lines " ++ Bytes.ofInt f.lines.first ++ "-" ++ Bytes.ofInt f.lines.last

def findings (options : DuplicatedCode.Options) (path : Bytes) (a b : Candidate) : List Finding :=
  let left := a.function
  let right := b.function
  if min left.lines.height right.lines.height < options.minChunkSize then []
  else
    let similarity := a.signature.compare b.signature
    if similarity.combined < options.minSimilarity then []
    else
      [{ kind := .duplicatedCode
         severity := .medium
         file := path
         lines := left.lines
         subject := left.qualifiedName ++ " / " ++ right.qualifiedName
         message := "Duplicated code detected between '" ++ left.qualifiedName ++ "' and '" ++
          right.qualifiedName ++ "' (similarity: " ++ Decimal.fixed 2 similarity.combined ++ ")"
         metrics := .ofList
          [("similarity", similarity.combined), ("token_similarity", similarity.token),
            ("structural_similarity", similarity.structural),
            ("min_similarity", options.minSimilarity), ("function1_line", .ofInt left.lines.first),
            ("function2_line", .ofInt right.lines.first),
            ("function1_lines", .ofInt left.lines.height),
            ("function2_lines", .ofInt right.lines.height)]
         evidence := [location left, location right] }]

def pairs {α : Type} : List α → List (α × α)
  | [] => []
  | x :: rest => rest.map (x, ·) ++ pairs rest

def detect (options : DuplicatedCode.Options) (m : ModuleModel) : List Finding :=
  (pairs (candidates options m)).flatMap fun (a, b) => findings options m.path a b

end CodeSmell.DuplicatedCode
