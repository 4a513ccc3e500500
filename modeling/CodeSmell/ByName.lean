import CodeSmell.Bytes

/-!
Values by name, each name once, in increasing bytewise order of the names.
-/

namespace CodeSmell

abbrev ByName (α : Type) := List (Bytes × α)

namespace ByName

variable {α : Type}

def update (name : Bytes) (value : Option α → α) : ByName α → ByName α
  | [] => [(name, value none)]
  | (other, old) :: rest =>
    if name < other then (name, value none) :: (other, old) :: rest
    else if name = other then (other, value (some old)) :: rest
    else (other, old) :: update name value rest

/-- A later value of the same name takes the place of an earlier one. -/
def ofList (entries : List (Bytes × α)) : ByName α :=
  entries.foldl (fun values (name, value) => update name (fun _ => value) values) []

end ByName

end CodeSmell
