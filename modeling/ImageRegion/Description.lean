namespace ImageRegion.Description

def record (name : String) (fields : List (String × String)) (isComplete : Bool) : String :=
  let shown := fields.map fun (field, value) => field ++ ": " ++ value
  let hidden := if isComplete then [] else [".."]
  name ++ " \x7b " ++ ", ".intercalate (shown ++ hidden) ++ " \x7d"

def optional : Option Nat → String
  | none => "None"
  | some n => s!"Some({n})"

end ImageRegion.Description
