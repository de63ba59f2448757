import Retarget.Json.Basic

/-!
Reading records and choices out of JSON values. A record is an object with its fields by name,
whatever else it has, or an array of them in order, where fields may be left out at the end.
-/
namespace Retarget.Json

def distinctNames (fields : List (Text × Json)) : List Text :=
  (fields.map Prod.fst).eraseDups

/-- The values of a record's fields, in the order of `names`. -/
def recordFields? (names : List String) : Json → Option (List (Option Json))
  | .obj fields => some (names.map (lookup? · fields))
  | .arr items =>
    if items.length ≤ names.length then
      some (items.map some ++ List.replicate (names.length - items.length) none)
    else none
  | _ => none

def required? (read : Json → Option α) (field : Option Json) : Option α :=
  field.bind read

def nullable? (read : Json → Option α) : Option Json → Option (Option α)
  | none | some .null => some none
  | some value => (read value).map some

def withDefault? (default : α) (read : Json → Option α) : Option Json → Option α
  | none => some default
  | some value => read value

def listOf? (read : Json → Option α) : Json → Option (List α)
  | .arr items => items.mapM read
  | _ => none

/-- A choice is its word, or an object with the word as its only name and null as the value. -/
def choice? (choices : List (String × α)) : Json → Option α
  | .str word => choices.findSome? fun c => if c.1.toList = word then some c.2 else none
  | .obj fields =>
    match distinctNames fields with
    | [word] =>
      match fields.reverse.lookup word with
      | some .null => choices.findSome? fun c => if c.1.toList = word then some c.2 else none
      | _ => none
    | _ => none
  | _ => none

end Retarget.Json
