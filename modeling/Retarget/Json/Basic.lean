import Retarget.Text.Split

/-!
JSON values. Whole numbers are kept apart from numbers written with a fraction or an exponent, and
an object is its list of fields in order, of which the last one of a name counts.
-/
namespace Retarget

inductive Json
  | null
  | bool (value : Bool)
  | int (value : Int)
  /-- A number written with a fraction or an exponent, or as minus zero. -/
  | real (literal : Text)
  | str (value : Text)
  | arr (items : List Json)
  | obj (fields : List (Text × Json))

namespace Json

def ofString (s : String) : Json := .str s.toList

def optional (name : String) : Option Json → List (Text × Json)
  | none => []
  | some value => [(name.toList, value)]

def record (fields : List (String × Json)) : Json :=
  .obj (fields.map fun field => (field.1.toList, field.2))

def lookup? (name : String) (fields : List (Text × Json)) : Option Json :=
  fields.reverse.lookup name.toList

def field? (json : Json) (name : String) : Option Json :=
  match json with
  | .obj fields => lookup? name fields
  | _ => none

def asText? : Json → Option Text
  | .str value => some value
  | _ => none

def asBool? : Json → Option Bool
  | .bool value => some value
  | _ => none

/-- A whole number from zero up to, not including, `bound`. -/
def asNatBelow? (bound : Nat) : Json → Option Nat
  | .int (.ofNat n) => if n < bound then some n else none
  | _ => none

def asArray? : Json → Option (List Json)
  | .arr items => some items
  | _ => none

def isNull : Json → Bool
  | .null => true
  | _ => false

end Json

end Retarget
