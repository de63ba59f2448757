import Retarget.Text.Split

/-!
Values of TOML documents. Settings are made of strings, whole numbers, truth values, arrays and
tables; numbers with a fraction, dates and times are kept as the words they are written as.
-/
namespace Retarget

inductive Toml
  | str (value : Text)
  | int (value : Int)
  | bool (value : Bool)
  /-- A word of its own kind that no setting is: a number with a fraction, a date or a time. -/
  | other (word : Text)
  | arr (items : List Toml)
  | table (entries : List (Text × Toml))

namespace Toml

def asText? : Toml → Option Text
  | .str value => some value
  | _ => none

def asBool? : Toml → Option Bool
  | .bool value => some value
  | _ => none

/-- A whole number from zero up to, not including, `bound`. -/
def asNatBelow? (bound : Nat) : Toml → Option Nat
  | .int (.ofNat n) => if n < bound then some n else none
  | _ => none

def asTexts? : Toml → Option (List Text)
  | .arr items => items.mapM asText?
  | _ => none

/-- A word that is one of the given ones. The word may also be the only name in a table, with
nothing in it. -/
def asChoice? {α : Type} (choices : List (String × α)) : Toml → Option α
  | .str word => choices.findSome? fun c => if c.1.toList = word then some c.2 else none
  | .table [(word, .table [])] | .table [(word, .arr [])] =>
    choices.findSome? fun c => if c.1.toList = word then some c.2 else none
  | _ => none

end Toml

end Retarget
