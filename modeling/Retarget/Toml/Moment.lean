import Retarget.Timestamp

/-!
The dates and times that a document may hold: a date, a time of day, or both with an offset from
universal time. Nothing reads their values, so each reader here gives only the text after its part.
-/
namespace Retarget.Toml

/-- A number of exactly `count` digits between two bounds, and the text after it. -/
def digits? (count least greatest : Nat) (t : Text) : Option (Nat × Text) :=
  let digits := t.takeWhile Char.isDigit
  let n := Text.Decimal.value digits
  if digits.length = count ∧ least ≤ n ∧ n ≤ greatest then some (n, t.drop count) else none

def afterMark? (c : Char) : Text → Option Text
  | [] => none
  | d :: rest => if d = c then some rest else none

def afterDate? (t : Text) : Option Text := do
  let (year, rest) ← digits? 4 0 9999 t
  let rest ← afterMark? '-' rest
  let (month, rest) ← digits? 2 1 12 rest
  let rest ← afterMark? '-' rest
  let (_, rest) ← digits? 2 1 (Timestamp.daysInMonth year month) rest
  return rest

def afterFraction? : Text → Option Text
  | '.' :: rest =>
    let after := rest.dropWhile Char.isDigit
    if after.length = rest.length then none else some after
  | t => some t

def afterMinutes? (t : Text) : Option Text := do
  let (_, rest) ← digits? 2 0 23 t
  let rest ← afterMark? ':' rest
  let (_, rest) ← digits? 2 0 59 rest
  return rest

/-- The text after a time of day. The seconds may be left out, and only they have a fraction. -/
def afterTime? (t : Text) : Option Text := do
  match ← afterMinutes? t with
  | ':' :: rest =>
    let (_, rest) ← digits? 2 0 60 rest
    afterFraction? rest
  | rest => return rest

def isOffset : Text → Bool
  | [] => true
  | c :: rest =>
    if c = 'Z' ∨ c = 'z' then rest = []
    else if c = '+' ∨ c = '-' then afterMinutes? rest = some []
    else false

def isMoment (word : Text) : Bool :=
  match afterDate? word with
  | none => afterTime? word = some []
  | some [] => true
  | some (c :: rest) => [' ', 'T', 't'].contains c && (afterTime? rest).any isOffset

end Retarget.Toml
