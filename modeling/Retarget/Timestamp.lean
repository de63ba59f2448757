import Retarget.Text.Blank
import Retarget.Text.Decimal

/-!
Moments of time and their text: a date and a time of day with an offset from universal time.
Reading allows short numbers and blanks between the parts; writing always gives universal time, with
the fewest of no, three, six or nine digits for the fraction.
-/
namespace Retarget

/-- Seconds since the first of January 1970, and nanoseconds of the second. A leap second has more
than a billion of them. -/
structure Timestamp where
  seconds : Int
  nanos : Nat
  deriving DecidableEq, Repr

namespace Timestamp

/-- Days from the first of January 1970 to a date. Years are counted from March, so that the day
added in a leap year comes last. -/
def dayNumber (year : Int) (month day : Nat) : Int :=
  let y := if month ≤ 2 then year - 1 else year
  let era := y / 400
  let yearOfEra := y % 400
  let monthFromMarch : Int := (month + 9) % 12
  let dayOfYear := (153 * monthFromMarch + 2) / 5 + day - 1
  era * 146097 + yearOfEra * 365 + yearOfEra / 4 - yearOfEra / 100 + dayOfYear - 719468

def dateOf (number : Int) : Int × Nat × Nat :=
  let z := number + 719468
  let era := z / 146097
  let dayOfEra := z % 146097
  let yearOfEra := (dayOfEra - dayOfEra / 1460 + dayOfEra / 36524 - dayOfEra / 146096) / 365
  let dayOfYear := dayOfEra - (365 * yearOfEra + yearOfEra / 4 - yearOfEra / 100)
  let monthFromMarch := (5 * dayOfYear + 2) / 153
  let day := dayOfYear - (153 * monthFromMarch + 2) / 5 + 1
  let month := if monthFromMarch < 10 then monthFromMarch + 3 else monthFromMarch - 9
  let year := yearOfEra + era * 400
  (if month ≤ 2 then year + 1 else year, month.toNat, day.toNat)

def isLeapYear (year : Int) : Bool :=
  year % 4 == 0 && (year % 100 != 0 || year % 400 == 0)

def daysInMonth (year : Int) (month : Nat) : Nat :=
  if month = 2 then (if isLeapYear year then 29 else 28)
  else if month ∈ [4, 6, 9, 11] then 30 else 31

def renderYear (year : Int) : Text :=
  if 0 ≤ year ∧ year ≤ 9999 then Text.Decimal.padded 4 year.toNat
  else (if year < 0 then '-' else '+') :: Text.Decimal.padded 4 year.natAbs

def renderFraction (nanos : Nat) : Text :=
  if nanos = 0 then []
  else if nanos % 1000000 = 0 then '.' :: Text.Decimal.padded 3 (nanos / 1000000)
  else if nanos % 1000 = 0 then '.' :: Text.Decimal.padded 6 (nanos / 1000)
  else '.' :: Text.Decimal.padded 9 nanos

def renderDate (year : Int) (month day : Nat) : Text :=
  renderYear year ++ '-' :: Text.Decimal.padded 2 month ++ '-' :: Text.Decimal.padded 2 day

def renderTime (hour minute second : Nat) : Text :=
  Text.Decimal.padded 2 hour ++ ':' :: Text.Decimal.padded 2 minute ++
    ':' :: Text.Decimal.padded 2 second

/-- The moment in universal time; a leap second is the sixtieth of its minute. -/
def render (t : Timestamp) : Text :=
  let (year, month, day) := dateOf (t.seconds / 86400)
  let ofDay := (t.seconds % 86400).toNat
  let leap := t.nanos / 1000000000
  renderDate year month day ++ 'T' ::
    renderTime (ofDay / 3600) (ofDay / 60 % 60) (ofDay % 60 + leap) ++
    renderFraction (t.nanos % 1000000000) ++ ['Z']

/-- From one to `most` digits. -/
def number? (most : Nat) (t : Text) : Option (Nat × Text) :=
  let digits := (t.take most).takeWhile Char.isDigit
  if digits = [] then none else some (Text.Decimal.value digits, t.drop digits.length)

def field? (least greatest : Nat) (t : Text) : Option (Nat × Text) := do
  let (n, rest) ← number? 2 (Text.trimStart t)
  if least ≤ n ∧ n ≤ greatest then some (n, rest) else none

/-- A year: up to four digits, or any number of them after a sign. -/
def year? (t : Text) : Option (Int × Text) :=
  match Text.trimStart t with
  | '-' :: rest => (number? rest.length rest).map fun (n, rest) => (-(n : Int), rest)
  | '+' :: rest => (number? rest.length rest).map fun (n, rest) => ((n : Int), rest)
  | t => (number? 4 t).map fun (n, rest) => ((n : Int), rest)

def mark? (c : Char) (t : Text) : Option Text :=
  match Text.trimStart t with
  | d :: rest => if d = c then some rest else none
  | [] => none

/-- A fraction's nanoseconds; digits after the ninth are passed over. -/
def fraction? : Text → Option (Nat × Text)
  | '.' :: rest => do
    let (n, after) ← number? 9 rest
    let taken := rest.length - after.length
    return (n * Nat.pow 10 (9 - taken), after.dropWhile Char.isDigit)
  | t => some (0, t)

def twoDigits? : Text → Option (Nat × Text)
  | a :: b :: rest =>
    if a.isDigit ∧ b.isDigit then some (Text.Decimal.value [a, b], rest) else none
  | _ => none

def offset? (t : Text) : Option (Int × Text) :=
  let sign : Option Int := match t.head? with
    | some '+' => some 1
    | some '-' => some (-1)
    | some '\u2212' => some (-1)
    | _ => none
  match sign with
  | none => none
  | some sign => do
    let (hours, rest) ← twoDigits? (t.drop 1)
    let (minutes, rest) ← twoDigits? (rest.dropWhile fun c => c == ':' || Text.isBlank c)
    if minutes < 60 then
      some (sign * ((hours * 3600 + minutes * 60 : Nat) : Int), rest)
    else none

def zone? (t : Text) : Option (Int × Text) :=
  match t with
  | 'Z' :: rest => some (0, rest)
  | 'z' :: rest => some (0, rest)
  | u :: v :: w :: rest =>
    if [u, v, w].map Char.toUpper = ['U', 'T', 'C'] then some (0, rest) else offset? t
  | _ => offset? t

def IsReachable (year : Int) : Prop := -262143 ≤ year ∧ year ≤ 262142

instance : DecidablePred IsReachable := fun _ => inferInstanceAs (Decidable (_ ∧ _))

def parse? (t : Text) : Option Timestamp := do
  let (year, rest) ← year? t
  let rest ← mark? '-' rest
  let (month, rest) ← field? 1 12 rest
  let rest ← mark? '-' rest
  let (day, rest) ← field? 1 31 rest
  let rest ← match rest with
    | c :: rest => if c = 'T' ∨ c = 't' ∨ c = ' ' then some rest else none
    | [] => none
  let (hour, rest) ← field? 0 23 rest
  let rest ← mark? ':' rest
  let (minute, rest) ← field? 0 59 rest
  let rest ← mark? ':' rest
  let (second, rest) ← field? 0 60 rest
  let (fraction, rest) ← fraction? rest
  let (offset, rest) ← zone? (Text.trimStart rest)
  if Text.trimStart rest ≠ [] ∨ 86400 ≤ offset.natAbs ∨ daysInMonth year month < day then none
  else
    let ofDay : Nat := hour * 3600 + minute * 60 + min second 59
    let seconds := dayNumber year month day * 86400 + ofDay - offset
    if IsReachable year ∧ IsReachable (dateOf (seconds / 86400)).1 then
      some ⟨seconds, fraction + (if second = 60 then 1000000000 else 0)⟩
    else none

end Timestamp

end Retarget
