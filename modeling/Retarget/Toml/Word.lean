import Retarget.Bytes
import Retarget.Toml.Basic
import Retarget.Toml.Moment

/-!
Values that are one word without quotes: truth values, numbers, dates and times. Whole numbers are
read; of the other kinds it is only settled whether the word is one of them.
-/
namespace Retarget.Toml

def digitsValue? (base : Nat) (digits : Text) : Option Nat := do
  let values ← digits.mapM Bytes.hexValue?
  if digits ≠ [] ∧ values.all (· < base) then
    some (values.foldl (fun n d => n * base + d) 0)
  else none

/-- Whether each underscore of a word stands between two digits. A single character before the first
one is not looked at. -/
def underscoresFit (isDigit : Char → Bool) (word : Text) : Bool :=
  match Text.splitOn '_' word with
  | [] | [_] => true
  | first :: rest =>
    let endsWell (piece : Text) := piece.length = 1 || piece.getLast?.any isDigit
    endsWell first && rest.all (fun piece => piece.head?.any isDigit) &&
      rest.dropLast.all endsWell

def dropUnderscores (word : Text) : Text := word.filter (· != '_')

def based? (base : Nat) (word digits : Text) : Option Toml :=
  let fits := digits.all fun c => c == '_' || (Bytes.hexValue? c).any (· < base)
  let pieces := Text.splitOn '_' digits
  if fits ∧ (digits = [] ∨ pieces.all (· ≠ [])) then
    some (((digitsValue? base (dropUnderscores digits)).map fun n => .int n).getD (.other word))
  else none

/-- A number without a base. A letter may stand among its digits, as long as nobody asks for the
number. -/
def whole? (word unsigned : Text) : Option Toml :=
  if (unsigned.length > 1 ∧ unsigned.head? = some '0') ∨
      !underscoresFit (fun c => (Bytes.hexValue? c).isSome) word then none
  else
    some <| match digitsValue? 10 (dropUnderscores unsigned) with
      | some n => .int (if word.head? = some '-' then -(n : Int) else n)
      | none => .other word

/-- The text after digits and underscores, of which at least one is a digit. More than one digit do
not start with zero, unless that is allowed. -/
def afterDigits? (zeroFirst : Bool) (t : Text) : Option Text :=
  let digits := t.takeWhile fun c => c.isDigit || c == '_'
  let count := digits.countP Char.isDigit
  if count = 0 ∨ (count > 1 ∧ t.head? = some '0' ∧ !zeroFirst) then none
  else some (t.drop digits.length)

def afterPoint? : Text → Option Text
  | '.' :: rest => afterDigits? true rest
  | t => some t

def afterExponent? : Text → Option Text
  | [] => some []
  | c :: rest =>
    if c = 'e' ∨ c = 'E' then
      match rest with
      | '+' :: rest | '-' :: rest => afterDigits? true rest
      | rest => afterDigits? true rest
    else some (c :: rest)

def isFraction (word unsigned : Text) : Bool :=
  underscoresFit Char.isDigit word &&
    (((afterDigits? false unsigned).bind afterPoint?).bind afterExponent?) = some []

/-- A number or a moment. What follows the digits at the front tells which it is. -/
def number? (word unsigned : Text) : Option Toml :=
  let rest := unsigned.dropWhile Char.isDigit
  if rest.head? = some '-' ∨ rest.head? = some ':' then
    if isMoment word then some (.other word) else none
  else if rest.any (['.', 'e', 'E'].contains ·) then
    if isFraction word unsigned then some (.other word) else none
  else if unsigned ≠ [] ∧ (rest = [] ∨ rest.head? = some '_') then whole? word unsigned
  else none

def dropSign : Text → Text
  | '+' :: rest => rest
  | '-' :: rest => rest
  | word => word

/-- A value that is one word. Numbers with a base have no sign. -/
def word? (word : Text) : Option Toml :=
  if word = "true".toList then some (.bool true)
  else if word = "false".toList then some (.bool false)
  else
    let unsigned := dropSign word
    if unsigned = "inf".toList ∨ unsigned = "nan".toList then some (.other word)
    else match word with
      | '0' :: 'x' :: digits => based? 16 word digits
      | '0' :: 'o' :: digits => based? 8 word digits
      | '0' :: 'b' :: digits => based? 2 word digits
      | _ => number? word unsigned

end Retarget.Toml
