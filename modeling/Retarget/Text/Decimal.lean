import Retarget.Text.Split

/-!
Whole numbers in decimal digits.
-/
namespace Retarget.Text.Decimal

def ofNat (n : Nat) : Text := Nat.toDigits 10 n

def ofInt : Int → Text
  | .ofNat n => ofNat n
  | .negSucc n => '-' :: ofNat (n + 1)

/-- At least `width` digits. -/
def padded (width n : Nat) : Text :=
  let digits := ofNat n
  List.replicate (width - digits.length) '0' ++ digits

def digitValue (c : Char) : Nat := c.toNat - 48

def value (digits : Text) : Nat :=
  digits.foldl (fun n c => n * 10 + digitValue c) 0

def toNat? (t : Text) : Option Nat :=
  if t ≠ [] ∧ t.all Char.isDigit then some (value t) else none

end Retarget.Text.Decimal
