import Retarget.Text.Split
import Retarget.Text.Unprinted

/-!
Text between quotes, as it is shown in descriptions. Characters that would not show are written by
name or by number.
-/
namespace Retarget.Text

def hexDigits (n : Nat) : Text := Nat.toDigits 16 n

def showChar (c : Char) : Text :=
  if c = '"' ∨ c = '\\' then ['\\', c]
  else if c = '\n' then ['\\', 'n']
  else if c = '\r' then ['\\', 'r']
  else if c = '\t' then ['\\', 't']
  else if c = '\x00' then ['\\', '0']
  else if isUnprinted c then '\\' :: 'u' :: '{' :: hexDigits c.toNat ++ ['}']
  else [c]

def quoted (t : Text) : Text :=
  '"' :: t.flatMap showChar ++ ['"']

def quotedList (texts : List Text) : Text :=
  '[' :: ([',', ' '].intercalate (texts.map quoted)) ++ [']']

end Retarget.Text
