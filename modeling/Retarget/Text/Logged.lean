import Retarget.Bytes
import Retarget.Text.Blank
import Retarget.Text.Quoted

/-!
Text as a log shows it. Characters that steer a terminal are written by number, so that a name in a
message cannot; line ends and all other characters stay as they are.
-/
namespace Retarget.Text

/-- The escape character, and the ASCII characters for bell, backspace, new page and deletion. -/
def steersTerminal (c : Char) : Bool :=
  ['\x1b', '\x07', '\x08', '\x0c', '\x7f'].contains c

def isHighControl (c : Char) : Bool :=
  0x80 ≤ c.toNat && c.toNat ≤ 0x9F

def loggedChar (c : Char) : Text :=
  if steersTerminal c then
    '\\' :: 'x' :: [Bytes.hexDigit (c.toNat / 16), Bytes.hexDigit (c.toNat % 16)]
  else if isHighControl c then '\\' :: 'u' :: '{' :: hexDigits c.toNat ++ ['}']
  else [c]

def logged (t : Text) : Text := t.flatMap loggedChar

def logLine (t : Text) : Text := trimEnd ((logged t).takeWhile (· ≠ '\n'))

end Retarget.Text
