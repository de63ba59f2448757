import Retarget.Bytes
import Retarget.Json.Basic
import Retarget.Text.Decimal

/-!
JSON as text: on one line without blanks, or with one item a line and two spaces for each level.
Inside a string the quote, the backslash and control characters are escaped and nothing else is.
-/
namespace Retarget.Json

def hexDigits4 (n : Nat) : Text :=
  [n / 4096, n / 256, n / 16, n].map fun d => Bytes.hexDigit (d % 16)

def escapeChar (c : Char) : Text :=
  if c = '"' then ['\\', '"']
  else if c = '\\' then ['\\', '\\']
  else if c = '\n' then ['\\', 'n']
  else if c = '\r' then ['\\', 'r']
  else if c = '\t' then ['\\', 't']
  else if c = '\x08' then ['\\', 'b']
  else if c = '\x0c' then ['\\', 'f']
  else if c < ' ' then '\\' :: 'u' :: hexDigits4 c.toNat
  else [c]

def quote (t : Text) : Text :=
  '"' :: t.flatMap escapeChar ++ ['"']

/-- How items are set apart: what opens a list of them, comes between two, and closes it. -/
structure Layout where
  opening : Nat → Text
  between : Nat → Text
  closing : Nat → Text
  afterColon : Text

namespace Layout

def compact : Layout := ⟨fun _ => [], fun _ => [','], fun _ => [], []⟩

def newLine (level : Nat) : Text := '\n' :: List.replicate (2 * level) ' '

def pretty : Layout :=
  ⟨fun level => newLine (level + 1), fun level => ',' :: newLine (level + 1), newLine, [' ']⟩

end Layout

mutual

def renderAt (layout : Layout) (level : Nat) : Json → Text
  | .null => "null".toList
  | .bool true => "true".toList
  | .bool false => "false".toList
  | .int n => Text.Decimal.ofInt n
  | .real literal => literal
  | .str t => quote t
  | .arr [] => ['[', ']']
  | .arr (item :: items) =>
    '[' :: layout.opening level ++ renderAt layout (level + 1) item ++
      renderItems layout level items ++ layout.closing level ++ [']']
  | .obj [] => ['{', '}']
  | .obj (field :: fields) =>
    '{' :: layout.opening level ++ renderField layout level field ++
      renderFields layout level fields ++ layout.closing level ++ ['}']

def renderField (layout : Layout) (level : Nat) : Text × Json → Text
  | (name, value) =>
    quote name ++ ':' :: layout.afterColon ++ renderAt layout (level + 1) value

def renderItems (layout : Layout) (level : Nat) : List Json → Text
  | [] => []
  | item :: items =>
    layout.between level ++ renderAt layout (level + 1) item ++ renderItems layout level items

def renderFields (layout : Layout) (level : Nat) : List (Text × Json) → Text
  | [] => []
  | field :: fields =>
    layout.between level ++ renderField layout level field ++ renderFields layout level fields

end

def compress (json : Json) : Text := renderAt .compact 0 json

def pretty (json : Json) : Text := renderAt .pretty 0 json

end Retarget.Json
