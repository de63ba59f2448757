import Retarget.Bytes
import Retarget.Json.Basic
import Retarget.Text.Decimal

/-!
Reading JSON text. Each reader takes its part off the front of the text and gives back the rest.
-/
namespace Retarget.Json

def isBlank (c : Char) : Bool := c == ' ' || c == '\n' || c == '\t' || c == '\r'

def skipBlanks (t : Text) : Text := t.dropWhile isBlank

def hex4? : Text → Option (Nat × Text)
  | a :: b :: c :: d :: rest => do
    let a ← Bytes.hexValue? a
    let b ← Bytes.hexValue? b
    let c ← Bytes.hexValue? c
    let d ← Bytes.hexValue? d
    return (((a * 16 + b) * 16 + c) * 16 + d, rest)
  | _ => none

def letterEscape? (c : Char) : Option Char :=
  if c = '"' ∨ c = '\\' ∨ c = '/' then some c
  else if c = 'b' then some '\x08'
  else if c = 'f' then some '\x0c'
  else if c = 'n' then some '\n'
  else if c = 'r' then some '\r'
  else if c = 't' then some '\t'
  else none

/-- The character of an escape by number, which is one unit of UTF-16 or a pair of them. -/
def unicodeEscape? (t : Text) : Option (Char × Text) := do
  let (high, rest) ← hex4? t
  if 0xD800 ≤ high ∧ high < 0xDC00 then
    match rest with
    | '\\' :: 'u' :: rest =>
      let (low, rest) ← hex4? rest
      if 0xDC00 ≤ low ∧ low < 0xE000 then
        some (Char.ofNat (0x10000 + (high - 0xD800) * 1024 + (low - 0xDC00)), rest)
      else none
    | _ => none
  else if 0xDC00 ≤ high ∧ high < 0xE000 then none
  else some (Char.ofNat high, rest)

/-- A string's characters up to its closing quote; `taken` holds those before, last first. -/
def stringRest? : (fuel : Nat) → (taken : Text) → Text → Option (Text × Text)
  | 0, _, _ => none
  | _, _, [] => none
  | fuel + 1, taken, c :: rest =>
    if c = '"' then some (taken.reverse, rest)
    else if c < ' ' then none
    else if c ≠ '\\' then stringRest? fuel (c :: taken) rest
    else match rest with
      | 'u' :: rest =>
        match unicodeEscape? rest with
        | some (c, rest) => stringRest? fuel (c :: taken) rest
        | none => none
      | letter :: rest =>
        match letterEscape? letter with
        | some c => stringRest? fuel (c :: taken) rest
        | none => none
      | [] => none

def digits? (t : Text) : Option (Text × Text) :=
  let digits := t.takeWhile Char.isDigit
  if digits = [] then none else some (digits, t.dropWhile Char.isDigit)

def fraction? : Text → Option (Text × Text)
  | '.' :: rest => do
    let (digits, rest) ← digits? rest
    return ('.' :: digits, rest)
  | t => some ([], t)

def exponent? : Text → Option (Text × Text)
  | e :: rest =>
    if e = 'e' ∨ e = 'E' then
      match rest with
      | s :: rest' =>
        if s = '+' ∨ s = '-' then do
          let (digits, rest) ← digits? rest'
          return (e :: s :: digits, rest)
        else do
          let (digits, rest) ← digits? rest
          return (e :: digits, rest)
      | [] => none
    else some ([], e :: rest)
  | [] => some ([], [])

/-- A number; a whole part of more than one digit does not start with zero. -/
def number? (t : Text) : Option (Json × Text) := do
  let negative := t.head? = some '-'
  let (whole, rest) ← digits? (if negative then t.drop 1 else t)
  if whole.length > 1 ∧ whole.head? = some '0' then none
  else
    let (fraction, rest) ← fraction? rest
    let (exponent, rest) ← exponent? rest
    let sign : Text := if negative then ['-'] else []
    if fraction = [] ∧ exponent = [] ∧ ¬(negative ∧ Text.Decimal.value whole = 0) then
      let n : Int := Text.Decimal.value whole
      return (.int (if negative then -n else n), rest)
    else return (.real (sign ++ whole ++ fraction ++ exponent), rest)

def word? (word : String) (t : Text) : Option Text :=
  if word.toList.isPrefixOf t then some (t.drop word.length) else none

def string? (t : Text) : Option (Text × Text) :=
  match t with
  | '"' :: rest => stringRest? (rest.length + 1) [] rest
  | _ => none

mutual

def value? : (fuel : Nat) → Text → Option (Json × Text)
  | 0, _ => none
  | fuel + 1, t =>
    match skipBlanks t with
    | [] => none
    | '[' :: rest =>
      match skipBlanks rest with
      | ']' :: rest => some (.arr [], rest)
      | rest => do
        let (items, rest) ← items? fuel rest
        return (.arr items, rest)
    | '{' :: rest =>
      match skipBlanks rest with
      | '}' :: rest => some (.obj [], rest)
      | rest => do
        let (fields, rest) ← fields? fuel rest
        return (.obj fields, rest)
    | '"' :: rest => do
      let (s, rest) ← string? ('"' :: rest)
      return (.str s, rest)
    | c :: rest =>
      if c = 't' then (word? "true" (c :: rest)).map (.bool true, ·)
      else if c = 'f' then (word? "false" (c :: rest)).map (.bool false, ·)
      else if c = 'n' then (word? "null" (c :: rest)).map (.null, ·)
      else number? (c :: rest)

def items? : (fuel : Nat) → Text → Option (List Json × Text)
  | 0, _ => none
  | fuel + 1, t => do
    let (item, rest) ← value? fuel t
    match skipBlanks rest with
    | ',' :: rest =>
      let (items, rest) ← items? fuel rest
      return (item :: items, rest)
    | ']' :: rest => some ([item], rest)
    | _ => none

def fields? : (fuel : Nat) → Text → Option (List (Text × Json) × Text)
  | 0, _ => none
  | fuel + 1, t => do
    let (name, rest) ← string? (skipBlanks t)
    match skipBlanks rest with
    | ':' :: rest =>
      let (value, rest) ← value? fuel rest
      match skipBlanks rest with
      | ',' :: rest =>
        let (fields, rest) ← fields? fuel rest
        return ((name, value) :: fields, rest)
      | '}' :: rest => some ([(name, value)], rest)
      | _ => none
    | _ => none

end

def parse? (t : Text) : Option Json :=
  match value? (t.length + 1) t with
  | some (json, rest) => if skipBlanks rest = [] then some json else none
  | none => none

end Retarget.Json
