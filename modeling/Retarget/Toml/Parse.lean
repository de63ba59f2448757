import Retarget.Bytes
import Retarget.Toml.Tables
import Retarget.Toml.Word

/-!
Reading TOML documents. Each reader takes its part off the front of the text and gives back the
rest; the text of a document is refused as a whole when any part of it is.
-/
namespace Retarget.Toml

def isBlank (c : Char) : Bool := c == ' ' || c == '\t'

def skipBlanks (t : Text) : Text := t.dropWhile isBlank

def isPlain (c : Char) : Bool :=
  c == '\t' || (' ' ≤ c && c != '\x7f')

def lineEnd? : Text → Option Text
  | '\n' :: rest => some rest
  | '\r' :: '\n' :: rest => some rest
  | _ => none

def skipComment : Text → Text
  | '#' :: rest => rest.dropWhile isPlain
  | t => t

/-- Blanks, line ends and comments before the next thing in an array or a table in braces. -/
def skipLines : (fuel : Nat) → Text → Text
  | 0, t => t
  | fuel + 1, t =>
    let t := skipComment (skipBlanks t)
    match lineEnd? t with
    | some rest => skipLines fuel rest
    | none => t

/-- A character given by `count` hexadecimal digits. -/
def scalar? (count : Nat) (t : Text) : Option (Char × Text) := do
  let digits := t.take count
  if digits.length < count then none
  else
    let values ← digits.mapM Bytes.hexValue?
    let n := values.foldl (fun n d => n * 16 + d) 0
    if n < 0xD800 ∨ (0xE000 ≤ n ∧ n < 0x110000) then some (Char.ofNat n, t.drop count) else none

def escape? : Text → Option (Char × Text)
  | [] => none
  | c :: rest =>
    if c = 'b' then some ('\x08', rest)
    else if c = 't' then some ('\t', rest)
    else if c = 'n' then some ('\n', rest)
    else if c = 'f' then some ('\x0c', rest)
    else if c = 'r' then some ('\r', rest)
    else if c = 'e' then some ('\x1b', rest)
    else if c = '"' ∨ c = '\\' then some (c, rest)
    else if c = 'x' then scalar? 2 rest
    else if c = 'u' then scalar? 4 rest
    else if c = 'U' then scalar? 8 rest
    else none

/-- A quoted string on one line, after its opening quote; `taken` is what came before, last
first. -/
def basicRest? : (fuel : Nat) → (taken : Text) → Text → Option (Text × Text)
  | 0, _, _ => none
  | _, _, [] => none
  | fuel + 1, taken, c :: rest =>
    if c = '"' then some (taken.reverse, rest)
    else if c = '\\' then
      match escape? rest with
      | some (c, rest) => basicRest? fuel (c :: taken) rest
      | none => none
    else if isPlain c then basicRest? fuel (c :: taken) rest
    else none

def literalRest? (t : Text) : Option (Text × Text) :=
  let content := t.takeWhile fun c => isPlain c && c != '\''
  match t.drop content.length with
  | '\'' :: rest => some (content, rest)
  | _ => none

def dropFold : Text → Text
  | '\r' :: '\n' :: rest => dropFold rest
  | c :: rest => if isBlank c || c == '\n' then dropFold rest else c :: rest
  | [] => []

/-- Blanks and line ends after a backslash that ends a line. There has to be a line end. -/
def foldedRest? (t : Text) : Option Text :=
  (lineEnd? (skipBlanks t)).map dropFold

def closing? (quote : Char) (t : Text) : Option (Text × Text) :=
  let count := (t.takeWhile (· == quote)).length
  if count < 3 then none
  else
    let inside := min (count - 3) 2
    some (List.replicate inside quote, t.drop (inside + 3))

/-- A string over several lines, after its opening quotes and the line end after them. Line ends
stay as they are written. -/
def longRest? (quote : Char) (escapes : Bool) : (fuel : Nat) → (taken : Text) → Text →
    Option (Text × Text)
  | 0, _, _ => none
  | _, _, [] => none
  | fuel + 1, taken, c :: rest =>
    match closing? quote (c :: rest) with
    | some (inside, rest) => some (taken.reverse ++ inside, rest)
    | none =>
      if c = '\\' ∧ escapes then
        match foldedRest? rest with
        | some rest => longRest? quote escapes fuel taken rest
        | none =>
          match escape? rest with
          | some (c, rest) => longRest? quote escapes fuel (c :: taken) rest
          | none => none
      else if isPlain c ∨ (lineEnd? (c :: rest)).isSome then
        longRest? quote escapes fuel (c :: taken) rest
      else none

def long? (quote : Char) (escapes : Bool) (t : Text) : Option (Text × Text) :=
  let t := (lineEnd? t).getD t
  longRest? quote escapes (t.length + 1) [] t

def string? : Text → Option (Text × Text)
  | '"' :: '"' :: '"' :: rest => long? '"' true rest
  | '\'' :: '\'' :: '\'' :: rest => long? '\'' false rest
  | '"' :: rest => basicRest? (rest.length + 1) [] rest
  | '\'' :: rest => literalRest? rest
  | _ => none

def isKeyChar (c : Char) : Bool :=
  c.isAlphanum || c == '_' || c == '-'

def keyPart? : Text → Option (Text × Text)
  | '"' :: rest => basicRest? (rest.length + 1) [] rest
  | '\'' :: rest => literalRest? rest
  | t =>
    let part := t.takeWhile isKeyChar
    if part = [] then none else some (part, t.drop part.length)

def key? : (fuel : Nat) → Text → Option (List Text × Text)
  | 0, _ => none
  | fuel + 1, t => do
    let (part, rest) ← keyPart? (skipBlanks t)
    match skipBlanks rest with
    | '.' :: rest =>
      let (parts, rest) ← key? fuel rest
      return (part :: parts, rest)
    | rest => return ([part], rest)

def isWordChar (c : Char) : Bool :=
  !(isBlank c || ['=', ',', '[', ']', '\x7b', '\x7d', '#', '\r', '\n'].contains c)

/-- The word at the front. One space may stand between a date and a time. -/
def takeWord (t : Text) : Text :=
  let word := t.takeWhile isWordChar
  match afterDate? word, t.drop word.length with
  | some [], ' ' :: rest =>
    let time := rest.takeWhile isWordChar
    if time = [] then word else word ++ ' ' :: time
  | _, _ => word

def maxDepth : Nat := 80

mutual

/-- A value; `room` is how much deeper arrays and tables may stand in each other. -/
def value? : (fuel : Nat) → (room : Nat) → Text → Option (Toml × Text)
  | 0, _, _ => none
  | fuel + 1, room, t =>
    match t, room with
    | '[' :: rest, room + 1 => do
      let (items, rest) ← items? fuel room rest
      return (.arr items, rest)
    | '{' :: rest, room + 1 => do
      let (drafts, rest) ← inlineEntries? fuel room [] rest
      return (.table (finishEntries drafts), rest)
    | c :: rest, _ =>
      if c = '"' ∨ c = '\'' then do
        let (s, rest) ← string? (c :: rest)
        return (.str s, rest)
      else
        let word := takeWord (c :: rest)
        (word? word).map fun value => (value, (c :: rest).drop word.length)
    | [], _ => none

/-- The items of an array and its closing bracket; a comma may follow the last item. -/
def items? : (fuel : Nat) → (room : Nat) → Text → Option (List Toml × Text)
  | 0, _, _ => none
  | fuel + 1, room, t =>
    match skipLines (t.length + 1) t with
    | ']' :: rest => some ([], rest)
    | t => do
      let (item, rest) ← value? fuel room t
      match skipLines (rest.length + 1) rest with
      | ',' :: rest =>
        let (items, rest) ← items? fuel room rest
        return (item :: items, rest)
      | ']' :: rest => some ([item], rest)
      | _ => none

/-- The entries of a table in braces and its closing brace; a comma may follow the last entry, and
lines may end between the parts of an entry. -/
def inlineEntries? : (fuel : Nat) → (room : Nat) → Drafts → Text → Option (Drafts × Text)
  | 0, _, _, _ => none
  | fuel + 1, room, drafts, t =>
    match skipLines (t.length + 1) t with
    | '}' :: rest => some (drafts, rest)
    | t => do
      let (parts, rest) ← key? (t.length + 1) t
      match skipLines (rest.length + 1) rest with
      | '=' :: rest =>
        let (value, rest) ← value? fuel room (skipLines (rest.length + 1) rest)
        let drafts ← drafts.assign value parts
        match skipLines (rest.length + 1) rest with
        | ',' :: rest => inlineEntries? fuel room drafts rest
        | '}' :: rest => some (drafts, rest)
        | _ => none
      | _ => none

end

def restOfLine? (t : Text) : Option Text :=
  match skipComment (skipBlanks t) with
  | [] => some []
  | t => lineEnd? t

/-- A document being read: the table that values go to, and all there is. -/
structure Document where
  here : List Text
  drafts : Drafts

def header? (document : Document) (t : Text) : Option (Document × Text) := do
  let (parts, rest) ← key? (t.length + 1) t
  match parts.getLast?, rest with
  | some key, ']' :: rest =>
    let drafts ← document.drafts.along (Drafts.openTable key) parts.dropLast
    return (⟨parts, drafts⟩, ← restOfLine? rest)
  | _, _ => none

def arrayHeader? (document : Document) (t : Text) : Option (Document × Text) := do
  let (parts, rest) ← key? (t.length + 1) t
  match parts.getLast?, rest with
  | some key, ']' :: ']' :: rest =>
    let drafts ← document.drafts.along (Drafts.appendTable key) parts.dropLast
    return (⟨parts, drafts⟩, ← restOfLine? rest)
  | _, _ => none

def entry? (document : Document) (t : Text) : Option (Document × Text) := do
  let (parts, rest) ← key? (t.length + 1) t
  match rest with
  | '=' :: rest =>
    let (value, rest) ← value? (rest.length + 1) maxDepth (skipBlanks rest)
    let drafts ← document.drafts.along (fun inner => inner.assign value parts) document.here
    return ({ document with drafts := drafts }, ← restOfLine? rest)
  | _ => none

def line? (document : Document) (t : Text) : Option (Document × Text) :=
  match skipBlanks t with
  | [] => some (document, [])
  | '[' :: '[' :: rest => arrayHeader? document rest
  | '[' :: rest => header? document rest
  | t =>
    match restOfLine? t with
    | some rest => some (document, rest)
    | none => entry? document t

def lines? : (fuel : Nat) → Document → Text → Option Document
  | 0, document, t => if t = [] then some document else none
  | fuel + 1, document, t =>
    if t = [] then some document
    else match line? document t with
      | some (document, rest) => lines? fuel document rest
      | none => none

/-- The entries of a document; a byte-order mark before it does not count. -/
def parse? (t : Text) : Option (List (Text × Toml)) :=
  let t := if t.head? = some '\ufeff' then t.drop 1 else t
  (lines? (t.length + 1) ⟨[], []⟩ t).map fun document => finishEntries document.drafts

end Retarget.Toml
