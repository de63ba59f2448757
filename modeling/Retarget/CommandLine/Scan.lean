import Retarget.Text.Split

/-!
The words of a command line sorted into options and an operand, given which options there are.
Options may stand before and after the operand until two dashes end them; a value follows its option
as the next word or after an equals sign. Words are judged in their order, so of a wrong word and a
request for help the first counts.
-/
namespace Retarget.CommandLine

inductive OptionKind
  /-- It has no value. -/
  | flag
  | value
  /-- Its value may start with a dash, even when it is a word of its own. -/
  | dashedValue
  deriving DecidableEq, Repr

structure OptionSpec where
  name : String
  kind : OptionKind := .value
  short : Option Char := none
  /-- Whether it may be given more than once. -/
  repeats : Bool := false
  /-- The values that it takes. -/
  accepts : Text → Bool := fun _ => true

inductive Stop
  | usage
  | help
  | version
  deriving DecidableEq, Repr

structure Scanned where
  options : List (String × Text) := []
  operand : Option Text := none
  /-- An option whose value was a word of its own. It is judged when the next word is. -/
  pending : Option (OptionSpec × Text) := none

namespace Scanned

def values (s : Scanned) (name : String) : List Text :=
  s.options.filterMap fun option => if option.1 = name then some option.2 else none

def value? (s : Scanned) (name : String) : Option Text := (s.values name).head?

def has (s : Scanned) (name : String) : Bool := (s.value? name).isSome

def addOption (s : Scanned) (spec : OptionSpec) (value : Text) : Except Stop Scanned :=
  if spec.accepts value && (spec.repeats || !s.has spec.name) then
    .ok { s with options := s.options ++ [(spec.name, value)] }
  else .error .usage

def settle (s : Scanned) : Except Stop Scanned :=
  match s.pending with
  | none => .ok s
  | some (spec, value) => { s with pending := none }.addOption spec value

/-- A word that is no option. Only one operand is taken. -/
def addOperand (s : Scanned) (word : Text) : Except Stop Scanned := do
  let s ← s.settle
  if s.operand.isSome then throw .usage
  else return { s with operand := some word }

/-- What a flag does: it is noted, or asks for something other than a command. -/
def addFlag (s : Scanned) (spec : OptionSpec) : Except Stop Scanned := do
  let s ← s.settle
  if spec.name = "help" then throw .help
  else if spec.name = "version" then throw .version
  else s.addOption spec []

end Scanned

def looksLikeOption (word : Text) : Bool :=
  word.head? == some '-' && word.length > 1

def scanShorts (specs : List OptionSpec) : Text → Scanned → Except Stop Scanned
  | [], s => .ok s
  | c :: rest, s =>
    match specs.find? fun spec => spec.short = some c with
    | none => .error .usage
    | some spec => do scanShorts specs rest (← s.addFlag spec)

def splitLong (word : Text) : Text × Option Text :=
  let name := word.takeWhile (· ≠ '=')
  match word.drop name.length with
  | [] => (name, none)
  | _ :: value => (name, some value)

/-- A word that starts with two dashes, and the words after it. Gives how many of those it takes. -/
def scanLong (specs : List OptionSpec) (word : Text) (rest : List Text) (s : Scanned) :
    Except Stop (Scanned × Nat) :=
  let (name, inline) := splitLong (word.drop 2)
  match specs.find? fun spec => spec.name.toList = name with
  | none => .error .usage
  | some spec =>
    match spec.kind, inline, rest with
    | .flag, some _, _ => .error .usage
    | .flag, none, _ => return (← s.addFlag spec, 0)
    | _, some value, _ => return (← (← s.settle).addOption spec value, 0)
    | _, none, [] => .error .usage
    | kind, none, value :: _ =>
      if looksLikeOption value ∧ kind ≠ .dashedValue then .error .usage
      else return ({ ← s.settle with pending := some (spec, value) }, 1)

/-- The words sorted. When the operand is a command's name, scanning ends there, and the words from
it on are given back; a pending option stays pending. -/
def scan (specs : List OptionSpec) (untilOperand : Bool) :
    List Text → Scanned → Except Stop (Scanned × List Text)
  | [], s => return (s, [])
  | word :: rest, s =>
    if word = ['-', '-'] then
      if !untilOperand then return (← rest.foldlM Scanned.addOperand s, [])
      else if rest.isEmpty then return (s, []) else throw .usage
    else if ['-', '-'].isPrefixOf word then do
      let (s, taken) ← scanLong specs word rest s
      scan specs untilOperand (rest.drop taken) s
    else if looksLikeOption word then do
      scan specs untilOperand rest (← scanShorts specs (word.drop 1) s)
    else if untilOperand then return (s, word :: rest)
    else do
      scan specs untilOperand rest (← s.addOperand word)
  termination_by words => words.length
  decreasing_by all_goals simp only [List.length_drop, List.length_cons]; omega

end Retarget.CommandLine
