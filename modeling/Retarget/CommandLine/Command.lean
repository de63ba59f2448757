import Retarget.CommandLine.Scan
import Retarget.Config
import Retarget.Text.Decimal

/-!
The commands and what they are given. The configuration file and the wish for more messages may be
named before or after the command.
-/
namespace Retarget

inductive OutputFormat
  | text
  | json
  deriving DecidableEq, Repr

structure DowngradeArgs where
  jar : Path
  overrides : Overrides
  report : Option Path
  deriving DecidableEq, Repr

structure RecoverArgs where
  jar : Path
  stagingSuffix : Option Text
  deriving DecidableEq, Repr

structure InspectArgs where
  jar : Path
  target : Option UInt16
  format : OutputFormat
  deriving DecidableEq, Repr

inductive Command
  | downgrade (args : DowngradeArgs)
  | recover (args : RecoverArgs)
  | inspect (args : InspectArgs)
  deriving DecidableEq, Repr

structure Invocation where
  verbose : Bool
  config : Option Path
  command : Command
  deriving DecidableEq, Repr

namespace CommandLine

def unsigned? : Text → Option Nat
  | '+' :: digits => Text.Decimal.toNat? digits
  | digits => Text.Decimal.toNat? digits

/-- A class-file version; zero may have a minus sign. -/
def version? (text : Text) : Option UInt16 :=
  match text with
  | '-' :: digits => if Text.Decimal.toNat? digits = some 0 then some 0 else none
  | _ => (unsigned? text).bind fun n => if n < UInt16.size then some (UInt16.ofNat n) else none

def jobs? (text : Text) : Option Nat :=
  (unsigned? text).bind fun n => if n < UInt64.size then some n else none

def choice? {α : Type} (words : List (String × α)) (text : Text) : Option α :=
  words.findSome? fun word => if word.1.toList = text then some word.2 else none

def formatWords : List (String × OutputFormat) := [("text", .text), ("json", .json)]

def flag (name : String) (short : Option Char := none) : OptionSpec where
  name := name
  kind := .flag
  short := short

def readable {α : Type} (name : String) (value? : Text → Option α) : OptionSpec where
  name := name
  accepts value := (value? value).isSome

def dashed (name : String) : OptionSpec where
  name := name
  kind := .dashedValue

def listed (name : String) : OptionSpec where
  name := name
  repeats := true

def commonSpecs : List OptionSpec :=
  [flag "verbose" (some 'v'), { name := "config" }, flag "help" (some 'h')]

def rootSpecs : List OptionSpec :=
  commonSpecs ++ [flag "version" (some 'V')]

def downgradeSpecs : List OptionSpec :=
  commonSpecs ++ [readable "target" version?, dashed "suffix", dashed "staging-suffix",
    flag "no-runtime-classes", listed "classpath", listed "platform-classpath",
    { name := "runtime-jar" }, readable "engine" (choice? EngineKind.words),
    readable "jobs" jobs?, { name := "report" }]

def recoverSpecs : List OptionSpec :=
  commonSpecs ++ [dashed "staging-suffix"]

def inspectSpecs : List OptionSpec :=
  commonSpecs ++ [readable "target" version?, readable "format" (choice? formatWords)]

def path? (s : Scanned) (name : String) : Option Path :=
  (s.value? name).map Path.mk

def downgradeArgs (jar : Path) (s : Scanned) : DowngradeArgs where
  jar := jar
  overrides := {
    targetVersion := (s.value? "target").bind version?
    backupSuffix := s.value? "suffix"
    stagingSuffix := s.value? "staging-suffix"
    noRuntimeClasses := s.has "no-runtime-classes"
    classpath := (s.values "classpath").map Path.mk
    platformClasspath := (s.values "platform-classpath").map Path.mk
    runtimeJar := path? s "runtime-jar"
    engine := (s.value? "engine").bind (choice? EngineKind.words)
    jobs := (s.value? "jobs").bind jobs? }
  report := path? s "report"

def recoverArgs (jar : Path) (s : Scanned) : RecoverArgs where
  jar := jar
  stagingSuffix := s.value? "staging-suffix"

def inspectArgs (jar : Path) (s : Scanned) : InspectArgs where
  jar := jar
  target := (s.value? "target").bind version?
  format := ((s.value? "format").bind (choice? formatWords)).getD .text

/-- A command's words read, given what was said before its name. An option that is pending there is
judged last. -/
def command {α : Type} (specs : List OptionSpec) (args : Path → Scanned → α)
    (wrap : α → Command) (before : Scanned) (words : List Text) : Except Stop Invocation := do
  let (s, _) ← scan specs false words {}
  let s ← s.settle
  match s.operand with
  | none => throw .usage
  | some jar =>
    let before ← before.settle
    return {
      verbose := before.has "verbose" || s.has "verbose"
      config := (path? s "config").or (path? before "config")
      command := wrap (args ⟨jar⟩ s) }

def commandNames : List String := ["downgrade", "recover", "inspect", "help"]

def helpStop : List Text → Stop
  | [] => .help
  | [name] => if commandNames.any fun known => known.toList = name then .help else .usage
  | _ => .usage

def parse (words : List Text) : Except Stop Invocation := do
  let (before, rest) ← scan rootSpecs true words {}
  match rest with
  | [] => throw .usage
  | name :: rest =>
    if name = "downgrade".toList then
      command downgradeSpecs downgradeArgs .downgrade before rest
    else if name = "recover".toList then
      command recoverSpecs recoverArgs .recover before rest
    else if name = "inspect".toList then
      command inspectSpecs inspectArgs .inspect before rest
    else if name = "help".toList then throw (helpStop rest)
    else throw .usage

end CommandLine

end Retarget
