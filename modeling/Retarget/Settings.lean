import Retarget.Path

/-!
Settings of a run. The backup of the input and the archive being built lie beside the input, their
names having a suffix before the extension. Settings are valid when these are three different files.
-/
namespace Retarget

inductive JarRole
  | input
  | staging
  | backup
  deriving DecidableEq, Repr

def JarRole.word : JarRole → String
  | .input => "input"
  | .staging => "staging"
  | .backup => "backup"

inductive SettingsError
  | emptySuffix (which : JarRole)
  | separatorInSuffix (which : JarRole) (suffix : Text)
  | pathClash (first second : JarRole) (path : Path)
  deriving DecidableEq, Repr

def SettingsError.message : SettingsError → String
  | .emptySuffix which =>
    let role := which.word
    s!"{role} suffix is empty"
  | .separatorInSuffix which suffix =>
    let role := which.word
    let text := String.ofList suffix
    s!"{role} suffix `{text}` contains a path separator"
  | .pathClash first second path =>
    let a := first.word
    let b := second.word
    s!"{a} and {b} jars would both be {path}"

structure Settings where
  /-- The archive to be lowered in place. -/
  input : Path := .ofString "target/app.jar"
  backupSuffix : Text := "-pre-downgrade".toList
  stagingSuffix : Text := "-downgrading".toList
  /-- The major version that classes are lowered to. -/
  targetVersion : UInt16 := 52
  /-- Whether support classes are copied into the result. -/
  copyRuntimeClasses : Bool := true
  classpath : List Path := []
  platformClasspath : List Path := []
  /-- How many classes may be worked on at a time. -/
  jobs : Nat := 1
  deriving DecidableEq, Repr

namespace Settings

def backupPath (s : Settings) : Path := s.input.siblingWithSuffix s.backupSuffix

def stagingPath (s : Settings) : Path := s.input.siblingWithSuffix s.stagingSuffix

def suffixError? (which : JarRole) (suffix : Text) : Option SettingsError :=
  if suffix = [] then some (.emptySuffix which)
  else if '/' ∈ suffix ∨ '\\' ∈ suffix then some (.separatorInSuffix which suffix)
  else none

def clash? (first second : JarRole) (a b : Path) : Option SettingsError :=
  if a.same b then some (.pathClash first second a) else none

/-- The first thing that is wrong with the settings: the suffixes are looked at before the paths,
the backup's suffix first, and the paths pair by pair. -/
def error? (s : Settings) : Option SettingsError :=
  (suffixError? .backup s.backupSuffix).or <|
  (suffixError? .staging s.stagingSuffix).or <|
  (clash? .input .staging s.input s.stagingPath).or <|
  (clash? .input .backup s.input s.backupPath).or <|
  clash? .staging .backup s.stagingPath s.backupPath

def validate (s : Settings) : Except SettingsError Unit :=
  match s.error? with
  | some fault => .error fault
  | none => .ok ()

end Settings

end Retarget
