import Retarget.FileSystem.Basic
import Retarget.Settings
import Retarget.Toml.Parse

/-!
The configuration file and how it is combined with the command line. What the command line gives
comes first, then the file, then the settings' own defaults; dependency roots of the command line
are added to those of the file.
-/
namespace Retarget

inductive EngineKind
  | stamp
  | verify
  deriving DecidableEq, Repr

def EngineKind.word : EngineKind → String
  | .stamp => "stamp"
  | .verify => "verify"

def EngineKind.words : List (String × EngineKind) :=
  [EngineKind.stamp, EngineKind.verify].map fun kind => (kind.word, kind)

structure Config where
  targetVersion : Option UInt16 := none
  backupSuffix : Option Text := none
  stagingSuffix : Option Text := none
  copyRuntimeClasses : Option Bool := none
  classpath : List Path := []
  platformClasspath : Option (List Path) := none
  runtimeJar : Option Path := none
  engine : Option EngineKind := none
  jobs : Option Nat := none
  deriving DecidableEq, Repr

namespace Config

def keys : List String :=
  ["target_version", "backup_suffix", "staging_suffix", "copy_runtime_classes", "classpath",
    "platform_classpath", "runtime_jar", "engine", "jobs"]

def setting? {α : Type} (read : Toml → Option α) : Option Toml → Option (Option α)
  | none => some none
  | some value => (read value).map some

def asPaths? (value : Toml) : Option (List Path) :=
  value.asTexts?.map fun texts => texts.map Path.mk

def ofSettings? : List (Option Toml) → Option Config
  | [target, backup, staging, copyClasses, classpath, platform, runtime, engine, jobs] => do
    return {
      targetVersion := ← setting? (fun v => (v.asNatBelow? UInt16.size).map UInt16.ofNat) target
      backupSuffix := ← setting? Toml.asText? backup
      stagingSuffix := ← setting? Toml.asText? staging
      copyRuntimeClasses := ← setting? Toml.asBool? copyClasses
      classpath := (← setting? asPaths? classpath).getD []
      platformClasspath := ← setting? asPaths? platform
      runtimeJar := ← setting? (fun v => v.asText?.map Path.mk) runtime
      engine := ← setting? (Toml.asChoice? EngineKind.words) engine
      jobs := ← setting? (Toml.asNatBelow? UInt64.size) jobs }
  | _ => none

/-- The settings of a section: a table that has no other keys, or the values in order. -/
def ofSection? : Toml → Option Config
  | .table entries =>
    if entries.all fun e => keys.any fun key => key.toList = e.1 then
      ofSettings? (keys.map fun key => entries.lookup key.toList)
    else none
  | .arr items =>
    ofSettings?
      ((items.take keys.length).map some ++ List.replicate (keys.length - items.length) none)
  | _ => none

def sectionName : Text := "downgrade".toList

def ofEntries? : List (Text × Toml) → Option Config
  | [] => some {}
  | [(name, value)] => if name = sectionName then ofSection? value else none
  | _ => none

def parse? (text : Text) : Option Config :=
  (Toml.parse? text).bind ofEntries?

def parseFault : Fault := (Fault.foreign .toml).context "invalid TOML"

inductive LoadError
  | unreadable (path : Path) (kind : IoKind)
  | invalid (path : Path)
  deriving DecidableEq, Repr

def LoadError.fault : LoadError → Fault
  | .unreadable path kind => (Fault.io kind).context s!"read config file {path}"
  | .invalid path => parseFault.context s!"parse config file {path}"

/-- A relative path taken from a directory; the empty directory leaves it as it is. -/
def rebasePath (base path : Path) : Path :=
  if path.isAbsolute ∨ base.text = [] then path else base.join path

def rebase (base : Path) (config : Config) : Config :=
  { config with
    classpath := config.classpath.map (rebasePath base)
    platformClasspath := config.platformClasspath.map fun roots => roots.map (rebasePath base)
    runtimeJar := config.runtimeJar.map (rebasePath base) }

def readText (fs : FileSystem) (path : Path) : Except LoadError Text :=
  match fs.readFile path with
  | .error kind => .error (.unreadable path kind)
  | .ok bytes =>
    match Bytes.toString? bytes with
    | none => .error (.unreadable path .other)
    | some text => .ok text.toList

/-- The configuration of a file, its relative paths being taken from the file's directory. -/
def load (fs : FileSystem) (path : Path) : Except LoadError Config := do
  let text ← readText fs path
  match parse? text with
  | none => throw (.invalid path)
  | some config =>
    match path.parent? with
    | some base => return config.rebase base
    | none => return config

def fileName : String := "jardown.toml"

def placeIn (directory : Path) : Path :=
  directory.join (.ofString fileName)

def discover? (fs : FileSystem) (directory : Path) : Option Path :=
  let path := placeIn directory
  if fs.isFile path then some path else none

/-- The file that was asked for, or else the one in the directory, or else nothing set. -/
def loadOrDefault (fs : FileSystem) (asked : Option Path) (directory : Path) :
    Except LoadError Config :=
  match asked.or (discover? fs directory) with
  | some path => load fs path
  | none => .ok {}

end Config

structure Overrides where
  targetVersion : Option UInt16 := none
  backupSuffix : Option Text := none
  stagingSuffix : Option Text := none
  noRuntimeClasses : Bool := false
  classpath : List Path := []
  platformClasspath : List Path := []
  runtimeJar : Option Path := none
  engine : Option EngineKind := none
  jobs : Option Nat := none
  deriving DecidableEq, Repr

structure Merged where
  settings : Settings
  /-- Nothing when neither side names platform roots. -/
  platformClasspath : Option (List Path)
  runtimeJar : Option Path
  engine : EngineKind
  deriving DecidableEq, Repr

namespace Config

def addRoots (roots : List Path) (more : List Path) : List Path :=
  more.foldl (fun roots root => if roots.any (·.same root) then roots else roots ++ [root]) roots

def merge (config : Config) (input : Path) (cli : Overrides) : Merged :=
  let defaults : Settings := { input := input }
  let platform :=
    if cli.platformClasspath.isEmpty then config.platformClasspath else some cli.platformClasspath
  { settings := {
      input := input
      backupSuffix := (cli.backupSuffix.or config.backupSuffix).getD defaults.backupSuffix
      stagingSuffix := (cli.stagingSuffix.or config.stagingSuffix).getD defaults.stagingSuffix
      targetVersion := (cli.targetVersion.or config.targetVersion).getD defaults.targetVersion
      copyRuntimeClasses :=
        !cli.noRuntimeClasses && config.copyRuntimeClasses.getD defaults.copyRuntimeClasses
      classpath := addRoots config.classpath cli.classpath
      platformClasspath := platform.getD []
      jobs := max ((cli.jobs.or config.jobs).getD defaults.jobs) 1 }
    platformClasspath := platform
    runtimeJar := cli.runtimeJar.or config.runtimeJar
    engine := (cli.engine.or config.engine).getD .stamp }

/-- The staging suffix of an interrupted run, from the command line, the file or the defaults. -/
def recoverySuffix (config : Config) (cli : Option Text) : Text :=
  (cli.or config.stagingSuffix).getD ({} : Settings).stagingSuffix

end Config

end Retarget
