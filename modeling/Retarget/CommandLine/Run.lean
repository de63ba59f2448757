import Retarget.ClassSurvey
import Retarget.CommandLine.Command
import Retarget.Downgrade.Run
import Retarget.Engine.Builtin
import Retarget.Json.Render
import Retarget.Text.Logged

/-!
What the commands do: lower an archive, finish an interrupted swap, or print the class-file versions
of an archive. A command ends with an exit code, its output, and the failures to be logged.
-/
namespace Retarget

structure CommandResult where
  exitCode : UInt8
  output : Text := []
  /-- What went wrong, in the order it is told. -/
  log : List Fault := []
  deriving DecidableEq

def CommandResult.logLines (result : CommandResult) : List Text :=
  result.log.map fun fault => Text.logLine fault.line.words.toList

structure Surroundings where
  /-- The home of a platform, if one is named. -/
  javaHome : Option Path
  startedAt : Timestamp
  endedAt : Timestamp

namespace CommandLine

def toolName : String := "jardown"

def toolVersion : String := "0.1.0"

def tool : Tool := ⟨toolName.toList, some toolVersion.toList⟩

abbrev Act (α : Type) := EStateM CommandResult Disk α

def failure (fault : Fault) : CommandResult := { exitCode := 1, log := [fault] }

def engineOf : EngineKind → Engine
  | .stamp => Engine.stamp
  | .verify => Engine.verify

def ask {α : Type} (what : String) (question : FileSystem → Except Fault α) : Act α := fun disk =>
  match question disk.files with
  | .ok a => .ok a disk
  | .error fault => .error (failure (fault.context what)) disk

def openCatalog : Option Path → Act Catalog
  | none => pure .empty
  | some path => do
    let archive ← ask s!"open runtime jar {path}" fun fs => Catalog.openAt fs path
    return .ofArchive archive

/-- The settings of a run; platform roots that nobody named are looked for in the platform's
home. -/
def settingsOf (surroundings : Surroundings) (merged : Merged) : Act Settings := fun disk =>
  let settings := merged.settings
  match merged.platformClasspath, surroundings.javaHome with
  | none, some home =>
    .ok { settings with platformClasspath := platformRoots disk.files home } disk
  | _, _ => .ok settings disk

/-- The failure of a run. When the swap stopped half way, what is to be done is told as well. -/
def runFailure (input : Path) (e : DowngradeError) : CommandResult where
  exitCode := e.exitCode
  log :=
    let told := e.fault.context s!"downgrade {input}"
    if e.isPartialSwap then
      [told, .text "the original jar is at its backup name; run `jardown recover` to finish"]
    else [told]

def runDowngrade (settings : Settings) (context : RunContext) : Act Outcome := fun disk =>
  match Downgrade.run settings context disk with
  | .ok outcome disk => .ok outcome disk
  | .error e disk => .error (runFailure settings.input e) disk

def writeReport (report : Report) : Option Path → Act Unit
  | none => pure ()
  | some path => fun disk =>
    let text := Json.pretty (Json.ofReport report)
    match Disk.perform (.write path (Bytes.ofString (String.ofList text))) disk with
    | .ok () disk => .ok () disk
    | .error kind disk => .error (failure ((Fault.io kind).context s!"write {path}")) disk

def downgrade (surroundings : Surroundings) (config : Config) (args : DowngradeArgs) :
    Act CommandResult := do
  let merged := config.merge args.jar args.overrides
  let settings ← settingsOf surroundings merged
  let catalog ← openCatalog merged.runtimeJar
  let outcome ← runDowngrade settings {
    engine := engineOf merged.engine
    catalog := catalog
    tool := tool
    startedAt := surroundings.startedAt
    endedAt := surroundings.endedAt }
  writeReport outcome.report args.report
  return { exitCode := 0 }

def recover (config : Config) (args : RecoverArgs) : Act CommandResult := fun disk =>
  let staged := args.jar.siblingWithSuffix (config.recoverySuffix args.stagingSuffix)
  match Swap.complete staged args.jar disk with
  | .ok () disk => .ok { exitCode := 0 } disk
  | .error e disk =>
    let jar := args.jar
    .error (failure (e.fault.context s!"recover {jar}")) disk

def releaseText (major : UInt16) : Text :=
  match (ClassVersion.mk major 0).release? with
  | some release => "Java ".toList ++ Text.Decimal.ofNat release.toNat
  | none => "unknown".toList

def column (width : Nat) (t : Text) : Text :=
  t ++ List.replicate (width - t.length) ' '

def row (major release count : Text) : Text :=
  "  ".toList ++ column 8 major ++ ' ' :: column 10 release ++ ' ' :: count

def histogramRow (note : Text) (entry : UInt16 × Nat) : Text :=
  row (Text.Decimal.ofNat entry.1.toNat) (releaseText entry.1) (Text.Decimal.ofNat entry.2 ++ note)

def surveyLines (args : InspectArgs) (s : ClassSurvey) : List Text :=
  let above := match args.target with
    | none => []
    | some target =>
      [[], Text.Decimal.ofNat (s.above target) ++ " classes above major version ".toList ++
        Text.Decimal.ofNat target.toNat]
  [args.jar.text, row "MAJOR".toList "RELEASE".toList "CLASSES".toList] ++
    s.classes.map (histogramRow []) ++
    s.overlayClasses.map (histogramRow " (multi-release overlay)".toList) ++
    above ++
    s.malformed.map fun path => "malformed class file: ".toList ++ path.text

def histogramJson (h : Histogram) : Json :=
  let fields := h.map fun e => (Text.Decimal.ofNat e.1.toNat, Json.int e.2)
  .obj (fields.mergeSort fun a b => !decide (b.1 < a.1))

def surveyJson (args : InspectArgs) (s : ClassSurvey) : Json :=
  let orNull (n : Option Nat) : Json := match n with
    | some n => .int n
    | none => .null
  Json.record [
    ("above_target", orNull (args.target.map s.above)),
    ("archive", .str args.jar.text),
    ("classes", histogramJson s.classes),
    ("highest", orNull (s.highest?.map UInt16.toNat)),
    ("malformed", .arr (s.malformed.map EntryPath.toJson)),
    ("overlay_classes", histogramJson s.overlayClasses)]

def inspect (args : InspectArgs) : Act CommandResult := do
  let jar := args.jar
  let archive ← ask s!"open {jar}" fun fs => (openTree fs jar).mapError ZipTree.OpenError.fault
  let survey ← ask s!"survey {jar}" fun fs => ClassSurvey.ofArchive fs archive
  let lines := match args.format with
    | .text => surveyLines args survey
    | .json => [Json.pretty (surveyJson args survey)]
  return { exitCode := 0, output := lines.flatMap (· ++ ['\n']) }

def perform (surroundings : Surroundings) (invocation : Invocation) : Act CommandResult := do
  let config ← ask "load jardown.toml config" fun fs =>
    (Config.loadOrDefault fs invocation.config (.ofString ".")).mapError Config.LoadError.fault
  match invocation.command with
  | .downgrade args => downgrade surroundings config args
  | .recover args => recover config args
  | .inspect args => inspect args

def usageText : String :=
  "usage: jardown [--config PATH] [-v] downgrade|recover|inspect JAR [OPTIONS]\n"

def run (surroundings : Surroundings) (words : List Text) (disk : Disk) : CommandResult × Disk :=
  match parse words with
  | .error .usage => ({ exitCode := 2 }, disk)
  | .error .help => ({ exitCode := 0, output := usageText.toList }, disk)
  | .error .version => ({ exitCode := 0, output := s!"{toolName} {toolVersion}\n".toList }, disk)
  | .ok invocation =>
    match perform surroundings invocation disk with
    | .ok result disk => (result, disk)
    | .error result disk => (result, disk)

end CommandLine

end Retarget
