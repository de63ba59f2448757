import Retarget.Sha256
import Retarget.Walk
import Retarget.ZipWriter

/-!
A whole run: the input is checked and hashed, a new archive is built beside it, and the two change
places. Until then the input is only read. A run that fails takes away what stands at the staging
path, unless the new archive is all that is left to be put in place.
-/
namespace Retarget

structure RunContext where
  engine : Engine
  catalog : Catalog
  tool : Tool
  startedAt : Timestamp
  endedAt : Timestamp
  schedule : List ClassJob → List ClassJob := id

structure Outcome where
  report : Report
  backup : Path
  deriving DecidableEq

structure Staged where
  counts : EntryCounts
  added : List ClassName
  skipped : List ClassName
  deriving DecidableEq

namespace Downgrade

abbrev Run (α : Type) := EStateM DowngradeError Disk α

/-- The input has to be a file; a staged archive beside a missing input is pointed out. -/
def checkInput (input staging : Path) : Run Unit := fun disk =>
  if disk.files.isFile input then .ok () disk
  else
    let cause :=
      if disk.files.isFile staging then
        s!"no such file ({staging} exists; an earlier swap may have been interrupted)"
      else "no such file"
    .error (.io (.openInput input) (.text cause)) disk

def hashFile (path : Path) : Run Text := fun disk =>
  match disk.files.readFile path with
  | .error kind => .error (.io (.hash path) (.io kind)) disk
  | .ok bytes => .ok (Sha256.digest bytes).toHex disk

/-- The classpath of a run: the input itself, declared roots, the platform's. -/
def classpathOf (source : ZipTree) (settings : Settings) : Classpath :=
  ⟨[.archive source.archive, .ofPaths .classpath settings.classpath,
    .ofPaths .platform settings.platformClasspath]⟩

def planOf (settings : Settings) (context : RunContext) : WalkPlan where
  engine := context.engine
  target := settings.targetVersion
  jobs := max settings.jobs 1
  schedule := context.schedule

/-- Support classes put into the new archive, or named as left out when copying is off. -/
def supply (settings : Settings) (catalog : Catalog) :
    Walk.Step ZipWriter (List ClassName × List ClassName) := fun s =>
  if settings.copyRuntimeClasses then
    match Injection.inject s.required catalog s.world.disk.files s.dest with
    | .error fault dest => .error (.ofSupport fault) { s with dest := dest }
    | .ok added dest => .ok (added, []) { s with dest := dest }
  else .ok ([], s.required.names) s

def fill (source : ZipTree) (settings : Settings) (context : RunContext) :
    Walk.Step ZipWriter Staged := do
  let counts ← Walk.run source.archive (planOf settings context)
  let (added, skipped) ← supply settings context.catalog
  return ⟨counts, added, skipped⟩

/-- The new archive built at the staging path. It is finished whether or not filling it failed. -/
def build (settings : Settings) (context : RunContext) (staging : Path) : Run Staged := fun disk =>
  match ZipTree.open disk.files settings.input with
  | .error fault => .error (.io (.openInput settings.input) fault.fault) disk
  | .ok source =>
    match ZipWriter.create staging disk with
    | .error fault disk => .error (.io (.createStaging staging) fault) disk
    | .ok writer disk =>
      match fill source settings context ⟨⟨disk, classpathOf source settings⟩, .empty, writer⟩ with
      | .error fault s => .error fault (s.dest.abandon s.world.disk)
      | .ok staged s =>
        match ZipWriter.finish (s.dest, s.world.disk) with
        | .error fault (_, disk) => .error (.io (.finishStaging staging) fault) disk
        | .ok () (_, disk) => .ok staged disk

def swapIn (settings : Settings) : Run Unit := fun disk =>
  match Swap.swap settings.input settings.stagingPath settings.backupPath disk with
  | .error fault disk => .error (.swap fault) disk
  | .ok () disk => .ok () disk

/-- The new archive built and put in the input's place; the report of it, still without an end. -/
def buildAndSwap (settings : Settings) (context : RunContext) (report : Report) : Run Report := do
  let staged ← build settings context settings.stagingPath
  let digest ← hashFile settings.stagingPath
  swapIn settings
  let added := UInt64.ofNat staged.added.length
  return { report with
    counts := { staged.counts with supportClasses := added }
    supportClasses := staged.added
    skippedSupportClasses := staged.skipped
    resultSha256 := some digest }

/-- An action after whose failure the file at a path is removed, except when the failure is the one
that leaves the finished archive there. -/
def guardStaging {α : Type} (staging : Path) (act : Run α) : Run α := fun disk =>
  match act disk with
  | .ok a disk => .ok a disk
  | .error fault disk =>
    .error fault (if fault.isPartialSwap then disk else disk.attempt (.remove staging))

def run (settings : Settings) (context : RunContext) : Run Outcome := do
  match settings.validate with
  | .error fault => throw (.settings fault)
  | .ok () =>
    checkInput settings.input settings.stagingPath
    let digest ← hashFile settings.input
    let report := { Report.start context.tool settings.input.text settings.backupPath.text
      settings.targetVersion context.startedAt with inputSha256 := some digest }
    let report ← guardStaging settings.stagingPath (buildAndSwap settings context report)
    return ⟨{ report with endedAt := some context.endedAt }, settings.backupPath⟩

end Downgrade

end Retarget
