import Retarget.Downgrade.Error
import Retarget.Engine.Basic
import Retarget.Report

/-!
The walk over an archive: each entry is copied to the destination in order, classes going through
the engine. The walk stops at the first failure. With several jobs the classes are transformed
first, in an order that a schedule chooses, and everything is written afterwards.
-/
namespace Retarget

structure Session (W : Type) where
  world : World
  /-- The support classes that engines asked for. -/
  required : NameSet
  dest : W

structure ClassJob where
  path : EntryPath
  name : ClassName
  deriving DecidableEq

/-- A transformed class: the bytes to be written, and whether the engine changed them. -/
structure Transformed where
  bytes : Bytes
  changed : Bool
  deriving DecidableEq

structure WalkPlan where
  engine : Engine
  target : UInt16
  jobs : Nat := 1
  /-- The order in which several jobs take up the classes. -/
  schedule : List ClassJob → List ClassJob := id

namespace Walk

variable {W : Type} [Destination W]

abbrev Step (W α : Type) := EStateM DowngradeError (Session W) α

def look {α : Type} (ask : Session W → Except DowngradeError α) : Step W α := fun s =>
  match ask s with
  | .ok a => .ok a s
  | .error fault => .error fault s

def write (stage : Session W → Stage) (act : EStateM Fault W Unit) : Step W Unit := fun s =>
  match act s.dest with
  | .ok () dest => .ok () { s with dest := dest }
  | .error fault dest => .error (.io (stage s) fault) { s with dest := dest }

def listEntries (source : Archive) : Step W (List ArchiveEntry) :=
  look fun s => (source.list s.world.disk.files).mapError (.io (.listEntries source.location))

/-- The bytes of an entry that was listed; one that has none is a failure. -/
def entryBytes (source : Archive) (fs : FileSystem) (path : EntryPath) :
    Except DowngradeError Bytes :=
  let stage := Stage.readEntry path source.location
  match source.read fs path with
  | .error fault => .error (.io stage fault)
  | .ok none => .error (.io stage (.text "entry disappeared"))
  | .ok (some bytes) => .ok bytes

def readEntry (source : Archive) (path : EntryPath) : Step W Bytes :=
  look fun s => entryBytes source s.world.disk.files path

def writeEntry (path : EntryPath) (bytes : Bytes) : Step W Unit :=
  write (fun s => .writeEntry path (Destination.location s.dest)) (Destination.writeFile path bytes)

def transformFault (name : ClassName) : EngineError → DowngradeError
  | .unresolved missing => .unresolved name missing
  | .internal fault => .transform name fault

def transformedBy (bytes : Bytes) (output : TransformOutput) : Transformed :=
  ⟨output.result.final bytes, output.result.isChanged⟩

/-- One class through the engine; the support classes it needs are recorded. -/
def transformClass (plan : WalkPlan) (name : ClassName) (bytes : Bytes) : Step W Transformed :=
  fun s =>
    let (outcome, world) := (plan.engine ⟨name, bytes, plan.target⟩).run s.world
    let s := { s with world := world }
    match outcome with
    | .error fault => .error (transformFault name fault) s
    | .ok output =>
      .ok (transformedBy bytes output)
        { s with required := s.required.insertAll output.dependencies.names }

def transformJob (source : Archive) (plan : WalkPlan) (job : ClassJob) : Step W Transformed := do
  let bytes ← readEntry source job.path
  transformClass plan job.name bytes

def countClass (counts : EntryCounts) (changed : Bool) : EntryCounts :=
  if changed then { counts with changedClasses := counts.changedClasses + 1 }
  else { counts with unchangedClasses := counts.unchangedClasses + 1 }

def copyEntry (source : Archive) (path : EntryPath) : Step W Unit := do
  let bytes ← readEntry source path
  writeEntry path bytes

def takeEntry (source : Archive) (classOf : ClassJob → Step W Transformed) (counts : EntryCounts)
    (entry : ArchiveEntry) : Step W EntryCounts :=
  match entry.role with
  | .directory => do
    write (fun _ => .createDirectory entry.path) (Destination.createDirectory entry.path)
    return { counts with directories := counts.directories + 1 }
  | .resource => do
    copyEntry source entry.path
    return { counts with resources := counts.resources + 1 }
  | .overlayClass => do
    copyEntry source entry.path
    return { counts with overlayClasses := counts.overlayClasses + 1 }
  | .classFile name => do
    let transformed ← classOf ⟨entry.path, name⟩
    writeEntry entry.path transformed.bytes
    return countClass counts transformed.changed

def takeAll (source : Archive) (classOf : ClassJob → Step W Transformed) :
    EntryCounts → List ArchiveEntry → Step W EntryCounts
  | counts, [] => pure counts
  | counts, entry :: rest => do
    let counts ← takeEntry source classOf counts entry
    takeAll source classOf counts rest

def sequential (source : Archive) (plan : WalkPlan) (entries : List ArchiveEntry) :
    Step W EntryCounts :=
  takeAll source (transformJob source plan) {} entries

def jobOf? (entry : ArchiveEntry) : Option ClassJob :=
  match entry.role with
  | .classFile name => some ⟨entry.path, name⟩
  | _ => none

def transformAll (source : Archive) (plan : WalkPlan) :
    List ClassJob → Step W (List (EntryPath × Transformed))
  | [] => pure []
  | job :: rest => do
    let transformed ← transformJob source plan job
    let others ← transformAll source plan rest
    return (job.path, transformed) :: others

def takeTransformed (results : List (EntryPath × Transformed)) (job : ClassJob) :
    Step W Transformed :=
  look fun _ => match results.lookup job.path with
    | some transformed => .ok transformed
    | none => .error (.io (.takeTransformed job.path) (.text "class was not transformed"))

def scheduled (source : Archive) (plan : WalkPlan) (entries : List ArchiveEntry) :
    Step W EntryCounts := do
  let results ← transformAll source plan (plan.schedule (entries.filterMap jobOf?))
  takeAll source (takeTransformed results) {} entries

def run (source : Archive) (plan : WalkPlan) : Step W EntryCounts := do
  let entries ← listEntries source
  if plan.jobs > 1 then scheduled source plan entries else sequential source plan entries

end Walk

end Retarget
