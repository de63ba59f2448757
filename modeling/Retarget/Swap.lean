import Retarget.FileSystem.Change

/-!
The commit of a run: a jar is renamed to the backup's name, then the new archive to the jar's. The
jar's old bytes are never overwritten, so whatever stops a swap, they are at the jar's or at the
backup's path.
-/
namespace Retarget

inductive SwapError
  /-- The jar could not be moved aside. -/
  | backup (jar backup : Path) (kind : IoKind)
  /-- The jar was moved aside and the new archive could not take its place. -/
  | promote (staged jar backup : Path) (kind : IoKind)
  deriving DecidableEq, Repr

def SwapError.kind : SwapError → IoKind
  | .backup _ _ kind => kind
  | .promote _ _ _ kind => kind

def SwapError.message : SwapError → String
  | .backup jar aside _ => s!"move {jar} to backup {aside}"
  | .promote staged jar aside _ =>
    s!"move {staged} to {jar} failed after the original was moved to {aside}; " ++
      s!"rename {staged} to {jar} to finish"

def SwapError.fault (e : SwapError) : Fault :=
  (Fault.io e.kind).context e.message

namespace Swap

/-- The steps that move the jar aside: what is at the backup's path is removed first. -/
def backupSteps (fs : FileSystem) (jar backup : Path) : List Change :=
  (if fs.pathExists backup then [.remove backup] else []) ++ [.rename jar backup]

def performAll : List Change → EStateM IoKind Disk Unit
  | [] => pure ()
  | step :: rest => do
    Disk.perform step
    performAll rest

/-- The new archive put in the jar's place, and the jar in the backup's. -/
def swap (jar staged backup : Path) : EStateM SwapError Disk Unit := fun disk =>
  match performAll (backupSteps disk.files jar backup) disk with
  | .error kind disk => .error (.backup jar backup kind) disk
  | .ok () disk =>
    match Disk.perform (.rename staged jar) disk with
    | .error kind disk => .error (.promote staged jar backup kind) disk
    | .ok () disk => .ok () disk

inductive CompletionError
  | nothingStaged (staged : Path)
  | notInterrupted (jar : Path)
  | refused (staged jar : Path) (kind : IoKind)
  deriving DecidableEq, Repr

def CompletionError.fault : CompletionError → Fault
  | .nothingStaged staged => .text s!"no staged archive at {staged}; nothing to recover"
  | .notInterrupted jar => .text s!"{jar} already exists; the swap is not interrupted"
  | .refused staged jar kind => (Fault.io kind).context s!"move {staged} to {jar}"

/-- The second rename of a swap that was stopped after the first. It is made only when the new
archive is there and the jar's path is free. -/
def complete (staged jar : Path) : EStateM CompletionError Disk Unit := fun disk =>
  if !disk.files.isFile staged then .error (.nothingStaged staged) disk
  else if disk.files.pathExists jar then .error (.notInterrupted jar) disk
  else match Disk.perform (.rename staged jar) disk with
    | .error kind disk => .error (.refused staged jar kind) disk
    | .ok () disk => .ok () disk

end Swap

end Retarget
