import Retarget.FileSystem.Basic

/-!
Changes to a file system as data. Each change either happens as a whole or is refused with a
reason, and a disk keeps, beside its files, the changes made so far in order. The reasons are those
that the paths and the nodes give: no write fails halfway for want of space or because of the
device, and neither does a flush or a close.
-/
namespace Retarget

inductive Change
  /-- An empty file at the path, what was in it being dropped. -/
  | create (path : Path)
  /-- The whole content of the file at the path, which is made if it is not there. -/
  | write (path : Path) (content : Bytes)
  | remove (path : Path)
  | rename (source target : Path)
  deriving DecidableEq, Repr

namespace FileSystem

/-- The file at the path given a content. A directory is never overwritten, and a slash after the
name asks for one. -/
def write (fs : FileSystem) (path : Path) (content : Bytes) : Except IoKind FileSystem :=
  match fs.locate path with
  | .error kind => .error kind
  | .ok (.directory _) => .error .isADirectory
  | .ok (.entry folder name wantsDirectory) =>
    if wantsDirectory then .error .isADirectory
    else match fs.find folder name with
      | .error kind => .error kind
      | .ok (some .directory) => .error .isADirectory
      | .ok _ => .ok (fs.set (folder ++ [name]) (.file content))

/-- The file at the path removed; a directory is not a file. -/
def remove (fs : FileSystem) (path : Path) : Except IoKind FileSystem :=
  match fs.locate path with
  | .error kind => .error kind
  | .ok (.directory _) => .error .isADirectory
  | .ok (.entry folder name wantsDirectory) =>
    match fs.find folder name with
    | .error kind => .error kind
    | .ok none => .error .notFound
    | .ok (some .directory) => .error .isADirectory
    | .ok (some (.file _)) =>
      if wantsDirectory then .error .notADirectory else .ok (fs.unset (folder ++ [name]))

/-- A file renamed, both places being known. It may take the place of a file. -/
def moveFile (fs : FileSystem) (source target : Location) (content : Bytes) :
    Except IoKind FileSystem :=
  if fs.node? target = some .directory then
    .error (if target.isPrefixOf source then .directoryNotEmpty else .isADirectory)
  else .ok ((fs.unset source).set target (.file content))

/-- A directory renamed with all that is below it, both places being known. It may take the place of
an empty directory, and does not move below itself. -/
def moveDirectory (fs : FileSystem) (source target : Location) : Except IoKind FileSystem :=
  if source.isPrefixOf target then .error .other
  else if target.isPrefixOf source then .error .directoryNotEmpty
  else match fs.node? target with
    | none => .ok (fs.moveTree source target)
    | some (.file _) => .error .notADirectory
    | some .directory =>
      if (fs.below target).isEmpty then .ok ((fs.unset target).moveTree source target)
      else .error .directoryNotEmpty

def move (fs : FileSystem) (source target : Location) (node : Node) : Except IoKind FileSystem :=
  if source = target then .ok fs
  else match node with
    | .file content => fs.moveFile source target content
    | .directory => fs.moveDirectory source target

/-- The node at a path renamed. A file does not take a name that asks for a directory. -/
def rename (fs : FileSystem) (source target : Path) : Except IoKind FileSystem :=
  match fs.locate source, fs.locate target with
  | .error kind, _ => .error kind
  | _, .error kind => .error kind
  | .ok (.entry sourceFolder sourceName sourceSlash),
      .ok (.entry targetFolder targetName targetSlash) =>
    match fs.find sourceFolder sourceName, fs.find targetFolder targetName with
    | .error kind, _ => .error kind
    | .ok none, _ => .error .notFound
    | _, .error kind => .error kind
    | .ok (some node), .ok _ =>
      if node ≠ .directory ∧ (sourceSlash ∨ targetSlash) then .error .notADirectory
      else fs.move (sourceFolder ++ [sourceName]) (targetFolder ++ [targetName]) node
  | _, _ => .error .other

def apply (fs : FileSystem) : Change → Except IoKind FileSystem
  | .create path => fs.write path []
  | .write path content => fs.write path content
  | .remove path => fs.remove path
  | .rename source target => fs.rename source target

end FileSystem

structure Disk where
  files : FileSystem
  journal : List Change

namespace Disk

def ofFiles (files : FileSystem) : Disk := ⟨files, []⟩

/-- A change made and recorded; one that is refused leaves the disk as it was. -/
def perform (change : Change) : EStateM IoKind Disk Unit := fun disk =>
  match disk.files.apply change with
  | .ok files => .ok () ⟨files, disk.journal ++ [change]⟩
  | .error kind => .error kind disk

def attempt (change : Change) (disk : Disk) : Disk :=
  match disk.files.apply change with
  | .ok files => ⟨files, disk.journal ++ [change]⟩
  | .error _ => disk

end Disk

end Retarget
