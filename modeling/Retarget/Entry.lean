import Retarget.EntryPath

/-!
Archive entries and what a walk does with each of them. Only a class file outside the
multi-release overlays has a class role.
-/
namespace Retarget

inductive EntryKind
  | directory
  | file
  deriving DecidableEq, Repr

/-- One entry of an archive; a file's bytes are read through the archive it came from. -/
structure ArchiveEntry where
  path : EntryPath
  kind : EntryKind
  deriving DecidableEq, Repr

inductive EntryRole
  | directory
  /-- A file copied as it is. -/
  | resource
  /-- A class for one version of the machine, copied as it is. -/
  | overlayClass
  /-- A class handed to the engine. -/
  | classFile (name : ClassName)
  deriving DecidableEq

/-- A directory is a directory; a file is a resource unless it ends as a class does, an overlay
class below the versions directory, and else a class if its stem is a class name. -/
def ArchiveEntry.role (entry : ArchiveEntry) : EntryRole :=
  match entry.kind with
  | .directory => .directory
  | .file =>
    if !entry.path.isClassFile then .resource
    else if entry.path.isOverlay then .overlayClass
    else match ClassName.ofEntryText? entry.path.text with
      | some name => .classFile name
      | none => .resource

end Retarget
