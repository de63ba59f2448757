import Retarget.Entry
import Retarget.Fault
import Retarget.FileSystem.Basic

/-!
Archives and the trees that entries are written to, as the operations they offer. An archive may
look at the file system each time it is asked, or keep all it needs.
-/
namespace Retarget

def EntryKind.ofNode : Node → EntryKind
  | .directory => .directory
  | .file _ => .file

structure Archive where
  /-- What messages call it. -/
  location : Text
  /-- Every entry, in the archive's own order. -/
  list : FileSystem → Except Fault (List ArchiveEntry)
  /-- The bytes of a file, or nothing when there is no such file. -/
  read : FileSystem → EntryPath → Except Fault (Option Bytes)

class Destination (W : Type) where
  location : W → Text
  contains : W → EntryPath → Bool
  createDirectory : EntryPath → EStateM Fault W Unit
  writeFile : EntryPath → Bytes → EStateM Fault W Unit

namespace Destination

variable {W : Type} [Destination W]

def createMissing : List EntryPath → EStateM Fault W Unit
  | [] => pure ()
  | path :: rest => do
    let dest ← get
    if !contains dest path then createDirectory path
    createMissing rest

def createParents (path : EntryPath) : EStateM Fault W Unit :=
  createMissing path.ancestors

end Destination

end Retarget
