import Retarget.OpenTree

/-!
Where support classes come from: a table in the program, or an archive of them.
-/
namespace Retarget

structure Catalog where
  /-- The bytes of a support class, if the catalog has it. -/
  lookup : FileSystem → ClassName → Except Fault (Option Bytes)

namespace Catalog

/-- A table of names and bytes, of which the first entry of a name counts. -/
def ofTable (table : List (Text × Bytes)) : Catalog where
  lookup _ name := .ok (table.lookup name.text)

def empty : Catalog := ofTable []

def ofArchive (archive : Archive) : Catalog where
  lookup fs name := archive.read fs (.ofClass name)

def openAt (fs : FileSystem) (path : Path) : Except Fault Archive :=
  match openTree fs path with
  | .error fault => .error (fault.fault.context s!"open runtime classes at {path}")
  | .ok archive => .ok archive

end Catalog

end Retarget
