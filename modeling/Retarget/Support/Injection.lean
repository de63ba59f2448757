import Retarget.NameSet
import Retarget.Support.Catalog

/-!
Support classes copied into an archive. Every name is looked up before anything is written, so a
class that cannot be had leaves the archive as it was. A class that the archive has already is left
alone.
-/
namespace Retarget

inductive SupportError
  /-- The catalog has no such class. -/
  | missing (name : ClassName)
  /-- Looking the class up or writing it failed. -/
  | copy (name : ClassName) (fault : Fault)
  deriving DecidableEq

def SupportError.fault : SupportError → Fault
  | .missing name => .text s!"missing runtime class {name}"
  | .copy name fault => fault.context s!"copy runtime class {name}"

namespace Injection

def lookUpAll (catalog : Catalog) (fs : FileSystem) :
    List ClassName → Except SupportError (List (ClassName × Bytes))
  | [] => .ok []
  | name :: rest =>
    match catalog.lookup fs name with
    | .error fault => .error (.copy name fault)
    | .ok none => .error (.missing name)
    | .ok (some bytes) => (lookUpAll catalog fs rest).map ((name, bytes) :: ·)

variable {W : Type} [Destination W]

def place (path : EntryPath) (bytes : Bytes) : EStateM Fault W Unit := do
  Destination.createParents path
  Destination.writeFile path bytes

/-- The classes that are not there yet written in order; the names of those that were. -/
def placeAll : List (ClassName × Bytes) → EStateM SupportError W (List ClassName)
  | [] => pure []
  | (name, bytes) :: rest => fun dest =>
    let path := EntryPath.ofClass name
    if Destination.contains dest path then placeAll rest dest
    else match place path bytes dest with
      | .error fault dest => .error (.copy name fault) dest
      | .ok () dest =>
        match placeAll rest dest with
        | .ok added dest => .ok (name :: added) dest
        | .error fault dest => .error fault dest

/-- The recorded classes that the destination lacks copied into it; their names. -/
def inject (required : NameSet) (catalog : Catalog) (fs : FileSystem) :
    EStateM SupportError W (List ClassName) := fun dest =>
  match lookUpAll catalog fs required.names with
  | .error fault => .error fault dest
  | .ok found => placeAll found dest

end Injection

end Retarget
