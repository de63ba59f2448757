import Retarget.Archive
import Retarget.Zip.Members

/-!
Zip files as archives. The file is read once, when it is opened; its members are listed under their
normal paths, the first of several that have one path.
-/
namespace Retarget

structure ZipTree where
  path : Path
  image : Bytes
  entries : List (EntryPath × Zip.Member)

namespace ZipTree

inductive OpenError
  | unreadable (path : Path) (kind : IoKind)
  | noDirectory (path : Path)
  | invalidName (path : Path) (fault : EntryPathError)
  deriving DecidableEq, Repr

def OpenError.fault : OpenError → Fault
  | .unreadable path kind => (Fault.io kind).context s!"open archive {path}"
  | .noDirectory path => (Fault.foreign .zip).context s!"read zip directory of {path}"
  | .invalidName path fault => (Fault.text fault.message).context s!"invalid entry name in {path}"

/-- Members under their normal paths; of those with one path the first. -/
def index : List Zip.Member → Except EntryPathError (List (EntryPath × Zip.Member))
  | members => members.foldlM (fun entries member => do
      let path ← EntryPath.parse member.name
      return if entries.any (·.1 = path) then entries else entries ++ [(path, member)]) []

def ofImage (path : Path) (image : Bytes) : Except OpenError ZipTree :=
  match Zip.members? image with
  | none => .error (.noDirectory path)
  | some members =>
    match index members with
    | .error fault => .error (.invalidName path fault)
    | .ok entries => .ok ⟨path, image, entries⟩

/-- The archive in a file. A directory can be opened, but nothing can be read from it. -/
def «open» (fs : FileSystem) (path : Path) : Except OpenError ZipTree :=
  match fs.stat path with
  | .error kind => .error (.unreadable path kind)
  | .ok (_, .directory) => .error (.noDirectory path)
  | .ok (_, .file image) => ofImage path image

def kindOf (member : Zip.Member) : EntryKind :=
  if member.isDirectory then .directory else .file

def list (tree : ZipTree) : List ArchiveEntry :=
  tree.entries.map fun e => ⟨e.1, kindOf e.2⟩

inductive ReadError
  | unusable (entry : EntryPath) (path : Path)
  | damaged (entry : EntryPath) (path : Path)
  deriving DecidableEq, Repr

def ReadError.fault : ReadError → Fault
  | .unusable entry path => (Fault.foreign .zip).context s!"look up {entry} in {path}"
  | .damaged entry path => (Fault.io .other).context s!"read {entry} from {path}"

/-- The bytes of a file; a directory has none, but its member has to be usable too. -/
def read (tree : ZipTree) (path : EntryPath) : Except ReadError (Option Bytes) :=
  match tree.entries.lookup path with
  | none => .ok none
  | some member =>
    match member.packed? tree.image with
    | none => .error (.unusable path tree.path)
    | some packed =>
      if member.isDirectory then .ok none
      else match member.unpack? packed with
        | none => .error (.damaged path tree.path)
        | some bytes => .ok (some bytes)

def archive (tree : ZipTree) : Archive where
  location := tree.path.text
  list _ := .ok tree.list
  read _ path := (tree.read path).mapError ReadError.fault

end ZipTree

end Retarget
