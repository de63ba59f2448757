import Retarget.Archive

/-!
Directories as archives: everything below a root, under its path from there. The directory is looked
at each time it is asked for something.
-/
namespace Retarget

structure Folder where
  root : Path
  deriving DecidableEq, Repr

namespace Folder

def precedes (a b : Location) : Bool :=
  !decide (b < a)

/-- What lies below a place, with the names that lead there; a directory comes before what it
holds, and names of one directory are in order. -/
def walkBelow (fs : FileSystem) (place : Location) : List (Location × Node) :=
  let found := (fs.below place).map fun entry => (entry.1.drop place.length, entry.2)
  found.mergeSort fun a b => precedes a.1 b.1

inductive ListError
  | outside (first root : Text)
  | invalidPath (root : Text) (fault : EntryPathError)
  deriving DecidableEq, Repr

def ListError.fault : ListError → Fault
  | .outside first root =>
    let child := String.ofList first
    let folder := String.ofList root
    (Fault.text "prefix not found").context s!"{child} is outside {folder}"
  | .invalidPath root fault =>
    let folder := String.ofList root
    (Fault.text fault.message).context s!"invalid path under {folder}"

def entryOf (root : Text) (found : Location × Node) : Except ListError ArchiveEntry :=
  match EntryPath.parse (Text.joinWith '/' found.1) with
  | .error fault => .error (.invalidPath root fault)
  | .ok path => .ok ⟨path, .ofNode found.2⟩

/-- The pieces of a root's text after the dots it starts with, if it starts with one. -/
def afterLeadingDots? (root : Text) : Option (List Text) :=
  match Text.splitOn '/' root with
  | ['.'] :: rest => some (rest.dropWhile (· = ['.']))
  | _ => none

/-- Every entry below the root in the order of their paths. A root that is no directory has none.
Below a root that starts with a dot nothing is found under its own name: what is found there first
is refused, and a slash alone after the dots finds nothing. -/
def list (folder : Folder) (fs : FileSystem) : Except ListError (List ArchiveEntry) :=
  match fs.stat folder.root with
  | .error _ | .ok (_, .file _) => .ok []
  | .ok (place, .directory) =>
    let found := walkBelow fs place
    match afterLeadingDots? folder.root.text with
    | none =>
      match found.mapM (entryOf folder.root.text) with
      | .error fault => .error fault
      | .ok entries => .ok (entries.mergeSort fun a b => !b.path.precedes a.path)
    | some ([] :: _) => .ok []
    | some pieces =>
      match found with
      | [] => .ok []
      | (first, _) :: _ =>
        let named := pieces.filter (· ≠ [])
        .error (.outside (Text.joinWith '/' (named ++ first)) folder.root.text)

/-- Where an entry's file is: from the root, each segment of the entry's path below the one
before. -/
def locate (folder : Folder) (path : EntryPath) : Path :=
  path.segments.foldl (fun place segment => place.join ⟨segment⟩) folder.root

def read (folder : Folder) (fs : FileSystem) (path : EntryPath) : Option Bytes :=
  match fs.stat (folder.locate path) with
  | .ok (_, node) => node.content?
  | .error _ => none

def archive (folder : Folder) : Archive where
  location := folder.root.text
  list fs := (folder.list fs).mapError ListError.fault
  read fs path := .ok (folder.read fs path)

end Folder

end Retarget
