import Retarget.Bytes
import Retarget.Fault
import Retarget.Path

/-!
A file system as a value: a working directory and the nodes below the root, each at its list of
names. A path is walked name by name; what the walk passes through must be a directory. A path or a
name may also be one that nothing can have. Reading needs no change of state, and every query is a
function of the value: there are no links and no permissions, and a file that a path leads to can be
read whole.
-/
namespace Retarget

abbrev Location := List Text

inductive Node
  | directory
  | file (content : Bytes)
  deriving DecidableEq, Repr

def Node.content? : Node → Option Bytes
  | .directory => none
  | .file content => some content

structure FileSystem where
  /-- Where relative paths start. -/
  cwd : Location
  nodes : List (Location × Node)
  deriving DecidableEq

namespace FileSystem

/-- What is at a place; the root is always a directory. -/
def node? (fs : FileSystem) (place : Location) : Option Node :=
  if place = [] then some .directory else fs.nodes.lookup place

def set (fs : FileSystem) (place : Location) (node : Node) : FileSystem :=
  if place ∈ fs.nodes.map Prod.fst then
    { fs with nodes := fs.nodes.map fun entry => if entry.1 = place then (place, node) else entry }
  else { fs with nodes := fs.nodes ++ [(place, node)] }

def unset (fs : FileSystem) (place : Location) : FileSystem :=
  { fs with nodes := fs.nodes.filter fun entry => entry.1 ≠ place }

def unsetTree (fs : FileSystem) (place : Location) : FileSystem :=
  { fs with nodes := fs.nodes.filter fun entry => !place.isPrefixOf entry.1 }

/-- Everything at or below `source`, moved to the same place at or below `target`. -/
def moveTree (fs : FileSystem) (source target : Location) : FileSystem :=
  { fs with
    nodes := fs.nodes.map fun entry =>
      if source.isPrefixOf entry.1 then (target ++ entry.1.drop source.length, entry.2) else entry }

def below (fs : FileSystem) (place : Location) : List (Location × Node) :=
  fs.nodes.filter fun entry => place.isPrefixOf entry.1 && entry.1 ≠ place

def makeDirectories (fs : FileSystem) (place : Location) : FileSystem :=
  (List.range (place.length + 1)).foldl
    (fun fs n =>
      if (fs.node? (place.take n)).isSome then fs else fs.set (place.take n) .directory) fs

def plant (fs : FileSystem) (place : Location) (node : Node) : FileSystem :=
  match node with
  | .directory => fs.makeDirectories place
  | .file content => (fs.makeDirectories place.dropLast).set place (.file content)

def ofWorkingDirectory (cwd : Location) : FileSystem :=
  makeDirectories ⟨cwd, []⟩ cwd

/-- The steps of a path; slashes alone make none. -/
def steps (path : Path) : List Text :=
  (path.text.splitOn '/').filter (· ≠ [])

def maxNameLength : Nat := 255

def maxPathLength : Nat := 4095

def byteLength (t : Text) : Nat := (String.ofList t).utf8ByteSize

def IsUsableName (name : Text) : Prop := byteLength name ≤ maxNameLength

instance : DecidablePred IsUsableName := fun _ => inferInstanceAs (Decidable (_ ≤ _))

def IsUsable (path : Path) : Prop :=
  '\x00' ∉ path.text ∧ byteLength path.text ≤ maxPathLength

instance : DecidablePred IsUsable := fun _ => inferInstanceAs (Decidable (_ ∧ _))

/-- The directory that steps lead to. Every step but `.` and `..` has to name a directory. -/
def walk (fs : FileSystem) (here : Location) : List Text → Except IoKind Location
  | [] => .ok here
  | step :: rest =>
    if step = ['.'] then fs.walk here rest
    else if step = ['.', '.'] then fs.walk here.dropLast rest
    else match fs.node? (here ++ [step]) with
      | none => .error (if IsUsableName step then .notFound else .other)
      | some (.file _) => .error .notADirectory
      | some .directory => fs.walk (here ++ [step]) rest

inductive Target
  /-- At a directory, the path being a root or ending in `.` or `..`. -/
  | directory (place : Location)
  /-- At a name in a directory; a slash after the name asks for a directory there. -/
  | entry (folder : Location) (name : Text) (wantsDirectory : Bool)
  deriving DecidableEq, Repr

/-- Where a path ends, if its text is usable and the directories on its way are there. -/
def locate (fs : FileSystem) (path : Path) : Except IoKind Target :=
  if path.text = [] then .error .notFound
  else if ¬IsUsable path then .error .other
  else
    let start := if path.isAbsolute then [] else fs.cwd
    match (steps path).getLast? with
    | none => .ok (.directory start)
    | some last =>
      match fs.walk start (steps path).dropLast with
      | .error kind => .error kind
      | .ok folder =>
        if last = ['.'] then .ok (.directory folder)
        else if last = ['.', '.'] then .ok (.directory folder.dropLast)
        else .ok (.entry folder last (path.text.getLast? == some '/'))

/-- What is under a name in a directory. Where nothing is, something can be made; nothing can ever
be under a name that is too long. -/
def find (fs : FileSystem) (folder : Location) (name : Text) : Except IoKind (Option Node) :=
  if IsUsableName name then .ok (fs.node? (folder ++ [name])) else .error .other

def stat (fs : FileSystem) (path : Path) : Except IoKind (Location × Node) :=
  match fs.locate path with
  | .error kind => .error kind
  | .ok (.directory place) => .ok (place, .directory)
  | .ok (.entry folder name wantsDirectory) =>
    match fs.find folder name with
    | .error kind => .error kind
    | .ok none => .error .notFound
    | .ok (some (.file content)) =>
      if wantsDirectory then .error .notADirectory else .ok (folder ++ [name], .file content)
    | .ok (some .directory) => .ok (folder ++ [name], .directory)

def pathExists (fs : FileSystem) (path : Path) : Bool :=
  (fs.stat path).isOk

def isFile (fs : FileSystem) (path : Path) : Bool :=
  match fs.stat path with
  | .ok (_, .file _) => true
  | _ => false

def isDirectory (fs : FileSystem) (path : Path) : Bool :=
  match fs.stat path with
  | .ok (_, .directory) => true
  | _ => false

def readFile (fs : FileSystem) (path : Path) : Except IoKind Bytes :=
  match fs.stat path with
  | .error kind => .error kind
  | .ok (_, .directory) => .error .isADirectory
  | .ok (_, .file content) => .ok content

end FileSystem

end Retarget
