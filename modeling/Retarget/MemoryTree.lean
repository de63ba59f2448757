import Retarget.Archive

/-!
Trees held in memory, both read and written. Entries keep the order in which their paths first came.
-/
namespace Retarget

structure MemoryTree where
  location : Text
  entries : List (EntryPath × Node)
  finished : Bool
  deriving DecidableEq

namespace MemoryTree

def empty (location : Text) : MemoryTree := ⟨location, [], false⟩

def node? (tree : MemoryTree) (path : EntryPath) : Option Node :=
  tree.entries.lookup path

def contains (tree : MemoryTree) (path : EntryPath) : Bool :=
  (tree.node? path).isSome

/-- A node put at a path. A path that is there already keeps its place in the order. -/
def put (tree : MemoryTree) (path : EntryPath) (node : Node) : MemoryTree :=
  if tree.contains path then
    { tree with entries := tree.entries.map fun e => if e.1 = path then (path, node) else e }
  else { tree with entries := tree.entries ++ [(path, node)] }

/-- A node put at the path that a raw name stands for, whatever was there. -/
def withNode (tree : MemoryTree) (raw : Text) (node : Node) : Except EntryPathError MemoryTree :=
  (EntryPath.parse raw).map fun path => tree.put path node

/-- How the refusal of a name given to `withNode` is told. -/
def fixtureMessage (fault : EntryPathError) : String :=
  let reason := fault.message
  s!"fixture path: {reason}"

def build (location : Text) (nodes : List (Text × Node)) : Except EntryPathError MemoryTree :=
  nodes.foldlM (fun tree entry => tree.withNode entry.1 entry.2) (empty location)

def read (tree : MemoryTree) (path : EntryPath) : Option Bytes :=
  (tree.node? path).bind Node.content?

def get? (tree : MemoryTree) (raw : Text) : Option Bytes :=
  match EntryPath.parse raw with
  | .ok path => tree.read path
  | .error _ => none

def isDirectory (tree : MemoryTree) (raw : Text) : Bool :=
  match EntryPath.parse raw with
  | .ok path => tree.node? path == some .directory
  | .error _ => false

def paths (tree : MemoryTree) : List EntryPath :=
  tree.entries.map Prod.fst

def list (tree : MemoryTree) : List ArchiveEntry :=
  tree.entries.map fun e => ⟨e.1, .ofNode e.2⟩

inductive WriteError
  | finished (location : Text)
  | isFile (path : EntryPath) (location : Text)
  | duplicate (path : EntryPath) (location : Text)
  deriving DecidableEq, Repr

def WriteError.message : WriteError → String
  | .finished location =>
    let tree := String.ofList location
    s!"tree {tree} is already finished"
  | .isFile path location =>
    let tree := String.ofList location
    s!"{path} is a file in {tree}"
  | .duplicate path location =>
    let tree := String.ofList location
    s!"duplicate entry {path} in {tree}"

/-- A directory made; making one that is there changes nothing. -/
def createDirectory (tree : MemoryTree) (path : EntryPath) : Except WriteError MemoryTree :=
  if tree.finished then .error (.finished tree.location)
  else match tree.node? path with
    | some .directory => .ok tree
    | some (.file _) => .error (.isFile path tree.location)
    | none => .ok (tree.put path .directory)

def writeFile (tree : MemoryTree) (path : EntryPath) (content : Bytes) :
    Except WriteError MemoryTree :=
  if tree.finished then .error (.finished tree.location)
  else if tree.contains path then .error (.duplicate path tree.location)
  else .ok (tree.put path (.file content))

def finish (tree : MemoryTree) : MemoryTree :=
  { tree with finished := true }

def archive (tree : MemoryTree) : Archive where
  location := tree.location
  list _ := .ok tree.list
  read _ path := .ok (tree.read path)

def step (act : MemoryTree → Except WriteError MemoryTree) : EStateM Fault MemoryTree Unit :=
  fun tree => match act tree with
    | .ok tree => .ok () tree
    | .error fault => .error (.text fault.message) tree

instance : Destination MemoryTree where
  location tree := tree.location
  contains := contains
  createDirectory path := step (·.createDirectory path)
  writeFile path content := step (·.writeFile path content)

end MemoryTree

end Retarget
