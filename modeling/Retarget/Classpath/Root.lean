import Retarget.ClassName
import Retarget.OpenTree
import Retarget.Text.Quoted

/-!
Directories and jars that are opened when a lookup first reaches them. What opening gave is kept: a
root that was missing or broken then holds nothing from there on.
-/
namespace Retarget

inductive RootState
  | closed
  /-- It was missing or no archive when it was opened. -/
  | unusable
  | opened (archive : Archive)

structure Root where
  path : Path
  state : RootState

namespace Root

def ofPath (path : Path) : Root := ⟨path, .closed⟩

def isOpened (root : Root) : Bool :=
  match root.state with
  | .closed => false
  | _ => true

def openPath (fs : FileSystem) (path : Path) : RootState :=
  match openTree fs path with
  | .ok archive => .opened archive
  | .error _ => .unusable

def ensureOpened (fs : FileSystem) (root : Root) : Root :=
  match root.state with
  | .closed => { root with state := openPath fs root.path }
  | _ => root

def answer (fs : FileSystem) (name : ClassName) (root : Root) : Except Fault (Option Bytes) :=
  match root.state with
  | .opened archive => archive.read fs (.ofClass name)
  | _ => .ok none

def describe (root : Root) : Text :=
  "LazyRoot \x7b path: ".toList ++ Text.quoted root.path.text ++ ", opened: ".toList ++
    (if root.isOpened then "true \x7d" else "false \x7d").toList

def find (fs : FileSystem) (name : ClassName) (root : Root) :
    Except Fault (Option Bytes) × Root :=
  let root := root.ensureOpened fs
  (root.answer fs name, root)

end Root

def platformPlaces (home : Path) : List Path :=
  let below (names : List String) : Path :=
    names.foldl (fun path name => path.join (.ofString name)) home
  [below ["jre", "lib", "rt.jar"], below ["lib", "rt.jar"]]

/-- The archives of an older platform's own classes that are there below its home. -/
def platformRoots (fs : FileSystem) (home : Path) : List Path :=
  (platformPlaces home).filter fs.isFile

end Retarget
