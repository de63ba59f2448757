import Retarget.Archive
import Retarget.ClassFile

/-!
A count of the class-file versions in an archive. Classes in multi-release overlays are counted
apart, and class entries without a class file's header are named.
-/
namespace Retarget

abbrev Histogram := List (UInt16 × Nat)

namespace Histogram

def add (version : UInt16) : Histogram → Histogram
  | [] => [(version, 1)]
  | (v, n) :: rest =>
    if version = v then (v, n + 1) :: rest
    else if version < v then (version, 1) :: (v, n) :: rest
    else (v, n) :: add version rest

def total (h : Histogram) : Nat :=
  h.foldr (fun e n => e.2 + n) 0

/-- How many there are of versions from `least` on. -/
def countFrom (least : UInt16) (h : Histogram) : Nat :=
  total (h.filter fun e => least ≤ e.1)

end Histogram

structure ClassSurvey where
  classes : Histogram := []
  overlayClasses : Histogram := []
  malformed : List EntryPath := []
  deriving DecidableEq

namespace ClassSurvey

def highest? (s : ClassSurvey) : Option UInt16 :=
  s.classes.getLast?.map Prod.fst

def nextVersion (version : UInt16) : UInt16 :=
  if version = 65535 then 65535 else version + 1

/-- Classes above a version, as a range from the version after it; the last version has none after
it and starts the range itself. -/
def above (s : ClassSurvey) (target : UInt16) : Nat :=
  s.classes.countFrom (nextVersion target)

def count (s : ClassSurvey) (entry : ArchiveEntry) (bytes : Bytes) : ClassSurvey :=
  match entry.role with
  | .directory | .resource => s
  | .overlayClass =>
    match ClassFile.version? bytes with
    | some version => { s with overlayClasses := s.overlayClasses.add version.major }
    | none => { s with malformed := s.malformed ++ [entry.path] }
  | .classFile _ =>
    match ClassFile.version? bytes with
    | some version => { s with classes := s.classes.add version.major }
    | none => { s with malformed := s.malformed ++ [entry.path] }

def isClass (entry : ArchiveEntry) : Bool :=
  match entry.role with
  | .directory | .resource => false
  | .overlayClass | .classFile _ => true

/-- The entries counted in order; a class that is gone has no bytes. -/
def countAll (fs : FileSystem) (archive : Archive) :
    ClassSurvey → List ArchiveEntry → Except Fault ClassSurvey
  | s, [] => .ok s
  | s, entry :: rest =>
    if isClass entry then
      match archive.read fs entry.path with
      | .error fault => .error fault
      | .ok bytes => countAll fs archive (s.count entry (bytes.getD [])) rest
    else countAll fs archive s rest

def ofArchive (fs : FileSystem) (archive : Archive) : Except Fault ClassSurvey :=
  match archive.list fs with
  | .error fault => .error fault
  | .ok entries => countAll fs archive {} entries

end ClassSurvey

end Retarget
