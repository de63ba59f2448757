import Retarget.ClassName
import Retarget.Json.Basic

/-!
Paths of archive entries. A raw name is accepted in exactly one normal form: slashes only, none at
the ends, and no empty, `.` or `..` segment. The path of a class file is made from the class's name
as it stands, without that check.
-/
namespace Retarget

structure EntryPath where
  text : Text
  deriving DecidableEq, Repr

inductive EntryPathError
  | empty
  | escapes (raw : Text)
  | emptySegment (raw : Text)
  deriving DecidableEq, Repr

def EntryPathError.message : EntryPathError → String
  | .empty => "entry path is empty"
  | .escapes raw =>
    let name := String.ofList raw
    s!"entry path `{name}` escapes the archive root"
  | .emptySegment raw =>
    let name := String.ofList raw
    s!"entry path `{name}` has an empty segment"

namespace EntryPath

/-- A raw name with backslashes read as slashes and without slashes at its ends. -/
def unify (raw : Text) : Text :=
  (raw.replace '\\' '/').trim '/'

def firstBadSegment? (raw : Text) : List Text → Option EntryPathError
  | [] => none
  | segment :: rest =>
    if segment = [] then some (.emptySegment raw)
    else if segment = ['.'] ∨ segment = ['.', '.'] then some (.escapes raw)
    else firstBadSegment? raw rest

/-- The normal form of a raw name, as an archive's directory or a folder listing gives it. -/
def parse (raw : Text) : Except EntryPathError EntryPath :=
  let text := unify raw
  if text = [] then .error .empty
  else match firstBadSegment? raw (text.splitOn '/') with
    | some fault => .error fault
    | none => .ok ⟨text⟩

def ofClass (name : ClassName) : EntryPath :=
  ⟨name.entryText⟩

def segments (path : EntryPath) : List Text :=
  path.text.splitOn '/'

def NormalSegment (segment : Text) : Prop :=
  segment ≠ [] ∧ segment ≠ ['.'] ∧ segment ≠ ['.', '.'] ∧ '\\' ∉ segment

instance : DecidablePred NormalSegment := fun _ => inferInstanceAs (Decidable (_ ∧ _ ∧ _ ∧ _))

/-- No backslash, and no empty, `.` or `..` segment; so no slash at either end. -/
def IsNormal (path : EntryPath) : Prop :=
  ∀ segment ∈ path.segments, NormalSegment segment

instance : DecidablePred IsNormal := fun path =>
  inferInstanceAs (Decidable (∀ s ∈ path.segments, _))

def parent? (path : EntryPath) : Option EntryPath :=
  (path.text.beforeLast? '/').map EntryPath.mk

def ancestors (path : EntryPath) : List EntryPath :=
  (path.text.partsBefore '/').map EntryPath.mk

def versionsPrefix : Text := "META-INF/versions/".toList

def isOverlay (path : EntryPath) : Bool :=
  versionsPrefix.isPrefixOf path.text

def isClassFile (path : EntryPath) : Bool :=
  classSuffix.isSuffixOf path.text

def toJson (path : EntryPath) : Json :=
  .str path.text

def ofJson? (json : Json) : Option (Except EntryPathError EntryPath) :=
  json.asText?.map parse

def toString (path : EntryPath) : String :=
  String.ofList path.text

instance : ToString EntryPath := ⟨toString⟩

def precedes (a b : EntryPath) : Bool :=
  decide (a.text < b.text)

end EntryPath

end Retarget
