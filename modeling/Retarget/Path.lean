import Retarget.Text.Split

/-!
File-system paths as texts. A path names its components; repeated slashes, slashes at the end and
inner dots do not count among them. Paths are compared by components and edited as text, so what an
edit does not touch stays as it was written.
-/
namespace Retarget

structure Path where
  text : Text
  deriving DecidableEq, Repr

namespace Path

inductive Component
  | root
  /-- A leading dot. -/
  | current
  | parent
  | name (text : Text)
  deriving DecidableEq, Repr

def ofString (s : String) : Path := ⟨s.toList⟩

def toString (path : Path) : String := String.ofList path.text

instance : ToString Path := ⟨toString⟩

def isAbsolute (path : Path) : Bool :=
  path.text.head? == some '/'

def bodyComponent? (piece : Text) : Option Component :=
  if piece = [] ∨ piece = ['.'] then none
  else if piece = ['.', '.'] then some .parent
  else some (.name piece)

def components (path : Path) : List Component :=
  let pieces := path.text.splitOn '/'
  let lead :=
    if path.isAbsolute then [Component.root]
    else if pieces.head? = some ['.'] then [.current]
    else []
  lead ++ pieces.filterMap bodyComponent?

def same (a b : Path) : Bool :=
  a.components == b.components

def fileName? (path : Path) : Option Text :=
  match path.components.getLast? with
  | some (.name text) => some text
  | _ => none

/-- A file name cut at its last dot, unless that dot comes first or is missing. -/
def splitName (name : Text) : Text × Option Text :=
  match name.beforeLast? '.' with
  | none | some [] => (name, none)
  | some stem => (stem, some (name.drop (stem.length + 1)))

def isIdle (piece : Text) : Bool :=
  piece == [] || piece == ['.']

/-- The text before the last component, without the slashes and dots that lead to it. -/
def dropLast (path : Path) : Path :=
  let pieces := path.text.splitOn '/'
  let lead := if path.isAbsolute ∨ pieces.head? = some ['.'] then 1 else 0
  let body := Text.splitOn '/' (path.text.drop lead)
  let kept := ((body.reverse.dropWhile isIdle).drop 1).dropWhile isIdle
  ⟨path.text.take lead ++ Text.joinWith '/' kept.reverse⟩

/-- The path of what holds the last component; a root or an empty path has none. -/
def parent? (path : Path) : Option Path :=
  match path.components.getLast? with
  | none | some .root => none
  | some .current => some ⟨[]⟩
  | some _ => some path.dropLast

/-- `tail` below `path`, or `tail` itself when it is absolute. -/
def join (path tail : Path) : Path :=
  if tail.isAbsolute then tail
  else if path.text = [] ∨ path.text.getLast? = some '/' then ⟨path.text ++ tail.text⟩
  else ⟨path.text ++ '/' :: tail.text⟩

/-- The path with its file name replaced, or extended by the name when it has none. -/
def withFileName (path : Path) (name : Text) : Path :=
  match path.fileName? with
  | some _ => path.dropLast.join ⟨name⟩
  | none => path.join ⟨name⟩

/-- A file name with `suffix` before its extension, or at its end when it has no extension. -/
def suffixedName (name suffix : Text) : Text :=
  match splitName name with
  | (stem, some extension) => stem ++ suffix ++ '.' :: extension
  | (stem, none) => stem ++ suffix

/-- The file beside `path` whose name has `suffix` in it. -/
def siblingWithSuffix (path : Path) (suffix : Text) : Path :=
  match path.fileName? with
  | none => path.withFileName suffix
  | some name => path.withFileName (suffixedName name suffix)

end Path

end Retarget
