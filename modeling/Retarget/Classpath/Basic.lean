import Retarget.ClassOrigin
import Retarget.Classpath.Root
import Retarget.Text.Decimal

/-!
Looking classes up tier by tier: the archive being lowered, declared dependencies, the platform.
The first tier that has the class answers, and a tier that fails ends the lookup. Only the state of
roots changes on the way.
-/
namespace Retarget

inductive RootsKind
  | classpath
  | platform
  deriving DecidableEq, Repr

namespace RootsKind

def origin : RootsKind → ClassOrigin
  | .classpath => .classpath
  | .platform => .platform

def title : RootsKind → String
  | .classpath => "Classpath"
  | .platform => "Platform"

end RootsKind

inductive Tier
  | archive (tree : Archive)
  | roots (kind : RootsKind) (list : List Root)
  /-- A source of another kind, such as a cache or a remote store. -/
  | custom (origin : ClassOrigin) (description : Text)
      (find : FileSystem → ClassName → Except Fault (Option Bytes))

namespace Tier

def ofPaths (kind : RootsKind) (paths : List Path) : Tier :=
  .roots kind (paths.map Root.ofPath)

def origin : Tier → ClassOrigin
  | .archive _ => .archive
  | .roots kind _ => kind.origin
  | .custom origin _ _ => origin

def describe : Tier → Text
  | .archive tree => "archive ".toList ++ tree.location
  | .roots kind list =>
    kind.title.toList ++ " roots (".toList ++ Text.Decimal.ofNat list.length ++ [')']
  | .custom _ description _ => description

/-- The first of the roots that has the class, or that fails; those after it stay as they are. -/
def findInRoots (fs : FileSystem) (name : ClassName) :
    List Root → Except Fault (Option Bytes) × List Root
  | [] => (.ok none, [])
  | root :: rest =>
    match root.find fs name with
    | (.ok none, root) =>
      let (found, rest) := findInRoots fs name rest
      (found, root :: rest)
    | (found, root) => (found, root :: rest)

def find (fs : FileSystem) (name : ClassName) : Tier → Except Fault (Option Bytes) × Tier
  | .archive tree => (tree.read fs (.ofClass name), .archive tree)
  | .roots kind list =>
    let (found, list) := findInRoots fs name list
    (found, .roots kind list)
  | .custom origin description look => (look fs name, .custom origin description look)

def opened? : Tier → Option (List Bool)
  | .roots _ list => some (list.map Root.isOpened)
  | _ => none

end Tier

structure ResolvedClass where
  bytes : Bytes
  origin : ClassOrigin
  deriving DecidableEq, Repr

structure Classpath where
  tiers : List Tier

namespace Classpath

def describe (classpath : Classpath) : Text :=
  Text.quotedList (classpath.tiers.map Tier.describe)

/-- The first tier's answer that is a class or a failure, and the tiers after the lookup. -/
def resolveIn (fs : FileSystem) (name : ClassName) :
    List Tier → Except Fault (Option ResolvedClass) × List Tier
  | [] => (.ok none, [])
  | tier :: rest =>
    match tier.find fs name with
    | (.error fault, tier) => (.error fault, tier :: rest)
    | (.ok (some bytes), tier) => (.ok (some ⟨bytes, tier.origin⟩), tier :: rest)
    | (.ok none, tier) =>
      let (found, rest) := resolveIn fs name rest
      (found, tier :: rest)

def resolve (fs : FileSystem) (name : ClassName) (classpath : Classpath) :
    Except Fault (Option ResolvedClass) × Classpath :=
  let (found, tiers) := resolveIn fs name classpath.tiers
  (found, ⟨tiers⟩)

/-- Whether an archive tier has the class; other tiers are not asked. -/
def projectClassIn (fs : FileSystem) (name : ClassName) :
    List Tier → Except Fault Bool × List Tier
  | [] => (.ok false, [])
  | tier :: rest =>
    if tier.origin = .archive then
      match tier.find fs name with
      | (.error fault, tier) => (.error fault, tier :: rest)
      | (.ok (some _), tier) => (.ok true, tier :: rest)
      | (.ok none, tier) =>
        let (found, rest) := projectClassIn fs name rest
        (found, tier :: rest)
    else
      let (found, rest) := projectClassIn fs name rest
      (found, tier :: rest)

def isProjectClass (fs : FileSystem) (name : ClassName) (classpath : Classpath) :
    Except Fault Bool × Classpath :=
  let (found, tiers) := projectClassIn fs name classpath.tiers
  (found, ⟨tiers⟩)

def resolvesToProject (fs : FileSystem) (name : ClassName) (classpath : Classpath) :
    Except Fault Bool × Classpath :=
  let (found, classpath) := classpath.resolve fs name
  (found.map fun found => found.any (·.origin == .archive), classpath)

end Classpath

end Retarget
