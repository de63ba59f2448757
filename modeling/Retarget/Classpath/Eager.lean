import Retarget.Classpath.Basic

/-!
Lookup without state: every root is opened beforehand, and the archives and roots of all tiers are
asked one after the other. It says what a lookup answers whatever was looked up before.
-/
namespace Retarget.Classpath

/-- One place to ask: an origin, and what is found there. -/
structure Place where
  origin : ClassOrigin
  answer : FileSystem → ClassName → Except Fault (Option Bytes)

def placesOf (fs : FileSystem) : Tier → List Place
  | .archive tree => [⟨.archive, fun fs name => tree.read fs (.ofClass name)⟩]
  | .roots kind list =>
    list.map fun root => ⟨kind.origin, fun fs' name => (root.ensureOpened fs).answer fs' name⟩
  | .custom origin _ find => [⟨origin, find⟩]

def firstAnswer (fs : FileSystem) (name : ClassName) :
    List Place → Except Fault (Option ResolvedClass)
  | [] => .ok none
  | place :: rest =>
    match place.answer fs name with
    | .error fault => .error fault
    | .ok (some bytes) => .ok (some ⟨bytes, place.origin⟩)
    | .ok none => firstAnswer fs name rest

def eagerResolve (fs : FileSystem) (name : ClassName) (classpath : Classpath) :
    Except Fault (Option ResolvedClass) :=
  firstAnswer fs name (classpath.tiers.flatMap (placesOf fs))

end Retarget.Classpath
