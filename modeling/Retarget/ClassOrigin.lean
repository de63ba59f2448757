/-!
Where a class was found.
-/
namespace Retarget

inductive ClassOrigin
  /-- The archive being lowered, as it was before. -/
  | archive
  /-- A declared dependency. -/
  | classpath
  /-- The platform's own classes. -/
  | platform
  deriving DecidableEq, Repr

def ClassOrigin.word : ClassOrigin → String
  | .archive => "archive"
  | .classpath => "classpath"
  | .platform => "platform"

end Retarget
