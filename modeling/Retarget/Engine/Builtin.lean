import Retarget.Engine.Basic

/-!
The engines that need no bytecode to be understood: one leaves every class alone, one relabels
classes above the target with the target's version, and one refuses such classes. They ask nothing.
-/
namespace Retarget.Engine

inductive Refusal
  | notAClassFile (name : ClassName)
  | aboveTarget (version target : UInt16)
  deriving DecidableEq

def Refusal.message : Refusal → String
  | .notAClassFile name => s!"{name} is not a class file"
  | .aboveTarget version target => s!"class file version {version} exceeds target {target}"

abbrev Verdict := TransformRequest → Except Refusal TransformResult

def passthroughVerdict : Verdict := fun _ => .ok .unchanged

/-- A class above the target gets the target's version; others stay as they are. -/
def stampVerdict : Verdict := fun request =>
  match ClassFile.version? request.bytes with
  | none => .error (.notAClassFile request.name)
  | some version =>
    if version.major ≤ request.target then .ok .unchanged
    else match ClassFile.setVersion? request.bytes ⟨request.target, 0⟩ with
      | none => .error (.notAClassFile request.name)
      | some bytes => .ok (.changed bytes)

def verifyVerdict : Verdict := fun request =>
  match ClassFile.version? request.bytes with
  | none => .error (.notAClassFile request.name)
  | some version =>
    if version.major ≤ request.target then .ok .unchanged
    else .error (.aboveTarget version.major request.target)

def ofVerdict (verdict : Verdict) : Engine := fun request =>
  .done <| match verdict request with
    | .ok result => .ok ⟨result, .empty⟩
    | .error refusal => .error (.internal (.text refusal.message))

def passthrough : Engine := ofVerdict passthroughVerdict

def stamp : Engine := ofVerdict stampVerdict

def verify : Engine := ofVerdict verifyVerdict

theorem leavesFiles_ofVerdict (verdict : Verdict) (request : TransformRequest) :
    (ofVerdict verdict request).LeavesFiles := trivial

end Retarget.Engine
