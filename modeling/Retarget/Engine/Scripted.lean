import Retarget.Engine.Builtin

/-!
Engines that follow rules given beforehand, one for each class by name and one for all others. A
rule names classes that have to be there, what is done with the class, and support classes that the
result needs. They stand in for a real engine where a run is rehearsed.
-/
namespace Retarget.Engine

/-- What a rule does with a class. Names are taken as they are and checked when they are used. -/
inductive Action
  | unchanged
  | stamp
  | verify
  /-- The bytes in reverse. -/
  | reverse
  | replace (bytes : Bytes)
  /-- A line for each of the classes, telling whether it is the project's and what was found. -/
  | embed (names : List Text)
  | unresolved (name : Text)
  /-- The file is removed if it is there, and the class stays as it is. -/
  | delete (path : Path)
  | fail (message : String)
  deriving DecidableEq

structure Rule where
  needs : List Text := []
  action : Action := .unchanged
  requires : List Text := []
  deriving DecidableEq

structure Script where
  default : Rule
  classes : List (Text × Rule)
  deriving DecidableEq

/-- The work of an engine: a dialogue that may end in an error. -/
abbrev Work := ExceptT EngineError Dialogue

namespace Work

def name (text : Text) : Work ClassName :=
  match ClassName.ofText text with
  | .ok name => pure name
  | .error fault => throw (.internal (.text fault.message))

def resolve (name : ClassName) : Work (Option ResolvedClass) :=
  ExceptT.mk <| .resolve name fun found => .done (found.mapError .internal)

def isProjectClass (name : ClassName) : Work Bool :=
  ExceptT.mk <| .isProjectClass name fun found => .done (found.mapError .internal)

def attempt (step : Change) : Work Unit :=
  ExceptT.mk <| .change step fun _ => .done (.ok ())

end Work

def checkNeeds (names : List Text) : Work Unit :=
  names.forM fun text => do
    let name ← Work.name text
    if (← Work.resolve name).isNone then throw (.unresolved name)

def foundText : Option ResolvedClass → Text
  | none => "none".toList
  | some found => found.origin.word.toList ++ ':' :: found.bytes.toHex

def embedLine (text : Text) : Work Text := do
  let name ← Work.name text
  let project ← Work.isProjectClass name
  let found ← Work.resolve name
  let answer := if project then "true" else "false"
  return text ++ ' ' :: answer.toList ++ ' ' :: foundText found ++ ['\n']

def act (request : TransformRequest) : Action → Work TransformResult
  | .unchanged => pure .unchanged
  | .stamp => do return (← ExceptT.mk (Engine.stamp request)).result
  | .verify => do return (← ExceptT.mk (Engine.verify request)).result
  | .reverse => pure (.changed request.bytes.reverse)
  | .replace bytes => pure (.changed bytes)
  | .embed names => do
    let lines ← names.mapM embedLine
    return .changed (Bytes.ofString (String.ofList lines.flatten))
  | .unresolved text => do throw (.unresolved (← Work.name text))
  | .delete path => do
    Work.attempt (.remove path)
    return .unchanged
  | .fail message => throw (.internal (.text message))

def follow (rule : Rule) (request : TransformRequest) : Work TransformOutput := do
  checkNeeds rule.needs
  let result ← act request rule.action
  let required ← rule.requires.mapM Work.name
  return ⟨result, .ofList required⟩

/-- The engine of a script; a class's own rule comes before the default. -/
def scripted (script : Script) : Engine := fun request =>
  (follow ((script.classes.lookup request.name.text).getD script.default) request).run

end Retarget.Engine
