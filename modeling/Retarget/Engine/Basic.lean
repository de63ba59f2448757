import Retarget.ClassFile
import Retarget.Classpath.Basic
import Retarget.FileSystem.Change
import Retarget.NameSet

/-!
Engines lower one class at a time. While it works an engine may look classes up and change files,
so what it does is a dialogue: a question, then what it does with the answer. Running a dialogue
answers its questions from a classpath and a disk.
-/
namespace Retarget

structure TransformRequest where
  name : ClassName
  bytes : Bytes
  /-- The major version that classes are to be lowered to. -/
  target : UInt16
  deriving DecidableEq

inductive TransformResult
  | unchanged
  | changed (bytes : Bytes)
  deriving DecidableEq, Repr

namespace TransformResult

def isChanged : TransformResult → Bool
  | .unchanged => false
  | .changed _ => true

def final (given : Bytes) : TransformResult → Bytes
  | .unchanged => given
  | .changed bytes => bytes

end TransformResult

/-- An engine's answer: the class and the support classes that it now needs. -/
structure TransformOutput where
  result : TransformResult
  dependencies : NameSet := .empty
  deriving DecidableEq

inductive EngineError
  /-- A class that was needed is on no tier. -/
  | unresolved (name : ClassName)
  | internal (fault : Fault)
  deriving DecidableEq

def EngineError.fault : EngineError → Fault
  | .unresolved name => .text s!"unresolved class {name}"
  | .internal fault => fault

/-- Questions to a classpath and to a disk, each followed by what is done with its answer. -/
inductive Dialogue (α : Type)
  | done (answer : α)
  | resolve (name : ClassName) (next : Except Fault (Option ResolvedClass) → Dialogue α)
  | isProjectClass (name : ClassName) (next : Except Fault Bool → Dialogue α)
  | change (step : Change) (next : Except IoKind Unit → Dialogue α)

structure World where
  disk : Disk
  classpath : Classpath

namespace Dialogue

def bind {α β : Type} (d : Dialogue α) (f : α → Dialogue β) : Dialogue β :=
  match d with
  | .done answer => f answer
  | .resolve name next => .resolve name fun found => (next found).bind f
  | .isProjectClass name next => .isProjectClass name fun found => (next found).bind f
  | .change step next => .change step fun outcome => (next outcome).bind f

instance : Monad Dialogue where
  pure := .done
  bind := Dialogue.bind

def run {α : Type} : Dialogue α → World → α × World
  | .done answer, world => (answer, world)
  | .resolve name next, world =>
    let (found, classpath) := world.classpath.resolve world.disk.files name
    (next found).run { world with classpath := classpath }
  | .isProjectClass name next, world =>
    let (found, classpath) := world.classpath.isProjectClass world.disk.files name
    (next found).run { world with classpath := classpath }
  | .change step next, world =>
    match Disk.perform step world.disk with
    | .ok () disk => (next (.ok ())).run { world with disk := disk }
    | .error kind disk => (next (.error kind)).run { world with disk := disk }

/-- The dialogue leaves files alone, whatever it is answered. -/
def LeavesFiles {α : Type} : Dialogue α → Prop
  | .done _ => True
  | .resolve _ next => ∀ found, (next found).LeavesFiles
  | .isProjectClass _ next => ∀ found, (next found).LeavesFiles
  | .change _ _ => False

end Dialogue

abbrev Engine := TransformRequest → Dialogue (Except EngineError TransformOutput)

end Retarget
