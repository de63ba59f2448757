import Retarget.Settings
import Retarget.Support.Injection
import Retarget.Swap

/-!
Why a run fails. All failures but one leave the input where it was; the failure between
the two renames of the swap leaves it under its backup name.
-/
namespace Retarget

inductive Stage
  | listEntries (location : Text)
  | readEntry (path : EntryPath) (location : Text)
  | writeEntry (path : EntryPath) (location : Text)
  | createDirectory (path : EntryPath)
  | takeTransformed (path : EntryPath)
  | copySupportClass (name : ClassName)
  | openInput (path : Path)
  | createStaging (path : Path)
  | finishStaging (path : Path)
  | hash (path : Path)
  /-- A stage of a program built around a run. -/
  | other (description : String)
  deriving DecidableEq

def Stage.message : Stage → String
  | .listEntries location =>
    let name := String.ofList location
    s!"list entries of {name}"
  | .readEntry path location =>
    let name := String.ofList location
    s!"read entry {path} from {name}"
  | .writeEntry path location =>
    let name := String.ofList location
    s!"write entry {path} to {name}"
  | .createDirectory path => s!"create directory {path}"
  | .takeTransformed path => s!"transformed bytes for {path}"
  | .copySupportClass name => s!"copy runtime class {name}"
  | .openInput path => s!"open input archive {path}"
  | .createStaging path => s!"create staging archive {path}"
  | .finishStaging path => s!"finish staging archive {path}"
  | .hash path => s!"hash {path}"
  | .other description => description

inductive DowngradeError
  | settings (fault : SettingsError)
  /-- The engine needed a class that is on no tier. -/
  | unresolved (name missing : ClassName)
  | transform (name : ClassName) (fault : Fault)
  | io (stage : Stage) (fault : Fault)
  | missingSupportClass (name : ClassName)
  | swap (fault : SwapError)
  deriving DecidableEq

namespace DowngradeError

def ofSupport : SupportError → DowngradeError
  | .missing name => .missingSupportClass name
  | .copy name fault => .io (.copySupportClass name) fault

def fault : DowngradeError → Fault
  | .settings fault => (Fault.text fault.message).context "invalid downgrade settings"
  | .unresolved name missing => .text s!"unresolved class {missing} (needed by {name})"
  | .transform name fault => fault.context s!"failed to transform {name}"
  | .io stage fault => fault.context stage.message
  | .missingSupportClass name => .text s!"missing runtime class {name}"
  | .swap fault => fault.fault

/-- The input is under its backup name and the result under its staging name. -/
def isPartialSwap : DowngradeError → Bool
  | .swap (.promote ..) => true
  | _ => false

def exitCode (e : DowngradeError) : UInt8 :=
  if e.isPartialSwap then 3 else 1

end DowngradeError

end Retarget
