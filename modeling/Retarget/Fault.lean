/-!
Explanations of failures: what failed, then what made it fail, and so on down to a fault of the
system or of a file format, which is told by its kind alone.
-/
namespace Retarget

inductive IoKind
  | notFound
  | isADirectory
  | notADirectory
  | alreadyExists
  | directoryNotEmpty
  | other
  deriving DecidableEq, Repr

inductive Foreign
  | io (kind : IoKind)
  | zip
  | toml
  deriving DecidableEq, Repr

inductive Line
  | text (message : String)
  | foreign (fault : Foreign)
  deriving DecidableEq, Repr

structure Fault where
  line : Line
  causes : List Line
  deriving DecidableEq, Repr

def IoKind.words : IoKind → String
  | .notFound => "not found"
  | .isADirectory => "is a directory"
  | .notADirectory => "not a directory"
  | .alreadyExists => "already exists"
  | .directoryNotEmpty => "directory not empty"
  | .other => "input or output failed"

def Foreign.words : Foreign → String
  | .io kind => kind.words
  | .zip => "not a usable zip archive"
  | .toml => "not a configuration"

def Line.words : Line → String
  | .text message => message
  | .foreign fault => fault.words

namespace Fault

def text (message : String) : Fault := ⟨.text message, []⟩

def foreign (fault : Foreign) : Fault := ⟨.foreign fault, []⟩

def io (kind : IoKind) : Fault := .foreign (.io kind)

def lines (fault : Fault) : List Line := fault.line :: fault.causes

def context (message : String) (fault : Fault) : Fault :=
  ⟨.text message, fault.lines⟩

def words (fault : Fault) : String :=
  String.intercalate ": " (fault.lines.map Line.words)

end Fault

end Retarget
