import Retarget.CommandLine.Places
import Retarget.CommandLine.Run
import Std.Time.DateTime.Timestamp

/-!
The program. It brings the files that its words name together as a value, carries the command out on
that value, and then makes the same changes to the real files.
-/
namespace Retarget.Program

/-- Everything at a place of the real files put at a location, to the depth of its directories. -/
partial def gather (fs : FileSystem) (location : Location) (place : String) : IO FileSystem := do
  let place := (← IO.currentDir) / place
  if ← place.isDir then
    let mut fs := fs.plant location .directory
    for child in ← place.readDir do
      fs ← gather fs (location ++ [child.fileName.toList]) child.path.toString
    return fs
  else if ← place.pathExists then
    return fs.plant location (.file (← IO.FS.readBinFile place).toList)
  else return fs

def gatherPath (fs : FileSystem) (path : Path) : IO FileSystem := do
  let steps := FileSystem.steps path
  let mut fs := fs
  let mut location := if path.isAbsolute then [] else fs.cwd
  let mut place : Text := if path.isAbsolute then ['/'] else ['.']
  for step in steps.dropLast do
    place := place ++ '/' :: step
    if step = ['.', '.'] then location := location.dropLast
    else if step ≠ ['.'] then
      location := location ++ [step]
      let here := (← IO.currentDir) / String.ofList place
      if ← here.isDir then fs := fs.plant location .directory
      else if ← here.pathExists then fs := fs.plant location (.file [])
  match steps.getLast? with
  | none => return fs
  | some last =>
    let target :=
      if last = ['.'] then location
      else if last = ['.', '.'] then location.dropLast
      else location ++ [last]
    gather fs target (String.ofList (place ++ '/' :: last))

def replay : Change → IO Unit
  | .create path => IO.FS.writeBinFile path.toString .empty
  | .write path content => IO.FS.writeBinFile path.toString ⟨content.toArray⟩
  | .remove path => IO.FS.removeFile path.toString
  | .rename source target => IO.FS.rename source.toString target.toString

def isRename : Change → Bool
  | .rename _ _ => true
  | _ => false

/-- The changes made in order. One that fails ends the program, with the code of a swap that was
stopped half way when an archive has been renamed before. -/
def replayAll (code : UInt8) : (renamed : Bool) → List Change → IO UInt8
  | _, [] => return code
  | renamed, change :: rest => do
    try
      replay change
      replayAll code (renamed || isRename change) rest
    catch failure =>
      IO.eprintln failure
      return if renamed then 3 else 1

def now : IO Timestamp := do
  let moment ← Std.Time.Timestamp.now
  let nanos := moment.toNanosecondsSinceUnixEpoch.val
  return ⟨nanos / 1000000000, (nanos % 1000000000).toNat⟩

def gatherAll (home : Option Path) (words : List Text) (fs : FileSystem) : IO FileSystem :=
  (CommandLine.places home words fs).foldlM gatherPath fs

def perform (words : List Text) : IO UInt8 := do
  let home := (← IO.getEnv "JAVA_HOME").map Path.ofString
  let startedAt ← now
  let here := (FileSystem.steps (.ofString (← IO.currentDir).toString))
  let fs ← gatherAll home words (.ofWorkingDirectory here)
  let fs ← gatherAll home words fs
  let (result, disk) := CommandLine.run ⟨home, startedAt, ← now⟩ words (.ofFiles fs)
  for fault in result.log do
    IO.eprintln (String.ofList (Text.logged fault.words.toList))
  IO.print (String.ofList result.output)
  replayAll result.exitCode false disk.journal

end Retarget.Program

def main (args : List String) : IO UInt32 := do
  return (← Retarget.Program.perform (args.map String.toList)).toUInt32
