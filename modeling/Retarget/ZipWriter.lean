import Retarget.Archive
import Retarget.FileSystem.Change
import Retarget.Zip.Image

/-!
Zip files being written. The file is made when the writer is, and gets its content when the writer
is finished. Between the two the entries are kept in the order they came. A file has to be small
enough for the four bytes in which a header tells its lengths; archives may be of any size. The disk
never refuses bytes to a file that it has made.
-/
namespace Retarget

structure ZipWriter where
  path : Path
  entries : List (EntryPath × Node)
  finished : Bool
  deriving DecidableEq

namespace ZipWriter

def ofPath (path : Path) : ZipWriter := ⟨path, [], false⟩

def contains (writer : ZipWriter) (path : EntryPath) : Bool :=
  (writer.entries.lookup path).isSome

inductive WriteError
  | finished (archive : Path)
  | duplicate (path : EntryPath) (archive : Path)
  | tooLong (path : EntryPath)
  deriving DecidableEq, Repr

def WriteError.fault : WriteError → Fault
  | .finished archive => .text s!"archive {archive} is already finished"
  | .duplicate path archive => .text s!"duplicate entry {path} in {archive}"
  | .tooLong path => (Fault.io .other).context s!"write entry {path}"

def add (writer : ZipWriter) (path : EntryPath) (node : Node) : ZipWriter :=
  { writer with entries := writer.entries ++ [(path, node)] }

def createDirectory (writer : ZipWriter) (path : EntryPath) : Except WriteError ZipWriter :=
  if writer.contains path then .ok writer
  else if writer.finished then .error (.finished writer.path)
  else .ok (writer.add path .directory)

def writeFile (writer : ZipWriter) (path : EntryPath) (content : Bytes) :
    Except WriteError ZipWriter :=
  if writer.contains path then .error (.duplicate path writer.path)
  else if writer.finished then .error (.finished writer.path)
  else if ¬Zip.HasRoom content then .error (.tooLong path)
  else .ok (writer.add path (.file content))

def memberOf : EntryPath × Node → Zip.NewMember
  | (path, .directory) => .directory (path.text ++ ['/'])
  | (path, .file content) => .file path.text content

def image (writer : ZipWriter) : Bytes :=
  Zip.image (writer.entries.map memberOf)

def create (path : Path) : EStateM Fault Disk ZipWriter := fun disk =>
  match Disk.perform (.create path) disk with
  | .ok () disk => .ok (ofPath path) disk
  | .error kind disk => .error ((Fault.io kind).context s!"create archive {path}") disk

/-- The writer finished and its file given its content, if the file has not been taken away. -/
def finish : EStateM Fault (ZipWriter × Disk) Unit := fun (writer, disk) =>
  if writer.finished then .ok () (writer, disk)
  else
    .ok () ({ writer with finished := true },
      if disk.files.isFile writer.path then disk.attempt (.write writer.path writer.image)
      else disk)

/-- The disk after a writer that is no longer wanted has been finished. -/
def abandon (writer : ZipWriter) (disk : Disk) : Disk :=
  match finish (writer, disk) with
  | .ok _ (_, disk) | .error _ (_, disk) => disk

def step (act : ZipWriter → Except WriteError ZipWriter) : EStateM Fault ZipWriter Unit :=
  fun writer => match act writer with
    | .ok writer => .ok () writer
    | .error fault => .error fault.fault writer

instance : Destination ZipWriter where
  location writer := writer.path.text
  contains := contains
  createDirectory path := step (·.createDirectory path)
  writeFile path content := step (·.writeFile path content)

end ZipWriter

end Retarget
