import Retarget.Folder
import Retarget.ZipTree

/-!
A path opened as an archive: a directory as a folder, anything else as a zip file.
-/
namespace Retarget

def openTree (fs : FileSystem) (path : Path) : Except ZipTree.OpenError Archive :=
  if fs.isDirectory path then .ok (Folder.archive ⟨path⟩)
  else (ZipTree.open fs path).map ZipTree.archive

end Retarget
