import Retarget.Bytes

/-!
The header of a class file: four magic bytes, then the minor and the major version. Reading and
setting the version are a lens on the bytes that carry the magic.
-/
namespace Retarget

/-- A class-file version; versions are compared by major number first. -/
structure ClassVersion where
  major : UInt16
  minor : UInt16
  deriving DecidableEq, Repr

namespace ClassVersion

instance : Ord ClassVersion where
  compare a b := (compare a.major b.major).then (compare a.minor b.minor)

def release? (version : ClassVersion) : Option UInt16 :=
  if version.major < 44 then none else some (version.major - 44)

end ClassVersion

namespace ClassFile

def magic : Bytes := [0xCA, 0xFE, 0xBA, 0xBE]

def version? : Bytes → Option ClassVersion
  | m₀ :: m₁ :: m₂ :: m₃ :: n₀ :: n₁ :: v₀ :: v₁ :: _ =>
    if [m₀, m₁, m₂, m₃] = magic then some ⟨Bytes.word16 v₀ v₁, Bytes.word16 n₀ n₁⟩ else none
  | _ => none

def setVersion? (bytes : Bytes) (version : ClassVersion) : Option Bytes :=
  match version? bytes with
  | none => none
  | some _ =>
    some (bytes.take 4 ++ Bytes.bigEndian16 version.minor ++ Bytes.bigEndian16 version.major ++
      bytes.drop 8)

end ClassFile

end Retarget
