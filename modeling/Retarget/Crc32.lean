import Retarget.Bytes

/-!
CRC-32 with the reflected polynomial `EDB88320`, as zip archives use it: a fold of one step a byte.
-/
namespace Retarget.Crc32

def shift : Nat → UInt32 → UInt32
  | 0, r => r
  | n + 1, r => shift n (if r &&& 1 = 1 then (r >>> 1) ^^^ 0xEDB88320 else r >>> 1)

def table : Array UInt32 :=
  Array.ofFn fun i : Fin 256 => shift 8 (UInt32.ofNat i.val)

def step (r : UInt32) (b : UInt8) : UInt32 :=
  table.getD ((r ^^^ b.toUInt32) &&& 0xFF).toNat 0 ^^^ (r >>> 8)

def checksum (bytes : Bytes) : UInt32 :=
  bytes.foldl step 0xFFFFFFFF ^^^ 0xFFFFFFFF

end Retarget.Crc32
