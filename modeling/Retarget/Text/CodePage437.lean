import Retarget.Bytes

/-!
Code page 437, in which zip archives write names that are not marked as UTF-8. Its lower half is
ASCII; its upper half is a table of 128 characters.
-/
namespace Retarget.Text.CodePage437

def upper : Array Char :=
  ("ÇüéâäàåçêëèïîìÄÅÉæÆôöòûùÿÖÜ¢£¥₧ƒ" ++
   "áíóúñÑªº¿⌐¬½¼¡«»░▒▓│┤╡╢╖╕╣║╗╝╜╛┐" ++
   "└┴┬├─┼╞╟╚╔╩╦╠═╬╧╨╤╥╙╘╒╓╫╪┘┌█▄▌▐▀" ++
   "αßΓπΣσµτΦΘΩδ∞φε∩≡±≥≤⌠⌡÷≈°∙·√ⁿ²■\u00a0").toList.toArray

def decodeByte (b : UInt8) : Char :=
  if b < 128 then Char.ofNat b.toNat else upper.getD (b.toNat - 128) '\x00'

def decode (bytes : Bytes) : Text :=
  bytes.map decodeByte

theorem decodeByte_of_lt {b : UInt8} (h : b < 128) : decodeByte b = Char.ofNat b.toNat := by
  simp [decodeByte, h]

end Retarget.Text.CodePage437
