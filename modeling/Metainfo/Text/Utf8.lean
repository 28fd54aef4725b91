import Metainfo.Data.Arith

/-!
# Lossy UTF-8 decoding

`Utf8.lossy` reads bytes as UTF-8 text and puts one replacement character `U+FFFD` in
place of every maximal invalid part, the usual "substitution of maximal subparts":

* an ASCII byte is its character;
* a lead byte `C2`–`DF`, `E0`–`EF` or `F0`–`F4` needs 1, 2 or 3 continuation bytes
  `80`–`BF`, the first one narrowed after `E0` (`A0`–`BF`), `ED` (`80`–`9F`), `F0`
  (`90`–`BF`) and `F4` (`80`–`8F`) so that overlong forms, surrogates and values past
  `U+10FFFF` are refused;
* a complete sequence is its character; an incomplete one — the lead byte with the
  continuation bytes that did fit — is one replacement character;
* any other byte alone is one replacement character.

On valid UTF-8 this is plain decoding.
-/

namespace Metainfo
namespace Utf8

/-- The number of continuation bytes after a lead byte, `none` for a byte that cannot
start a sequence. -/
def needed (b : UInt8) : Option Nat :=
  if b < 0x80 then some 0
  else if 0xC2 ≤ b ∧ b ≤ 0xDF then some 1
  else if 0xE0 ≤ b ∧ b ≤ 0xEF then some 2
  else if 0xF0 ≤ b ∧ b ≤ 0xF4 then some 3
  else none

/-- The bytes allowed right after a lead byte, as an inclusive range. -/
def secondRange (lead : UInt8) : UInt8 × UInt8 :=
  if lead = 0xE0 then (0xA0, 0xBF)
  else if lead = 0xED then (0x80, 0x9F)
  else if lead = 0xF0 then (0x90, 0xBF)
  else if lead = 0xF4 then (0x80, 0x8F)
  else (0x80, 0xBF)

/-- How many of the given bytes continue a sequence started by `lead`, the first of
them being the byte right after the lead when `first` holds. -/
def matched (lead : UInt8) (first : Bool) : List UInt8 → Nat
  | [] => 0
  | b :: bs =>
    let r := if first then secondRange lead else (0x80, 0xBF)
    if r.1 ≤ b ∧ b ≤ r.2 then matched lead false bs + 1 else 0

/-- The value of a complete sequence: the lead byte's payload bits followed by six bits
from every continuation byte. -/
def scalar (lead : UInt8) (conts : List UInt8) : Nat :=
  let mask : Nat := match conts.length with
    | 0 => 0x7F
    | 1 => 0x1F
    | 2 => 0x0F
    | _ => 0x07
  conts.foldl (fun acc b => acc * 64 + (b.toNat % 64)) (lead.toNat &&& mask)

/-- The characters of the bytes, with a replacement character for every maximal
invalid part. -/
def lossyChars (bytes : List UInt8) : List Char :=
  match bytes with
  | [] => []
  | b :: rest =>
    match needed b with
    | none => '�' :: lossyChars rest
    | some k =>
      let m := matched b true (rest.take k)
      if m = k then Char.ofNat (scalar b (rest.take k)) :: lossyChars (rest.drop k)
      else '�' :: lossyChars (rest.drop m)
termination_by bytes.length
decreasing_by
  all_goals simp only [List.length_cons, List.length_drop]
  all_goals omega

/-- The text of the bytes, invalid parts replaced. -/
def lossy (data : ByteArray) : String :=
  String.ofList (lossyChars data.toList)

end Utf8
end Metainfo
