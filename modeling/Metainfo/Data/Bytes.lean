import Metainfo.Data.Arith

/-!
# Byte strings

Byte strings are `ByteArray`s. This module fixes what the rest of the library needs
from them:

* the **order** on byte strings is lexicographic on the bytes, a proper prefix
  first (`Bytes.compare`); bencode dictionaries keep their keys in this order;
* **lowercase hexadecimal** text (`Bytes.toHex`, `Bytes.ofHex?`), the form in which
  digests and raw bytes are shown;
* **decimal digits** as bytes (`Bytes.isDigit`, `Bytes.digitsValue`) and the search
  for the next occurrence of a byte (`Bytes.findFrom`), the two primitives of the
  bencode reader.
-/

namespace Metainfo
namespace Bytes

/-- Lexicographic comparison of byte lists: the first differing byte decides, and a
proper prefix comes first. -/
def compareList : List UInt8 → List UInt8 → Ordering
  | [], [] => .eq
  | [], _ :: _ => .lt
  | _ :: _, [] => .gt
  | a :: as, b :: bs =>
    match Ord.compare a b with
    | .eq => compareList as bs
    | o => o

/-- Lexicographic comparison of byte strings. -/
def compare (a b : ByteArray) : Ordering :=
  compareList a.toList b.toList

/-- `a` sorts strictly before `b`. -/
def lt (a b : ByteArray) : Bool :=
  compare a b == .lt

/-- The list comparison of a list with itself is `eq`. -/
theorem compareList_self (xs : List UInt8) : compareList xs xs = .eq := by
  induction xs with
  | nil => rfl
  | cons x xs ih => simp [compareList, ih]

/-- The hexadecimal digit of a value below 16, lowercase. -/
def hexDigit (n : Nat) : Char :=
  if n < 10 then Char.ofNat (48 + n) else Char.ofNat (87 + n)

/-- Two lowercase hexadecimal digits of a byte. -/
def byteHex (b : UInt8) : String :=
  String.singleton (hexDigit (b.toNat / 16)) |>.push (hexDigit (b.toNat % 16))

/-- Lowercase hexadecimal text of a byte string, two digits per byte. -/
def toHex (b : ByteArray) : String :=
  b.foldl (fun s x => s.push (hexDigit (x.toNat / 16)) |>.push (hexDigit (x.toNat % 16))) ""

/-- The value of one hexadecimal digit of either case. -/
def hexValue? (c : Char) : Option Nat :=
  if '0' ≤ c ∧ c ≤ '9' then some (c.toNat - 48)
  else if 'a' ≤ c ∧ c ≤ 'f' then some (c.toNat - 87)
  else if 'A' ≤ c ∧ c ≤ 'F' then some (c.toNat - 55)
  else none

/-- Bytes of hexadecimal text given as characters, two digits per byte. -/
def ofHexChars : List Char → Option (List UInt8)
  | [] => some []
  | [_] => none
  | h :: l :: rest => do
    let hi ← hexValue? h
    let lo ← hexValue? l
    let tail ← ofHexChars rest
    pure ((hi * 16 + lo).toUInt8 :: tail)

/-- Bytes of hexadecimal text; `none` for an odd length or a non-digit. -/
def ofHex? (s : String) : Option ByteArray :=
  (ofHexChars s.toList).map fun l => ⟨l.toArray⟩

/-- An ASCII decimal digit. -/
def isDigit (b : UInt8) : Bool :=
  48 ≤ b && b ≤ 57

/-- The value of a string of ASCII decimal digits, most significant first. -/
def digitsValue (ds : List UInt8) : Nat :=
  ds.foldl (fun acc d => acc * 10 + (d.toNat - 48)) 0

/-- The first position at or after `i` that holds `b`. -/
def findFrom (data : ByteArray) (b : UInt8) (i : Nat) : Option Nat :=
  if h : i < data.size then
    if data[i] = b then some i else findFrom data b (i + 1)
  else none
termination_by data.size - i

/-- The bytes of `data` from `start` up to, not including, `stop`, as a list. -/
def slice (data : ByteArray) (start stop : Nat) : List UInt8 :=
  (data.extract start stop).toList

/-- The UTF-8 bytes of a string. -/
def ofString (s : String) : ByteArray :=
  s.toUTF8

end Bytes
end Metainfo
