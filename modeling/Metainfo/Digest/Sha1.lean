import Metainfo.Data.Arith

/-!
# SHA-1

The SHA-1 digest of a byte string, as FIPS 180-4 defines it: the message is padded
with a one bit, zeros and its bit length to a multiple of 64 bytes, and each 64-byte
block is folded into five 32-bit words by eighty rounds.

* `Sha1.digest` gives the 20-byte digest;
* `Sha1.digest "abc".toUTF8` is `a9993e36…` and the digest of the empty string is
  `da39a3ee…`, the standard's test vectors.
-/

namespace Metainfo
namespace Sha1

/-- The five chaining words. -/
structure State where
  /-- first word -/
  a : UInt32
  /-- second word -/
  b : UInt32
  /-- third word -/
  c : UInt32
  /-- fourth word -/
  d : UInt32
  /-- fifth word -/
  e : UInt32

/-- The initial chaining value fixed by the standard. -/
def State.init : State :=
  ⟨0x67452301, 0xEFCDAB89, 0x98BADCFE, 0x10325476, 0xC3D2E1F0⟩

/-- Rotation of a word to the left by `n` bits, `0 < n < 32`. -/
def rotl (x : UInt32) (n : UInt32) : UInt32 :=
  (x <<< n) ||| (x >>> (32 - n))

/-- The byte at position `i`, zero past the end. -/
def byteAt (b : ByteArray) (i : Nat) : UInt32 :=
  ((b[i]?).getD 0).toUInt32

/-- The big-endian word that starts at byte `i`. -/
def wordAt (b : ByteArray) (i : Nat) : UInt32 :=
  (byteAt b i <<< 24) ||| (byteAt b (i + 1) <<< 16) ||| (byteAt b (i + 2) <<< 8) ||| byteAt b (i + 3)

/-- The round function and constant of round `t`. -/
def roundMix (t : Nat) (b c d : UInt32) : UInt32 × UInt32 :=
  if t < 20 then ((b &&& c) ||| ((~~~b) &&& d), 0x5A827999)
  else if t < 40 then (b ^^^ c ^^^ d, 0x6ED9EBA1)
  else if t < 60 then ((b &&& c) ||| (b &&& d) ||| (c &&& d), 0x8F1BBCDC)
  else (b ^^^ c ^^^ d, 0xCA62C1D6)

/-- The eighty schedule words of the block that starts at byte `off`. -/
def schedule (msg : ByteArray) (off : Nat) : Array UInt32 := Id.run do
  let mut w : Array UInt32 := Array.mkEmpty 80
  for t in [0:16] do
    w := w.push (wordAt msg (off + 4 * t))
  for t in [16:80] do
    w := w.push (rotl (w[t - 3]! ^^^ w[t - 8]! ^^^ w[t - 14]! ^^^ w[t - 16]!) 1)
  return w

/-- Folds the block that starts at byte `off` into the chaining state. -/
def compress (s : State) (msg : ByteArray) (off : Nat) : State := Id.run do
  let w := schedule msg off
  let mut a := s.a
  let mut b := s.b
  let mut c := s.c
  let mut d := s.d
  let mut e := s.e
  for t in [0:80] do
    let (f, k) := roundMix t b c d
    let temp := rotl a 5 + f + e + k + w[t]!
    e := d
    d := c
    c := rotl b 30
    b := a
    a := temp
  return ⟨s.a + a, s.b + b, s.c + c, s.d + d, s.e + e⟩

/-- The message followed by the padding: a `0x80` byte, zeros up to 56 bytes past a
multiple of 64, and the bit length as a big-endian 64-bit number. -/
def pad (msg : ByteArray) : ByteArray := Id.run do
  let bits := msg.size * 8
  let zeros := (119 - msg.size % 64) % 64
  let mut out := msg.push 0x80
  for _ in [0:zeros] do
    out := out.push 0
  for i in [0:8] do
    out := out.push (bits >>> (8 * (7 - i))).toUInt8
  return out

/-- The 20 bytes of a word sequence, big-endian. -/
def State.bytes (s : State) : ByteArray := Id.run do
  let mut out := ByteArray.emptyWithCapacity 20
  for w in [s.a, s.b, s.c, s.d, s.e] do
    out := out.push (w >>> 24).toUInt8
    out := out.push (w >>> 16).toUInt8
    out := out.push (w >>> 8).toUInt8
    out := out.push w.toUInt8
  return out

/-- The SHA-1 digest of a byte string. -/
def digest (msg : ByteArray) : ByteArray := Id.run do
  let padded := pad msg
  let mut s := State.init
  for i in [0:padded.size / 64] do
    s := compress s padded (64 * i)
  return s.bytes

theorem size_bytes (s : State) : s.bytes.size = 20 := by
  simp [State.bytes]
  rfl

/-- A digest has twenty bytes. -/
theorem size_digest (msg : ByteArray) : (digest msg).size = 20 := by
  unfold digest
  exact size_bytes _

end Sha1
end Metainfo
