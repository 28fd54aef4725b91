import Metainfo.Digest.Sha1
import Metainfo.Torrent.Error

/-!
# Piece hashes

Every piece is known by its 20-byte SHA-1 digest, and a torrent stores the digests of
all its pieces as one byte string, one digest after another.

* `HashList.ofBytes` cuts such a byte string into digests and refuses a length that
  is not a multiple of 20; `HashList.toBytes` joins them again;
* `HashList.get?` looks up the digest of a piece by index;
* `HashList.debug` is the diagnostic text `PieceHashList([PieceHash(<hex>), …])`.
-/

namespace Metainfo

/-- The length of a digest in bytes. -/
def digestLen : Nat := 20

/-- The SHA-1 digest of one piece: exactly 20 bytes. -/
@[ext] structure PieceHash where
  /-- the digest bytes -/
  bytes : ByteArray
  /-- a digest has 20 bytes -/
  size_eq : bytes.size = digestLen
  deriving DecidableEq

/-- The digest of a piece's bytes. -/
def PieceHash.of (data : ByteArray) : PieceHash :=
  ⟨Sha1.digest data, Sha1.size_digest data⟩

/-- A digest given by its bytes, which must be 20. -/
def PieceHash.ofBytes? (b : ByteArray) : Option PieceHash :=
  if h : b.size = digestLen then some ⟨b, h⟩ else none

/-- Lowercase hex of the digest. -/
def PieceHash.hex (h : PieceHash) : String :=
  Bytes.toHex h.bytes

/-- The diagnostic text `PieceHash(<hex>)`. -/
def PieceHash.debug (h : PieceHash) : String :=
  "PieceHash(" ++ h.hex ++ ")"

/-- The digests of a torrent's pieces, in piece order. -/
structure HashList where
  /-- the digests -/
  hashes : List PieceHash
  deriving DecidableEq

namespace HashList

/-- The empty list, the default. -/
def empty : HashList := ⟨[]⟩

/-- The list of the given digests. -/
def new (hashes : List PieceHash) : HashList := ⟨hashes⟩

/-- The digests, in order. -/
def asSlice (l : HashList) : List PieceHash := l.hashes

/-- The number of digests. -/
def length (l : HashList) : Nat := l.hashes.length

/-- No digests at all. -/
def isEmpty (l : HashList) : Bool := l.hashes.isEmpty

/-- The digest of piece `i`. -/
def get? (l : HashList) (i : Nat) : Option PieceHash := l.hashes[i]?

/-- Cuts a byte string into consecutive 20-byte pieces; the length must be a multiple
of 20. -/
def chunks (data : ByteArray) (i : Nat) : List PieceHash :=
  if h : i + digestLen ≤ data.size then
    ⟨data.extract i (i + digestLen), by rw [ByteArray.size_extract]; omega⟩ ::
      chunks data (i + digestLen)
  else []
termination_by data.size - i
decreasing_by simp only [digestLen] at *; omega

/-- The digests stored in a byte string, which must have a length divisible by 20. -/
def ofBytes (data : ByteArray) : Except MetainfoError HashList :=
  if data.size % digestLen = 0 then .ok ⟨chunks data 0⟩
  else .error (.invalid "info.pieces" s!"length {data.size} is not divisible by {digestLen}")

/-- The digests joined into one byte string. -/
def toBytes (l : HashList) : ByteArray :=
  l.hashes.foldl (fun acc h => acc ++ h.bytes) ByteArray.empty

/-- The diagnostic text `PieceHashList([…])`. -/
def debug (l : HashList) : String :=
  "PieceHashList([" ++ ", ".intercalate (l.hashes.map PieceHash.debug) ++ "])"

end HashList

end Metainfo
