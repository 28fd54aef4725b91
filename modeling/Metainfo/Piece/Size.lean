import Metainfo.Data.Arith

/-!
# Piece sizes

A torrent cuts its content into pieces of one power-of-two size.

* `Piece.exponentFor total` picks the size for a total length from a threshold table:
  up to 50 MiB gives `2^15`, each doubling of the total adds one, and above 6400 MiB
  the exponent stays 23;
* `Piece.validate` accepts a power of two from `2^14` to `2^26`; the power-of-two test
  comes first, so 0 is refused as not a power of two;
* `Piece.sizeOfExponent` accepts the exponents 14 to 26;
* `Piece.count total size` is the number of pieces, `⌈total / size⌉`;
* a `Spec` is a valid size together with the piece count for a total.
-/

namespace Metainfo
namespace Piece

/-- One mebibyte. -/
def mib : Nat := 1048576

/-- The smallest piece size, `2^14`. -/
def sizeMin : Nat := 16384

/-- The largest piece size, `2^26`. -/
def sizeMax : Nat := 67108864

/-- The smallest piece exponent. -/
def expMin : Nat := 14

/-- The largest piece exponent. -/
def expMax : Nat := 26

/-- Upper bounds of the total length, each with the exponent used up to it. -/
def thresholds : List (Nat × Nat) :=
  [(50 * mib, 15), (100 * mib, 16), (200 * mib, 17), (400 * mib, 18), (800 * mib, 19),
   (1600 * mib, 20), (3200 * mib, 21), (6400 * mib, 22), (12800 * mib, 23)]

/-- The piece exponent chosen for a total length: the first threshold at or above it,
and 23 past the last. -/
def exponentFor (total : Nat) : Nat :=
  match thresholds.find? (fun t => total ≤ t.1) with
  | some t => t.2
  | none => 23

/-- The number of pieces of `size` bytes that cover `total` bytes, the last one
possibly short. -/
def count (total size : Nat) : Nat :=
  (total + size - 1) / size

/-- Why a piece size or exponent is refused. -/
inductive SizeError where
  /-- the size is not a power of two -/
  | notPowerOfTwo (size : Nat)
  /-- the size is a power of two outside the allowed range -/
  | outOfRange (size min max : Nat)
  /-- the exponent is outside the allowed range -/
  | exponentOutOfRange (exp min max : Nat)
  deriving DecidableEq, Repr

/-- The constructor's name. -/
def SizeError.kind : SizeError → String
  | .notPowerOfTwo _ => "NotPowerOfTwo"
  | .outOfRange .. => "OutOfRange"
  | .exponentOutOfRange .. => "ExponentOutOfRange"

/-- The text of the error. -/
def SizeError.message : SizeError → String
  | .notPowerOfTwo s => s!"piece size {s} is not a power of two"
  | .outOfRange s lo hi => s!"piece size {s} must be between {lo} and {hi}"
  | .exponentOutOfRange e lo hi => s!"piece length exponent {e} must be between {lo} and {hi}"

/-- `n` is a power of two (so not zero). -/
def isPowerOfTwo (n : Nat) : Bool :=
  n != 0 && (n &&& (n - 1)) == 0

/-- Accepts a power of two from `sizeMin` to `sizeMax`. -/
def validate (size : Nat) : Except SizeError Nat :=
  if !isPowerOfTwo size then .error (.notPowerOfTwo size)
  else if size < sizeMin ∨ sizeMax < size then .error (.outOfRange size sizeMin sizeMax)
  else .ok size

/-- The piece size `2^exp`, for `exp` from `expMin` to `expMax`. -/
def sizeOfExponent (exp : Nat) : Except SizeError Nat :=
  if exp < expMin ∨ expMax < exp then .error (.exponentOutOfRange exp expMin expMax)
  else .ok (2 ^ exp)

/-- A piece size with the number of pieces it gives for a total length. -/
structure Spec where
  /-- the piece size -/
  size : Nat
  /-- the number of pieces -/
  count : Nat
  deriving DecidableEq, Repr

/-- The spec of a given size, which must be valid. -/
def Spec.new (size total : Nat) : Except SizeError Spec := do
  let size ← validate size
  return ⟨size, Piece.count total size⟩

/-- The spec chosen for a total length. -/
def Spec.forTotal (total : Nat) : Spec :=
  let exp := min expMax (max expMin (exponentFor total))
  ⟨2 ^ exp, Piece.count total (2 ^ exp)⟩

/-- The exponent of the piece size: the number of trailing zero bits. -/
def Spec.exponent (s : Spec) : Nat :=
  trailingZeros s.size
where
  /-- trailing zero bits of a positive number, 64 for zero as for a 64-bit word -/
  trailingZeros (n : Nat) : Nat :=
    if n = 0 then 64 else go n 0
  /-- counts halvings while the number is even -/
  go (n acc : Nat) : Nat :=
    if h : n ≠ 0 ∧ n % 2 = 0 then go (n / 2) (acc + 1) else acc
  termination_by n
  decreasing_by omega

end Piece
end Metainfo
