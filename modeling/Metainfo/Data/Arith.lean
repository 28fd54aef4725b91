/-!
# The arithmetic the library computes with

The library's definitions take powers of natural numbers and integers, sum natural
numbers from zero, and compare byte strings. Each of these has its core instance pinned
here, at a priority above any other library's, so that every definition means the same
and computes the same way whatever else is imported beside it. A power whose exponent is
a numeral defaults to a natural exponent, of a natural base before an integer one.
-/

namespace Metainfo

/-- Natural powers of natural numbers, by `Nat.pow`. -/
@[default_instance 20000]
instance (priority := 2000) natPow : Pow Nat Nat := instPowNat

/-- Natural powers of integers, by `Int.pow`. -/
@[default_instance 15000]
instance (priority := 2000) intPow : Pow Int Nat := instPowNat

/-- The zero that sums of natural numbers start from. -/
instance (priority := 2000) natZero : Zero Nat := Zero.ofOfNat0

/-- Byte strings are equal when their bytes are. -/
instance (priority := 2000) bytesDecidableEq : DecidableEq ByteArray := ByteArray.instDecidableEq

end Metainfo
