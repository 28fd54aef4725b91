import Metainfo.Data.Arith

/-!
# Byte counts for people

`humanBytes n` writes a byte count the way a progress display does:

* below 1024 it is the plain count, `N B`;
* otherwise the count is taken as a double, divided by 1024 until it is below 1024
  (at most eight times), and written with two decimals and a binary unit, `KiB` to
  `YiB`.

Dividing a double by 1024 is exact, so the printed number is the double nearest to the
count over a power of 1024, rounded to two places with ties going to the even digit, as
exact decimal rounding of a double does.
-/

namespace Metainfo
namespace Text

/-- The double nearest to `n`, ties to an even significand, as the integer it is. -/
def nearestDoubleNat (n : Nat) : Nat :=
  if n < 2 ^ 53 then n
  else
    let s := Nat.log2 n - 52
    let q := n / 2 ^ s
    let r := n % 2 ^ s
    let half := 2 ^ (s - 1)
    let q := if r > half ∨ (r = half ∧ q % 2 = 1) then q + 1 else q
    q * 2 ^ s

/-- How many times `v` is divided by 1024 before it is below 1024, at most eight: the
number of powers `1024^(k+1)`, `k < 8`, that do not exceed `v`. -/
def binaryPower (v : Nat) : Nat :=
  ((List.range 8).filter fun k => 1024 ^ (k + 1) ≤ v).length

/-- The binary unit prefixes. -/
def binaryUnits : List String := ["Ki", "Mi", "Gi", "Ti", "Pi", "Ei", "Zi", "Yi"]

/-- A number below 100 with two digits. -/
def twoDigits (n : Nat) : String :=
  if n < 10 then "0" ++ toString n else toString n

/-- `num / den` rounded to two decimal places, ties to an even last digit. -/
def twoPlaces (num den : Nat) : String :=
  let q := num * 100 / den
  let r := num * 100 % den
  let q := if 2 * r > den ∨ (2 * r = den ∧ q % 2 = 1) then q + 1 else q
  s!"{q / 100}." ++ twoDigits (q % 100)

/-- A byte count with a binary unit. -/
def humanBytes (n : Nat) : String :=
  if n < 1024 then s!"{n} B"
  else
    let v := nearestDoubleNat n
    let k := binaryPower v
    twoPlaces v (1024 ^ k) ++ " " ++ (binaryUnits[k - 1]?).getD "" ++ "B"

end Text
end Metainfo
