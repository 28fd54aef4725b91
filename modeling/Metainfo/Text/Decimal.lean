import Metainfo.Data.Arith

/-!
# Shortest decimals of ratios as doubles

`ratioDecimal p q` is how the quotient `p / q`, computed in double precision, is
written in the shortest form that reads back as the same double:

* the quotient is rounded to the nearest double `m / 2^s` with a 53-bit `m`, ties to
  an even `m`;
* the double stands for every real number that rounds to it, an interval around it
  (narrower below when `m` is a power of two, and closed when `m` is even);
* the answer is the decimal with the fewest digits after the point inside that
  interval, and of those the one nearest the double; it is given as digits `d` and a
  count `k` of places after the point, meaning `d / 10^k`, with at least one place.

It covers positive ratios of numbers below `2^64`, which are normal doubles.
-/

namespace Metainfo
namespace Text

/-- The nearest double to `p / q`, for `p, q > 0`, as `(m, s)` meaning `m / 2^s` with
`2^52 ≤ m < 2^53`. -/
def nearestDouble (p q : Nat) : Nat × Int :=
  let a := Nat.log2 p
  let b := Nat.log2 q
  let s0 : Int := 52 + (b : Int) - (a : Int)
  let scaled (s : Int) : Nat × Nat :=
    if s ≥ 0 then (p * 2 ^ s.toNat, q) else (p, q * 2 ^ (-s).toNat)
  let s := if (scaled s0).1 < 2 ^ 52 * (scaled s0).2 then s0 + 1 else s0
  let (num, den) := scaled s
  let m0 := num / den
  let r := num % den
  let m := if 2 * r > den ∨ (2 * r = den ∧ m0 % 2 = 1) then m0 + 1 else m0
  if m = 2 ^ 53 then (2 ^ 52, s - 1) else (m, s)

/-- `x / 2^t` for a possibly negative `t`, as a numerator over a power of two. -/
def overPow2 (x : Nat) (t : Int) : Nat × Nat :=
  if t ≥ 0 then (x, 2 ^ t.toNat) else (x * 2 ^ (-t).toNat, 1)

/-- The integers `d` with `lo < d / 10^k < hi` (or `≤` when `closed`), with
`lo = lnum / lden` and `hi = hnum / hden`, as a range `[from, to]`. -/
def digitsRange (lnum lden hnum hden k : Nat) (closed : Bool) : Nat × Nat :=
  let l := lnum * 10 ^ k
  let h := hnum * 10 ^ k
  let lowest := if closed then (l + lden - 1) / lden else l / lden + 1
  let highest := if closed then h / hden else (h + hden - 1) / hden - 1
  (lowest, highest)

/-- Searches the numbers of places from `k` on, `fuel` of them at most. -/
def searchPlaces (m : Nat) (s : Int) (lnum lden hnum hden : Nat) (closed : Bool) :
    (fuel k : Nat) → Nat × Nat
  | 0, k => (m, k)
  | fuel + 1, k =>
    let (lowest, highest) := digitsRange lnum lden hnum hden k closed
    if lowest ≤ highest then
      let (vnum, vden) := overPow2 (m * 10 ^ k) s
      let c := vnum / vden
      let r := vnum % vden
      let nearest := if 2 * r > vden ∨ (2 * r = vden ∧ c % 2 = 1) then c + 1 else c
      (min highest (max lowest nearest), k)
    else searchPlaces m s lnum lden hnum hden closed fuel (k + 1)

/-- The shortest decimal of the double nearest to `p / q`, as digits and places. -/
def ratioDecimal (p q : Nat) : Nat × Nat :=
  let (m, s) := nearestDouble p q
  let closed := m % 2 = 0
  let (hnum, hden) := overPow2 (2 * m + 1) (s + 1)
  let (lnum, lden) :=
    if m = 2 ^ 52 then overPow2 (4 * m - 1) (s + 2) else overPow2 (2 * m - 1) (s + 1)
  match searchPlaces m s lnum lden hnum hden closed 40 0 with
  | (d, 0) => (d * 10, 1)
  | r => r

end Text
end Metainfo
