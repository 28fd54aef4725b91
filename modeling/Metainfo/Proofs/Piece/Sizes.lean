import Mathlib.Data.Rat.Floor
import Metainfo.Proofs.Build.Reread

/-!
# Piece sizes: the automatic choice and the explicit one

A torrent's piece size is either chosen from the total length by a threshold table or
given by the person building it. This module says what both paths guarantee for every
total and every size:

* `count_eq_ceil`: the number of pieces is the ceiling of the total over the size;
* `pick_mono`, `pick_bounds`, `pick_of_le`: a threshold table whose two columns rise
  together picks a value that never decreases as the total grows, lies among the
  table's values or the default, and comes from a row at or above the total when there is
  one;
* `exponentFor_mono`, `exponentFor_bounds`, `count_forTotal_le`: the table in use picks
  15 to 23, and up to 12800 MiB never more than 1600 pieces;
* `exponent_two_pow`: the exponent read back from a size `2^k` is `k`;
* `Spec.new_eq`: an explicit size is refused as not a power of two before its range is
  looked at;
* `size_rules`: all of it together.
-/

namespace Metainfo
namespace Piece

/-! ## Counting pieces -/

theorem count_le_iff {total size c : Nat} (hs : 0 < size) :
    count total size ≤ c ↔ total ≤ c * size := by
  rw [count, Nat.div_le_iff_le_mul_add_pred hs, Nat.mul_comm size c]
  omega

/-- The number of pieces is `⌈total / size⌉`; a size of zero gives none. -/
theorem count_eq_ceil (total size : Nat) : count total size = ⌈(total : ℚ) / size⌉₊ := by
  rcases Nat.eq_zero_or_pos size with rfl | hs
  · simp [count]
  · -- both sides are at most `c` exactly when `c` pieces cover the total
    have hceil : ∀ c : Nat, ⌈(total : ℚ) / size⌉₊ ≤ c ↔ total ≤ c * size := by
      intro c
      rw [Nat.ceil_le, div_le_iff₀ (by exact_mod_cast hs)]
      norm_cast
    exact le_antisymm ((count_le_iff hs).mpr ((hceil _).mp le_rfl))
      ((hceil _).mpr ((count_le_iff hs).mp le_rfl))

/-! ## Threshold tables -/

/-- The value a threshold table gives a total: the second column of the first row whose
bound is at or above the total, or the default past the last row. -/
def pick (table : List (Nat × Nat)) (dflt total : Nat) : Nat :=
  match table.find? (fun t => total ≤ t.1) with
  | some t => t.2
  | none => dflt

theorem exponentFor_eq_pick (total : Nat) : exponentFor total = pick thresholds 23 total := rfl

theorem pick_nil (dflt total : Nat) : pick [] dflt total = dflt := rfl

theorem pick_cons (t : Nat × Nat) (rest : List (Nat × Nat)) (dflt total : Nat) :
    pick (t :: rest) dflt total = if total ≤ t.1 then t.2 else pick rest dflt total := by
  by_cases h : total ≤ t.1 <;> simp [pick, h]

/-- Whatever a table picks, the default or some row's value, has every property they all
have. -/
theorem pick_bounds {table : List (Nat × Nat)} {dflt : Nat} {P : Nat → Prop}
    (hrows : ∀ t ∈ table, P t.2) (hdflt : P dflt) (total : Nat) :
    P (pick table dflt total) := by
  induction table with
  | nil => exact hdflt
  | cons t rest ih =>
    rw [pick_cons]
    split
    · exact hrows t List.mem_cons_self
    · exact ih fun u hu => hrows u (List.mem_cons_of_mem t hu)

/-- When some row's bound reaches the total, the pick is the value of such a row. -/
theorem pick_of_le {table : List (Nat × Nat)} {dflt total : Nat}
    (hreach : ∃ t ∈ table, total ≤ t.1) :
    ∃ t ∈ table, total ≤ t.1 ∧ pick table dflt total = t.2 := by
  induction table with
  | nil => simp at hreach
  | cons t rest ih =>
    rw [pick_cons]
    by_cases h : total ≤ t.1
    · exact ⟨t, List.mem_cons_self, h, if_pos h⟩
    · -- the row that reaches the total is further down
      rw [if_neg h]
      have hrest : ∃ u ∈ rest, total ≤ u.1 := by
        obtain ⟨u, hu, hle⟩ := hreach
        rcases List.mem_cons.mp hu with rfl | hu
        · exact absurd hle h
        · exact ⟨u, hu, hle⟩
      obtain ⟨u, hu, hle, hpick⟩ := ih hrest
      exact ⟨u, List.mem_cons_of_mem t hu, hle, hpick⟩

/-- **A table whose columns rise together picks monotonically**, when the default is at
least every row's value. -/
theorem pick_mono {table : List (Nat × Nat)} {dflt : Nat}
    (hsorted : table.Pairwise fun a b => a.1 ≤ b.1 ∧ a.2 ≤ b.2)
    (hdflt : ∀ t ∈ table, t.2 ≤ dflt) : Monotone (pick table dflt) := by
  induction table with
  | nil => exact monotone_const
  | cons t rest ih =>
    obtain ⟨hhead, hrest⟩ := List.pairwise_cons.mp hsorted
    have ih := ih hrest fun u hu => hdflt u (List.mem_cons_of_mem t hu)
    intro x y hxy
    simp only [pick_cons]
    by_cases hy : y ≤ t.1
    · rw [if_pos (Nat.le_trans hxy hy), if_pos hy]
    · rw [if_neg hy]
      by_cases hx : x ≤ t.1
      · -- `x` stops at this row, `y` further down, where every value is at least this one
        rw [if_pos hx]
        exact pick_bounds (fun u hu => (hhead u hu).2) (hdflt t List.mem_cons_self) y
      · rw [if_neg hx]
        exact ih hxy

/-! ## The table in use -/

theorem thresholds_sorted :
    thresholds.Pairwise fun a b => a.1 ≤ b.1 ∧ a.2 ≤ b.2 := by decide

theorem exponentFor_mono : Monotone exponentFor :=
  pick_mono thresholds_sorted (by decide)

theorem exponentFor_bounds (total : Nat) : 15 ≤ exponentFor total ∧ exponentFor total ≤ 23 :=
  pick_bounds (P := fun e => 15 ≤ e ∧ e ≤ 23) (by decide) (by decide) total

/-- The automatic size needs no clamping: it is `2^e` for the exponent the table picks. -/
theorem forTotal_eq (total : Nat) :
    Spec.forTotal total = ⟨2 ^ exponentFor total, count total (2 ^ exponentFor total)⟩ := by
  have h := exponentFor_bounds total
  have hclamp : min expMax (max expMin (exponentFor total)) = exponentFor total := by
    simp only [expMin, expMax]
    omega
  rw [Spec.forTotal, hclamp]

/-- Up to 12800 MiB, the automatic size cuts the total into at most 1600 pieces: each row
of the table holds 1600 pieces of its size. -/
theorem count_forTotal_le {total : Nat} (h : total ≤ 12800 * mib) :
    (Spec.forTotal total).count ≤ 1600 := by
  obtain ⟨t, ht, hle, hpick⟩ :=
    @pick_of_le thresholds 23 total ⟨(12800 * mib, 23), by decide, h⟩
  have hrow : t.1 ≤ 1600 * 2 ^ t.2 := by
    have hrows : ∀ u ∈ thresholds, u.1 ≤ 1600 * 2 ^ u.2 := by decide
    exact hrows t ht
  rw [forTotal_eq, exponentFor_eq_pick, hpick]
  exact (count_le_iff (Nat.two_pow_pos _)).mpr (Nat.le_trans hle hrow)

/-! ## The exponent of a size -/

theorem exponent_go_two_pow : ∀ k acc : Nat, Spec.exponent.go (2 ^ k) acc = acc + k
  | 0, acc => by
    rw [Spec.exponent.go]
    simp
  | k + 1, acc => by
    have hhalf : 2 ^ (k + 1) / 2 = 2 ^ k := by
      rw [Nat.pow_succ, Nat.mul_div_cancel _ (by decide)]
    rw [Spec.exponent.go, dif_pos ⟨Nat.two_pow_pos _ |>.ne', by simp [Nat.pow_succ]⟩, hhalf,
      exponent_go_two_pow k]
    omega

/-- The exponent read back from a size `2^k` is `k`. -/
theorem exponent_two_pow (k c : Nat) : (Spec.mk (2 ^ k) c).exponent = k := by
  simp [Spec.exponent, Spec.exponent.trailingZeros, exponent_go_two_pow]

/-! ## Explicit sizes and exponents -/

theorem sizeMin_eq : sizeMin = 2 ^ 14 := rfl

theorem sizeMax_eq : sizeMax = 2 ^ 26 := rfl

/-- A power of two lies in the allowed range exactly when its exponent does. -/
theorem pow_mem_range_iff (k : Nat) :
    (sizeMin ≤ 2 ^ k ∧ 2 ^ k ≤ sizeMax) ↔ 14 ≤ k ∧ k ≤ 26 := by
  rw [sizeMin_eq, sizeMax_eq, Nat.pow_le_pow_iff_right (by decide),
    Nat.pow_le_pow_iff_right (by decide)]

/-- A size makes a spec after two checks, the power of two first. -/
theorem Spec.new_eq (size total : Nat) :
    Spec.new size total =
      if ¬ size.isPowerOfTwo then .error (.notPowerOfTwo size)
      else if size < sizeMin ∨ sizeMax < size then .error (.outOfRange size sizeMin sizeMax)
      else .ok ⟨size, Piece.count total size⟩ := by
  simp only [Spec.new, validate, ← isPowerOfTwo_iff]
  by_cases hpow : isPowerOfTwo size = true
  · by_cases hrange : size < sizeMin ∨ sizeMax < size
    · simp [hpow, hrange, bind, Except.bind]
    · simp [hpow, hrange, bind, Except.bind, pure, Except.pure]
  · simp [hpow, bind, Except.bind]

theorem Spec.new_eq_ok_iff {size total : Nat} {spec : Spec} :
    Spec.new size total = .ok spec ↔
      spec = ⟨size, Piece.count total size⟩ ∧
        ∃ k, size = 2 ^ k ∧ 14 ≤ k ∧ k ≤ 26 := by
  rw [Spec.new_eq]
  by_cases hpow : size.isPowerOfTwo
  · obtain ⟨k, rfl⟩ := hpow
    have hrange := pow_mem_range_iff k
    by_cases hin : 14 ≤ k ∧ k ≤ 26
    · rw [if_neg (not_not.mpr ⟨k, rfl⟩), if_neg (by omega)]
      simp only [Except.ok.injEq]
      constructor
      · rintro rfl
        exact ⟨rfl, k, rfl, hin⟩
      · rintro ⟨rfl, -⟩
        rfl
    · rw [if_neg (not_not.mpr ⟨k, rfl⟩), if_pos (by omega)]
      simp only [reduceCtorEq, false_iff, not_and, not_exists]
      intro _ j hj
      -- `2^j = 2^k` forces `j = k`, which is out of range
      obtain rfl := Nat.pow_right_injective (le_refl 2) hj
      omega
  · rw [if_pos hpow]
    simp only [reduceCtorEq, false_iff, not_and, not_exists]
    exact fun _ k hk => absurd ⟨k, hk⟩ hpow

theorem sizeOfExponent_eq_ok_iff (e : Nat) :
    sizeOfExponent e = .ok (2 ^ e) ↔ 14 ≤ e ∧ e ≤ 26 := by
  unfold sizeOfExponent
  by_cases h : e < expMin ∨ expMax < e
  · simp only [h, ↓reduceIte, reduceCtorEq, false_iff]
    simp only [expMin, expMax] at h
    omega
  · simp only [h, ↓reduceIte, true_iff]
    simp only [expMin, expMax] at h
    omega

/-- **The piece-size rules.** The automatic exponent never decreases as the total grows
and lies from 15 to 23. The automatic spec has the size `2^e` for that exponent, which the
size check accepts; it gives the exponent back, and `⌈total / size⌉` pieces, at most 1600
up to 12800 MiB. An explicit size makes a spec exactly when it is `2^k` with `k` from 14
to 26, and the spec then gives `k` back and `⌈total / size⌉` pieces; any other size is
refused, as not a power of two before its range is looked at, so zero is not a power of
two. An exponent gives the size `2^e` exactly from 14 to 26. -/
theorem size_rules :
    Monotone exponentFor ∧ (∀ total, 15 ≤ exponentFor total ∧ exponentFor total ≤ 23) ∧
    (∀ total, (Spec.forTotal total).size = 2 ^ exponentFor total ∧
      validate (Spec.forTotal total).size = .ok (Spec.forTotal total).size ∧
      (Spec.forTotal total).exponent = exponentFor total ∧
      (Spec.forTotal total).count = ⌈(total : ℚ) / ((Spec.forTotal total).size : ℚ)⌉₊ ∧
      (total ≤ 12800 * mib → (Spec.forTotal total).count ≤ 1600)) ∧
    (∀ size total, (∃ spec, Spec.new size total = .ok spec) ↔
      ∃ k, size = 2 ^ k ∧ 14 ≤ k ∧ k ≤ 26) ∧
    (∀ k total spec, Spec.new (2 ^ k) total = .ok spec →
      spec.size = 2 ^ k ∧ spec.exponent = k ∧
        spec.count = ⌈(total : ℚ) / ((2 ^ k : Nat) : ℚ)⌉₊) ∧
    (∀ size total, (¬ ∃ k, size = 2 ^ k) →
      Spec.new size total = .error (.notPowerOfTwo size)) ∧
    (∀ k total, k < 14 ∨ 26 < k →
      Spec.new (2 ^ k) total = .error (.outOfRange (2 ^ k) sizeMin sizeMax)) ∧
    (∀ e, sizeOfExponent e = .ok (2 ^ e) ↔ 14 ≤ e ∧ e ≤ 26) := by
  refine ⟨exponentFor_mono, exponentFor_bounds, fun total => ?_, fun size total => ?_,
    fun k total spec h => ?_, fun size total h => ?_, fun k total h => ?_,
    sizeOfExponent_eq_ok_iff⟩
  · -- the automatic spec
    have hbounds := exponentFor_bounds total
    rw [forTotal_eq]
    refine ⟨rfl, validate_eq_ok_iff.mpr ⟨rfl, pow_accepted (by simp only [expMin]; omega)
      (by simp only [expMax]; omega)⟩, exponent_two_pow _ _, count_eq_ceil _ _, fun h => ?_⟩
    rw [← forTotal_eq]
    exact count_forTotal_le h
  · constructor
    · rintro ⟨spec, h⟩
      exact (Spec.new_eq_ok_iff.mp h).2
    · intro h
      exact ⟨_, Spec.new_eq_ok_iff.mpr ⟨rfl, h⟩⟩
  · obtain ⟨rfl, -⟩ := Spec.new_eq_ok_iff.mp h
    exact ⟨rfl, exponent_two_pow _ _, count_eq_ceil _ _⟩
  · rw [Spec.new_eq, if_pos (show ¬ size.isPowerOfTwo from h)]
  · have hout : ¬ (sizeMin ≤ 2 ^ k ∧ 2 ^ k ≤ sizeMax) := by
      rw [pow_mem_range_iff]
      omega
    rw [Spec.new_eq, if_neg (not_not.mpr ⟨k, rfl⟩), if_pos (by omega)]

example : Spec.new 0 100 = .error (.notPowerOfTwo 0) := by decide

end Piece
end Metainfo
