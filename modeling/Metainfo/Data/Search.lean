import Metainfo.Data.Arith

/-!
# Partition points

`partitionPoint p xs` finds, by halving, where an array stops passing a test: when the
elements that pass `p` all come before those that fail it, it is the index of the first
element that fails, and `xs.size` when none does (`lt_partitionPoint_iff`).

The search keeps a window of `size` candidates from `base` on. A round tests the element
half-way through the window, moves `base` there when it passes, and keeps the upper half
of the window (rounded up); when one candidate is left the answer is just after it if it
passes, and at it otherwise. An empty array answers `0` without a test.
-/

namespace Metainfo

/-- The halving rounds over the window of `size` candidates from `base`. -/
def partitionPoint.go {α : Type} (p : α → Bool) (xs : Array α) (base size : Nat)
    (hsize : 0 < size) (hle : base + size ≤ xs.size) : Nat :=
  if hone : size = 1 then
    have hbase : base < xs.size := by omega
    if p xs[base] then base + 1 else base
  else
    have hmid : base + size / 2 < xs.size := by omega
    go p xs (if p xs[base + size / 2] then base + size / 2 else base) (size - size / 2)
      (by omega) (by split <;> omega)
termination_by size
decreasing_by omega

/-- The index of the first element that fails `p`, for an array partitioned by `p`. -/
def partitionPoint {α : Type} (p : α → Bool) (xs : Array α) : Nat :=
  if h : 0 < xs.size then partitionPoint.go p xs 0 xs.size h (by omega) else 0

section Spec

variable {α : Type} {p : α → Bool} {xs : Array α}

/-- The elements that pass `p` come before those that fail it. -/
def Partitioned (p : α → Bool) (xs : Array α) : Prop :=
  ∀ i j (hij : i ≤ j) (hj : j < xs.size), p xs[j] = true → p xs[i] = true

/-- The answer lies inside the window or just after it. -/
theorem partitionPoint.go_le (base size : Nat) (hsize : 0 < size) (hle : base + size ≤ xs.size) :
    go p xs base size hsize hle ≤ base + size := by
  fun_induction go p xs base size hsize hle with
  | case1 base _ _ _ _ => omega
  | case2 base _ _ _ _ => omega
  | case3 base size _ _ _ _ ih =>
    simp only [dite_eq_ite] at ih
    by_cases hm : p xs[base + size / 2] = true
    · simp only [hm, ↓reduceIte] at ih ⊢
      omega
    · simp only [hm, Bool.false_eq_true, ↓reduceIte] at ih ⊢
      omega

/-- The halving keeps the window's two ends: everything before `base` passes and
everything from `base + size` on fails. -/
theorem partitionPoint.go_spec (hpart : Partitioned p xs) (base size : Nat) (hsize : 0 < size)
    (hle : base + size ≤ xs.size) :
    (∀ i (hi : i < xs.size), i < base → p xs[i] = true) →
    (∀ i (hi : i < xs.size), base + size ≤ i → p xs[i] = false) →
    ∀ i (hi : i < xs.size), (i < go p xs base size hsize hle ↔ p xs[i] = true) := by
  fun_induction go p xs base size hsize hle with
  | case1 base _ _ _ hb =>
    -- one candidate left, and it passes
    intro hlow hhigh i hi
    constructor
    · intro hlt
      rcases Nat.lt_or_ge i base with h | h
      · exact hlow i hi h
      · obtain rfl : i = base := by omega
        exact hb
    · intro hp
      rcases Nat.lt_or_ge i (base + 1) with h | h
      · exact h
      · rw [hhigh i hi h] at hp
        cases hp
  | case2 base _ _ _ hb =>
    -- one candidate left, and it fails
    intro hlow hhigh i hi
    constructor
    · exact hlow i hi
    · intro hp
      rcases Nat.lt_or_ge i base with h | h
      · exact h
      · rcases Nat.lt_or_ge base i with h' | h'
        · rw [hhigh i hi (by omega)] at hp
          cases hp
        · obtain rfl : i = base := by omega
          exact absurd hp hb
  | case3 base size _ _ _ hmid ih =>
    intro hlow hhigh
    simp only [dite_eq_ite] at ih
    by_cases hm : p xs[base + size / 2] = true
    · -- the middle passes, so does everything before it
      simp only [hm, ↓reduceIte] at ih ⊢
      exact ih (fun j hj _ => hpart j (base + size / 2) (by omega) hmid hm)
        fun j hj hge => hhigh j hj (by omega)
    · -- the middle fails, so does everything after it
      simp only [hm, Bool.false_eq_true, ↓reduceIte] at ih ⊢
      refine ih hlow fun j hj hge => ?_
      cases hpj : p xs[j] with
      | false => rfl
      | true => exact absurd (hpart (base + size / 2) j (by omega) hj hpj) hm

/-- **Where the test stops passing.** In an array partitioned by `p`, an index comes
before `partitionPoint p xs` exactly when its element passes `p`; and the partition point
is at most the array's size. -/
theorem lt_partitionPoint_iff (hpart : Partitioned p xs) :
    partitionPoint p xs ≤ xs.size ∧
      ∀ i (hi : i < xs.size), (i < partitionPoint p xs ↔ p xs[i] = true) := by
  unfold partitionPoint
  split
  · rename_i h
    have hspec := partitionPoint.go_spec hpart 0 xs.size h (by omega)
      (fun i _ hi => absurd hi (Nat.not_lt_zero i)) fun i hi hge => absurd hi (by omega)
    exact ⟨by simpa using partitionPoint.go_le 0 xs.size h (by omega), hspec⟩
  · rename_i h
    exact ⟨Nat.zero_le _, fun i hi => absurd hi (by omega)⟩

end Spec

end Metainfo
