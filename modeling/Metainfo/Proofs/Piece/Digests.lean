import Metainfo.Proofs.Torrent.Reparse

/-!
# Digest lists as bytes

A torrent keeps the digests of its pieces as one byte string, 20 bytes for each digest.
`HashList.ofBytes` cuts such a string into digests and `HashList.toBytes` joins them
again. This module says that the two are inverse, on byte strings of every length and on
lists of every length:

* `getElem?_chunks`: the `i`-th digest cut from position `j` is the `i`-th run of 20
  bytes after `j`, as long as a whole run is left there;
* `ofBytes_eq_ok_iff`: a byte string is read exactly when its length is a multiple of 20,
  and `get?_ofBytes` gives the digests read: the runs of 20 bytes in order, and nothing
  past the last run;
* `ofBytes_toBytes_inverse`: all of it together with the two joins, `toBytes_ofBytes`
  (the digests read join back into the input) and `ofBytes_toBytes` (digests, each of
  20 bytes by their type, joined, are read back).
-/

namespace Metainfo
namespace HashList

/-- The `i`-th digest cut from position `j` holds the bytes from `j + 20 i` to
`j + 20 i + 20`, when they are all there. -/
theorem getElem?_chunks (data : ByteArray) (j i : Nat) :
    ((chunks data j)[i]?).map PieceHash.bytes =
      if j + digestLen * (i + 1) ≤ data.size then
        some (data.extract (j + digestLen * i) (j + digestLen * i + digestLen))
      else none := by
  fun_induction chunks data j generalizing i with
  | case1 j hle ih =>
    cases i with
    | zero => simp [hle]
    | succ i =>
      -- the digests after the first are cut from 20 bytes on
      have hnext (n : Nat) : j + digestLen + digestLen * n = j + digestLen * (n + 1) := by
        rw [Nat.mul_add_one]
        omega
      rw [List.getElem?_cons_succ, ih i, hnext i, hnext (i + 1)]
  | case2 j hlt =>
    have hshort : ¬ j + digestLen * (i + 1) ≤ data.size := by
      simp only [digestLen] at *
      omega
    rw [List.getElem?_nil, Option.map_none, if_neg hshort]

/-- A byte string is read as digests exactly when its length is a multiple of 20. -/
theorem ofBytes_eq_ok_iff (b : ByteArray) :
    (∃ l, ofBytes b = .ok l) ↔ b.size % digestLen = 0 := by
  constructor
  · rintro ⟨l, hl⟩
    exact (ofBytes_ok hl).1
  · intro hdiv
    exact ⟨⟨chunks b 0⟩, by rw [ofBytes, if_pos hdiv]⟩

/-- The digests read from `b` are the runs of 20 bytes of `b`, in order: the `i`-th is
there exactly when `i` is below the number of runs. -/
theorem get?_ofBytes {b : ByteArray} {l : HashList} (h : ofBytes b = .ok l) (i : Nat) :
    (l.get? i).map PieceHash.bytes =
      if i < b.size / digestLen then
        some (b.extract (digestLen * i) (digestLen * i + digestLen))
      else none := by
  have hl : l = ⟨chunks b 0⟩ := by
    unfold ofBytes at h
    split at h
    · cases h
      rfl
    · cases h
  have hrun : i < b.size / digestLen ↔ digestLen * (i + 1) ≤ b.size := by
    simp only [digestLen]
    omega
  subst hl
  simp only [get?, getElem?_chunks, Nat.zero_add]
  by_cases hi : i < b.size / digestLen
  · rw [if_pos (hrun.mp hi), if_pos hi]
  · rw [if_neg (mt hrun.mpr hi), if_neg hi]

/-- **Digests and their bytes are inverse.** A byte string is read as a digest list
exactly when its length is a multiple of 20; the list read has one digest for each 20
bytes, the `i`-th being bytes `20 i` to `20 i + 20` and no digest past the last, and it
joins back into the byte string. Every digest list, joined, is read back as itself. -/
theorem ofBytes_toBytes_inverse :
    (∀ b : ByteArray,
      ((∃ l, ofBytes b = .ok l) ↔ b.size % digestLen = 0) ∧
      ∀ l, ofBytes b = .ok l →
        l.length = b.size / digestLen ∧
        (∀ i < b.size / digestLen,
          (l.get? i).map PieceHash.bytes =
            some (b.extract (digestLen * i) (digestLen * i + digestLen))) ∧
        (∀ i, b.size / digestLen ≤ i → l.get? i = none) ∧
        l.toBytes = b) ∧
    ∀ l : HashList, ofBytes l.toBytes = .ok l := by
  refine ⟨fun b => ⟨ofBytes_eq_ok_iff b, fun l hl => ?_⟩, ofBytes_toBytes⟩
  refine ⟨(ofBytes_ok hl).2, ?_, ?_, toBytes_ofBytes hl⟩
  · intro i hi
    rw [get?_ofBytes hl, if_pos hi]
  · intro i hi
    have hnone := get?_ofBytes hl i
    rw [if_neg (Nat.not_lt.mpr hi), Option.map_eq_none_iff] at hnone
    exact hnone

end HashList
end Metainfo
