import Mathlib.Data.List.Nodup
import Metainfo.Proofs.Layout.Pieces

/-!
# Files, pieces and positions

A stream answers three lookups, each computed its own way: the pieces of a file
(`piecesOfFile`, by dividing the file's bounds by the piece size), the files of a piece
(`filesAtPiece`, by the overlaps of the piece's bytes with the files) and the file at a
position (`fileAtPosition?`, the first file that ends past it, found by halving over the
end offsets). This module proves that
they agree, files starting or ending on a piece's edge and empty files included:

* `stop_le_start`: a file ends by the time any later file starts, so a position lies in
  the bytes of one file at most (`holder_unique`), and only a file of the list holds bytes
  (`lt_length_of_start_le`);
* `fileAtPosition?_eq_some_iff`: the file at a position is the one whose bytes hold it;
* `mem_piecesOfFile_iff`: a piece lies in the pieces of a file exactly when the file is
  among the piece's files, which name each file once (`nodup_files_spansIn`);
* `lt_pieceCount_of_mem_piecesOfFile` and `piecesOfFile_empty_iff`: the pieces of a file
  exist, and there are none exactly when the file is empty;
* `byteRangeOfFile?_eq`: the bytes of a file run from its start for its length.

`lookups_agree` gathers them as `Stream.LookupsAgree`.
-/

namespace Metainfo

namespace Stream

section

variable {s : Stream}

/-! ## Positions -/

/-- A file ends by the time any later file starts. -/
theorem stop_le_start {i j : Nat} (hij : i < j) : s.stop i ≤ s.start j := by
  obtain ⟨k, rfl⟩ : ∃ k, j = k + 1 := ⟨j - 1, by omega⟩
  rw [start_succ]
  exact s.stop_mono (by omega)

/-- A position lies in the bytes of one file at most. -/
theorem holder_unique {pos i j : Nat} (hi : s.start i ≤ pos) (hi' : pos < s.stop i)
    (hj : s.start j ≤ pos) (hj' : pos < s.stop j) : i = j := by
  rcases Nat.lt_trichotomy i j with hij | hij | hij
  · have := s.stop_le_start hij
    omega
  · exact hij
  · have := s.stop_le_start hij
    omega

/-- A file starts at or before a position that every earlier file ends by. -/
theorem start_le_of_stop_le {pos j : Nat} (h : ∀ k < j, s.stop k ≤ pos) : s.start j ≤ pos := by
  cases j with
  | zero => simp [start]
  | succ k => exact start_succ s k ▸ h k (Nat.lt_succ_self k)

theorem get?_eq_some_of_lt {i : Nat} (hi : i < s.files.length) :
    s.files.get? i = some s.files.entries[i] :=
  List.getElem?_eq_getElem hi

theorem lt_length_of_get? {i : Nat} {e : FileEntry} (h : s.files.get? i = some e) :
    i < s.files.length :=
  (List.getElem?_eq_some_iff.mp h).1

/-- Only a file of the list holds bytes. -/
theorem lt_length_of_start_le {pos j : Nat} (hj : s.start j ≤ pos) (hj' : pos < s.stop j) :
    j < s.files.length := by
  refine Nat.lt_of_not_le fun hge => ?_
  -- past the list, a file starts and stops at the end of the last one
  have hstop : s.stop j = s.start j := by
    rw [stop, start, List.take_of_length_le (show s.files.entries.length ≤ j + 1 by
      simp only [FileList.length] at hge; omega), List.take_of_length_le hge]
  omega

/-- The files before the point where the halving over the end offsets stops are exactly
those that end by the position. -/
theorem lt_partitionPoint_ends_iff (pos : Nat) {k : Nat} (hk : k < s.files.length) :
    k < partitionPoint (· ≤ pos) s.ends ↔ s.stop k ≤ pos := by
  have hk' : k < s.ends.size := by
    rw [size_ends]
    exact hk
  rw [(lt_partitionPoint_iff (s.partitioned_ends pos)).2 k hk', getElem_ends, decide_eq_true_eq]

/-- **The file at a position.** The lookup names file `i` exactly when the position lies
inside the stream and inside the bytes of file `i`. -/
theorem fileAtPosition?_eq_some_iff {pos i : Nat} {e : FileEntry} :
    s.fileAtPosition? pos = some (i, e) ↔
      pos < s.total ∧ s.files.get? i = some e ∧ s.start i ≤ pos ∧ pos < s.stop i := by
  unfold fileAtPosition?
  split
  · rename_i hge
    simp only [reduceCtorEq, false_iff, not_and]
    intro hlt
    omega
  · rename_i hlt
    -- the halving stops at a file that starts by the position; if it is a file of the
    -- list, it also ends past it
    set j := partitionPoint (· ≤ pos) s.ends with hj
    have hjle : j ≤ s.files.length := by
      rw [← size_ends]
      exact (lt_partitionPoint_iff (s.partitioned_ends pos)).1
    have hstart : s.start j ≤ pos :=
      start_le_of_stop_le fun k hk => (lt_partitionPoint_ends_iff pos (by omega)).mp hk
    have hstop : j < s.files.length → pos < s.stop j := fun hlen =>
      Nat.lt_of_not_le fun hle => Nat.lt_irrefl j ((lt_partitionPoint_ends_iff pos hlen).mpr hle)
    simp only [Option.map_eq_some_iff, Prod.mk.injEq]
    constructor
    · rintro ⟨e', hget, rfl, rfl⟩
      exact ⟨Nat.lt_of_not_le hlt, hget, hstart, hstop (lt_length_of_get? hget)⟩
    · rintro ⟨-, hget, hi, hi'⟩
      -- file `i` ends past the position, so the halving stops no later than `i`
      have hlen := lt_length_of_get? hget
      have hle : j ≤ i := Nat.le_of_not_lt fun hlt' => by
        have := (lt_partitionPoint_ends_iff pos hlen).mp hlt'
        omega
      obtain rfl := holder_unique hstart (hstop (Nat.lt_of_le_of_lt hle hlen)) hi hi'
      exact ⟨e, hget, rfl, rfl⟩

/-- A range of the stream names each file once. -/
theorem nodup_files_spansIn (lo hi : Nat) : ((s.spansIn lo hi).map (·.file)).Nodup := by
  rw [spansIn_eq, List.map_filterMap]
  refine List.nodup_range.filterMap fun a a' b ha ha' => ?_
  -- the overlap of file `i` is a span of file `i`
  have hfile : ∀ i, b ∈ (overlap lo hi (i, s.start i, s.stop i)).map (·.file) → b = i := by
    intro i hb
    obtain ⟨sp, hsp, rfl⟩ := Option.map_eq_some_iff.mp hb
    obtain ⟨-, rfl⟩ := overlap_eq_some.mp hsp
    rfl
  rw [← hfile a ha, ← hfile a' ha']

/-! ## Pieces of a file -/

/-- **Pieces and files agree.** Below the count, piece `p` lies in the pieces of file `i`
exactly when file `i` is among the files of piece `p`. -/
theorem mem_piecesOfFile_iff (hs : s.Valid) {p : Nat} (hp : p < s.pieceCount) (i : Nat) :
    ((s.piecesOfFile i).1 ≤ p ∧ p < (s.piecesOfFile i).2) ↔
      ∃ fs, s.filesAtPiece p = .ok fs ∧ i ∈ fs := by
  have hfiles : s.filesAtPiece p = .ok (s.rangeAt p).files := by
    rw [filesAtPiece, pieceRange_eq_ok hp]
    rfl
  rw [hfiles, ← mem_files_rangeAt_iff hs hp i]
  constructor
  · intro hi
    exact ⟨_, rfl, hi⟩
  · rintro ⟨fs, hfs, hi⟩
    cases hfs
    exact hi

/-- The pieces of a file of the list: none, at the piece of its start, for an empty file,
and otherwise from the piece of its first byte through the piece of its last. -/
theorem piecesOfFile_of_lt {i : Nat} (hi : i < s.files.length) :
    s.piecesOfFile i =
      if s.fileLen i = 0 then (s.start i / s.pieceSize, s.start i / s.pieceSize)
      else (s.start i / s.pieceSize, (s.start i + s.fileLen i - 1) / s.pieceSize + 1) := by
  rw [piecesOfFile, get?_eq_some_of_lt hi, fileLen_of_lt hi]

theorem piecesOfFile_of_ge {i : Nat} (hi : s.files.length ≤ i) : s.piecesOfFile i = (0, 0) := by
  rw [piecesOfFile, show s.files.get? i = none from List.getElem?_eq_none hi]

/-- The pieces of a file all exist. -/
theorem lt_pieceCount_of_mem_piecesOfFile (hs : s.Valid) {i p : Nat}
    (h1 : (s.piecesOfFile i).1 ≤ p) (h2 : p < (s.piecesOfFile i).2) : p < s.pieceCount := by
  by_cases hi : i < s.files.length
  · rw [piecesOfFile_of_lt hi] at h1 h2
    by_cases hlen : s.fileLen i = 0
    · -- an empty file has no piece
      rw [if_pos hlen] at h1 h2
      omega
    · -- the last piece of the file starts before the file's last byte, inside the stream
      rw [if_neg hlen] at h2
      have hend : s.start i + s.fileLen i ≤ s.total := s.stop_eq hi ▸ stop_le_total hs i
      rw [Nat.lt_add_one_iff, Nat.le_div_iff_mul_le hs.pieceSize_pos] at h2
      exact (lt_pieceCount_iff hs).mpr (by omega)
  · rw [piecesOfFile_of_ge (Nat.le_of_not_lt hi)] at h2
    cases h2

/-- A file of the list has no piece exactly when it is empty. -/
theorem piecesOfFile_empty_iff {i : Nat} (hi : i < s.files.length) :
    (s.piecesOfFile i).2 ≤ (s.piecesOfFile i).1 ↔ s.fileLen i = 0 := by
  rw [piecesOfFile_of_lt hi]
  by_cases hlen : s.fileLen i = 0
  · rw [if_pos hlen]
    exact ⟨fun _ => hlen, fun _ => Nat.le_refl _⟩
  · -- the file's first byte lies in the piece of its start, at or before its last byte's
    rw [if_neg hlen]
    have hdiv : s.start i / s.pieceSize ≤ (s.start i + s.fileLen i - 1) / s.pieceSize :=
      Nat.div_le_div_right (by omega)
    simp only [hlen, iff_false, Nat.not_le]
    omega

/-- The bytes of a file run from its start for its length. -/
theorem byteRangeOfFile?_eq (i : Nat) :
    s.byteRangeOfFile? i =
      if i < s.files.length then some (s.start i, s.start i + s.fileLen i) else none := by
  unfold byteRangeOfFile?
  split
  · rename_i hi
    rw [get?_eq_some_of_lt hi, s.stop_eq hi]
    rfl
  · rename_i hi
    rw [show s.files.get? i = none from List.getElem?_eq_none (Nat.le_of_not_lt hi)]
    rfl

end

/-- How the lookups of a stream between its files, pieces and positions agree. -/
structure LookupsAgree (s : Stream) : Prop where
  /-- a piece lies in the pieces of a file exactly when the file is among the piece's
  files -/
  pieces_files : ∀ i < s.files.length, ∀ p < s.pieceCount,
    ((s.piecesOfFile i).1 ≤ p ∧ p < (s.piecesOfFile i).2) ↔
      ∃ fs, s.filesAtPiece p = .ok fs ∧ i ∈ fs
  /-- the pieces of a file all exist -/
  pieces_lt : ∀ i p, (s.piecesOfFile i).1 ≤ p → p < (s.piecesOfFile i).2 → p < s.pieceCount
  /-- a file of the list has no piece exactly when it is empty -/
  pieces_empty_iff : ∀ i < s.files.length,
    (s.piecesOfFile i).2 ≤ (s.piecesOfFile i).1 ↔ s.fileLen i = 0
  /-- the bytes of a file run from its start, the sum of the lengths before it, for its
  length -/
  byte_range : ∀ i, s.byteRangeOfFile? i =
    if i < s.files.length then some (s.start i, s.start i + s.fileLen i) else none
  /-- the file at a position is the one whose bytes hold it -/
  file_at_iff : ∀ pos i e, s.fileAtPosition? pos = some (i, e) ↔
    pos < s.total ∧ s.files.get? i = some e ∧ s.start i ≤ pos ∧ pos < s.stop i
  /-- and no other file's bytes hold it -/
  holder_unique : ∀ pos i j, s.start i ≤ pos → pos < s.stop i → s.start j ≤ pos →
    pos < s.stop j → i = j

/-- **The lookups agree.** In a stream of files laid end to end, the pieces of a file found
by division, the files of a piece found by overlap and the file at a position found by
searching the files' ends say the same thing, at every boundary and for empty files. -/
theorem lookups_agree {s : Stream} (hs : s.Valid) : s.LookupsAgree :=
  ⟨fun i _ _ hp => mem_piecesOfFile_iff hs hp i,
    fun _ _ h1 h2 => lt_pieceCount_of_mem_piecesOfFile hs h1 h2,
    fun _ hi => piecesOfFile_empty_iff hi, byteRangeOfFile?_eq,
    fun _ _ _ => fileAtPosition?_eq_some_iff, fun _ _ _ => holder_unique⟩

end Stream

/-- The lookups of three files of two, zero and three bytes, in pieces of two. -/
theorem threeFiles_lookups_agree : Stream.threeFiles.Valid ∧ Stream.threeFiles.LookupsAgree :=
  have hs : Stream.threeFiles.Valid := ⟨by decide, rfl⟩
  ⟨hs, Stream.lookups_agree hs⟩

end Metainfo
