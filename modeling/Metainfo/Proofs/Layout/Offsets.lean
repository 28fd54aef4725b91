import Metainfo.Proofs.Layout.Pieces
import Metainfo.Proofs.Piece.Sizes

/-!
# The end offsets of a new stream

Every stream that `Stream.new` builds lays its files end to end, so file `i` stops at the
sum of the first `i + 1` lengths. The lookups by halving assume those end offsets never
go down; this module proves that the construction gives them that shape:

* `totalLen?_eq_some_iff`, `totalLen?_eq_none_iff`: the checked sum of a file list is its
  exact sum, and fails exactly when that sum passes the largest 64-bit number;
* `totalSize_eq`: a sum that does not fit is too large, a zero sum (an empty list among
  them) is empty, and any other is the total;
* `sumChecked_take`: once the whole sum fits, the checked sum of every prefix succeeds, so
  the running total the construction keeps never overflows;
* `getElem_ends_eq_sum`, `pairwise_ends`, `back?_ends`: the end offsets are the prefix
  sums, never go down, and the last is the total;
* `new_offsets`: the construction refuses a zero piece size first and the total's error
  next, and otherwise gives a stream with those end offsets and `⌈total / pieceSize⌉`
  pieces: its running total of end offsets, taken as 64-bit numbers, never overflows once
  the total fits (`Stream.new_of_totalSize`), and gives exactly those end offsets.
-/

namespace Metainfo

/-! ## Checked sums -/

section Sums

variable (f : FileList)

theorem totalLen?_eq_some_iff (t : Nat) :
    f.totalLen? = some t ↔ t = (f.entries.map FileEntry.len).sum ∧
      (f.entries.map FileEntry.len).sum ≤ FileList.u64Max := by
  rw [totalLen?_eq]
  split
  · rename_i hfit
    simp only [Option.some.injEq, hfit, and_true]
    exact eq_comm
  · rename_i hbig
    simp only [reduceCtorEq, false_iff, not_and]
    exact fun _ => hbig

theorem totalLen?_eq_none_iff :
    f.totalLen? = none ↔ FileList.u64Max < (f.entries.map FileEntry.len).sum := by
  rw [totalLen?_eq]
  split
  · rename_i hfit
    simp only [reduceCtorEq, false_iff, Nat.not_lt]
    exact hfit
  · rename_i hbig
    simp only [true_iff]
    omega

/-- The total of a file list: too large when its sum does not fit in 64 bits, empty when
the sum is zero, which an empty list's is, and the sum otherwise. -/
theorem totalSize_eq :
    f.totalSize =
      if FileList.u64Max < (f.entries.map FileEntry.len).sum then .error .tooLarge
      else if (f.entries.map FileEntry.len).sum = 0 then .error .empty
      else .ok (f.entries.map FileEntry.len).sum := by
  unfold FileList.totalSize
  rw [totalLen?_eq]
  by_cases hbig : FileList.u64Max < (f.entries.map FileEntry.len).sum
  · rw [if_neg (by omega), if_pos hbig]
  · rw [if_pos (by omega), if_neg hbig]
    split <;> simp_all

end Sums

/-- A prefix of a list of lengths adds up to no more than the whole list. -/
theorem sum_take_le (es : List FileEntry) (i : Nat) :
    ((es.take i).map FileEntry.len).sum ≤ (es.map FileEntry.len).sum := by
  have h := congrArg List.sum (List.take_append_drop i (es.map FileEntry.len))
  rw [List.sum_append, ← List.map_take] at h
  omega

/-- Once the whole sum fits in 64 bits, the checked sum of every prefix succeeds with the
prefix's sum: a running total never overflows on the way. -/
theorem sumChecked_take {es : List FileEntry}
    (hfit : (es.map FileEntry.len).sum ≤ FileList.u64Max)
    (i : Nat) : FileList.sumChecked 0 (es.take i) = some ((es.take i).map FileEntry.len).sum := by
  have hle := sum_take_le es i
  rw [sumChecked_eq (Nat.zero_le _), if_pos (by omega), Nat.zero_add]

/-! ## The end offsets -/

namespace Stream

variable (s : Stream)

/-- File `i` ends at the sum of the first `i + 1` lengths. -/
theorem getElem_ends_eq_sum {i : Nat} (hi : i < s.ends.size) :
    s.ends[i] = ((s.files.entries.take (i + 1)).map FileEntry.len).sum := by
  rw [getElem_ends]
  rfl

/-- The end offsets never go down. -/
theorem pairwise_ends : s.ends.toList.Pairwise (· ≤ ·) := by
  rw [List.pairwise_iff_getElem]
  intro i j hi hj hij
  simp only [Array.length_toList] at hi hj
  simp only [Array.getElem_toList, getElem_ends]
  exact s.stop_mono (Nat.le_of_lt hij)

/-- The last file ends where the stream does. -/
theorem back?_ends {s : Stream} (hs : s.Valid) (hne : s.files.entries ≠ []) :
    s.ends.back? = some s.total := by
  have hsize : s.ends.size = s.files.entries.length := size_ends s
  have hpos : 0 < s.files.entries.length := List.length_pos_iff.mpr hne
  rw [Array.back?_eq_getElem?, Array.getElem?_eq_getElem (by omega), getElem_ends_eq_sum,
    hs.total_eq, Nat.sub_add_cancel (by omega), hsize, List.take_length]

end Stream

/-! ## Building a stream -/

section New

variable {files : FileList} {ps : Nat} {content : String}

/-- What a new stream's end offsets and piece count are. -/
structure Stream.Offsets (files : FileList) (ps : Nat) (s : Stream) : Prop where
  /-- one end offset per file -/
  size_ends : s.ends.size = files.length
  /-- file `i` ends at the sum of the first `i + 1` lengths -/
  ends_eq : ∀ i (hi : i < s.ends.size),
    s.ends[i] = ((files.entries.take (i + 1)).map FileEntry.len).sum
  /-- the checked running total reaches each end offset without overflowing -/
  sumChecked_ends : ∀ i (hi : i < s.ends.size),
    FileList.sumChecked 0 (files.entries.take (i + 1)) = some s.ends[i]
  /-- the construction's own running total, each sum a 64-bit number, gives the end
  offsets -/
  endOffsets_eq : Stream.endOffsets 0 files.entries = some s.ends.toList
  /-- the end offsets never go down -/
  sorted : s.ends.toList.Pairwise (· ≤ ·)
  /-- the last file ends where the stream does -/
  last : s.ends.back? = some s.total
  /-- there are `⌈total / ps⌉` pieces -/
  pieceCount_eq : s.pieceCount = ⌈(s.total : ℚ) / (ps : ℚ)⌉₊

theorem Stream.offsets_of_new {s : Stream} (h : Stream.new files ps content = .ok s) :
    Stream.Offsets files ps s := by
  have hs := Stream.valid_of_new h
  obtain ⟨hfiles, hps⟩ := Stream.fields_of_new h
  obtain ⟨hpos, hfit⟩ := Stream.total_bounds_of_new h
  have hne : s.files.entries ≠ [] := by
    intro hnil
    rw [hs.total_eq, hnil] at hpos
    simp at hpos
  subst hfiles hps
  refine ⟨Stream.size_ends s, fun i hi => s.getElem_ends_eq_sum hi, fun i hi => ?_, ?_,
    s.pairwise_ends, Stream.back?_ends hs hne, Piece.count_eq_ceil _ _⟩
  · rw [s.getElem_ends_eq_sum hi]
    exact sumChecked_take (hs.total_eq ▸ hfit) (i + 1)
  · -- the running total fits all the way, and its sums are the files' stops
    rw [Stream.endOffsets_eq 0 _ (Nat.zero_le _),
      if_pos (by rw [Nat.zero_add, ← hs.total_eq]; exact hfit)]
    rfl

/-- **Building a stream.** A zero piece size is refused first; then the total's error, too
large or empty, is the construction's; otherwise the construction succeeds with that
total, and the stream's end offsets are the prefix sums of the lengths, reached by the
checked running total without overflow, never going down and ending at the total, with
`⌈total / pieceSize⌉` pieces. -/
theorem new_offsets (files : FileList) (ps : Nat) (content : String) :
    (∀ t, files.totalLen? = some t ↔ t = (files.entries.map FileEntry.len).sum ∧
      (files.entries.map FileEntry.len).sum ≤ FileList.u64Max) ∧
    (files.totalLen? = none ↔ FileList.u64Max < (files.entries.map FileEntry.len).sum) ∧
    files.totalSize =
      (if FileList.u64Max < (files.entries.map FileEntry.len).sum then .error .tooLarge
      else if (files.entries.map FileEntry.len).sum = 0 then .error .empty
      else .ok (files.entries.map FileEntry.len).sum) ∧
    (ps = 0 → Stream.new files ps content = .error .zeroPieceSize) ∧
    (0 < ps → ∀ e, files.totalSize = .error e → Stream.new files ps content = .error e) ∧
    (0 < ps → ∀ t, files.totalSize = .ok t →
      ∃ s, Stream.new files ps content = .ok s ∧ s.total = t ∧ s.files = files ∧
        s.pieceSize = ps) ∧
    (∀ s, Stream.new files ps content = .ok s → Stream.Offsets files ps s) := by
  refine ⟨totalLen?_eq_some_iff files, totalLen?_eq_none_iff files, totalSize_eq files,
    fun hps => ?_, fun hps e he => ?_, fun hps t ht => ?_, fun s h => Stream.offsets_of_new h⟩
  · rw [Stream.new, if_pos hps]
  · rw [Stream.new, if_neg (by omega), he]
  · exact ⟨_, Stream.new_of_totalSize content hps ht, rfl, rfl, rfl⟩

end New

end Metainfo
