import Mathlib.Data.List.Basic
import Metainfo.Layout.Stream
import Metainfo.Proofs.Torrent.Grammar

/-!
# Spans and pieces of a stream

A stream cuts the files of a list, laid end to end, into pieces, and a piece into the
parts of files it holds (`Stream.spansIn`). This module says what those parts are:

* `slice l lo hi` is the part of a list from `lo` up to `hi`;
* `bounds_eq`: file `i` takes the stream bytes from `start i` up to `stop i`;
* `spansIn_eq_filterMap`: the scan that passes over the files ending by the range's start
  (found by halving over the end offsets) and stops at the first file starting at or past
  its end finds every overlap that a scan of all files finds;
* `spans_eq_overlaps`: a byte range is refused exactly when it leaves the stream, and
  otherwise gives the overlap of every file with it, in order, spans that tile it
  (`positions_spansIn`) and whose lengths add up to its length;
* `read_spansIn`: reading each span of a range out of the files' contents gives the
  range of the contents laid end to end, as long as every file's contents have its
  entry's length;
* `mem_spansIn`: a span is the overlap of one file with the range, and stays inside
  the file;
* `mem_files_rangeAt_iff`: piece `p` touches file `i` exactly when `p` lies in
  `piecesOfFile i`, so the map from pieces to files by spans and the map from files to
  pieces by division agree.
-/

namespace Metainfo

/-- The part of a list from position `lo` up to position `hi`. -/
def slice {α : Type} (l : List α) (lo hi : Nat) : List α :=
  (l.drop lo).take (hi - lo)

theorem slice_append {α : Type} (a b : List α) (lo hi : Nat) :
    slice (a ++ b) lo hi = slice a lo hi ++ slice b (lo - a.length) (hi - a.length) := by
  simp only [slice, List.drop_append, List.take_append, List.length_drop]
  congr 2
  omega

theorem length_slice {α : Type} (l : List α) (lo hi : Nat) :
    (slice l lo hi).length = min (hi - lo) (l.length - lo) := by
  simp [slice]

namespace Stream

/-- A stream as `Stream.new` builds it: pieces of positive size over the files' total. -/
structure Valid (s : Stream) : Prop where
  /-- pieces are not empty -/
  pieceSize_pos : 0 < s.pieceSize
  /-- the stream is the files laid end to end -/
  total_eq : s.total = (s.files.entries.map (·.len)).sum

/-- A total that `FileList.totalSize` gives is the sum of the lengths, positive and within
64 bits. -/
theorem sum_of_totalSize {files : FileList} {t : Nat} (ht : files.totalSize = .ok t) :
    t = (files.entries.map (·.len)).sum ∧ 0 < t ∧ t ≤ FileList.u64Max := by
  unfold FileList.totalSize at ht
  rw [totalLen?_eq] at ht
  by_cases hle : (files.entries.map (·.len)).sum ≤ FileList.u64Max
  · rw [if_pos hle] at ht
    split at ht
    · cases ht
    · cases ht
    · rename_i t' hne hsum
      cases ht
      cases hsum
      exact ⟨rfl, Nat.pos_of_ne_zero hne, hle⟩
  · rw [if_neg hle] at ht
    cases ht

/-- Adding up the end offsets as 64-bit numbers, from an `offset` that fits, succeeds
exactly when the whole sum fits, and then gives the stops of the files. -/
theorem endOffsets_eq (i : Nat) {offset : Nat} (es : List FileEntry)
    (hoff : offset ≤ FileList.u64Max) :
    endOffsets offset es =
      if offset + (es.map (·.len)).sum ≤ FileList.u64Max then
        some ((bounds.go i offset es).map fun b => b.2.2)
      else none := by
  induction es generalizing i offset with
  | nil => simp [endOffsets, bounds.go, hoff]
  | cons e rest ih =>
    set r := (rest.map (·.len)).sum with hr
    rw [endOffsets, List.map_cons, List.sum_cons, ← hr]
    by_cases hfit : offset + (e.len + r) ≤ FileList.u64Max
    · have hhere : offset + e.len ≤ FileList.u64Max := by omega
      rw [if_pos hhere, ih (i + 1) hhere, if_pos (by omega), if_pos hfit]
      simp [bounds.go]
    · -- a running total passes the largest 64-bit number, here or further on
      rw [if_neg hfit]
      by_cases hhere : offset + e.len ≤ FileList.u64Max
      · rw [if_pos hhere, ih (i + 1) hhere, if_neg (by omega), Option.map_none]
      · rw [if_neg hhere]

/-- **What `new` builds.** A stream built from a file list has a positive piece size and
the list's total, and holds the list, the content path and the piece size. -/
theorem new_eq_ok {files : FileList} {ps : Nat} {content : String} {s : Stream}
    (h : Stream.new files ps content = .ok s) :
    0 < ps ∧ files.totalSize = .ok s.total ∧ s = ⟨files, content, ps, s.total⟩ := by
  unfold Stream.new at h
  split at h
  · cases h
  · rename_i hps
    split at h
    · cases h
    · rename_i t ht
      split at h
      · cases h
      · cases h
        exact ⟨Nat.pos_of_ne_zero hps, ht, rfl⟩

/-- **The running total never overflows.** Once the total of a file list is known, adding
up its end offsets as 64-bit numbers succeeds, so `new` builds the stream. -/
theorem new_of_totalSize {files : FileList} {ps t : Nat} (content : String) (hps : 0 < ps)
    (ht : files.totalSize = .ok t) : Stream.new files ps content = .ok ⟨files, content, ps, t⟩ := by
  obtain ⟨hsum, -, hfit⟩ := sum_of_totalSize ht
  have hends := endOffsets_eq 0 files.entries (Nat.zero_le FileList.u64Max)
  rw [if_pos (by omega)] at hends
  unfold Stream.new
  rw [if_neg (by omega), ht]
  dsimp only
  rw [hends]

theorem valid_of_new {files : FileList} {ps : Nat} {content : String} {s : Stream}
    (h : Stream.new files ps content = .ok s) : s.Valid := by
  obtain ⟨hps, ht, hs⟩ := new_eq_ok h
  rw [hs]
  exact ⟨hps, (sum_of_totalSize ht).1⟩

/-- The length of entry `i`, zero past the end. -/
def fileLen (s : Stream) (i : Nat) : Nat :=
  (s.files.get? i).map (·.len) |>.getD 0

theorem fileLen_of_lt {s : Stream} {i : Nat} (h : i < s.files.length) :
    s.fileLen i = s.files.entries[i].len := by
  simp [fileLen, FileList.get?, List.getElem?_eq_getElem h]

theorem stop_eq (s : Stream) {i : Nat} (h : i < s.files.length) :
    s.stop i = s.start i + s.fileLen i := by
  simp only [stop, start, fileLen_of_lt h]
  rw [List.take_add_one, List.getElem?_eq_getElem h]
  simp

theorem stop_le_total {s : Stream} (hs : s.Valid) (i : Nat) : s.stop i ≤ s.total := by
  rw [hs.total_eq, stop, List.map_take]
  have h := congrArg List.sum (List.take_append_drop (i + 1) (s.files.entries.map (·.len)))
  rw [List.sum_append] at h
  omega

/-! ## Where the files lie -/

theorem go_eq : ∀ (i at_ : Nat) (es : List FileEntry),
    bounds.go i at_ es = (List.range es.length).map fun k =>
      (i + k, at_ + ((es.take k).map (·.len)).sum, at_ + ((es.take (k + 1)).map (·.len)).sum)
  | _, _, [] => rfl
  | i, at_, e :: es => by
    rw [bounds.go, go_eq (i + 1) (at_ + e.len) es, List.length_cons, List.range_succ_eq_map,
      List.map_cons, List.map_map]
    congr 1
    refine List.map_congr_left fun k _ => ?_
    simp only [Function.comp, Nat.succ_eq_add_one, List.take_succ_cons, List.map_cons,
      List.sum_cons, Prod.mk.injEq]
    refine ⟨by omega, by omega, by omega⟩

/-- **Where the files lie.** File `i` takes the stream bytes from `start i` up to
`stop i`. -/
theorem bounds_eq (s : Stream) :
    s.bounds = (List.range s.files.length).map fun i => (i, s.start i, s.stop i) := by
  simp [bounds, go_eq, start, stop, FileList.length]

/-! ## The scan's two shortcuts -/

theorem start_le_stop (s : Stream) (i : Nat) : s.start i ≤ s.stop i := by
  simp only [start, stop, List.take_add_one, List.map_append, List.sum_append]
  omega

/-- Files start where the one before stops. -/
theorem start_succ (s : Stream) (i : Nat) : s.start (i + 1) = s.stop i := rfl

theorem stop_mono (s : Stream) {i j : Nat} (h : i ≤ j) : s.stop i ≤ s.stop j := by
  induction j with
  | zero =>
    obtain rfl : i = 0 := by omega
    exact Nat.le_refl _
  | succ j ih =>
    rcases Nat.lt_or_ge j i with hj | hj
    · obtain rfl : i = j + 1 := by omega
      exact Nat.le_refl _
    · exact Nat.le_trans (ih hj) (s.start_succ j ▸ s.start_le_stop (j + 1))

theorem start_mono (s : Stream) {i j : Nat} (h : i ≤ j) : s.start i ≤ s.start j := by
  cases i with
  | zero => exact Nat.zero_le _
  | succ i =>
    obtain ⟨j, rfl⟩ : ∃ k, j = k + 1 := ⟨j - 1, by omega⟩
    exact s.stop_mono (by omega)

theorem size_ends (s : Stream) : s.ends.size = s.files.length := by
  simp [ends, bounds_eq]

theorem getElem_ends (s : Stream) {k : Nat} (hk : k < s.ends.size) : s.ends[k] = s.stop k := by
  simp [ends, bounds_eq]

/-- The files' end offsets never go down, so "ends by `lo`" holds of a first run of them. -/
theorem partitioned_ends (s : Stream) (lo : Nat) : Partitioned (· ≤ lo) s.ends := by
  intro i j hij hj hlo
  have hi : i < s.ends.size := by omega
  simp only [decide_eq_true_eq, getElem_ends] at hlo ⊢
  exact Nat.le_trans (s.stop_mono hij) hlo

theorem overlap_eq_none_of_stop_le {lo hi i a b : Nat} (h : b ≤ lo) :
    overlap lo hi (i, a, b) = none := by
  simp only [overlap]
  rw [if_neg (by omega)]

theorem overlap_eq_none_of_le_start {lo hi i a b : Nat} (h : hi ≤ a) :
    overlap lo hi (i, a, b) = none := by
  simp only [overlap]
  rw [if_neg (by omega)]

/-- Stopping at the first file that starts at or past `hi` loses nothing when the files
start in order: every later file starts there too. -/
theorem overlapsUntil_eq (lo hi : Nat) : ∀ {l : List (Nat × Nat × Nat)},
    l.Pairwise (fun x y => x.2.1 ≤ y.2.1) → overlapsUntil lo hi l = l.filterMap (overlap lo hi)
  | [], _ => rfl
  | (i, a, b) :: rest, hl => by
    rw [List.pairwise_cons] at hl
    rw [overlapsUntil, List.filterMap_cons]
    split
    · rename_i hle
      rw [overlap_eq_none_of_le_start hle, eq_comm, List.filterMap_eq_nil_iff]
      rintro ⟨j, a', b'⟩ hx
      exact overlap_eq_none_of_le_start (Nat.le_trans hle (hl.1 _ hx))
    · rw [overlapsUntil_eq lo hi hl.2]
      cases overlap lo hi (i, a, b) <;> rfl

theorem pairwise_start_bounds (s : Stream) : s.bounds.Pairwise (fun x y => x.2.1 ≤ y.2.1) := by
  rw [bounds_eq, List.pairwise_map]
  exact List.pairwise_lt_range.imp fun h => s.start_mono (Nat.le_of_lt h)

/-- **The scan with its shortcuts is the plain scan.** Passing over the files that end by
`lo` (found by halving over their end offsets) and stopping at the first file that starts
at or past `hi` give the overlap of every file with the range, in order. -/
theorem spansIn_eq_filterMap (s : Stream) (lo hi : Nat) :
    s.spansIn lo hi = s.bounds.filterMap (overlap lo hi) := by
  obtain ⟨-, hiff⟩ := lt_partitionPoint_iff (s.partitioned_ends lo)
  -- the files passed over end by `lo`, so none of them overlaps the range
  have hskip : (s.bounds.take (partitionPoint (· ≤ lo) s.ends)).filterMap (overlap lo hi) = [] := by
    rw [List.filterMap_eq_nil_iff, bounds_eq, ← List.map_take, List.take_range]
    intro x hx
    obtain ⟨k, hk, rfl⟩ := List.mem_map.mp hx
    have hk := List.mem_range.mp hk
    have hk' : k < s.ends.size := by
      rw [size_ends]
      omega
    have hend := (hiff k hk').mp (by omega)
    simp only [decide_eq_true_eq, getElem_ends] at hend
    exact overlap_eq_none_of_stop_le hend
  show overlapsUntil lo hi (s.bounds.drop (partitionPoint (· ≤ lo) s.ends)) = _
  rw [overlapsUntil_eq lo hi (s.pairwise_start_bounds.sublist (List.drop_sublist _ _))]
  conv => rhs; rw [← List.take_append_drop (partitionPoint (· ≤ lo) s.ends) s.bounds]
  rw [List.filterMap_append, hskip, List.nil_append]

theorem spansIn_eq (s : Stream) (lo hi : Nat) :
    s.spansIn lo hi =
      (List.range s.files.length).filterMap fun i => overlap lo hi (i, s.start i, s.stop i) := by
  rw [spansIn_eq_filterMap, bounds_eq, List.filterMap_map]
  rfl

/-- The overlap of a file with a range: a part of one byte at least, inside the file
and inside the range. -/
theorem overlap_eq_some {lo hi i a b : Nat} {sp : Span} :
    overlap lo hi (i, a, b) = some sp ↔
      max lo a < min hi b ∧ sp = ⟨i, max lo a - a, min hi b - max lo a⟩ := by
  simp only [overlap]
  split
  · rename_i h
    simp [h, eq_comm]
  · rename_i h
    simp only [reduceCtorEq, false_iff, not_and]
    intro hlt
    omega

/-- **What a span is.** A span of a range is the overlap of one file of the list with it. -/
theorem mem_spansIn {s : Stream} {lo hi : Nat} {sp : Span} :
    sp ∈ s.spansIn lo hi ↔ sp.file < s.files.length ∧
      max lo (s.start sp.file) < min hi (s.stop sp.file) ∧
      sp.offset = max lo (s.start sp.file) - s.start sp.file ∧
      sp.len = min hi (s.stop sp.file) - max lo (s.start sp.file) := by
  rw [spansIn_eq, List.mem_filterMap]
  constructor
  · rintro ⟨i, hi, hsp⟩
    obtain ⟨hlt, rfl⟩ := overlap_eq_some.mp hsp
    exact ⟨List.mem_range.mp hi, hlt, rfl, rfl⟩
  · rintro ⟨hfile, hlt, hoff, hlen⟩
    refine ⟨sp.file, List.mem_range.mpr hfile, overlap_eq_some.mpr ⟨hlt, ?_⟩⟩
    cases sp
    simp_all

/-- A span stays inside its file. -/
theorem offset_add_len_le {s : Stream} {lo hi : Nat} {sp : Span} (h : sp ∈ s.spansIn lo hi) :
    0 < sp.len ∧ sp.offset + sp.len ≤ s.fileLen sp.file := by
  obtain ⟨hfile, hlt, hoff, hlen⟩ := mem_spansIn.mp h
  have hstop := s.stop_eq hfile
  omega

/-! ## Reading the spans -/

end Stream

/-- The bytes of a span, read out of its file's contents `f sp.file`. -/
def Span.read {α : Type} (f : Nat → List α) (sp : Span) : List α :=
  slice (f sp.file) sp.offset (sp.offset + sp.len)

namespace Stream

/-- One file's part of a range is the file's slice of it, counted from the file's
start. -/
theorem read_overlap {α : Type} (f : Nat → List α) (lo hi i a : Nat) :
    ((overlap lo hi (i, a, a + (f i).length)).map (Span.read f)).getD [] =
      slice (f i) (lo - a) (hi - a) := by
  simp only [overlap]
  split
  · rename_i hlt
    simp only [Option.map_some, Option.getD_some, Span.read, slice]
    have hdrop : max lo a - a = lo - a := by omega
    rw [hdrop, List.take_eq_take_iff, List.length_drop]
    omega
  · rename_i hge
    simp only [Option.map_none, Option.getD_none]
    symm
    apply List.eq_nil_of_length_eq_zero
    rw [length_slice]
    omega

theorem read_go {α : Type} (f : Nat → List α) (lo hi : Nat) :
    ∀ (i at_ : Nat) (es : List FileEntry), (∀ k (hk : k < es.length), (f (i + k)).length = es[k].len) →
      ((bounds.go i at_ es).filterMap (overlap lo hi)).flatMap (Span.read f) =
        slice ((List.range' i es.length).flatMap f) (lo - at_) (hi - at_)
  | i, at_, [], _ => by simp [bounds.go, slice]
  | i, at_, e :: es, hf => by
    -- the first file's part, then the rest read from its end on
    have h0 : (f i).length = e.len := hf 0 (by simp)
    have hrest : ∀ k (hk : k < es.length), (f (i + 1 + k)).length = es[k].len := fun k hk => by
      have h := hf (k + 1) (by simp; omega)
      rwa [show i + (k + 1) = i + 1 + k by omega] at h
    have hfirst := read_overlap f lo hi i at_
    rw [h0] at hfirst
    rw [bounds.go, List.length_cons, List.range'_succ, List.flatMap_cons, slice_append, h0,
      Nat.sub_sub, Nat.sub_sub, ← read_go f lo hi (i + 1) (at_ + e.len) es hrest, ← hfirst,
      List.filterMap_cons]
    cases overlap lo hi (i, at_, at_ + e.len) <;> simp

/-- **Reading the spans.** When file `i` holds `f i`, of its entry's length, reading the
spans of the bytes from `lo` up to `hi` gives those bytes of the contents laid end to
end. -/
theorem read_spansIn {α : Type} (s : Stream) (f : Nat → List α)
    (hf : ∀ i < s.files.length, (f i).length = s.fileLen i) (lo hi : Nat) :
    (s.spansIn lo hi).flatMap (Span.read f) =
      slice ((List.range s.files.length).flatMap f) lo hi := by
  have hf' : ∀ k (hk : k < s.files.entries.length), (f (0 + k)).length = s.files.entries[k].len :=
    fun k hk => by rw [Nat.zero_add, hf k hk, fileLen_of_lt hk]
  rw [spansIn_eq_filterMap, bounds, read_go f lo hi 0 0 s.files.entries hf', List.range_eq_range']
  rfl

/-! ## Pieces and files -/

theorem mem_files_spansIn {s : Stream} {lo hi i : Nat} :
    i ∈ (s.spansIn lo hi).map (·.file) ↔
      i < s.files.length ∧ max lo (s.start i) < min hi (s.stop i) := by
  simp only [List.mem_map, mem_spansIn]
  constructor
  · rintro ⟨sp, ⟨hfile, hlt, -, -⟩, rfl⟩
    exact ⟨hfile, hlt⟩
  · rintro ⟨hfile, hlt⟩
    exact ⟨⟨i, max lo (s.start i) - s.start i, min hi (s.stop i) - max lo (s.start i)⟩,
      ⟨hfile, hlt, rfl, rfl⟩, rfl⟩

/-- A piece below the count starts inside the stream. -/
theorem mul_pieceSize_lt {s : Stream} (hs : s.Valid) {p : Nat} (hp : p < s.pieceCount) :
    p * s.pieceSize < s.total := by
  have h := (Nat.le_div_iff_mul_le hs.pieceSize_pos).mp hp
  rw [Nat.succ_mul] at h
  have := hs.pieceSize_pos
  omega

/-- **Pieces and files agree.** In a valid stream, piece `p` touches file `i` exactly when
`p` lies in `piecesOfFile i`. -/
theorem mem_files_rangeAt_iff {s : Stream} (hs : s.Valid) {p : Nat} (hp : p < s.pieceCount)
    (i : Nat) :
    i ∈ (s.rangeAt p).files ↔ (s.piecesOfFile i).1 ≤ p ∧ p < (s.piecesOfFile i).2 := by
  have hps := hs.pieceSize_pos
  have hlo := mul_pieceSize_lt hs hp
  simp only [rangeAt, PieceRange.files, mem_files_spansIn, piecesOfFile]
  by_cases hi : i < s.files.length
  · have hstop := s.stop_eq hi
    have htot := stop_le_total hs i
    simp only [FileList.get?, List.getElem?_eq_getElem hi, ← fileLen_of_lt hi]
    split
    · -- an empty file lies in no piece
      omega
    · -- division and overlap say the same thing
      have h1 : s.start i / s.pieceSize ≤ p ↔ s.start i < p * s.pieceSize + s.pieceSize := by
        rw [← Nat.lt_add_one_iff, Nat.div_lt_iff_lt_mul hps, Nat.succ_mul]
      have h2 : p < (s.start i + s.fileLen i - 1) / s.pieceSize + 1 ↔
          p * s.pieceSize < s.start i + s.fileLen i := by
        rw [Nat.lt_add_one_iff, Nat.le_div_iff_mul_le hps]
        omega
      rw [h1, h2]
      omega
  · have hnone : s.files.get? i = none := by
      simp only [FileList.get?, List.getElem?_eq_none_iff]
      exact Nat.le_of_not_lt hi
    simp [hi, hnone]

/-! ## The spans of a byte range -/

theorem slice_range' (a n lo hi : Nat) :
    slice (List.range' a n) lo hi = List.range' (a + lo) (min (hi - lo) (n - lo)) := by
  rw [slice, List.drop_range', Nat.mul_one]
  by_cases h : n - lo ≤ hi - lo
  · rw [List.take_range'_of_length_le h, Nat.min_eq_right h]
  · rw [List.take_range'_of_length_ge (by omega), Nat.min_eq_left (by omega)]

/-- The files laid end to end fill the stream. -/
theorem start_length {s : Stream} (hs : s.Valid) : s.start s.files.length = s.total := by
  rw [hs.total_eq, start, FileList.length, List.take_length]

/-- Files whose contents are their own stream positions count, laid end to end, the
stream from zero. -/
theorem flatMap_range'_start (s : Stream) :
    ∀ k ≤ s.files.length,
      (List.range k).flatMap (fun i => List.range' (s.start i) (s.fileLen i)) =
        List.range' 0 (s.start k)
  | 0, _ => rfl
  | k + 1, hk => by
    have happend := @List.range'_append_1 0 (s.start k) (s.fileLen k)
    rw [Nat.zero_add] at happend
    rw [List.range_succ, List.flatMap_append, flatMap_range'_start s k (by omega),
      List.flatMap_singleton, happend, start_succ, s.stop_eq (by omega)]

/-- **The spans tile the range.** Span after span, the stream positions that the spans of
the bytes from `lo` up to `hi` cover are `lo`, `lo + 1`, …, `hi - 1`. -/
theorem positions_spansIn {s : Stream} (hs : s.Valid) {lo hi : Nat} (hhi : hi ≤ s.total) :
    (s.spansIn lo hi).flatMap (fun sp => List.range' (s.start sp.file + sp.offset) sp.len) =
      List.range' lo (hi - lo) := by
  -- read the spans out of files that hold their own stream positions
  have hread := read_spansIn s (fun i => List.range' (s.start i) (s.fileLen i))
    (fun i _ => List.length_range') lo hi
  rw [flatMap_range'_start s _ (Nat.le_refl _), start_length hs, slice_range', Nat.zero_add,
    Nat.min_eq_left (by omega)] at hread
  rw [← hread]
  refine List.flatMap_congr fun sp hsp => ?_
  obtain ⟨-, hin⟩ := offset_add_len_le hsp
  rw [Span.read, slice_range', Nat.add_sub_cancel_left, Nat.min_eq_left (by omega)]

/-- **The spans of a byte range.** A range that ends past the stream, or whose end does
not fit in 64 bits, is refused. Any other range gives, in file order, the overlap of every
file that shares a byte with it: where the overlap starts in the file and how long it
is; the shortcuts of the scan lose none of them. Each span holds a byte and lies inside
its file (so no span names an empty file), the spans cover the range's stream positions
one after the other, and their lengths add up to the range's. -/
theorem spans_eq_overlaps (s : Stream) (hs : s.Valid) (o l : Nat) :
    s.spans o l =
      (if o + l > FileList.u64Max ∨ o + l > s.total then .error (.rangeOutOfBounds o l s.total)
      else .ok ((List.range s.files.length).filterMap fun i =>
        if max o (s.start i) < min (o + l) (s.stop i) then
          some ⟨i, max o (s.start i) - s.start i, min (o + l) (s.stop i) - max o (s.start i)⟩
        else none)) ∧
    ∀ sps, s.spans o l = .ok sps →
      (∀ sp ∈ sps, 0 < sp.len ∧ sp.offset + sp.len ≤ s.fileLen sp.file) ∧
      sps.flatMap (fun sp => List.range' (s.start sp.file + sp.offset) sp.len) =
        List.range' o l ∧
      (sps.map (·.len)).sum = l := by
  have hspans : s.spans o l =
      if o + l > FileList.u64Max ∨ o + l > s.total then .error (.rangeOutOfBounds o l s.total)
      else .ok (s.spansIn o (o + l)) := rfl
  refine ⟨by rw [hspans, spansIn_eq]; rfl, fun sps hsps => ?_⟩
  rw [hspans] at hsps
  split at hsps
  · cases hsps
  · rename_i hin
    cases hsps
    have htile := @positions_spansIn s hs o (o + l) (by omega)
    rw [Nat.add_sub_cancel_left] at htile
    refine ⟨fun sp hsp => offset_add_len_le hsp, htile, ?_⟩
    -- the lengths add up to the number of positions covered
    have hlen := congrArg List.length htile
    simpa [List.length_flatMap] using hlen

end Stream

/-- Three files of two, zero and three bytes, in pieces of two. -/
def Stream.threeFiles : Stream :=
  ⟨FileList.multi [⟨["a"], 2⟩, ⟨["b"], 0⟩, ⟨["c"], 3⟩], "content", 2, 5⟩

/-- The spans of the three bytes from offset 1, across the empty file. -/
theorem threeFiles_spans :
    Stream.threeFiles.Valid ∧
      (Stream.threeFiles.spans 1 3 =
        (if 1 + 3 > FileList.u64Max ∨ 1 + 3 > Stream.threeFiles.total then
          .error (.rangeOutOfBounds 1 3 Stream.threeFiles.total)
        else .ok ((List.range Stream.threeFiles.files.length).filterMap fun i =>
          if max 1 (Stream.threeFiles.start i) < min (1 + 3) (Stream.threeFiles.stop i) then
            some ⟨i, max 1 (Stream.threeFiles.start i) - Stream.threeFiles.start i,
              min (1 + 3) (Stream.threeFiles.stop i) - max 1 (Stream.threeFiles.start i)⟩
          else none)) ∧
      ∀ sps, Stream.threeFiles.spans 1 3 = .ok sps →
        (∀ sp ∈ sps, 0 < sp.len ∧ sp.offset + sp.len ≤ Stream.threeFiles.fileLen sp.file) ∧
        sps.flatMap (fun sp =>
          List.range' (Stream.threeFiles.start sp.file + sp.offset) sp.len) = List.range' 1 3 ∧
        (sps.map (·.len)).sum = 3) :=
  have hs : Stream.threeFiles.Valid := ⟨by decide, rfl⟩
  ⟨hs, Stream.spans_eq_overlaps Stream.threeFiles hs 1 3⟩

end Metainfo
