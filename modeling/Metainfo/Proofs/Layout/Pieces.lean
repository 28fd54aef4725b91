import Metainfo.Proofs.Layout.Spans

/-!
# How pieces cut a stream

A stream of `total` bytes is cut into pieces of `pieceSize` bytes, the last one possibly
shorter. For every stream that `Stream.new` builds the cut is exact, and every offset it
computes lies inside the stream, so none of them overflows 64 bits:

* `total_bounds_of_new`: the total is positive and fits in 64 bits;
* `pieceCount_spec`: there are `⌈total / pieceSize⌉` pieces, at least one, and
  `lt_pieceCount_iff`: a piece exists exactly when it starts inside the stream;
* `pieceRange_eq_ok` and `pieceRange_eq_error_iff`: an index is refused exactly from the
  count on, and below it gives `rangeAt`;
* `rangeAt_bounds`: a piece holds a byte, starts inside the stream and ends by its end;
  every piece but the last is whole (`len_rangeAt_of_succ_lt`);
* `positions_rangeAt`: the pieces, one after the other, cover the stream's positions in
  order, each once.

`pieces_tile_stream` gathers them as `Stream.PiecesTile`.
-/

namespace Metainfo

namespace Stream

/-- The total of a stream that `Stream.new` builds is positive and fits in 64 bits. -/
theorem total_bounds_of_new {files : FileList} {ps : Nat} {content : String} {s : Stream}
    (h : Stream.new files ps content = .ok s) : 0 < s.total ∧ s.total ≤ FileList.u64Max :=
  (sum_of_totalSize (new_eq_ok h).2.1).2

section

variable {s : Stream}

/-- The pieces together are at least as long as the stream. -/
theorem total_le_pieceCount_mul (hs : s.Valid) : s.total ≤ s.pieceCount * s.pieceSize := by
  have hps := hs.pieceSize_pos
  -- the count is the quotient of `total + pieceSize - 1`, with a remainder below a piece
  have hdiv := Nat.div_add_mod (s.total + s.pieceSize - 1) s.pieceSize
  have hmod := Nat.mod_lt (s.total + s.pieceSize - 1) hps
  have hcount : s.pieceCount = (s.total + s.pieceSize - 1) / s.pieceSize := rfl
  rw [← hcount, Nat.mul_comm] at hdiv
  omega

/-- **The piece count.** A stream that holds a byte has `⌈total / pieceSize⌉` pieces: at
least one, the last starting inside the stream, and all of them together at least as long
as it. -/
theorem pieceCount_spec (hs : s.Valid) (htot : 0 < s.total) :
    0 < s.pieceCount ∧ (s.pieceCount - 1) * s.pieceSize < s.total ∧
      s.total ≤ s.pieceCount * s.pieceSize := by
  have hpos : 0 < s.pieceCount :=
    Nat.div_pos (by have := hs.pieceSize_pos; omega) hs.pieceSize_pos
  exact ⟨hpos, mul_pieceSize_lt hs (by omega), total_le_pieceCount_mul hs⟩

/-- A piece exists exactly when it starts inside the stream. -/
theorem lt_pieceCount_iff (hs : s.Valid) {p : Nat} : p < s.pieceCount ↔ p * s.pieceSize < s.total := by
  have hps := hs.pieceSize_pos
  refine ⟨mul_pieceSize_lt hs, fun h => ?_⟩
  show p < (s.total + s.pieceSize - 1) / s.pieceSize
  rw [Nat.lt_iff_add_one_le, Nat.le_div_iff_mul_le hps, Nat.succ_mul]
  omega

theorem pieceRange_eq_ok {i : Nat} (hi : i < s.pieceCount) :
    s.pieceRange i = .ok (s.rangeAt i) := by
  rw [pieceRange, if_neg (Nat.not_le_of_lt hi)]

/-- An index is refused, naming the last piece, exactly from the count on. -/
theorem pieceRange_eq_error_iff (i : Nat) :
    s.pieceRange i = .error (.pieceOutOfBounds i (s.pieceCount - 1)) ↔ s.pieceCount ≤ i := by
  unfold pieceRange
  split
  · rename_i hge
    exact ⟨fun _ => hge, fun _ => rfl⟩
  · rename_i hlt
    simp only [reduceCtorEq, false_iff]
    exact hlt

/-- A piece below the count holds a byte, starts inside the stream and ends by its end. -/
theorem rangeAt_bounds (hs : s.Valid) {i : Nat} (hi : i < s.pieceCount) :
    0 < (s.rangeAt i).len ∧ (s.rangeAt i).offset < s.total ∧
      (s.rangeAt i).offset + (s.rangeAt i).len ≤ s.total := by
  have hlt := mul_pieceSize_lt hs hi
  have hps := hs.pieceSize_pos
  simp only [rangeAt]
  omega

/-- Every piece but the last is whole. -/
theorem len_rangeAt_of_succ_lt (hs : s.Valid) {i : Nat} (hi : i + 1 < s.pieceCount) :
    (s.rangeAt i).len = s.pieceSize := by
  have hlt := mul_pieceSize_lt hs hi
  rw [Nat.succ_mul] at hlt
  simp only [rangeAt]
  omega

/-- A piece ends where any later piece starts, or before. -/
theorem end_rangeAt_le {i j : Nat} (hij : i < j) :
    (s.rangeAt i).offset + (s.rangeAt i).len ≤ (s.rangeAt j).offset := by
  have hmul : (i + 1) * s.pieceSize ≤ j * s.pieceSize := Nat.mul_le_mul_right _ hij
  rw [Nat.succ_mul] at hmul
  simp only [rangeAt]
  omega

/-- The spans of a piece are those of its bytes, whose end fits in 64 bits. -/
theorem spans_rangeAt (hs : s.Valid) (hle : s.total ≤ FileList.u64Max) {i : Nat}
    (hi : i < s.pieceCount) :
    s.spans (s.rangeAt i).offset (s.rangeAt i).len = .ok (s.rangeAt i).spans := by
  obtain ⟨-, -, hend⟩ := rangeAt_bounds hs hi
  unfold spans
  rw [if_neg (by omega)]
  rfl

/-- The first `k` pieces cover the positions from zero up to `k` pieces in, or up to the
end. -/
theorem positions_take_rangeAt (hs : s.Valid) : ∀ k ≤ s.pieceCount,
    (List.range k).flatMap (fun i => List.range' (s.rangeAt i).offset (s.rangeAt i).len) =
      List.range' 0 (min (k * s.pieceSize) s.total)
  | 0, _ => by simp
  | k + 1, hk => by
    -- piece `k` starts inside the stream, where the first `k` pieces end
    have hlt := mul_pieceSize_lt hs (show k < s.pieceCount by omega)
    have happend := @List.range'_append_1 0 (k * s.pieceSize) (s.rangeAt k).len
    rw [Nat.zero_add] at happend
    rw [List.range_succ, List.flatMap_append, positions_take_rangeAt hs k (by omega),
      List.flatMap_singleton, Nat.min_eq_left (Nat.le_of_lt hlt)]
    refine happend.trans (congrArg (List.range' 0) ?_)
    simp only [rangeAt, Nat.succ_mul]
    omega

/-- **The pieces cover the stream.** One after the other, the positions of the pieces are
those of the stream, in order, each once. -/
theorem positions_rangeAt (hs : s.Valid) :
    (List.range s.pieceCount).flatMap (fun i => List.range' (s.rangeAt i).offset (s.rangeAt i).len) =
      List.range s.total := by
  rw [positions_take_rangeAt hs _ (Nat.le_refl _), Nat.min_eq_right (total_le_pieceCount_mul hs),
    List.range_eq_range']

end

/-- How the pieces of a stream cut it. -/
structure PiecesTile (s : Stream) : Prop where
  /-- there are `⌈total / pieceSize⌉` pieces, at least one: the last starts inside the
  stream, and together they are at least as long as it -/
  count : 0 < s.pieceCount ∧ (s.pieceCount - 1) * s.pieceSize < s.total ∧
    s.total ≤ s.pieceCount * s.pieceSize
  /-- an index is refused, naming the last piece, exactly from the count on -/
  refused_iff : ∀ i, s.pieceRange i = .error (.pieceOutOfBounds i (s.pieceCount - 1)) ↔
    s.pieceCount ≤ i
  /-- below the count, piece `i` starts `i` pieces in, runs for a piece or up to the end,
  and is made of the spans of those bytes -/
  piece : ∀ i < s.pieceCount, s.pieceRange i = .ok (s.rangeAt i) ∧ (s.rangeAt i).index = i ∧
    (s.rangeAt i).offset = i * s.pieceSize ∧
    (s.rangeAt i).len = min s.pieceSize (s.total - i * s.pieceSize) ∧
    s.spans (s.rangeAt i).offset (s.rangeAt i).len = .ok (s.rangeAt i).spans
  /-- no offset overflows: a piece holds a byte, starts inside the stream and ends by its
  end, which fits in 64 bits -/
  in_bounds : ∀ i < s.pieceCount, (0 < (s.rangeAt i).len ∧ (s.rangeAt i).offset < s.total ∧
    (s.rangeAt i).offset + (s.rangeAt i).len ≤ s.total) ∧ s.total ≤ FileList.u64Max
  /-- every piece but the last is whole -/
  whole : ∀ i, i + 1 < s.pieceCount → (s.rangeAt i).len = s.pieceSize
  /-- a piece ends where any later one starts, or before -/
  disjoint : ∀ i j, i < j → (s.rangeAt i).offset + (s.rangeAt i).len ≤ (s.rangeAt j).offset
  /-- the pieces cover the stream's positions, in order -/
  cover : (List.range s.pieceCount).flatMap
    (fun i => List.range' (s.rangeAt i).offset (s.rangeAt i).len) = List.range s.total

/-- **Pieces tile the stream.** In every stream that `Stream.new` builds, the pieces, as
`pieceRange` gives them, cut the stream into `⌈total / pieceSize⌉` ranges that are whole
but for the last, disjoint, in order and covering it, and compute no offset outside it. -/
theorem pieces_tile_stream {files : FileList} {ps : Nat} {content : String} {s : Stream}
    (h : Stream.new files ps content = .ok s) : s.PiecesTile := by
  have hs := valid_of_new h
  obtain ⟨htot, hle⟩ := total_bounds_of_new h
  refine ⟨pieceCount_spec hs htot, pieceRange_eq_error_iff, fun i hi => ?_,
    fun i hi => ⟨rangeAt_bounds hs hi, hle⟩, fun i hi => len_rangeAt_of_succ_lt hs hi,
    fun i j hij => end_rangeAt_le hij, positions_rangeAt hs⟩
  exact ⟨pieceRange_eq_ok hi, rfl, rfl, rfl, spans_rangeAt hs hle hi⟩

end Stream

/-- Two files of ten and twenty-five bytes, in pieces of sixteen. -/
theorem twoFiles_pieces_tile :
    Stream.new (FileList.multi [⟨["a"], 10⟩, ⟨["b"], 25⟩]) 16 "/content" =
        .ok ⟨FileList.multi [⟨["a"], 10⟩, ⟨["b"], 25⟩], "/content", 16, 35⟩ ∧
      Stream.PiecesTile ⟨FileList.multi [⟨["a"], 10⟩, ⟨["b"], 25⟩], "/content", 16, 35⟩ :=
  ⟨rfl, @Stream.pieces_tile_stream (FileList.multi [⟨["a"], 10⟩, ⟨["b"], 25⟩]) 16 "/content" _ rfl⟩

end Metainfo
