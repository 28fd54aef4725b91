import Metainfo.Content.Reader
import Metainfo.Proofs.Layout.Spans
import Metainfo.Proofs.Bytes

/-!
# What a piece reader reads

A `Reader` keeps the last file it opened and reads later spans of that file through it.
On a disk that does not change, that cache is invisible: this module says what a read
gives without any reader, and that every reader a run builds gives the same.

* `openChecked_eq_ok_iff`: the check before opening passes exactly when the path leads,
  links followed, to a regular file of the expected length (`Disk.HoldsFile`);
* `Reader.Sound`: a reader is sound when the file it holds is the one a fresh open gives;
  reads keep readers sound (`readSpans_sound`);
* `read_sound`: a sound reader reads a piece as `pieceRead`, which opens every span's
  file afresh;
* `pieceRead_rangeAt`: piece `p` reads as its bytes on disk (`Stream.pieceBytes`) when
  every file it touches opens, and otherwise fails naming those files that do not, in
  order;
* `pieceBytes_of_present`: when every non-empty file is on disk with its length, those
  bytes are the files' contents, laid end to end, from `p` times the piece size up to the
  next piece or the end.
-/

namespace Metainfo

/-! ## Files on disk -/

/-- The path leads, links followed, to a regular file of `len` bytes with inode `inode`. -/
def Disk.HoldsFile (d : Disk) (path : String) (len inode : Nat) : Prop :=
  ∃ loc, d.resolve path true = .ok (.node loc (.file inode)) ∧ (d.blob inode).size = len

/-- **The check before opening.** A file is opened exactly when its path leads to a
regular file of the expected length; the inode opened is that file's. -/
theorem openChecked_eq_ok_iff {d : Disk} {path : String} {len inode : Nat} :
    openChecked d path len = .ok inode ↔ d.HoldsFile path len inode := by
  unfold openChecked Disk.metadata Disk.stat Disk.openRead Disk.HoldsFile
  cases hr : d.resolve path true with
  | error e => simp
  | ok t =>
    cases t with
    | absent loc => simp
    | node loc n =>
      cases n with
      | dir => simp
      | file i =>
        by_cases hlen : (d.blob i).size = len
        · simp only [hlen, ne_eq, not_true_eq_false, ↓reduceIte, Except.ok.injEq, Target.node.injEq,
            Node.file.injEq]
          constructor
          · rintro rfl
            exact ⟨loc, ⟨rfl, rfl⟩, hlen⟩
          · rintro ⟨_, ⟨_, rfl⟩, _⟩
            rfl
        · simp only [hlen, ne_eq, not_false_eq_true, ↓reduceIte, reduceCtorEq, false_iff, not_exists,
            not_and, Except.ok.injEq, Target.node.injEq, Node.file.injEq]
          rintro _ ⟨_, rfl⟩
          exact hlen
      | link t =>
        -- a link the walk did not follow opens as no file
        by_cases hlen : t.utf8ByteSize = len <;> simp [hlen]

/-- The whole contents of a file that a path leads to. -/
theorem contents?_of_holdsFile {d : Disk} {path : String} {len inode : Nat}
    (h : d.HoldsFile path len inode) : d.contents? path = some (d.blob inode).bytes := by
  obtain ⟨loc, hr, -⟩ := h
  simp [Disk.contents?, Disk.readFile, Disk.openRead, hr, Except.toOption]

/-! ## Bytes of a blob -/

theorem Blob.read_eq_ok {b : Blob} {off len : Nat} (h : off + len ≤ b.size) :
    ∃ bs, b.read off len = .ok bs ∧ bs.toList = (List.range len).map fun k => b.byte (off + k) := by
  unfold Blob.read
  rw [if_pos h]
  split
  · rename_i hdata
    refine ⟨_, rfl, List.ext_getElem (by simp [Bytes.toList_extract]; omega) fun k h1 h2 => ?_⟩
    have hk : off + k < b.data.size := by simp at h2; omega
    simp only [Bytes.toList_extract, List.getElem_take, List.getElem_drop, List.getElem_map,
      List.getElem_range, Blob.byte, dif_pos hk]
    rw [Bytes.getElem_toList]
  · exact ⟨_, rfl, by simp⟩

theorem Blob.toList_bytes (b : Blob) : b.bytes.toList = (List.range b.size).map b.byte := by
  obtain ⟨bs, hread, hbs⟩ := @Blob.read_eq_ok b 0 b.size (by omega)
  simp [Blob.bytes, hread, hbs]

/-- The bytes a read gives are the blob's bytes from `off` on. -/
theorem Blob.read_eq_slice {b : Blob} {off len : Nat} (h : off + len ≤ b.size) :
    ∃ bs, b.read off len = .ok bs ∧ bs.toList = slice b.bytes.toList off (off + len) := by
  obtain ⟨bs, hread, hbs⟩ := Blob.read_eq_ok h
  refine ⟨bs, hread, hbs.trans (List.ext_getElem ?_ fun k h1 h2 => ?_)⟩
  · simp [length_slice, Blob.toList_bytes]
    omega
  · simp [slice, Blob.toList_bytes]

/-! ## The content of a stream -/

namespace Stream

/-- The bytes of file `i` on disk: nothing for an empty entry, else the whole file that
its path leads to. -/
def fileBytes (d : Disk) (s : Stream) (i : Nat) : List UInt8 :=
  if s.fileLen i = 0 then [] else ((d.contents? (s.filePath i)).map ByteArray.toList).getD []

/-- The content of a stream on disk: the files' bytes, in list order, laid end to end. -/
def diskBytes (d : Disk) (s : Stream) : List UInt8 :=
  (List.range s.files.length).flatMap (s.fileBytes d)

/-- The bytes of piece `p`: for every file the piece overlaps, in order, that file's
bytes at the overlap. -/
def pieceBytes (d : Disk) (s : Stream) (p : Nat) : ByteArray :=
  ⟨((s.rangeAt p).spans.flatMap (Span.read (s.fileBytes d))).toArray⟩

/-- File `i` passes the check before opening. -/
def opens (d : Disk) (s : Stream) (i : Nat) : Bool :=
  match openChecked d (s.filePath i) (s.fileLen i) with
  | .ok _ => true
  | .error _ => false

theorem opens_iff {d : Disk} {s : Stream} {i : Nat} :
    s.opens d i = true ↔ ∃ inode, d.HoldsFile (s.filePath i) (s.fileLen i) inode := by
  unfold opens
  split
  · rename_i inode h
    exact ⟨fun _ => ⟨inode, openChecked_eq_ok_iff.mp h⟩, fun _ => rfl⟩
  · rename_i e h
    simp only [reduceCtorEq, false_iff, not_exists]
    intro inode hh
    rw [openChecked_eq_ok_iff.mpr hh] at h
    cases h

/-- Every non-empty file of the stream is on disk, a regular file of its entry's
length. -/
def Present (d : Disk) (s : Stream) : Prop :=
  ∀ i < s.files.length, s.fileLen i ≠ 0 → ∃ inode, d.HoldsFile (s.filePath i) (s.fileLen i) inode

theorem length_fileBytes {d : Disk} {s : Stream} {i : Nat}
    (h : s.fileLen i ≠ 0 → s.opens d i = true) : (s.fileBytes d i).length = s.fileLen i := by
  unfold fileBytes
  split
  · simp_all
  · rename_i hlen
    obtain ⟨inode, loc, hr, hsize⟩ := opens_iff.mp (h hlen)
    simp [contents?_of_holdsFile ⟨loc, hr, hsize⟩, Blob.toList_bytes, hsize]

/-- **The pieces cut the content.** When every non-empty file is on disk with its
length, the bytes of piece `p` are the content laid end to end, from `p` times the
piece size up to the next piece or the end. -/
theorem pieceBytes_of_present {d : Disk} {s : Stream} (hs : s.Valid) (hpres : s.Present d)
    {p : Nat} (hp : p < s.pieceCount) :
    (s.pieceBytes d p).toList =
      slice (s.diskBytes d) (p * s.pieceSize) (min ((p + 1) * s.pieceSize) s.total) := by
  have hlen : ∀ i < s.files.length, (s.fileBytes d i).length = s.fileLen i := fun i hi =>
    length_fileBytes fun hne => opens_iff.mpr (hpres i hi hne)
  have hlo := mul_pieceSize_lt hs hp
  have hhi : p * s.pieceSize + min s.pieceSize (s.total - p * s.pieceSize) =
      min ((p + 1) * s.pieceSize) s.total := by
    rw [Nat.succ_mul]
    omega
  simp only [pieceBytes, Bytes.toList_mk, rangeAt]
  rw [read_spansIn s _ hlen, hhi]
  rfl

end Stream

/-! ## Reading without a reader -/

/-- One span read through a fresh open of its file. -/
def spanRead (d : Disk) (s : Stream) (sp : Span) : Except FileError ByteArray :=
  match openChecked d (s.filePath sp.file) (s.fileLen sp.file) with
  | .error e => .error e
  | .ok inode =>
    ((d.blob inode).read sp.offset sp.len).mapError
      fun e => ⟨s.filePath sp.file, FileProblem.ofOs e⟩

/-- The bytes of the spans that read, laid end to end, and the files of those that do
not, in order. -/
def spansRead (d : Disk) (s : Stream) : List Span → ByteArray × List SpanError
  | [] => (ByteArray.empty, [])
  | sp :: rest =>
    match spanRead d s sp with
    | .ok data => ((data ++ (spansRead d s rest).1), (spansRead d s rest).2)
    | .error e => ((spansRead d s rest).1, ⟨sp.file, e⟩ :: (spansRead d s rest).2)

/-- A piece read with every span's file opened afresh. -/
def pieceRead (d : Disk) (s : Stream) (range : PieceRange) : Except PieceReadError ByteArray :=
  match (spansRead d s range.spans).2 with
  | [] => .ok (spansRead d s range.spans).1
  | failed => .error ⟨range.index, failed⟩

namespace Reader

/-- The file a reader holds open is the one a fresh open of it gives. -/
def Sound (d : Disk) (s : Stream) (r : Reader) : Prop :=
  ∀ j inode, r.held = some (j, inode) → openChecked d (s.filePath j) (s.fileLen j) = .ok inode

theorem sound_fresh (d : Disk) (s : Stream) : fresh.Sound d s := fun _ _ h => by cases h

variable {d : Disk} {s : Stream}

theorem inodeFor_sound {r : Reader} (hr : r.Sound d s) (i : Nat) :
    (r.inodeFor d s i).map (·.2) = openChecked d (s.filePath i) (s.fileLen i) ∧
      ∀ r' inode, r.inodeFor d s i = .ok (r', inode) → r'.Sound d s := by
  unfold inodeFor
  -- a held file is reused only for its own index, where the fresh open agrees
  have hopen : ∀ r' inode, (openChecked d (s.filePath i) (s.fileLen i)).map
      (fun inode => ((⟨some (i, inode)⟩ : Reader), inode)) = .ok (r', inode) → r'.Sound d s := by
    intro r' inode h
    cases ho : openChecked d (s.filePath i) (s.fileLen i) with
    | error e => rw [ho] at h; cases h
    | ok n =>
      rw [ho] at h
      cases h
      intro j m hjm
      cases hjm
      exact ho
  have hfresh : ∀ e : Except FileError Nat,
      (e.map fun inode => ((⟨some (i, inode)⟩ : Reader), inode)).map (·.2) = e := by
    intro e
    cases e <;> rfl
  split
  · rename_i j inode hheld
    split
    · rename_i hji
      subst hji
      exact ⟨by simp [hr j inode hheld, Except.map], fun r' n h => by cases h; exact hr⟩
    · exact ⟨hfresh _, hopen⟩
  · exact ⟨hfresh _, hopen⟩

theorem readSpan_sound {r : Reader} (hr : r.Sound d s) (sp : Span) :
    (r.readSpan d s sp).2 = spanRead d s sp ∧ (r.readSpan d s sp).1.Sound d s := by
  obtain ⟨hmap, hnext⟩ := inodeFor_sound hr sp.file
  unfold readSpan spanRead
  cases hi : r.inodeFor d s sp.file with
  | error e =>
    rw [hi] at hmap
    simp only [Except.map] at hmap
    rw [← hmap]
    exact ⟨rfl, hr⟩
  | ok ri =>
    obtain ⟨r', inode⟩ := ri
    rw [hi] at hmap
    simp only [Except.map] at hmap
    rw [← hmap]
    exact ⟨rfl, hnext r' inode hi⟩

/-- **Reads ignore the cache.** A sound reader reads spans as fresh opens do, and stays
sound. -/
theorem readSpans_sound : ∀ {r : Reader} (spans : List Span) (buf : ByteArray)
    (failed : List SpanError), r.Sound d s →
      (readSpans d s r spans buf failed).2 =
          (buf ++ (spansRead d s spans).1, failed.reverse ++ (spansRead d s spans).2) ∧
        (readSpans d s r spans buf failed).1.Sound d s
  | r, [], buf, failed, hr => by simp [readSpans, spansRead, hr]
  | r, sp :: rest, buf, failed, hr => by
    obtain ⟨hread, hsound⟩ := readSpan_sound hr sp
    unfold readSpans
    cases hrs : r.readSpan d s sp with
    | mk r' res =>
      rw [hrs] at hread hsound
      simp only at hread hsound
      cases res with
      | ok data =>
        obtain ⟨ih, ihs⟩ := readSpans_sound rest (buf ++ data) failed hsound
        refine ⟨?_, ihs⟩
        rw [ih, spansRead, ← hread, ByteArray.append_assoc]
      | error e =>
        obtain ⟨ih, ihs⟩ := readSpans_sound rest buf (⟨sp.file, e⟩ :: failed) hsound
        refine ⟨?_, ihs⟩
        rw [ih, spansRead, ← hread]
        simp

/-- **A read through any sound reader is the fresh read.** -/
theorem read_sound {r : Reader} (hr : r.Sound d s) (range : PieceRange) :
    (r.read d s range).2 = pieceRead d s range ∧ (r.read d s range).1.Sound d s := by
  obtain ⟨h, hs⟩ := readSpans_sound range.spans ByteArray.empty [] hr
  unfold read pieceRead
  revert hs
  rcases hrs : readSpans d s r range.spans ByteArray.empty [] with ⟨r', buf, failed⟩
  rw [hrs] at h
  simp only [Prod.mk.injEq, List.reverse_nil, List.nil_append] at h
  obtain ⟨rfl, rfl⟩ := h
  intro hs
  cases hf : (spansRead d s range.spans).2 with
  | nil => exact ⟨by simp [ByteArray.empty_append], hs⟩
  | cons e rest => exact ⟨rfl, hs⟩

end Reader

/-! ## Reading a piece -/

section
variable {d : Disk} {s : Stream}

/-- A span inside a file that opens reads the file's bytes there. -/
theorem spanRead_of_opens {sp : Span} (ho : s.opens d sp.file = true)
    (hin : sp.offset + sp.len ≤ s.fileLen sp.file) (hne : s.fileLen sp.file ≠ 0) :
    ∃ bs, spanRead d s sp = .ok bs ∧ bs.toList = Span.read (s.fileBytes d) sp := by
  obtain ⟨inode, loc, hr, hsize⟩ := Stream.opens_iff.mp ho
  obtain ⟨bs, hread, hbs⟩ := @Blob.read_eq_slice (d.blob inode) sp.offset sp.len (hsize ▸ hin)
  refine ⟨bs, ?_, ?_⟩
  · simp [spanRead, openChecked_eq_ok_iff.mpr ⟨loc, hr, hsize⟩, hread, Except.mapError]
  · simp [hbs, Span.read, Stream.fileBytes, hne, contents?_of_holdsFile ⟨loc, hr, hsize⟩]

/-- A span of a file that does not open fails with the open's error. -/
theorem spanRead_of_not_opens {sp : Span} (ho : s.opens d sp.file = false) :
    ∃ e, spanRead d s sp = .error e := by
  unfold Stream.opens at ho
  unfold spanRead
  split
  · exact ⟨_, rfl⟩
  · rename_i inode h
    rw [h] at ho
    cases ho

/-- Spans that stay inside their files read the files' bytes where the files open, and
fail exactly where they do not. -/
theorem spansRead_eq (spans : List Span)
    (h : ∀ sp ∈ spans, 0 < sp.len ∧ sp.offset + sp.len ≤ s.fileLen sp.file) :
    (spansRead d s spans).2.map (·.file) = (spans.map (·.file)).filter (!s.opens d ·) ∧
      ((∀ sp ∈ spans, s.opens d sp.file = true) →
        (spansRead d s spans).1.toList = spans.flatMap (Span.read (s.fileBytes d))) := by
  induction spans with
  | nil => simp [spansRead]
  | cons sp rest ih =>
    obtain ⟨ih1, ih2⟩ := ih fun sp' h' => h sp' (List.mem_cons_of_mem _ h')
    obtain ⟨hpos, hin⟩ := h sp List.mem_cons_self
    cases ho : s.opens d sp.file with
    | true =>
      obtain ⟨bs, hread, hbs⟩ := spanRead_of_opens ho hin (by omega)
      refine ⟨?_, fun hall => ?_⟩
      · simp [spansRead, hread, ih1, ho]
      · simp only [spansRead, hread, Bytes.toList_append, hbs, List.flatMap_cons]
        rw [ih2 fun sp' h' => hall sp' (List.mem_cons_of_mem _ h')]
    | false =>
      obtain ⟨e, hread⟩ := spanRead_of_not_opens ho
      refine ⟨?_, fun hall => ?_⟩
      · simp [spansRead, hread, ih1, ho]
      · rw [hall sp List.mem_cons_self] at ho
        cases ho

/-- **A piece read.** Piece `p` reads, as the bytes of its files at their overlaps,
exactly when every file it touches opens; otherwise the read fails for piece `p`,
naming the files it touches that do not open, in order. -/
theorem pieceRead_rangeAt (p : Nat) :
    ((∀ i ∈ (s.rangeAt p).files, s.opens d i = true) →
        pieceRead d s (s.rangeAt p) = .ok (s.pieceBytes d p)) ∧
      ∀ e, pieceRead d s (s.rangeAt p) = .error e →
        e.piece = p ∧ e.fileIndexes = (s.rangeAt p).files.filter (!s.opens d ·) ∧
          e.fileIndexes ≠ [] := by
  have hin : ∀ sp ∈ (s.rangeAt p).spans, 0 < sp.len ∧ sp.offset + sp.len ≤ s.fileLen sp.file :=
    fun sp hsp => Stream.offset_add_len_le hsp
  obtain ⟨hfailed, hbytes⟩ := @spansRead_eq d s (s.rangeAt p).spans hin
  refine ⟨fun hall => ?_, fun e he => ?_⟩
  · have hall' : ∀ sp ∈ (s.rangeAt p).spans, s.opens d sp.file = true :=
      fun sp hsp => hall sp.file (List.mem_map_of_mem hsp)
    have hnil : (spansRead d s (s.rangeAt p).spans).2 = [] := by
      rw [← List.map_eq_nil_iff, hfailed, List.filter_eq_nil_iff]
      intro i hi
      simp [hall i hi]
    unfold pieceRead
    rw [hnil]
    simp only [Except.ok.injEq]
    rw [← Bytes.toList_inj, hbytes hall', Stream.pieceBytes, Bytes.toList_mk, List.toList_toArray]
  · unfold pieceRead at he
    cases hf : (spansRead d s (s.rangeAt p).spans).2 with
    | nil =>
      rw [hf] at he
      cases he
    | cons x xs =>
      rw [hf] at he
      cases he
      refine ⟨rfl, ?_, by simp [PieceReadError.fileIndexes]⟩
      rw [PieceReadError.fileIndexes, ← hf, hfailed]
      rfl

/-- Piece `p` reads exactly when every file it touches opens. -/
theorem pieceRead_rangeAt_ok_iff (p : Nat) :
    (∃ bs, pieceRead d s (s.rangeAt p) = .ok bs) ↔ ∀ i ∈ (s.rangeAt p).files, s.opens d i = true := by
  constructor
  · rintro ⟨bs, hbs⟩
    have hin : ∀ sp ∈ (s.rangeAt p).spans, 0 < sp.len ∧ sp.offset + sp.len ≤ s.fileLen sp.file :=
      fun sp hsp => Stream.offset_add_len_le hsp
    have hfailed := (@spansRead_eq d s (s.rangeAt p).spans hin).1
    have hnil : (spansRead d s (s.rangeAt p).spans).2 = [] := by
      unfold pieceRead at hbs
      split at hbs
      · assumption
      · cases hbs
    rw [hnil, List.map_nil, eq_comm, List.filter_eq_nil_iff] at hfailed
    intro i hi
    simpa using hfailed i hi
  · exact fun h => ⟨_, (pieceRead_rangeAt p).1 h⟩

end

end Metainfo
