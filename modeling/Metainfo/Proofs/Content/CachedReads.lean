import Metainfo.Proofs.Content.Report
import Metainfo.Proofs.Layout.Lookups

/-!
# Reading pieces through one reader

A `Reader` keeps the last file it opened, reads later spans of that file without checking
it again, and keeps what it held when an open fails. On a disk that does not change none
of that shows, and what a read gives is fixed by the disk alone:

* `readPieces_fresh`: pieces read one after another through one reader read as each
  piece read with a fresh reader (the run lemma over `read_sound`, the step);
* `openChecked_eq_error_iff`: the check before opening refuses a file with the problem that
  the file check of a verification finds (`fileProblem`), at the file's path;
* `getElem?_flatMap_files`: in contents laid end to end, each of its entry's length (as
  `laidBytes` makes them), a stream position holds the byte of the file whose bytes hold
  it;
* `getElem?_pieceBytes`: so byte `k` of a piece that reads is the byte at stream position
  `offset + k`, taken from the file that holds it;
* `cached_reads_fresh`: the whole statement, with `ReadsPiece` saying what a fresh read
  of a piece gives.

A link that names itself shows that a file that fails is not always missing, a directory
or of another length: the walk gives up on it, and the read reports the system's error
(`selfLink_read_fails`).
-/

namespace Metainfo

namespace Reader

/-- Reads pieces one after another through one reader, which keeps its open file from one
read to the next; an index past the last piece is refused without a read. -/
def readPieces (d : Disk) (s : Stream) : Reader → List Nat →
    List (Except StreamError (Except PieceReadError ByteArray))
  | _, [] => []
  | r, i :: rest =>
    match s.pieceRange i with
    | .error e => .error e :: readPieces d s r rest
    | .ok range => .ok (r.read d s range).2 :: readPieces d s (r.read d s range).1 rest

variable {d : Disk} {s : Stream}

/-- Through a sound reader, a run of reads reads each piece as opening its files afresh
does; each read keeps the reader sound (`read_sound`). -/
theorem readPieces_sound {r : Reader} (hr : r.Sound d s) : ∀ idx : List Nat,
    readPieces d s r idx = idx.map fun i => (s.pieceRange i).map (pieceRead d s)
  | [] => rfl
  | i :: rest => by
    cases hrange : s.pieceRange i with
    | error e =>
      simp only [readPieces, hrange, readPieces_sound hr rest, List.map_cons]
      rfl
    | ok range =>
      obtain ⟨hread, hsound⟩ := read_sound hr range
      simp only [readPieces, hrange, hread, readPieces_sound hsound rest, List.map_cons]
      rfl

/-- **The cache does not show.** Reading pieces one after another through one reader gives,
read by read, what reading each piece with a fresh reader gives. -/
theorem readPieces_fresh (idx : List Nat) :
    readPieces d s fresh idx =
      idx.map fun i => (s.pieceRange i).map fun range => (fresh.read d s range).2 := by
  rw [readPieces_sound (sound_fresh d s)]
  refine List.map_congr_left fun i _ => ?_
  cases s.pieceRange i with
  | error e => rfl
  | ok range => exact congrArg Except.ok (read_sound (sound_fresh d s) range).1.symm

end Reader

/-! ## Why a file fails -/

/-- **The check before opening.** It refuses a file exactly when the file check finds a
problem with it, and reports that problem at the file's path. -/
theorem openChecked_eq_error_iff {d : Disk} {path : String} {len : Nat} {e : FileError} :
    openChecked d path len = .error e ↔ e.path = path ∧ fileProblem d path len = some e.problem := by
  obtain ⟨epath, eproblem⟩ := e
  unfold openChecked fileProblem Disk.metadata Disk.stat Disk.openRead
  cases hr : d.resolve path true with
  | error err => simp [eq_comm]
  | ok t =>
    cases t with
    | absent loc => simp [eq_comm]
    | node loc n =>
      cases n with
      | dir => simp [eq_comm]
      | file i => by_cases hlen : (d.blob i).size = len <;> simp [hlen, eq_comm]
      | link t => exact absurd hr (d.resolve_follow_ne_link path loc t)

section
variable {d : Disk} {s : Stream}

/-- A span inside its file fails only when the file does not open, with the open's error. -/
theorem openChecked_of_spanRead {sp : Span} (hin : sp.offset + sp.len ≤ s.fileLen sp.file)
    {e : FileError} (h : spanRead d s sp = .error e) :
    openChecked d (s.filePath sp.file) (s.fileLen sp.file) = .error e := by
  unfold spanRead at h
  cases ho : openChecked d (s.filePath sp.file) (s.fileLen sp.file) with
  | error e' =>
    rw [ho] at h
    simp only [Except.error.injEq] at h
    rw [h]
  | ok inode =>
    -- the file opens with its length, so the span's bytes are there
    obtain ⟨loc, hr, hsize⟩ := openChecked_eq_ok_iff.mp ho
    obtain ⟨bs, hread, -⟩ := @Blob.read_eq_ok (d.blob inode) sp.offset sp.len (hsize ▸ hin)
    rw [ho] at h
    simp [hread, Except.mapError] at h

/-- Every failure collected from spans inside their files is its file's refusal to open. -/
theorem openChecked_of_mem_spansRead : ∀ {spans : List Span},
    (∀ sp ∈ spans, sp.offset + sp.len ≤ s.fileLen sp.file) →
      ∀ x ∈ (spansRead d s spans).2,
        openChecked d (s.filePath x.file) (s.fileLen x.file) = .error x.error
  | [], _, x, hx => by simp [spansRead] at hx
  | sp :: rest, hin, x, hx => by
    have ih := openChecked_of_mem_spansRead fun sp' h' => hin sp' (List.mem_cons_of_mem _ h')
    unfold spansRead at hx
    cases hsp : spanRead d s sp with
    | ok data =>
      rw [hsp] at hx
      exact ih x hx
    | error e =>
      rw [hsp] at hx
      rcases List.mem_cons.mp hx with rfl | hx
      · exact openChecked_of_spanRead (hin sp List.mem_cons_self) hsp
      · exact ih x hx

end

/-! ## The bytes a piece reads -/

/-- The part of a list from `lo` on holds, at `k`, the element at `lo + k`. -/
theorem getElem?_slice {α : Type} (l : List α) {lo hi k : Nat} (hk : k < hi - lo) :
    (slice l lo hi)[k]? = l[lo + k]? := by
  rw [slice, List.getElem?_take_of_lt hk, List.getElem?_drop]

namespace Stream

variable {d : Disk} {s : Stream}

/-- The bytes file `i` stands for in the stream: its bytes when it opens, and otherwise as
many zeros as its entry's length, so that every file has its entry's length. -/
def laidBytes (d : Disk) (s : Stream) (i : Nat) : List UInt8 :=
  if s.opens d i then s.fileBytes d i else List.replicate (s.fileLen i) 0

theorem length_laidBytes (i : Nat) : (s.laidBytes d i).length = s.fileLen i := by
  unfold laidBytes
  split
  · rename_i ho
    exact length_fileBytes fun _ => ho
  · exact List.length_replicate

/-- The files before `k`, each of its entry's length, laid end to end, reach the start of
file `k`. -/
theorem length_flatMap_range {α : Type} (f : Nat → List α)
    (hf : ∀ i < s.files.length, (f i).length = s.fileLen i) {k : Nat}
    (hk : k ≤ s.files.length) : ((List.range k).flatMap f).length = s.start k := by
  have hpos := congrArg List.length (flatMap_range'_start s k hk)
  simp only [List.length_flatMap, List.length_range'] at hpos ⊢
  rw [← hpos]
  congr 1
  refine List.map_congr_left fun i hi => hf i ?_
  have := List.mem_range.mp hi
  omega

/-- **Contents laid end to end.** When every file has its entry's length, the element at a
stream position is that of the file whose bytes hold the position, counted from the file's
start. -/
theorem getElem?_flatMap_files {α : Type} (f : Nat → List α)
    (hf : ∀ i < s.files.length, (f i).length = s.fileLen i) {j q : Nat} (hj : s.start j ≤ q)
    (hq : q < s.stop j) :
    ((List.range s.files.length).flatMap f)[q]? = (f j)[q - s.start j]? := by
  have hjn := lt_length_of_start_le hj hq
  have hlen := s.stop_eq hjn
  -- the files before `j`, file `j`, and the `m` files after it
  obtain ⟨m, hm⟩ : ∃ m, s.files.length = j + 1 + m := ⟨s.files.length - j - 1, by omega⟩
  have hsplit : List.range s.files.length = List.range j ++ j :: List.range' (j + 1) m := by
    have happend := @List.range'_append_1 0 j (m + 1)
    rw [Nat.zero_add, List.range'_succ] at happend
    rw [hm, List.range_eq_range', List.range_eq_range', happend, Nat.add_assoc, Nat.add_comm 1 m]
  have hbefore := length_flatMap_range f hf (Nat.le_of_lt hjn)
  rw [hsplit, List.flatMap_append, List.flatMap_cons,
    List.getElem?_append_right (by omega), hbefore,
    List.getElem?_append_left (by rw [hf j hjn]; omega)]

/-- A file that holds a byte of a piece is among the files the piece reads. -/
theorem mem_files_rangeAt_of_holds {p k j : Nat} (hk : k < (s.rangeAt p).len)
    (hj : s.start j ≤ (s.rangeAt p).offset + k) (hj' : (s.rangeAt p).offset + k < s.stop j) :
    j ∈ (s.rangeAt p).files := by
  refine mem_files_spansIn.mpr ⟨lt_length_of_start_le hj hj', ?_⟩
  simp only [rangeAt] at hk hj hj' ⊢
  omega

/-- When every file a piece touches opens, the piece's bytes are those of the laid-out
contents from its offset for its length. -/
theorem toList_pieceBytes_eq_slice {p : Nat}
    (hopen : ∀ i ∈ (s.rangeAt p).files, s.opens d i = true) :
    (s.pieceBytes d p).toList = slice ((List.range s.files.length).flatMap (s.laidBytes d))
      (s.rangeAt p).offset ((s.rangeAt p).offset + (s.rangeAt p).len) := by
  -- every span's file opens, so the spans read the same from the laid-out bytes
  have hspans : (s.rangeAt p).spans.flatMap (Span.read (s.fileBytes d)) =
      (s.rangeAt p).spans.flatMap (Span.read (s.laidBytes d)) := by
    refine List.flatMap_congr fun sp hsp => ?_
    have ho := hopen sp.file (List.mem_map_of_mem hsp)
    simp only [Span.read, laidBytes, ho, if_true]
  have hpiece : (s.pieceBytes d p).toList =
      (s.rangeAt p).spans.flatMap (Span.read (s.fileBytes d)) := by
    simp [pieceBytes]
  rw [hpiece, hspans]
  exact read_spansIn s (s.laidBytes d) (fun i _ => length_laidBytes i) _ _

/-- **The bytes of a piece.** When every file a piece touches opens, byte `k` of the piece
is the byte at stream position `offset + k`, taken from the file that holds it. -/
theorem getElem?_pieceBytes {p : Nat} (hopen : ∀ i ∈ (s.rangeAt p).files, s.opens d i = true)
    {k j : Nat} (hk : k < (s.rangeAt p).len) (hj : s.start j ≤ (s.rangeAt p).offset + k)
    (hj' : (s.rangeAt p).offset + k < s.stop j) :
    (s.pieceBytes d p).toList[k]? = (s.fileBytes d j)[(s.rangeAt p).offset + k - s.start j]? := by
  rw [toList_pieceBytes_eq_slice hopen, getElem?_slice _ (by omega),
    getElem?_flatMap_files (s.laidBytes d) (fun i _ => length_laidBytes i) hj hj', laidBytes,
    if_pos (hopen j (mem_files_rangeAt_of_holds hk hj hj'))]

/-- A piece below the count that reads has its length in bytes. -/
theorem length_pieceBytes (hs : s.Valid) {p : Nat} (hp : p < s.pieceCount)
    (hopen : ∀ i ∈ (s.rangeAt p).files, s.opens d i = true) :
    (s.pieceBytes d p).toList.length = (s.rangeAt p).len := by
  obtain ⟨-, -, hend⟩ := rangeAt_bounds hs hp
  rw [toList_pieceBytes_eq_slice hopen, length_slice,
    length_flatMap_range (s.laidBytes d) (fun i _ => length_laidBytes i) (Nat.le_refl _),
    start_length hs]
  omega

/-- The spans of a piece below the count fill it. -/
theorem sum_len_rangeAt (hs : s.Valid) {p : Nat} (hp : p < s.pieceCount) :
    ((s.rangeAt p).spans.map (·.len)).sum = (s.rangeAt p).len := by
  obtain ⟨-, -, hend⟩ := rangeAt_bounds hs hp
  have htile := @positions_spansIn s hs (s.rangeAt p).offset _ hend
  rw [Nat.add_sub_cancel_left] at htile
  have hlen := congrArg List.length htile
  have hspans : (s.rangeAt p).spans =
      s.spansIn (s.rangeAt p).offset ((s.rangeAt p).offset + (s.rangeAt p).len) := rfl
  rw [hspans]
  simpa [List.length_flatMap] using hlen

end Stream

/-- A read that fails names the failures of its spans. -/
theorem files_of_pieceRead_error {d : Disk} {s : Stream} {range : PieceRange} {e : PieceReadError}
    (h : pieceRead d s range = .error e) : e.files = (spansRead d s range.spans).2 := by
  unfold pieceRead at h
  split at h
  · cases h
  · cases h
    rfl

/-- What reading piece `i` with a fresh reader gives. -/
structure ReadsPiece (d : Disk) (s : Stream) (i : Nat) : Prop where
  /-- the spans fill the piece, so every span's bytes go inside the piece's buffer -/
  spans_fill : ((s.rangeAt i).spans.map (·.len)).sum = (s.rangeAt i).len
  /-- the read succeeds exactly when every file of the piece is, links followed, a regular
  file of its entry's length -/
  ok_iff : (∃ bs, (Reader.fresh.read d s (s.rangeAt i)).2 = .ok bs) ↔
    ∀ j ∈ (s.rangeAt i).files, ∃ inode, d.HoldsFile (s.filePath j) (s.fileLen j) inode
  /-- it then gives the piece's bytes of the stream: byte `k` is the byte of the file that
  holds stream position `offset + k`, counted from the file's start -/
  bytes : ∀ bs, (Reader.fresh.read d s (s.rangeAt i)).2 = .ok bs →
    bs.toList.length = (s.rangeAt i).len ∧
    ∀ k < (s.rangeAt i).len, ∀ j, s.start j ≤ (s.rangeAt i).offset + k →
      (s.rangeAt i).offset + k < s.stop j →
      ∃ c, d.contents? (s.filePath j) = some c ∧
        bs.toList[k]? = c.toList[(s.rangeAt i).offset + k - s.start j]?
  /-- otherwise it fails for piece `i`, naming once each and in span order the files that
  are not, each at its path and with the problem the file check finds there -/
  errors : ∀ e, (Reader.fresh.read d s (s.rangeAt i)).2 = .error e → e.piece = i ∧
    e.fileIndexes =
      (s.rangeAt i).files.filter (fun j => (fileProblem d (s.filePath j) (s.fileLen j)).isSome) ∧
    e.fileIndexes.Nodup ∧
    ∀ x ∈ e.files, x.error.path = s.filePath x.file ∧
      fileProblem d (s.filePath x.file) (s.fileLen x.file) = some x.error.problem

section
variable {d : Disk} {s : Stream}

/-- The bytes a fresh read of a piece gives. -/
theorem bytes_of_read_ok (hs : s.Valid) {p : Nat} (hp : p < s.pieceCount) {bs : ByteArray}
    (h : (Reader.fresh.read d s (s.rangeAt p)).2 = .ok bs) :
    bs.toList.length = (s.rangeAt p).len ∧
    ∀ k < (s.rangeAt p).len, ∀ j, s.start j ≤ (s.rangeAt p).offset + k →
      (s.rangeAt p).offset + k < s.stop j →
      ∃ c, d.contents? (s.filePath j) = some c ∧
        bs.toList[k]? = c.toList[(s.rangeAt p).offset + k - s.start j]? := by
  rw [(Reader.read_sound (Reader.sound_fresh d s) _).1] at h
  have hopen := (pieceRead_rangeAt_ok_iff p).mp ⟨bs, h⟩
  -- a read that succeeds gives the piece's bytes
  obtain rfl : bs = s.pieceBytes d p := by
    rw [(pieceRead_rangeAt p).1 hopen] at h
    exact (Except.ok.inj h).symm
  refine ⟨Stream.length_pieceBytes hs hp hopen, fun k hk j hj hj' => ?_⟩
  have hjmem := Stream.mem_files_rangeAt_of_holds hk hj hj'
  obtain ⟨inode, hholds⟩ := Stream.opens_iff.mp (hopen j hjmem)
  refine ⟨_, contents?_of_holdsFile hholds, ?_⟩
  -- file `j` holds a byte, so it is not empty and its bytes are its contents
  have hlen : s.fileLen j ≠ 0 := by
    have := s.stop_eq (Stream.lt_length_of_start_le hj hj')
    omega
  rw [Stream.getElem?_pieceBytes hopen hk hj hj', Stream.fileBytes, if_neg hlen,
    contents?_of_holdsFile hholds]
  rfl

/-- The failures a fresh read of a piece reports. -/
theorem errors_of_read_error {p : Nat} {e : PieceReadError}
    (h : (Reader.fresh.read d s (s.rangeAt p)).2 = .error e) :
    e.piece = p ∧
    e.fileIndexes =
      (s.rangeAt p).files.filter (fun j => (fileProblem d (s.filePath j) (s.fileLen j)).isSome) ∧
    e.fileIndexes.Nodup ∧
    ∀ x ∈ e.files, x.error.path = s.filePath x.file ∧
      fileProblem d (s.filePath x.file) (s.fileLen x.file) = some x.error.problem := by
  rw [(Reader.read_sound (Reader.sound_fresh d s) _).1] at h
  obtain ⟨hpiece, hindexes, -⟩ := (pieceRead_rangeAt p).2 e h
  -- the files that do not open are those the file check finds a problem with
  have hfilter : (s.rangeAt p).files.filter (fun j => !s.opens d j) =
      (s.rangeAt p).files.filter (fun j => (fileProblem d (s.filePath j) (s.fileLen j)).isSome) := by
    refine List.filter_congr fun j _ => ?_
    cases hprob : fileProblem d (s.filePath j) (s.fileLen j) with
    | none => simp [(fileProblem_eq_none_iff_opens j).mp hprob]
    | some pr => simp [opens_eq_false_of_fileProblem hprob]
  refine ⟨hpiece, hindexes.trans hfilter, ?_, fun x hx => ?_⟩
  · rw [hindexes]
    exact (Stream.nodup_files_spansIn _ _).filter _
  · -- each failure is its file's refusal to open, which is the file check's problem
    rw [files_of_pieceRead_error h] at hx
    have hopen := openChecked_of_mem_spansRead
      (fun sp hsp => (Stream.offset_add_len_le hsp).2) x hx
    exact openChecked_eq_error_iff.mp hopen

theorem readsPiece_fresh (hs : s.Valid) {p : Nat} (hp : p < s.pieceCount) : ReadsPiece d s p where
  spans_fill := Stream.sum_len_rangeAt hs hp
  ok_iff := by
    rw [(Reader.read_sound (Reader.sound_fresh d s) _).1, pieceRead_rangeAt_ok_iff]
    exact forall₂_congr fun j _ => Stream.opens_iff
  bytes := fun _ h => bytes_of_read_ok hs hp h
  errors := fun _ h => errors_of_read_error h

end

/-- **Reading through one reader.** On a disk that does not change, reading pieces one
after another through one reader gives, read by read, what reading each with a fresh reader
gives; and a fresh read of piece `i` below the count, which `pieceRange` gives, reads the
stream's bytes of the piece when each of its files is a regular file of its entry's length,
and otherwise fails naming, in span order and once each, every file that is not, with the
problem the file check finds. -/
theorem cached_reads_fresh (d : Disk) (s : Stream) (hs : s.Valid) (idx : List Nat) :
    Reader.readPieces d s Reader.fresh idx =
        idx.map (fun i => (s.pieceRange i).map fun range => (Reader.fresh.read d s range).2) ∧
      ∀ i < s.pieceCount, s.pieceRange i = .ok (s.rangeAt i) ∧ ReadsPiece d s i :=
  ⟨Reader.readPieces_fresh idx, fun _ hi => ⟨Stream.pieceRange_eq_ok hi, readsPiece_fresh hs hi⟩⟩

/-! ## A link that names itself -/

/-- A link that names itself, followed, loops until the walk has no links left. -/
theorem Disk.walk_selfLink {d : Disk} {dir : Loc} {c : String}
    (hname : c ≠ "" ∧ c ≠ "." ∧ c ≠ "..") (hlink : d.lookup (dir ++ [c.toUTF8]) = some (.link c))
    (hsplit : Path.split c = [c]) (hrel : c.startsWith "/" = false) :
    ∀ hops, d.walk true hops dir [c] = .error .tooManyLinks
  | 0 => by
    rw [Disk.walk]
    simp only [String.toUTF8] at hlink
    simp [hname, hlink]
  | k + 1 => by
    have hloop := Disk.walk_selfLink hname hlink hsplit hrel k
    rw [Disk.walk]
    simp only [String.toUTF8] at hlink
    simp [hname, hlink, hrel, hsplit, hloop]

/-- A disk whose `content/a` is a link to itself. -/
def Disk.selfLink : Disk :=
  ⟨[(["content".toUTF8], .dir), (["content".toUTF8, "a".toUTF8], .link "a")], []⟩

/-- One file `a` of one byte under `content`, in pieces of one byte. -/
def Stream.oneByte : Stream :=
  ⟨FileList.multi [⟨["a"], 1⟩], "content", 1, 1⟩

/-- The walk to `content/a` gives up after following the link forty times. -/
theorem Disk.resolve_selfLink : Disk.selfLink.resolve "content/a" true = .error .tooManyLinks := by
  rw [Disk.resolve, if_neg (by decide +kernel), show Path.split "content/a" = ["content", "a"] by decide,
    Disk.walk]
  simp only [show Disk.selfLink.lookup ([] ++ ["content".toUTF8]) = some .dir by decide +kernel]
  simp [Disk.walk_selfLink (show "a" ≠ "" ∧ "a" ≠ "." ∧ "a" ≠ ".." by decide)
    (show Disk.selfLink.lookup (["content".toByteArray] ++ ["a".toUTF8]) = some (.link "a") by
      decide +kernel) (by decide) (by decide +kernel)]

/-- Reading the piece of a file whose path is a link to itself fails, and names the file
with the error the walk gave up with: it is not reported missing, a directory or of another
length. -/
theorem selfLink_read_fails :
    (Reader.fresh.read Disk.selfLink Stream.oneByte (Stream.oneByte.rangeAt 0)).2 =
      .error ⟨0, [⟨0, ⟨"content/a", .io .tooManyLinks⟩⟩]⟩ := by
  have hrange : Stream.oneByte.rangeAt 0 = ⟨0, 0, 1, [⟨0, 0, 1⟩]⟩ := by
    rw [Stream.rangeAt, Stream.spansIn_eq]
    decide
  have hpath : Stream.oneByte.filePath 0 = "content/a" := by decide +kernel
  rw [(Reader.read_sound (Reader.sound_fresh _ _) _).1, hrange]
  simp [pieceRead, spansRead, spanRead, openChecked, Disk.metadata, Disk.stat, hpath,
    Disk.resolve_selfLink, FileProblem.ofOs]

/-- Reads through one reader of the one-byte file whose path is a link to itself. -/
theorem selfLink_reads_as_fresh :
    Stream.oneByte.Valid ∧
      (Reader.readPieces Disk.selfLink Stream.oneByte Reader.fresh [0, 1, 0] =
          [0, 1, 0].map (fun i => (Stream.oneByte.pieceRange i).map fun range =>
            (Reader.fresh.read Disk.selfLink Stream.oneByte range).2) ∧
        ∀ i < Stream.oneByte.pieceCount, Stream.oneByte.pieceRange i = .ok (Stream.oneByte.rangeAt i) ∧
          ReadsPiece Disk.selfLink Stream.oneByte i) :=
  have hs : Stream.oneByte.Valid := ⟨by decide, rfl⟩
  ⟨hs, cached_reads_fresh Disk.selfLink Stream.oneByte hs [0, 1, 0]⟩

end Metainfo
