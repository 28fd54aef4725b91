import Metainfo.Proofs.Content.SinglePiece

/-!
# Hashing, then verifying

Content is hashed when a torrent is made and verified against those digests later. The
two judge files differently: hashing opens only the files that some piece touches, while
verifying first checks every entry of the list, the empty ones too. On a disk that does
not change they agree on every piece, and differ on exactly the entries of length zero:

* `hashReference_eq_complete_iff`: hashing completes exactly when every non-empty file is
  on disk with its length, and then gives the digests of the content cut into pieces;
* `not_contentIsFile_of_present`: then, for a stream with content, the content path of a
  multi-file layout is no file, since a non-empty file opens below it;
* `skippedPieces_eq_nil_of_present`, `fileErrors_of_present`: then verifying skips no
  piece, and the files it finds fault with are exactly the empty entries that fail the
  check: missing, a directory, or a file that is not empty;
* `verifyContent_of_hashReference`, `hashReference_of_verifyContent`: verifying the digests
  hashing gave reports every piece checked and clean, and a verification that passes was
  given the digests that hashing gives;
* `hash_then_verify`: the two together, for the runs of both with listeners that never
  halt. A missing empty file fails the verification of content that hashed completely
  (`missing_empty_file_fails_verify`).
-/

namespace Metainfo

section Hashing

variable {σ : Type} {d : Disk} {s : Stream} {w interval : Nat} {listen : σ → Progress → σ × Flow}
  {st : σ}

/-- A listener that never halts lets hashing run to the reference. -/
theorem hashPieces_eq_hashReference (hs : s.Valid) (hnever : ∀ st p, (listen st p).2 = .proceed) :
    (hashPieces d s w interval listen st).2 = s.hashReference d := by
  obtain ⟨sched, hfin, heq⟩ := @hashPieces_eq_ofRun σ d s w interval listen st
  obtain ⟨hcan, hout⟩ := ofRun_hashRun hs sched hfin
  rw [heq, hout, hcan hnever]
  rfl

end Hashing

namespace Stream

variable {d : Disk} {s : Stream}

theorem pieceCount_pos (hs : s.Valid) (hpos : 0 < s.total) : 0 < s.pieceCount := by
  have hps := hs.pieceSize_pos
  unfold pieceCount Piece.count
  exact Nat.div_pos (by omega) hps

/-- **When hashing completes.** Exactly when every non-empty file is on disk with its
length; the digests are then those of the content cut into pieces. -/
theorem hashReference_eq_complete_iff (hs : s.Valid) {L : HashList} :
    s.hashReference d = .complete L ↔
      s.Present d ∧ L = ⟨(List.range s.pieceCount).map (s.pieceDigest d)⟩ := by
  rw [← readErrors_eq_nil_iff hs]
  unfold hashReference
  cases s.readErrors d with
  | nil =>
    constructor
    · intro h
      exact ⟨rfl, (HashOutcome.complete.inj h).symm⟩
    · rintro ⟨-, rfl⟩
      rfl
  | cons e es => simp

/-- When every non-empty file is on disk, a piece's digest is that of the bytes it reads. -/
theorem pieceDigest_of_present (hs : s.Valid) (hpres : s.Present d) {p : Nat}
    (hp : p < s.pieceCount) : s.pieceDigest d p = PieceHash.of (s.pieceBytes d p) := by
  unfold pieceDigest
  congr 1
  apply Bytes.toList_inj.mp
  rw [pieceBytes_of_present hs hpres hp, Bytes.toList_mk, List.toList_toArray]

theorem opens_of_present (hpres : s.Present d) {i : Nat} (hi : i < s.files.length)
    (hlen : s.fileLen i ≠ 0) : s.opens d i = true :=
  opens_iff.mpr (hpres i hi hlen)

/-- A stream with content whose non-empty files are all on disk has no file for a content
path: the first piece holds a non-empty file, and nothing opens below a file. -/
theorem not_contentIsFile_of_present (hs : s.Valid) (hpos : 0 < s.total) (hpres : s.Present d) :
    ¬ s.ContentIsFile d := by
  intro hc
  obtain ⟨i, hi⟩ := List.exists_mem_of_ne_nil _ (files_rangeAt_ne_nil hs (pieceCount_pos hs hpos))
  obtain ⟨hlt, hlen⟩ := fileLen_pos_of_mem_files hi
  have hopen := opens_of_present hpres hlt (by omega)
  rw [opens_eq_false_of_contentIsFile hc hlt] at hopen
  cases hopen

end Stream

section Present

variable {d : Disk} {s : Stream} (hs : s.Valid) (hpos : 0 < s.total) (hpres : s.Present d)
include hs hpos hpres

/-- No piece is skipped when every non-empty file is on disk. -/
theorem skippedPieces_eq_nil_of_present : skippedPieces s (checkFiles d s) = [] := by
  apply List.eq_nil_iff_forall_not_mem.mpr
  intro p hp
  obtain ⟨-, hc | ⟨i, hi, hop⟩⟩ := (mem_skippedPieces_iff hs).mp hp
  · exact Stream.not_contentIsFile_of_present hs hpos hpres hc
  · obtain ⟨hlt, hlen⟩ := fileLen_pos_of_mem_files hi
    rw [Stream.opens_of_present hpres hlt (by omega)] at hop
    cases hop

/-- **Only empty entries are at fault.** When every non-empty file is on disk, the file
check finds fault with exactly the empty entries that fail it, in file order. -/
theorem fileErrors_of_present :
    (checkFiles d s).map (fun e => (e.index, e.error.path)) =
      ((List.range s.files.length).filter fun i =>
        s.fileLen i == 0 && (fileProblem d (s.filePath i) 0).isSome).map
          fun i => (some i, s.filePath i) := by
  rw [checkFiles_index (Stream.not_contentIsFile_of_present hs hpos hpres)]
  congr 1
  apply List.filter_congr
  intro i hi
  rw [List.mem_range] at hi
  by_cases hlen : s.fileLen i = 0
  · -- an empty entry opens exactly when the check finds nothing wrong with it
    have hopen : fileProblem d (s.filePath i) 0 = none ↔ s.opens d i = true := by
      rw [← hlen]
      exact fileProblem_eq_none_iff_opens i
    cases hprob : fileProblem d (s.filePath i) 0 with
    | none => simp [hopen.mp hprob, hlen]
    | some q =>
      have hclosed : s.opens d i = false := by
        cases ho : s.opens d i with
        | false => rfl
        | true => rw [← hopen, hprob] at ho; cases ho
      simp [hclosed, hlen]
  · simp [Stream.opens_of_present hpres hi hlen, hlen]

end Present

section Reference

variable {d : Disk} {s : Stream} {L : HashList}

/-- **Verifying what hashing gave.** Against the digests of a hashing run that completed,
the reference verification checks every piece, skips none and finds every piece clean;
it passes exactly when every empty entry passes the file check. -/
theorem verifyReference_of_hashReference (hs : s.Valid) (hpos : 0 < s.total)
    (hc : s.hashReference d = .complete L) :
    (s.verifyReference d L).checked = s.pieceCount ∧ (s.verifyReference d L).skipped = 0 ∧
      (s.verifyReference d L).contentErrors = [] ∧
      ((s.verifyReference d L).status = .passed ↔
        ∀ i < s.files.length, s.fileLen i = 0 → fileProblem d (s.filePath i) 0 = none) := by
  obtain ⟨hpres, rfl⟩ := (Stream.hashReference_eq_complete_iff hs).mp hc
  have hdig : ∀ p < s.pieceCount, HashList.get? ⟨(List.range s.pieceCount).map (s.pieceDigest d)⟩ p =
      some (PieceHash.of (s.pieceBytes d p)) := by
    intro p hp
    simp [HashList.get?, hp, Stream.pieceDigest_of_present hs hpres hp]
  obtain ⟨hskipped, hchecked⟩ := @skipped_verifyReference d s
    ⟨(List.range s.pieceCount).map (s.pieceDigest d)⟩
  rw [skippedPieces_eq_nil_of_present hs hpos hpres, List.length_nil] at hskipped
  refine ⟨by rw [hchecked, hskipped]; rfl, hskipped,
    contentErrors_eq_nil_iff.mpr fun p hp _ => hdig p hp, ?_⟩
  rw [status_verifyReference.1]
  constructor
  · rintro ⟨-, hopen, -⟩ i hi hlen
    have h := (fileProblem_eq_none_iff_opens i).mpr (hopen i hi)
    rwa [hlen] at h
  · intro hempty
    refine ⟨Stream.not_contentIsFile_of_present hs hpos hpres, fun i hi => ?_, hdig⟩
    by_cases hlen : s.fileLen i = 0
    · have h := hempty i hi hlen
      rw [← hlen] at h
      exact (fileProblem_eq_none_iff_opens i).mp h
    · exact Stream.opens_of_present hpres hi hlen

/-- The expected digests are those of the content when there is one per piece and each is
the digest of its piece's bytes on disk. -/
theorem eq_digests_of_get? (hs : s.Valid) (hpres : s.Present d) (hlen : L.length = s.pieceCount)
    (hdig : ∀ p < s.pieceCount, L.get? p = some (PieceHash.of (s.pieceBytes d p))) :
    L = ⟨(List.range s.pieceCount).map (s.pieceDigest d)⟩ := by
  obtain ⟨hashes⟩ := L
  congr 1
  apply List.ext_getElem?
  intro p
  by_cases hp : p < s.pieceCount
  · rw [List.getElem?_map, List.getElem?_range hp, Option.map_some,
      Stream.pieceDigest_of_present hs hpres hp]
    exact hdig p hp
  · have hge : hashes.length ≤ p := by
      have : hashes.length = s.pieceCount := hlen
      omega
    rw [List.getElem?_eq_none hge, List.getElem?_eq_none (by simp; omega)]

end Reference

section Verify

variable {σ : Type} {d : Disk} {s : Stream} {L : HashList} {w interval : Nat}
  {listen : σ → Progress → σ × Flow} {st : σ}

/-- Verification answers only when there is one expected digest per piece. -/
theorem length_of_verifyContent {x : σ × Report}
    (h : verifyContent d s L w interval listen st = .ok x) : L.length = s.pieceCount := by
  by_cases hlen : L.length = s.pieceCount
  · exact hlen
  · have hcount : checkHashCount s L = .error (.hashCount s.pieceCount L.length) := if_pos hlen
    unfold verifyContent at h
    rw [hcount] at h
    cases h

/-- Verifying against the digests of a hashing run that completed. -/
theorem verifyContent_of_hashReference (hs : s.Valid) (hpos : 0 < s.total)
    (hc : s.hashReference d = .complete L) (hnever : ∀ st p, (listen st p).2 = .proceed) :
    ∃ st' r, verifyContent d s L w interval listen st = .ok (st', r) ∧
      r.checked = s.pieceCount ∧ r.skipped = 0 ∧ r.contentErrors = [] ∧ r.readErrors = [] ∧
      r.cancelled = false ∧
      r.fileErrors.map (fun e => (e.index, e.error.path)) =
        ((List.range s.files.length).filter fun i =>
          s.fileLen i == 0 && (fileProblem d (s.filePath i) 0).isSome).map
            (fun i => (some i, s.filePath i)) ∧
      (r.status = .passed ↔
        ∀ i < s.files.length, s.fileLen i = 0 → fileProblem d (s.filePath i) 0 = none) := by
  obtain ⟨hpres, hL⟩ := (Stream.hashReference_eq_complete_iff hs).mp hc
  have hlen : L.length = s.pieceCount := by
    rw [hL]
    simp [HashList.length]
  obtain ⟨st', hverify⟩ : ∃ st', verifyContent d s L w interval listen st =
      .ok (st', s.verifyReference d L) := verifyContent_eq_reference hs hlen hnever
  obtain ⟨hchecked, hskipped, hcontent, hstatus⟩ := verifyReference_of_hashReference hs hpos hc
  exact ⟨st', _, hverify, hchecked, hskipped, hcontent, rfl, rfl,
    fileErrors_of_present hs hpos hpres, hstatus⟩

/-- A verification that passes was given the digests that hashing gives. -/
theorem hashReference_of_verifyContent (hs : s.Valid) (hnever : ∀ st p, (listen st p).2 = .proceed)
    {st' : σ} {r : Report} (h : verifyContent d s L w interval listen st = .ok (st', r))
    (hpass : r.status = .passed) : s.hashReference d = .complete L := by
  have hlen := length_of_verifyContent h
  obtain ⟨st'', hverify⟩ : ∃ st'', verifyContent d s L w interval listen st =
      .ok (st'', s.verifyReference d L) := verifyContent_eq_reference hs hlen hnever
  -- the run is the reference's, so the report is the reference's
  have hr : r = s.verifyReference d L := by
    rw [h] at hverify
    exact (Prod.mk.inj (Except.ok.inj hverify)).2
  rw [hr, status_verifyReference.1] at hpass
  obtain ⟨-, hopen, hdig⟩ := hpass
  have hpres : s.Present d := fun i hi _ => Stream.opens_iff.mp (hopen i hi)
  exact (Stream.hashReference_eq_complete_iff hs).mpr ⟨hpres, eq_digests_of_get? hs hpres hlen hdig⟩

end Verify

/-- **Hashing, then verifying.** On a stream with content and a disk that does not
change, with listeners that never halt: when hashing completes with digests `L`,
verifying against `L` checks every piece, skips none, finds no corrupt or unreadable
piece and is not cancelled; the files it finds fault with are exactly the empty entries
that are missing, a directory or a non-empty file, so it passes exactly when there are
none. Conversely, a verification against `L` that passes means that hashing completes
with `L`. -/
theorem hash_then_verify {σ τ : Type} (d : Disk) (s : Stream) (hs : s.Valid) (hpos : 0 < s.total)
    (w interval : Nat) (listen : σ → Progress → σ × Flow) (st : σ)
    (hnever : ∀ st p, (listen st p).2 = .proceed)
    (w' interval' : Nat) (listen' : τ → Progress → τ × Flow) (st' : τ)
    (hnever' : ∀ st p, (listen' st p).2 = .proceed) (L : HashList) :
    ((hashPieces d s w interval listen st).2 = .complete L →
      ∃ st'' r, verifyContent d s L w' interval' listen' st' = .ok (st'', r) ∧
        r.checked = s.pieceCount ∧ r.skipped = 0 ∧ r.contentErrors = [] ∧ r.readErrors = [] ∧
        r.cancelled = false ∧
        r.fileErrors.map (fun e => (e.index, e.error.path)) =
          ((List.range s.files.length).filter fun i =>
            s.fileLen i == 0 && (fileProblem d (s.filePath i) 0).isSome).map
              (fun i => (some i, s.filePath i)) ∧
        (r.status = .passed ↔
          ∀ i < s.files.length, s.fileLen i = 0 → fileProblem d (s.filePath i) 0 = none)) ∧
    (∀ st'' r, verifyContent d s L w' interval' listen' st' = .ok (st'', r) →
      r.status = .passed → (hashPieces d s w interval listen st).2 = .complete L) := by
  rw [hashPieces_eq_hashReference hs hnever]
  exact ⟨fun hc => verifyContent_of_hashReference hs hpos hc hnever',
    fun _ _ h hpass => hashReference_of_verifyContent hs hnever' h hpass⟩

/-- A stream of the one byte `x` in file `a`, followed by an empty entry `b`. -/
def Stream.withEmptyEntry : Stream :=
  ⟨FileList.multi [⟨["a"], 1⟩, ⟨["b"], 0⟩], "content", 1, 1⟩

/-- A disk holding `content/a` with the byte `x`, and no `content/b`. -/
def Disk.emptyEntryMissing : Disk :=
  ⟨[(["content".toUTF8], .dir), (["content".toUTF8, "a".toUTF8], .file 0)],
    [Blob.ofBytes ⟨#[120]⟩]⟩

/-- An empty entry that is missing: hashing completes, and verifying against what it gave
checks the one piece, skips nothing, and fails. -/
theorem missing_empty_file_fails_verify :
    ∃ L, (hashPieces Disk.emptyEntryMissing Stream.withEmptyEntry 1 0
        (fun (u : Unit) _ => (u, Flow.proceed)) ()).2 = .complete L ∧
      ∃ st r, verifyContent Disk.emptyEntryMissing Stream.withEmptyEntry L 1 0
          (fun (u : Unit) _ => (u, Flow.proceed)) () = .ok (st, r) ∧
        r.checked = 1 ∧ r.skipped = 0 ∧ r.status ≠ .passed := by
  have hs : Stream.withEmptyEntry.Valid := ⟨by decide, rfl⟩
  have hpos : 0 < Stream.withEmptyEntry.total := by decide
  -- `content/a` holds the byte, and `content/b` is not there
  have hpresent : Stream.withEmptyEntry.Present Disk.emptyEntryMissing := by
    intro i hi hlen
    have hcount : Stream.withEmptyEntry.files.length = 2 := rfl
    obtain _ | _ | i := i
    · refine ⟨0, ["content".toUTF8, "a".toUTF8], ?_, rfl⟩
      have hpath : Stream.withEmptyEntry.filePath 0 = "content/a" := by decide +kernel
      have hsplit : Path.split "content/a" = ["content", "a"] := by decide
      have hdir : Disk.emptyEntryMissing.lookup ["content".toByteArray] = some .dir := by
        decide +kernel
      have hfile : Disk.emptyEntryMissing.lookup ["content".toByteArray, "a".toByteArray] =
          some (.file 0) := by decide +kernel
      rw [hpath, Disk.resolve, if_neg (by decide +kernel), hsplit]
      simp [Disk.walk, hdir, hfile]
    · exact absurd rfl hlen
    · omega
  have hmissing : fileProblem Disk.emptyEntryMissing (Stream.withEmptyEntry.filePath 1) 0 =
      some .notFound := by
    have hpath : Stream.withEmptyEntry.filePath 1 = "content/b" := by decide +kernel
    have hsplit : Path.split "content/b" = ["content", "b"] := by decide
    have hres : Disk.emptyEntryMissing.resolve "content/b" true = .ok (.absent ["content".toUTF8, "b".toUTF8]) := by
      have hdir : Disk.emptyEntryMissing.lookup ["content".toByteArray] = some .dir := by
        decide +kernel
      have hnone : Disk.emptyEntryMissing.lookup ["content".toByteArray, "b".toByteArray] = none := by
        decide +kernel
      rw [Disk.resolve, if_neg (by decide +kernel), hsplit]
      simp [Disk.walk, hdir, hnone]
    simp [hpath, fileProblem, Disk.metadata, Disk.stat, hres, FileProblem.ofOs]
  have hc := (Stream.hashReference_eq_complete_iff hs).mpr ⟨hpresent, rfl⟩
  refine ⟨_, (hashPieces_eq_hashReference hs fun _ _ => rfl).trans hc, ?_⟩
  obtain ⟨st, r, hverify, hchecked, hskipped, -, -, -, -, hstatus⟩ :=
    @verifyContent_of_hashReference Unit _ _ _ 1 0 (fun (u : Unit) _ => (u, Flow.proceed)) ()
      hs hpos hc fun _ _ => rfl
  refine ⟨st, r, hverify, hchecked, hskipped, fun hpass => ?_⟩
  have hempty := hstatus.mp hpass 1 (by decide) rfl
  rw [hmissing] at hempty
  cases hempty

/-- On the stream with an empty entry, a verification that passes was given the digests
hashing gives. -/
theorem withEmptyEntry_passes_only_as_hashed :
    Stream.withEmptyEntry.Valid ∧ 0 < Stream.withEmptyEntry.total ∧
      ∀ L st r, verifyContent Disk.emptyEntryMissing Stream.withEmptyEntry L 1 0
          (fun (u : Unit) _ => (u, Flow.proceed)) () = .ok (st, r) → r.status = .passed →
        (hashPieces Disk.emptyEntryMissing Stream.withEmptyEntry 1 0
          (fun (u : Unit) _ => (u, Flow.proceed)) ()).2 = .complete L := by
  have hs : Stream.withEmptyEntry.Valid := ⟨by decide, rfl⟩
  have hpos : 0 < Stream.withEmptyEntry.total := by decide
  exact ⟨hs, hpos, fun L => (hash_then_verify Disk.emptyEntryMissing Stream.withEmptyEntry hs hpos
    1 0 (fun (u : Unit) _ => (u, Flow.proceed)) () (fun _ _ => rfl)
    1 0 (fun (u : Unit) _ => (u, Flow.proceed)) () (fun _ _ => rfl) L).2⟩

end Metainfo
