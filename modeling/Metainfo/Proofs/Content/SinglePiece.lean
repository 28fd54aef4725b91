import Metainfo.Proofs.Content.Report
import Metainfo.Proofs.Disk.Walk

/-!
# Checking one piece

`verifyPiece` checks a single piece with a fresh reader, opening each of its files as it
reads them; `verifyContent` checks every file's metadata first and skips the pieces that
touch a file that failed. On a disk that does not change the two agree piece by piece:

* `opens_eq_false_of_contentIsFile`: when the multi layout's content path is a regular
  file, no file of the list opens, since every path below a file leads nowhere; so the
  piece reader fails on every piece that `verifyContent` skips for that reason;
* `exists_pieceRead_error_iff`: a piece fails to read exactly when `verifyContent` skips
  it;
* `mem_contentErrors_iff`: the content errors of the report are the mismatches of the
  pieces that are not skipped, one for each;
* `verifyPiece_of_skipped`, `verifyPiece_of_not_skipped`: a skipped piece is unreadable,
  and any other is judged by the digest of its bytes on disk; the three verdicts follow
  from these two cases;
* `verifyPiece_agrees`: one piece is unreadable, a mismatch or a match exactly as the
  whole verification skips it, reports it corrupt or checks it clean.
-/

namespace Metainfo

/-- A path that the file check finds to be a regular file leads, links followed, to a
file. -/
theorem resolve_of_isFile {d : Disk} {path : String} (h : isFile d path = true) :
    ∃ loc i, d.resolve path true = .ok (.node loc (.file i)) := by
  unfold isFile Disk.metadata Disk.stat at h
  -- only a file's metadata has the kind of a file
  rcases hr : d.resolve path true with e | ⟨loc, _ | i | t⟩ | loc <;>
    simp only [hr, Bool.false_eq_true] at h
  exact ⟨loc, i, rfl⟩

namespace Stream

variable {d : Disk} {s : Stream}

/-- In the multi layout a file of the list lies below the content path. -/
theorem filePath_of_multi (hmulti : s.files.layout = .multi) {i : Nat} (hi : i < s.files.length) :
    s.filePath i = Path.push s.content s.files.entries[i].relative := by
  simp [filePath, FileList.resolve, hmulti, FileList.get?, List.getElem?_eq_getElem hi]

/-- **A file where the directory should be.** When the multi layout's content path is a
regular file, no file of the list opens: each lies below that file. -/
theorem opens_eq_false_of_contentIsFile (hc : s.ContentIsFile d) {i : Nat}
    (hi : i < s.files.length) : s.opens d i = false := by
  obtain ⟨loc, j, hcontent⟩ := resolve_of_isFile hc.2
  obtain ⟨e, hpath⟩ := Disk.resolve_push_of_file hcontent s.files.entries[i].relative
  rw [← filePath_of_multi hc.1 hi] at hpath
  simp [opens, openChecked, Disk.metadata, Disk.stat, hpath]

/-- A piece below the count holds at least one file. -/
theorem files_rangeAt_ne_nil (hs : s.Valid) {p : Nat} (hp : p < s.pieceCount) :
    (s.rangeAt p).files ≠ [] := by
  have hlo := mul_pieceSize_lt hs hp
  have hps := hs.pieceSize_pos
  have hhi : p * s.pieceSize + min s.pieceSize (s.total - p * s.pieceSize) ≤ s.total := by omega
  -- the piece's spans cover its bytes, and it has at least one
  have htile := @positions_spansIn s hs (p * s.pieceSize) _ hhi
  intro hnil
  have hspans : s.spansIn (p * s.pieceSize)
      (p * s.pieceSize + min s.pieceSize (s.total - p * s.pieceSize)) = [] :=
    List.map_eq_nil_iff.mp hnil
  rw [hspans, List.flatMap_nil, Nat.add_sub_cancel_left] at htile
  have hlen := List.range'_eq_nil_iff.mp htile.symm
  omega

end Stream

section Agreement

variable {d : Disk} {s : Stream} {expected : HashList}

/-- `verifyPiece` reads the piece afresh and compares its digest. -/
theorem verifyPiece_eq (hlen : expected.length = s.pieceCount) {p : Nat} (hp : p < s.pieceCount) :
    verifyPiece d s expected p =
      match pieceRead d s (s.rangeAt p) with
      | .ok data =>
        .ok (if expected.get? p = some (PieceHash.of data) then .matches
          else .mismatch (mismatchOf s (s.rangeAt p)))
      | .error e => .ok (.unreadable e) := by
  have hcount : checkHashCount s expected = .ok () := if_neg fun h => h hlen
  have hrange : s.pieceRange p = .ok (s.rangeAt p) := if_neg (Nat.not_le_of_lt hp)
  have hread := (Reader.read_sound (Reader.sound_fresh d s) (s.rangeAt p)).1
  unfold verifyPiece
  rw [hcount, hrange]
  dsimp only [Except.mapError, bind, Except.bind]
  -- a fresh reader reads what opening every file afresh reads
  rw [hread]
  cases pieceRead d s (s.rangeAt p) with
  | ok data => dsimp only; split <;> rfl
  | error e => rfl

/-- Reading a piece fails exactly when one of its files does not open. -/
theorem exists_pieceRead_error_iff_opens (p : Nat) :
    (∃ e, pieceRead d s (s.rangeAt p) = .error e) ↔
      ∃ i ∈ (s.rangeAt p).files, s.opens d i = false := by
  constructor
  · rintro ⟨e, he⟩
    obtain ⟨-, hfiles, hne⟩ := (pieceRead_rangeAt p).2 e he
    obtain ⟨i, hi⟩ := List.exists_mem_of_ne_nil _ hne
    rw [hfiles, List.mem_filter, Bool.not_eq_true'] at hi
    exact ⟨i, hi⟩
  · rintro ⟨i, hi, ho⟩
    cases hr : pieceRead d s (s.rangeAt p) with
    | error e => exact ⟨e, rfl⟩
    | ok bs =>
      rw [(pieceRead_rangeAt_ok_iff p).mp ⟨bs, hr⟩ i hi] at ho
      cases ho

/-- **Unreadable exactly when skipped.** A piece fails to read exactly when the
verification skips it: when the content path is a file where a directory should be, or
when the piece touches a file that fails the check. -/
theorem exists_pieceRead_error_iff (hs : s.Valid) {p : Nat} (hp : p < s.pieceCount) :
    (∃ e, pieceRead d s (s.rangeAt p) = .error e) ↔ p ∈ skippedPieces s (checkFiles d s) := by
  rw [exists_pieceRead_error_iff_opens, mem_skippedPieces_iff hs]
  constructor
  · rintro ⟨i, hi, ho⟩
    exact ⟨hp, .inr ⟨i, hi, ho⟩⟩
  · rintro ⟨-, hc | hfile⟩
    · -- the piece holds a file, and no file opens below a file
      obtain ⟨i, hi⟩ := List.exists_mem_of_ne_nil _ (Stream.files_rangeAt_ne_nil hs hp)
      exact ⟨i, hi, Stream.opens_eq_false_of_contentIsFile hc (fileLen_pos_of_mem_files hi).1⟩
    · exact hfile

/-- The content errors of the reference, piece by piece: one for each piece that is not
skipped and whose bytes have another digest, naming that piece. -/
theorem mem_contentErrors_iff {m : Mismatch} {p : Nat} (hp : p < s.pieceCount) :
    m ∈ (s.verifyReference d expected).contentErrors ∧ m.piece = p ↔
      p ∉ skippedPieces s (checkFiles d s) ∧
        expected.get? p ≠ some (PieceHash.of (s.pieceBytes d p)) ∧ m = mismatchOf s (s.rangeAt p) := by
  rw [contentErrors_verifyReference, List.mem_map]
  constructor
  · rintro ⟨⟨q, hq, rfl⟩, rfl⟩
    simp only [List.mem_filter, decide_eq_true_eq] at hq
    exact ⟨hq.2.1, hq.2.2, rfl⟩
  · rintro ⟨hskip, hdig, rfl⟩
    exact ⟨⟨p, List.mem_filter.mpr ⟨List.mem_range.mpr hp, decide_eq_true ⟨hskip, hdig⟩⟩, rfl⟩, rfl⟩

section Classification

variable (hs : s.Valid) (hlen : expected.length = s.pieceCount) {p : Nat} (hp : p < s.pieceCount)
include hs hlen hp

/-- A skipped piece is unreadable on its own. -/
theorem verifyPiece_of_skipped (hsk : p ∈ skippedPieces s (checkFiles d s)) :
    ∃ e, pieceRead d s (s.rangeAt p) = .error e ∧
      verifyPiece d s expected p = .ok (.unreadable e) := by
  obtain ⟨e, he⟩ := (exists_pieceRead_error_iff hs hp).mpr hsk
  refine ⟨e, he, ?_⟩
  rw [verifyPiece_eq hlen hp, he]

/-- A piece that is not skipped reads the bytes on disk, and its digest decides. -/
theorem verifyPiece_of_not_skipped (hsk : p ∉ skippedPieces s (checkFiles d s)) :
    verifyPiece d s expected p =
      .ok (if expected.get? p = some (PieceHash.of (s.pieceBytes d p)) then .matches
        else .mismatch (mismatchOf s (s.rangeAt p))) := by
  have hall : ∀ i ∈ (s.rangeAt p).files, s.opens d i = true := by
    intro i hi
    cases ho : s.opens d i with
    | true => rfl
    | false => exact absurd ((mem_skippedPieces_iff hs).mpr ⟨hp, .inr ⟨i, hi, ho⟩⟩) hsk
  rw [verifyPiece_eq hlen hp, (pieceRead_rangeAt p).1 hall]

theorem verifyPiece_unreadable_iff :
    (∃ e, verifyPiece d s expected p = .ok (.unreadable e)) ↔
      p ∈ skippedPieces s (checkFiles d s) := by
  by_cases hsk : p ∈ skippedPieces s (checkFiles d s)
  · obtain ⟨e, -, hv⟩ := verifyPiece_of_skipped hs hlen hp hsk
    exact ⟨fun _ => hsk, fun _ => ⟨e, hv⟩⟩
  · rw [verifyPiece_of_not_skipped hs hlen hp hsk]
    by_cases hdig : expected.get? p = some (PieceHash.of (s.pieceBytes d p)) <;> simp [hsk, hdig]

theorem verifyPiece_mismatch_iff (m : Mismatch) :
    verifyPiece d s expected p = .ok (.mismatch m) ↔
      m ∈ (s.verifyReference d expected).contentErrors ∧ m.piece = p := by
  rw [mem_contentErrors_iff hp]
  by_cases hsk : p ∈ skippedPieces s (checkFiles d s)
  · obtain ⟨e, -, hv⟩ := verifyPiece_of_skipped hs hlen hp hsk
    simp [hv, hsk]
  · rw [verifyPiece_of_not_skipped hs hlen hp hsk]
    by_cases hdig : expected.get? p = some (PieceHash.of (s.pieceBytes d p))
    · simp [hdig]
    · simp [hsk, hdig, eq_comm]

theorem verifyPiece_matches_iff :
    verifyPiece d s expected p = .ok .matches ↔
      p ∈ checkedPieces s (checkFiles d s) ∧
        (∀ m ∈ (s.verifyReference d expected).contentErrors, m.piece ≠ p) ∧
          ∀ e ∈ (s.verifyReference d expected).readErrors, e.piece ≠ p := by
  have hchecked : p ∈ checkedPieces s (checkFiles d s) ↔ p ∉ skippedPieces s (checkFiles d s) := by
    simp [checkedPieces, hp]
  -- the reference reports no read errors at all
  have hread : ∀ e ∈ (s.verifyReference d expected).readErrors, e.piece ≠ p :=
    fun _ he => absurd he List.not_mem_nil
  rw [hchecked]
  by_cases hsk : p ∈ skippedPieces s (checkFiles d s)
  · obtain ⟨e, -, hv⟩ := verifyPiece_of_skipped hs hlen hp hsk
    simp [hv, hsk]
  · rw [verifyPiece_of_not_skipped hs hlen hp hsk]
    by_cases hdig : expected.get? p = some (PieceHash.of (s.pieceBytes d p))
    · simp only [hdig, ↓reduceIte, true_iff]
      exact ⟨hsk, fun m hm heq => ((mem_contentErrors_iff hp).mp ⟨hm, heq⟩).2.1 hdig, hread⟩
    · -- the piece's own content error names it
      simp only [hdig, ↓reduceIte, Except.ok.injEq, reduceCtorEq, false_iff, not_and]
      intro _ hall _
      exact hall _ ((mem_contentErrors_iff hp).mpr ⟨hsk, hdig, rfl⟩).1 rfl

omit hs in
/-- An unreadable piece's error names the piece and the files of it that fail the check. -/
theorem fileIndexes_of_verifyPiece {e : PieceReadError}
    (h : verifyPiece d s expected p = .ok (.unreadable e)) :
    e.piece = p ∧ e.fileIndexes = (s.rangeAt p).files.filter fun i =>
      (fileProblem d (s.filePath i) (s.fileLen i)).isSome := by
  rw [verifyPiece_eq hlen hp] at h
  cases hread : pieceRead d s (s.rangeAt p) with
  | ok data =>
    rw [hread] at h
    dsimp only at h
    split at h <;> cases h
  | error e' =>
    rw [hread] at h
    cases h
    obtain ⟨hpiece, hfiles, -⟩ := (pieceRead_rangeAt p).2 _ hread
    refine ⟨hpiece, hfiles.trans (List.filter_congr fun i _ => ?_)⟩
    -- a file fails to open exactly when its metadata shows a problem
    cases hprob : fileProblem d (s.filePath i) (s.fileLen i) with
    | none => simp [(fileProblem_eq_none_iff_opens i).mp hprob]
    | some q => simp [opens_eq_false_of_fileProblem hprob]

end Classification

/-- **Checking one piece is checking it among all.** On a valid stream, with one expected
digest per piece and a listener that never halts, `verifyContent` reports some report `r`,
and for each piece `p` below the count, `verifyPiece` finds it
* unreadable exactly when the verification skips it;
* a mismatch `m` exactly when `m` is the content error that the report gives for `p`;
* a match exactly when the verification checks it and reports nothing for it;
and an unreadable piece's error names `p` and, in span order, exactly the files of the
piece that fail the check of existence, kind and length. -/
theorem verifyPiece_agrees {σ : Type} (d : Disk) (s : Stream) (hs : s.Valid)
    (expected : HashList) (hlen : expected.length = s.pieceCount) (w interval : Nat)
    (listen : σ → Progress → σ × Flow) (st : σ) (hnever : ∀ st p, (listen st p).2 = .proceed)
    {p : Nat} (hp : p < s.pieceCount) :
    ∃ st' r, verifyContent d s expected w interval listen st = .ok (st', r) ∧
      ((∃ e, verifyPiece d s expected p = .ok (.unreadable e)) ↔
        p ∈ skippedPieces s (checkFiles d s)) ∧
      (∀ m, verifyPiece d s expected p = .ok (.mismatch m) ↔
        m ∈ r.contentErrors ∧ m.piece = p) ∧
      (verifyPiece d s expected p = .ok .matches ↔
        p ∈ checkedPieces s (checkFiles d s) ∧ (∀ m ∈ r.contentErrors, m.piece ≠ p) ∧
          ∀ e ∈ r.readErrors, e.piece ≠ p) ∧
      ∀ e, verifyPiece d s expected p = .ok (.unreadable e) →
        e.piece = p ∧ e.fileIndexes = (s.rangeAt p).files.filter fun i =>
          (fileProblem d (s.filePath i) (s.fileLen i)).isSome := by
  obtain ⟨st', hverify⟩ : ∃ st', verifyContent d s expected w interval listen st =
      .ok (st', s.verifyReference d expected) := verifyContent_eq_reference hs hlen hnever
  exact ⟨st', _, hverify, verifyPiece_unreadable_iff hs hlen hp, verifyPiece_mismatch_iff hs hlen hp,
    verifyPiece_matches_iff hs hlen hp, fun _ => fileIndexes_of_verifyPiece hlen hp⟩

/-- The three-file stream over a disk on which its content path is a regular file: its
middle piece, checked alone, is unreadable exactly as the whole verification skips it. -/
theorem contentFile_middle_piece_skipped :
    Stream.threeFiles.Valid ∧ 1 < Stream.threeFiles.pieceCount ∧
      ((∃ e, verifyPiece ⟨[(["content".toUTF8], .file 0)], []⟩ Stream.threeFiles
          ⟨List.replicate 3 (PieceHash.of .empty)⟩ 1 = .ok (.unreadable e)) ↔
        1 ∈ skippedPieces Stream.threeFiles
          (checkFiles ⟨[(["content".toUTF8], .file 0)], []⟩ Stream.threeFiles)) := by
  have hs : Stream.threeFiles.Valid := ⟨by decide, rfl⟩
  have hp : 1 < Stream.threeFiles.pieceCount := by decide
  obtain ⟨_, _, -, hskip, -⟩ := verifyPiece_agrees ⟨[(["content".toUTF8], .file 0)], []⟩
    Stream.threeFiles hs ⟨List.replicate 3 (PieceHash.of .empty)⟩ rfl 2 0
    (fun (u : Unit) _ => (u, Flow.proceed)) () (fun _ _ => rfl) hp
  exact ⟨hs, hp, hskip⟩

end Agreement

end Metainfo
