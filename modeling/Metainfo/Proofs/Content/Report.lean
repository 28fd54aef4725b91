import Mathlib.Data.List.Basic
import Metainfo.Content.Verify
import Metainfo.Proofs.Content.Sequential

/-!
# What a verification reports

Verification checks every file by its metadata, skips the pieces that touch a file that
failed, and has a pool of workers read and compare the rest. On a disk that does not
change, the report is fixed by the disk and the expected digests alone, whatever order
the pool runs in:

* `fileProblem_eq_none_iff`: a file passes the check exactly when it opens for reading,
  because a walk that follows links never ends on one;
* `mem_skippedPieces_iff`: a piece is skipped exactly when it touches a file that failed;
  this is where the division-based map from files to pieces (`piecesOfFile`) and the
  span-based one (`rangeAt`) must agree;
* `Stream.verifyReference`: the report of verifying in order, each piece that is not
  skipped read afresh;
* `ofRun_pieceRun`: every schedule of the pool that finishes reports the reference, and
  so does `verifyContent` (`verifyContent_eq_reference`);
* `status_verifyReference`: the reference passes exactly when every file is on disk with
  its length and every piece has its expected digest.
-/

namespace Metainfo

/-! ## Links followed -/

namespace Disk

/-- A walk that follows links never ends on one: the only case that returns a link is the
one that `follow` rules out, and every other case returns something else or walks on. -/
theorem walk_follow_ne_link (d : Disk) (hops : Nat) (dir : Loc) (comps : List String)
    (loc : Loc) (t : String) : d.walk true hops dir comps ≠ .ok (.node loc (.link t)) := by
  fun_induction d.walk true hops dir comps <;> simp_all

theorem resolve_follow_ne_link (d : Disk) (path : String) (loc : Loc) (t : String) :
    d.resolve path true ≠ .ok (.node loc (.link t)) := by
  unfold resolve
  split
  · simp
  · exact d.walk_follow_ne_link _ _ _ loc t

end Disk

/-- **The file check is the check before opening.** A path passes the check by its
metadata exactly when it leads to a regular file of the expected length, the file that
opening it reads. -/
theorem fileProblem_eq_none_iff {d : Disk} {path : String} {len : Nat} :
    fileProblem d path len = none ↔ ∃ inode, d.HoldsFile path len inode := by
  unfold fileProblem Disk.metadata Disk.stat Disk.HoldsFile
  cases hr : d.resolve path true with
  | error e => simp
  | ok t =>
    cases t with
    | absent loc => simp
    | node loc n =>
      cases n with
      | dir => simp
      | file i => by_cases hlen : (d.blob i).size = len <;> simp [hlen]
      | link t => exact absurd hr (d.resolve_follow_ne_link path loc t)

/-! ## The file check -/

namespace Stream

/-- The content path stands where the multi layout needs a directory, and is a regular
file. -/
def ContentIsFile (d : Disk) (s : Stream) : Prop :=
  s.files.layout = .multi ∧ isFile d s.content = true

end Stream

section FileCheck

variable {d : Disk} {s : Stream}

theorem fileProblem_eq_none_iff_opens (i : Nat) :
    fileProblem d (s.filePath i) (s.fileLen i) = none ↔ s.opens d i = true :=
  fileProblem_eq_none_iff.trans Stream.opens_iff.symm

theorem opens_eq_false_of_fileProblem {i : Nat} {p : FileProblem}
    (hp : fileProblem d (s.filePath i) (s.fileLen i) = some p) : s.opens d i = false := by
  cases ho : s.opens d i with
  | false => rfl
  | true =>
    rw [(fileProblem_eq_none_iff_opens i).mpr ho] at hp
    cases hp

theorem checkFiles_of_contentIsFile (h : s.ContentIsFile d) :
    checkFiles d s = [⟨none, ⟨s.content, .notDirectory⟩⟩] :=
  if_pos h

theorem checkFiles_of_not_contentIsFile (h : ¬ s.ContentIsFile d) :
    checkFiles d s = (List.range s.files.length).filterMap fun i =>
      (fileProblem d (s.filePath i) (s.fileLen i)).map fun p => ⟨some i, ⟨s.filePath i, p⟩⟩ :=
  if_neg h

theorem mem_checkFiles {e : FileCheck} (h : ¬ s.ContentIsFile d) :
    e ∈ checkFiles d s ↔ ∃ i < s.files.length, ∃ p,
      fileProblem d (s.filePath i) (s.fileLen i) = some p ∧ e = ⟨some i, ⟨s.filePath i, p⟩⟩ := by
  rw [checkFiles_of_not_contentIsFile h, List.mem_filterMap]
  simp only [List.mem_range, Option.map_eq_some_iff]
  constructor
  · rintro ⟨i, hi, p, hp, rfl⟩
    exact ⟨i, hi, p, hp, rfl⟩
  · rintro ⟨i, hi, p, hp, rfl⟩
    exact ⟨i, hi, p, hp, rfl⟩

/-- **Which files fail.** Unless the content path is a file, the check names, in file
order, every file that does not open, by its index and path. -/
theorem checkFiles_index (h : ¬ s.ContentIsFile d) :
    (checkFiles d s).map (fun e => (e.index, e.error.path)) =
      ((List.range s.files.length).filter fun i => !s.opens d i).map
        fun i => (some i, s.filePath i) := by
  rw [checkFiles_of_not_contentIsFile h, List.map_filterMap, ← List.filterMap_eq_filter,
    List.map_filterMap]
  congr 1
  funext i
  have hopen := @fileProblem_eq_none_iff_opens d s i
  cases hp : fileProblem d (s.filePath i) (s.fileLen i) with
  | none => simp [Option.guard, hopen.mp hp]
  | some p => simp [Option.guard, opens_eq_false_of_fileProblem hp]

/-- A file fails the check exactly when it is a file of the stream that does not open. -/
theorem exists_checkFiles_iff (h : ¬ s.ContentIsFile d) {i : Nat} :
    (∃ e ∈ checkFiles d s, e.index = some i) ↔ i < s.files.length ∧ s.opens d i = false := by
  constructor
  · rintro ⟨e, he, hi⟩
    obtain ⟨j, hj, p, hp, rfl⟩ := (mem_checkFiles h).mp he
    cases hi
    exact ⟨hj, opens_eq_false_of_fileProblem hp⟩
  · rintro ⟨hi, hop⟩
    cases hp : fileProblem d (s.filePath i) (s.fileLen i) with
    | none =>
      rw [(fileProblem_eq_none_iff_opens i).mp hp] at hop
      cases hop
    | some p => exact ⟨_, (mem_checkFiles h).mpr ⟨i, hi, p, hp, rfl⟩, rfl⟩

/-- No file fails exactly when the content path is no file and every file opens. -/
theorem checkFiles_eq_nil_iff :
    checkFiles d s = [] ↔ ¬ s.ContentIsFile d ∧ ∀ i < s.files.length, s.opens d i = true := by
  by_cases hc : s.ContentIsFile d
  · simp [checkFiles_of_contentIsFile hc, hc]
  · have hidx := checkFiles_index hc
    simp only [hc, not_false_eq_true, true_and]
    constructor
    · intro h i hi
      rw [h, List.map_nil, eq_comm, List.map_eq_nil_iff, List.filter_eq_nil_iff] at hidx
      simpa using hidx i (List.mem_range.mpr hi)
    · intro hall
      have hnil : ((List.range s.files.length).filter fun i => !s.opens d i) = [] :=
        List.filter_eq_nil_iff.mpr fun i hi => by simp [hall i (List.mem_range.mp hi)]
      rw [hnil, List.map_nil, List.map_eq_nil_iff] at hidx
      exact hidx

end FileCheck

/-! ## Skipped and checked pieces -/

section Skipped

variable {d : Disk} {s : Stream}

/-- The skipped pieces, as the check computes them: every piece if the content path is a
file, else the union, over the files that fail, of the pieces from the one of a file's
first byte to the one of its last. -/
theorem mem_skippedPieces_iff_union {p : Nat} :
    p ∈ skippedPieces s (checkFiles d s) ↔ p < s.pieceCount ∧ (s.ContentIsFile d ∨
      ∃ i < s.files.length, s.opens d i = false ∧
        (s.piecesOfFile i).1 ≤ p ∧ p < (s.piecesOfFile i).2) := by
  unfold skippedPieces
  rw [List.mem_filter, List.mem_range]
  refine and_congr_right fun hp => ?_
  by_cases hc : s.ContentIsFile d
  · simp [checkFiles_of_contentIsFile hc, hc]
  · rw [List.any_eq_true]
    simp only [hc, false_or]
    constructor
    · rintro ⟨e, he, hm⟩
      obtain ⟨i, hi, q, hq, rfl⟩ := (mem_checkFiles hc).mp he
      exact ⟨i, hi, opens_eq_false_of_fileProblem hq, by simpa using hm⟩
    · rintro ⟨i, hi, hop, hm⟩
      obtain ⟨e, he, hei⟩ := (exists_checkFiles_iff hc).mpr ⟨hi, hop⟩
      refine ⟨e, he, ?_⟩
      rw [hei]
      simpa using hm

/-- **Skipped pieces.** A piece is skipped exactly when the content path is a file or the
piece touches a file that fails the check. The check finds the pieces of a file by
dividing its offsets by the piece size; a piece's files come from its spans; the two
agree. -/
theorem mem_skippedPieces_iff (hs : s.Valid) {p : Nat} :
    p ∈ skippedPieces s (checkFiles d s) ↔ p < s.pieceCount ∧
      (s.ContentIsFile d ∨ ∃ i ∈ (s.rangeAt p).files, s.opens d i = false) := by
  rw [mem_skippedPieces_iff_union]
  refine and_congr_right fun hp => or_congr_right ?_
  constructor
  · rintro ⟨i, -, hop, hm⟩
    exact ⟨i, (Stream.mem_files_rangeAt_iff hs hp i).mpr hm, hop⟩
  · rintro ⟨i, hi, hop⟩
    exact ⟨i, (fileLen_pos_of_mem_files hi).1, hop, (Stream.mem_files_rangeAt_iff hs hp i).mp hi⟩

/-- A piece is read exactly when it is not skipped: the content path is no file and every
file the piece touches opens. -/
theorem mem_checkedPieces_iff (hs : s.Valid) {p : Nat} :
    p ∈ checkedPieces s (checkFiles d s) ↔ p < s.pieceCount ∧ ¬ s.ContentIsFile d ∧
      ∀ i ∈ (s.rangeAt p).files, s.opens d i = true := by
  unfold checkedPieces
  rw [List.mem_filter, List.mem_range, decide_eq_true_eq, mem_skippedPieces_iff hs]
  constructor
  · rintro ⟨hp, hn⟩
    refine ⟨hp, fun hc => hn ⟨hp, .inl hc⟩, fun i hi => ?_⟩
    cases ho : s.opens d i with
    | false => exact absurd ⟨hp, .inr ⟨i, hi, ho⟩⟩ hn
    | true => rfl
  · rintro ⟨hp, hc, hall⟩
    refine ⟨hp, ?_⟩
    rintro ⟨-, hc' | ⟨i, hi, ho⟩⟩
    · exact hc hc'
    · rw [hall i hi] at ho
      cases ho

/-- The pieces read and the pieces skipped make up all the pieces. -/
theorem length_checkedPieces_add (errors : List FileCheck) :
    (checkedPieces s errors).length + (skippedPieces s errors).length = s.pieceCount := by
  have hsplit := @List.length_eq_countP_add_countP Nat
    (fun p => decide (p ∉ skippedPieces s errors)) (List.range s.pieceCount)
  rw [List.length_range, List.countP_eq_length_filter, List.countP_eq_length_filter] at hsplit
  -- the pieces that are not read are the skipped ones, in the same order
  have hskip : (List.range s.pieceCount).filter
      (fun p => decide ¬ (decide (p ∉ skippedPieces s errors)) = true) = skippedPieces s errors := by
    conv => rhs; unfold skippedPieces
    refine List.filter_congr fun p hp => ?_
    rw [Bool.eq_iff_iff, decide_eq_true_eq, decide_eq_true_eq, Decidable.not_not]
    unfold skippedPieces
    rw [List.mem_filter]
    exact and_iff_right hp
  rw [hskip] at hsplit
  exact hsplit.symm

theorem skippedPieces_nil : skippedPieces s [] = [] := by
  simp [skippedPieces]

/-- A piece that is read reads as its bytes on disk. -/
theorem pieceRead_of_mem_checkedPieces (hs : s.Valid) {p : Nat}
    (hp : p ∈ checkedPieces s (checkFiles d s)) :
    pieceRead d s (s.rangeAt p) = .ok (s.pieceBytes d p) :=
  (pieceRead_rangeAt p).1 ((mem_checkedPieces_iff hs).mp hp).2.2

end Skipped

/-! ## The reference report -/

namespace Stream

/-- Verifying in order: the files checked, then every piece touching no failed file read
afresh, in index order, and its digest compared with the expected one. -/
def verifyReference (d : Disk) (s : Stream) (expected : HashList) : Report :=
  let fileErrors := checkFiles d s
  let checked := checkedPieces s fileErrors
  ⟨s.pieceCount, checked.length, s.pieceCount - checked.length, fileErrors,
    (checked.filter fun p => expected.get? p ≠ some (PieceHash.of (s.pieceBytes d p))).map
      fun p => mismatchOf s (s.rangeAt p),
    [], false⟩

end Stream

section Reference

variable {d : Disk} {s : Stream} {expected : HashList}

/-- **Content errors.** One for every piece that is not skipped and whose digest on disk
is not the expected one, in piece order; each names the piece's files and their paths. -/
theorem contentErrors_verifyReference :
    (s.verifyReference d expected).contentErrors =
      ((List.range s.pieceCount).filter fun p => p ∉ skippedPieces s (checkFiles d s) ∧
        expected.get? p ≠ some (PieceHash.of (s.pieceBytes d p))).map
          fun p => mismatchOf s (s.rangeAt p) := by
  simp only [Stream.verifyReference, checkedPieces, List.filter_filter]
  congr 1
  refine List.filter_congr fun p _ => ?_
  rw [Bool.decide_and, Bool.and_comm]

theorem pairwise_contentErrors :
    (s.verifyReference d expected).contentErrors.Pairwise fun a b => a.piece < b.piece := by
  rw [contentErrors_verifyReference, List.pairwise_map]
  exact (List.pairwise_lt_range.filter _).imp fun h => by simpa [mismatchOf] using h

/-- The skipped count is the number of skipped pieces, and every other piece is
checked. -/
theorem skipped_verifyReference :
    (s.verifyReference d expected).skipped = (skippedPieces s (checkFiles d s)).length ∧
      (s.verifyReference d expected).checked =
        (s.verifyReference d expected).total - (s.verifyReference d expected).skipped := by
  have hsum := @length_checkedPieces_add s (checkFiles d s)
  simp only [Stream.verifyReference]
  omega

theorem contentErrors_eq_nil_iff :
    (s.verifyReference d expected).contentErrors = [] ↔ ∀ p < s.pieceCount,
      p ∉ skippedPieces s (checkFiles d s) →
        expected.get? p = some (PieceHash.of (s.pieceBytes d p)) := by
  rw [contentErrors_verifyReference, List.map_eq_nil_iff, List.filter_eq_nil_iff]
  simp

/-- **The verdict.** The reference passes exactly when the content path is no file, every
file opens and every piece has its expected digest; it is never cancelled. -/
theorem status_verifyReference :
    ((s.verifyReference d expected).status = .passed ↔ ¬ s.ContentIsFile d ∧
      (∀ i < s.files.length, s.opens d i = true) ∧
      ∀ p < s.pieceCount, expected.get? p = some (PieceHash.of (s.pieceBytes d p))) ∧
    (s.verifyReference d expected).status ≠ .cancelled := by
  -- nothing is cancelled and nothing fails to read, so only two kinds of error remain
  have hstatus : (s.verifyReference d expected).status =
      if checkFiles d s = [] ∧ (s.verifyReference d expected).contentErrors = [] then .passed
      else .failed := by
    simp [Report.status, Stream.verifyReference]
  refine ⟨?_, by rw [hstatus]; split <;> simp⟩
  rw [hstatus, ← and_assoc, ← checkFiles_eq_nil_iff]
  constructor
  · intro h
    split at h
    · rename_i hh
      refine ⟨hh.1, fun p hp => contentErrors_eq_nil_iff.mp hh.2 p hp ?_⟩
      rw [hh.1, skippedPieces_nil]
      exact List.not_mem_nil
    · cases h
  · rintro ⟨hnil, hall⟩
    rw [if_pos ⟨hnil, contentErrors_eq_nil_iff.mpr fun p hp _ => hall p hp⟩]

end Reference

/-! ## Verifying on the pool -/

section Pool

variable {σ : Type} {d : Disk} {s : Stream} {expected : HashList} {w interval : Nat}
  {listen : σ → Progress → σ × Flow} {st : σ}

/-- The completion of a piece that is read holds the digest of its bytes on disk. -/
theorem completion_of_mem_checkedPieces (hs : s.Valid) {p : Nat}
    (hp : p ∈ checkedPieces s (checkFiles d s)) :
    s.completion d p = (s.rangeAt p, .ok (PieceHash.of (s.pieceBytes d p))) := by
  simp [Stream.completion, pieceRead_of_mem_checkedPieces hs hp, Except.map]

/-- The content errors of the completions of the pieces read are the reference's. -/
theorem filterMap_mismatch?_completion (hs : s.Valid) :
    ((checkedPieces s (checkFiles d s)).map (s.completion d)).filterMap
        (Completion.mismatch? s expected) =
      (s.verifyReference d expected).contentErrors := by
  rw [List.filterMap_map, Stream.verifyReference, ← List.filterMap_eq_filter, List.map_filterMap]
  refine List.filterMap_congr fun p hp => ?_
  rw [Function.comp_apply, completion_of_mem_checkedPieces hs hp]
  by_cases hh : expected.get? p = some (PieceHash.of (s.pieceBytes d p)) <;>
    simp [Completion.mismatch?, Option.guard, hh]

/-- The pieces read all read, so their completions hold no read error. -/
theorem filterMap_error?_completion (hs : s.Valid) :
    ((checkedPieces s (checkFiles d s)).map (s.completion d)).filterMap Completion.error? = [] := by
  rw [List.filterMap_eq_nil_iff]
  intro c hc
  obtain ⟨p, hp, rfl⟩ := List.mem_map.mp hc
  simp [completion_of_mem_checkedPieces hs hp, Completion.error?]

/-- **Every schedule reports the reference.** A verification run over the pieces read,
with a listener that never halts, reports the reference once it finishes, whatever the
order of its moves. -/
theorem ofRun_pieceRun (hs : s.Valid) (hnever : ∀ st p, (listen st p).2 = .proceed)
    (sched : List Actor)
    (hfin : (pieceRun d s (checkedPieces s (checkFiles d s)) w interval listen st sched).finished
      = true) :
    Report.ofRun s expected (checkFiles d s) (checkedPieces s (checkFiles d s))
        (RunResult.ofPool (pieceRun d s (checkedPieces s (checkFiles d s)) w interval listen st
          sched)) =
      s.verifyReference d expected := by
  have hc := @cancelled_pieceRun σ d s (checkedPieces s (checkFiles d s)) w interval listen st
    hnever sched
  -- the run handed on each piece's own completion once, in some order
  have hperm := passed_pieceRun sched hfin hc
  have hcontent := hperm.filterMap (Completion.mismatch? s expected)
  rw [filterMap_mismatch?_completion hs] at hcontent
  have hread := hperm.filterMap Completion.error?
  rw [filterMap_error?_completion hs] at hread
  simp only [Report.ofRun, RunResult.ofPool]
  rw [hc, done_pieceRun, hperm.length_eq, List.length_map, hread.eq_nil,
    @mergeSort_eq_of_perm Mismatch (·.piece) _ _ pairwise_contentErrors hcontent, sortByPiece,
    List.mergeSort_nil]
  rfl

/-- With one expected digest per piece, `verifyContent` reports the reference: its plain
schedule finishes. -/
theorem verifyContent_eq_reference (hs : s.Valid) (hlen : expected.length = s.pieceCount)
    (hnever : ∀ st p, (listen st p).2 = .proceed) :
    ∃ st', verifyContent d s expected w interval listen st =
      .ok (st', s.verifyReference d expected) := by
  obtain ⟨sched, hfin, heq⟩ :=
    @runPieces_eq_pieceRun σ d s (checkedPieces s (checkFiles d s)) w interval listen st
  have hcount : checkHashCount s expected = .ok () := if_neg fun h => h hlen
  refine ⟨(runPieces d s w interval listen (checkedPieces s (checkFiles d s)) st).listener, ?_⟩
  unfold verifyContent
  rw [hcount]
  show Except.ok (_, _) = _
  rw [heq, ofRun_pieceRun hs hnever sched hfin]

end Pool

/-- **Verification reports what is on disk.** On a valid stream, with one expected digest
per piece and a listener that never halts, every schedule of the pool that finishes, and
`verifyContent` itself, report the reference. In it:
* the file errors are the content path alone when it is a file where the multi layout
  needs a directory, and otherwise every file that does not open, in file order, by index
  and path;
* the skipped pieces are those covered by the failed files, which are exactly those
  touching one, and they are counted; every other piece is checked;
* the content errors are the pieces not skipped whose digest on disk is not the expected
  one, in piece order, each naming the piece's files;
* nothing fails to read, nothing is cancelled, and the report passes exactly when every
  file opens and every piece has its expected digest. -/
theorem verifyContent_report {σ : Type} (d : Disk) (s : Stream) (hs : s.Valid)
    (expected : HashList) (hlen : expected.length = s.pieceCount) (w interval : Nat)
    (listen : σ → Progress → σ × Flow) (st : σ) (hnever : ∀ st p, (listen st p).2 = .proceed) :
    let r := s.verifyReference d expected
    let skipped := skippedPieces s (checkFiles d s)
    (∀ sched : List Actor,
      (pieceRun d s (checkedPieces s (checkFiles d s)) w interval listen st sched).finished =
        true →
      Report.ofRun s expected (checkFiles d s) (checkedPieces s (checkFiles d s))
        (RunResult.ofPool (pieceRun d s (checkedPieces s (checkFiles d s)) w interval listen st
          sched)) = r) ∧
    (∃ st', verifyContent d s expected w interval listen st = .ok (st', r)) ∧
    (s.ContentIsFile d → r.fileErrors = [⟨none, ⟨s.content, .notDirectory⟩⟩]) ∧
    (¬ s.ContentIsFile d → r.fileErrors.map (fun e => (e.index, e.error.path)) =
      ((List.range s.files.length).filter fun i => !s.opens d i).map
        fun i => (some i, s.filePath i)) ∧
    (∀ p, (p ∈ skipped ↔ p < s.pieceCount ∧ (s.ContentIsFile d ∨
        ∃ i < s.files.length, s.opens d i = false ∧
          (s.piecesOfFile i).1 ≤ p ∧ p < (s.piecesOfFile i).2)) ∧
      (p ∈ skipped ↔ p < s.pieceCount ∧
        (s.ContentIsFile d ∨ ∃ i ∈ (s.rangeAt p).files, s.opens d i = false))) ∧
    r.total = s.pieceCount ∧ r.skipped = skipped.length ∧ r.checked = r.total - r.skipped ∧
    r.contentErrors =
      ((List.range s.pieceCount).filter fun p => p ∉ skipped ∧
        expected.get? p ≠ some (PieceHash.of (s.pieceBytes d p))).map
          (fun p => mismatchOf s (s.rangeAt p)) ∧
    r.readErrors = [] ∧ r.cancelled = false ∧
    (r.status = .passed ↔ ¬ s.ContentIsFile d ∧ (∀ i < s.files.length, s.opens d i = true) ∧
      ∀ p < s.pieceCount, expected.get? p = some (PieceHash.of (s.pieceBytes d p))) := by
  intro r skipped
  have hskipped := @skipped_verifyReference d s expected
  exact ⟨fun sched hfin => ofRun_pieceRun hs hnever sched hfin,
    verifyContent_eq_reference hs hlen hnever, checkFiles_of_contentIsFile, checkFiles_index,
    fun p => ⟨mem_skippedPieces_iff_union, mem_skippedPieces_iff hs⟩, rfl, hskipped.1,
    hskipped.2, contentErrors_verifyReference, rfl, rfl, status_verifyReference.1⟩

/-- A stream of one three-byte file in pieces of two, verified on an empty disk against
two digests: `verifyContent`, with a listener that never halts, reports the reference. -/
theorem missing_file_verifies_as_reference :
    (⟨FileList.single "a" 3, "a", 2, 3⟩ : Stream).Valid ∧
      (⟨[PieceHash.of .empty, PieceHash.of .empty]⟩ : HashList).length =
        (⟨FileList.single "a" 3, "a", 2, 3⟩ : Stream).pieceCount ∧
      ∃ st', verifyContent Disk.empty ⟨FileList.single "a" 3, "a", 2, 3⟩
          ⟨[PieceHash.of .empty, PieceHash.of .empty]⟩ 2 0
          (fun (u : Unit) _ => (u, Flow.proceed)) () =
        .ok (st', Stream.verifyReference Disk.empty ⟨FileList.single "a" 3, "a", 2, 3⟩
          ⟨[PieceHash.of .empty, PieceHash.of .empty]⟩) :=
  ⟨⟨by decide, rfl⟩, rfl, (verifyContent_report Disk.empty _ ⟨by decide, rfl⟩ _ rfl 2 0
    (fun (u : Unit) _ => (u, Flow.proceed)) () fun _ _ => rfl).2.1⟩

end Metainfo
