import Mathlib.Data.List.GetD
import Mathlib.Data.List.Perm.Subperm
import Metainfo.Proofs.Content.SinglePiece
import Metainfo.Proofs.Layout.Lookups

/-!
# What a run reports

A run hands its tracker one completion after another, each with a clock reading. The
tracker reports a completion exactly when it is the first, when it completes the run, or
when the interval has passed since the last report; each report counts the completions so
far, names the file of the piece's last byte, and counts the completed pieces that touch
that file, never more than the pieces the file spans.

* `complete_fst` and `complete_snd`: one completion, whichever way the gate goes;
* `Counts` and `counts_after`: after `k` completions the tracker holds `k` and, for each
  file, the completions whose piece touches it;
* `LastReport` and `lastReport_after`: the tracker remembers the clock of the latest
  completion that made a report;
* `isSome_reportAt_iff`: which completions are reported;
* `reportAt_eq_some`: what a report says, and `length_touching_le`: its count for a file
  never passes the pieces the file spans;
* `reports_run`: everything a run of distinct pieces reports.
-/

namespace Metainfo

namespace Tracker

/-! ## Counting a completion -/

@[simp] theorem length_bump (l : List Nat) (i : Nat) : (bump l i).length = l.length := by
  simp [bump]

theorem getD_bump {l : List Nat} {i : Nat} (hi : i < l.length) (f : Nat) :
    (bump l i).getD f 0 = l.getD f 0 + if i = f then 1 else 0 := by
  unfold bump
  by_cases hif : i = f
  · subst hif
    simp [List.getD_eq_getElem?_getD, hi]
  · simp [List.getD_eq_getElem?_getD, hif]

@[simp] theorem length_foldl_bump (files l : List Nat) :
    (files.foldl bump l).length = l.length := by
  induction files generalizing l with
  | nil => rfl
  | cons i rest ih => rw [List.foldl_cons, ih, length_bump]

/-- Bumping the entries of a list of files adds to each entry how often the list names it. -/
theorem getD_foldl_bump (files : List Nat) {l : List Nat} (hl : ∀ i ∈ files, i < l.length)
    (f : Nat) : (files.foldl bump l).getD f 0 = l.getD f 0 + files.count f := by
  induction files generalizing l with
  | nil => simp
  | cons i rest ih =>
    have hrest : ∀ j ∈ rest, j < (bump l i).length := fun j hj => by
      rw [length_bump]
      exact hl j (List.mem_cons_of_mem _ hj)
    rw [List.foldl_cons, ih hrest, getD_bump (hl i List.mem_cons_self), List.count_cons]
    by_cases hif : i = f <;> simp [hif]; omega

/-- A completion is quiet, with no report, when none is due and it does not reach the
total. -/
abbrev Quiet (t : Tracker) (interval now : Nat) : Prop :=
  t.due interval now = false ∧ t.done + 1 < t.total

/-- The gate as `complete` tests it. -/
theorem gate_iff_quiet (t : Tracker) (interval now : Nat) :
    ((!t.due interval now) = true ∧ t.done + 1 < t.total) ↔ t.Quiet interval now := by
  simp [Quiet]

/-- **One completion, counted.** Whatever the gate decides, the count goes up by one and
each file of the piece by one; the clock is remembered unless the completion is quiet. -/
theorem complete_fst (t : Tracker) (s : Stream) (interval : Nat) (range : PieceRange)
    (now : Nat) :
    (t.complete s interval range now).1 =
      ⟨t.total, t.done + 1, range.files.foldl bump t.fileDone,
        if t.Quiet interval now then t.lastReport else some now⟩ := by
  unfold complete
  dsimp only
  by_cases hq : t.Quiet interval now
  · rw [if_pos ((gate_iff_quiet t interval now).mpr hq), if_pos hq]
  · rw [if_neg (mt (gate_iff_quiet t interval now).mp hq), if_neg hq]
    -- a report is due, whether or not the piece names a file
    split
    · rfl
    · split <;> rfl

/-- **One completion, reported.** A completion that is not quiet reports the file of the
piece's last byte, with the counts after it. -/
theorem complete_snd (t : Tracker) {s : Stream} (interval : Nat) {range : PieceRange}
    (now : Nat) {sp : Span} {e : FileEntry} (hlast : range.spans.getLast? = some sp)
    (hfile : s.files.get? sp.file = some e) :
    (t.complete s interval range now).2 =
      if t.Quiet interval now then none
      else some ⟨e, sp.file, t.done + 1, t.total,
        (range.files.foldl bump t.fileDone).getD sp.file 0,
        (s.piecesOfFile sp.file).2 - (s.piecesOfFile sp.file).1⟩ := by
  unfold complete
  dsimp only
  by_cases hq : t.Quiet interval now
  · rw [if_pos ((gate_iff_quiet t interval now).mpr hq), if_pos hq]
  · rw [if_neg (mt (gate_iff_quiet t interval now).mp hq), if_neg hq, hlast]
    dsimp only
    rw [hfile]

/-- With no report yet, one is due. -/
theorem due_of_none {t : Tracker} (h : t.lastReport = none) (interval now : Nat) :
    t.due interval now = true := by
  simp [due, h]

/-- After a report, the next is due once the interval has passed since it. -/
theorem due_of_some {t : Tracker} {last : Nat} (h : t.lastReport = some last) (interval now : Nat) :
    t.due interval now = decide (interval ≤ now - last) := by
  simp [due, h]

/-- With a zero interval a report is always due. -/
theorem due_zero (t : Tracker) (now : Nat) : t.due 0 now = true := by
  cases h : t.lastReport with
  | none => exact due_of_none h 0 now
  | some last => simp [due_of_some h]

end Tracker

/-! ## The files of a piece -/

namespace Stream

variable {s : Stream}

/-- A piece names each of its files once. -/
theorem count_files_rangeAt (p i : Nat) :
    (s.rangeAt p).files.count i = if i ∈ (s.rangeAt p).files then 1 else 0 := by
  split
  · exact List.count_eq_one_of_mem (nodup_files_spansIn _ _) ‹_›
  · exact List.count_eq_zero_of_not_mem ‹_›

theorem lt_length_of_mem_files_rangeAt {p i : Nat} (hi : i ∈ (s.rangeAt p).files) :
    i < s.files.length :=
  (mem_files_spansIn.mp hi).1

/-- A piece below the count has a last span, in a file of the list. -/
theorem lastSpan_rangeAt (hs : s.Valid) {p : Nat} (hp : p < s.pieceCount) :
    ∃ sp e, (s.rangeAt p).spans.getLast? = some sp ∧ s.files.get? sp.file = some e := by
  obtain ⟨sp, hsp⟩ : ∃ sp, (s.rangeAt p).spans.getLast? = some sp := by
    cases h : (s.rangeAt p).spans.getLast? with
    | none =>
      have hnil := List.getLast?_eq_none_iff.mp h
      exact absurd (by rw [PieceRange.files, hnil, List.map_nil]) (files_rangeAt_ne_nil hs hp)
    | some sp => exact ⟨sp, rfl⟩
  have hfile : sp.file ∈ (s.rangeAt p).files := List.mem_map_of_mem (List.mem_of_getLast? hsp)
  exact ⟨sp, _, hsp, get?_eq_some_of_lt (lt_length_of_mem_files_rangeAt hfile)⟩

end Stream

/-! ## A run -/

/-- The completions a run hands its tracker: completion `k` is of piece `pieces[k]`, at
clock reading `clock k`. -/
structure Feed where
  /-- the least time between two reports -/
  interval : Nat
  /-- the clock reading at each completion -/
  clock : Nat → Nat
  /-- the completed pieces, in order -/
  pieces : List Nat

namespace Feed

open Tracker

section

variable (f : Feed) (s : Stream) (total : Nat)

/-- The tracker of a run of `total` pieces after its first `k` completions. -/
def after : Nat → Tracker
  | 0 => Tracker.new s total
  | k + 1 => ((after k).complete s f.interval (s.rangeAt (f.pieces.getD k 0)) (f.clock k)).1

/-- The report completion `k` makes, if any. -/
def reportAt (k : Nat) : Option Progress :=
  ((f.after s total k).complete s f.interval (s.rangeAt (f.pieces.getD k 0)) (f.clock k)).2

/-- The pieces among the first `k` completions that touch file `i`. -/
def touching (k i : Nat) : List Nat :=
  (f.pieces.take k).filter fun p => i ∈ (s.rangeAt p).files

/-- What the tracker holds after the first `k` completions: the run's total, `k`, and for
each file the completions whose piece touches it. -/
structure Counts (k : Nat) (t : Tracker) : Prop where
  total_eq : t.total = total
  done_eq : t.done = k
  length_fileDone : t.fileDone.length = s.files.length
  fileDone_eq : ∀ i, t.fileDone.getD i 0 = (f.touching s k i).length

end

variable {f : Feed} {s : Stream} {total : Nat}

theorem touching_succ {k : Nat} (hk : k < f.pieces.length) (i : Nat) :
    (f.touching s (k + 1) i).length =
      (f.touching s k i).length + if i ∈ (s.rangeAt (f.pieces.getD k 0)).files then 1 else 0 := by
  unfold touching
  rw [List.take_add_one, List.getElem?_eq_getElem hk, Option.toList_some, List.filter_append,
    List.length_append, List.filter_singleton, List.getD_eq_getElem _ _ hk]
  by_cases hi : i ∈ (s.rangeAt f.pieces[k]).files <;> simp [hi]

/-- **Counting step.** A completion of piece `pieces[k]` moves the counts from `k` to
`k + 1`, whether or not it is reported. -/
theorem Counts.complete {k : Nat} {t : Tracker} (h : f.Counts s total k t)
    (hk : k < f.pieces.length) (now : Nat) :
    f.Counts s total (k + 1) (t.complete s f.interval (s.rangeAt (f.pieces.getD k 0)) now).1 := by
  have hbound : ∀ i ∈ (s.rangeAt (f.pieces.getD k 0)).files, i < t.fileDone.length :=
    fun i hi => h.length_fileDone ▸ Stream.lt_length_of_mem_files_rangeAt hi
  rw [complete_fst]
  refine ⟨h.total_eq, ?_, ?_, fun i => ?_⟩
  · show t.done + 1 = k + 1
    rw [h.done_eq]
  · rw [length_foldl_bump, h.length_fileDone]
  · rw [getD_foldl_bump _ hbound, h.fileDone_eq, Stream.count_files_rangeAt, touching_succ hk]

/-- **Counting run.** After each of its first `k` completions the tracker holds the counts
of those completions. -/
theorem counts_after : ∀ k ≤ f.pieces.length, f.Counts s total k (f.after s total k)
  | 0, _ => ⟨rfl, rfl, by simp [after, Tracker.new], fun i => by
      simp [after, Tracker.new, touching]⟩
  | k + 1, hk => (counts_after k (by omega)).complete (by omega) _

/-! ## Which completions are reported -/

section

variable (f s total)

/-- The tracker remembers the clock of the latest of the first `k` completions that made a
report, and holds none before the first completion. -/
def LastReport (k : Nat) (t : Tracker) : Prop :=
  (k = 0 ∧ t.lastReport = none) ∨
    ∃ j < k, (f.reportAt s total j).isSome ∧
      (∀ m, j < m → m < k → f.reportAt s total m = none) ∧ t.lastReport = some (f.clock j)

end

theorem lastReport_after_succ (k : Nat) :
    (f.after s total (k + 1)).lastReport =
      if (f.after s total k).Quiet f.interval (f.clock k) then (f.after s total k).lastReport
      else some (f.clock k) := by
  rw [after, complete_fst]

/-- The latest report before completion `k` is one completion. -/
theorem latest_report_unique {k j j' : Nat} (hj : j < k) (hj' : j' < k)
    (hsome : (f.reportAt s total j).isSome) (hsome' : (f.reportAt s total j').isSome)
    (hbetween : ∀ m, j < m → m < k → f.reportAt s total m = none)
    (hbetween' : ∀ m, j' < m → m < k → f.reportAt s total m = none) : j = j' := by
  rcases Nat.lt_trichotomy j j' with h | h | h
  · simp [hbetween j' h hj'] at hsome'
  · exact h
  · simp [hbetween' j h hj] at hsome

theorem getD_lt_pieceCount (hlt : ∀ p ∈ f.pieces, p < s.pieceCount) {k : Nat}
    (hk : k < f.pieces.length) :
    f.pieces.getD k 0 < s.pieceCount := by
  rw [List.getD_eq_getElem _ _ hk]
  exact hlt _ (List.getElem_mem hk)

section Valid

variable (hs : s.Valid) (hlt : ∀ p ∈ f.pieces, p < s.pieceCount)
include hs hlt

/-- A completion is reported exactly when it is not quiet. -/
theorem isSome_reportAt_iff_not_quiet {k : Nat} (hk : k < f.pieces.length) :
    (f.reportAt s total k).isSome ↔ ¬(f.after s total k).Quiet f.interval (f.clock k) := by
  obtain ⟨sp, e, hlast, hfile⟩ := Stream.lastSpan_rangeAt hs (getD_lt_pieceCount hlt hk)
  unfold reportAt
  rw [complete_snd _ _ _ hlast hfile]
  by_cases hq : (f.after s total k).Quiet f.interval (f.clock k) <;> simp [hq]

/-- **Last report, run.** After each of its first `k` completions the tracker holds the
clock of the latest one that was reported. -/
theorem lastReport_after : ∀ k ≤ f.pieces.length, f.LastReport s total k (f.after s total k)
  | 0, _ => Or.inl ⟨rfl, rfl⟩
  | k + 1, hk => by
    have hk' : k < f.pieces.length := by omega
    unfold LastReport
    rw [lastReport_after_succ]
    by_cases hq : (f.after s total k).Quiet f.interval (f.clock k)
    · -- a quiet completion keeps the clock of the latest report, and there is one: the
      -- first completion finds none and is reported
      rw [if_pos hq]
      have hnone : f.reportAt s total k = none :=
        Option.not_isSome_iff_eq_none.mp fun h => (isSome_reportAt_iff_not_quiet hs hlt hk').mp h hq
      rcases lastReport_after k (by omega) with ⟨-, hlast⟩ | ⟨j, hj, hsome, hbetween, hlast⟩
      · exact absurd hq.1 (by rw [due_of_none hlast]; decide)
      · refine Or.inr ⟨j, by omega, hsome, fun m hjm hm => ?_, hlast⟩
        rcases Nat.lt_succ_iff_lt_or_eq.mp hm with hm | rfl
        · exact hbetween m hjm hm
        · exact hnone
    · rw [if_neg hq]
      exact Or.inr ⟨k, by omega, (isSome_reportAt_iff_not_quiet hs hlt hk').mpr hq,
        fun m hkm hm => absurd hm (by omega), rfl⟩

/-- **Which completions are reported.** Completion `k` is reported exactly when it is the
first, when it brings the count to the total or past it, or when at least the interval has
passed since the latest report before it. -/
theorem isSome_reportAt_iff {k : Nat} (hk : k < f.pieces.length) :
    (f.reportAt s total k).isSome ↔ k = 0 ∨ total ≤ k + 1 ∨
      ∃ j < k, (f.reportAt s total j).isSome ∧
        (∀ m, j < m → m < k → f.reportAt s total m = none) ∧
        f.interval ≤ f.clock k - f.clock j := by
  have hc : f.Counts s total k (f.after s total k) := counts_after k (Nat.le_of_lt hk)
  have hl : f.LastReport s total k (f.after s total k) :=
    lastReport_after hs hlt k (Nat.le_of_lt hk)
  rw [isSome_reportAt_iff_not_quiet hs hlt hk, Quiet, hc.done_eq, hc.total_eq]
  rcases hl with ⟨rfl, hnone⟩ | ⟨j, hj, hsome, hbetween, hlast⟩
  · simp [due_of_none hnone]
  · -- the report is due exactly when the interval has passed since `j`, the latest one
    rw [due_of_some hlast]
    constructor
    · intro h
      by_cases htot : total ≤ k + 1
      · exact Or.inr (Or.inl htot)
      · exact Or.inr (Or.inr ⟨j, hj, hsome, hbetween, by simpa [htot] using h⟩)
    · rintro (rfl | htot | ⟨j', hj', hsome', hbetween', hint⟩)
      · omega
      · omega
      · obtain rfl := latest_report_unique hj' hj hsome' hsome hbetween' hbetween
        simp [hint]

/-- **What a report says.** The report of completion `k` counts the completions so far and
the run's total, names the file of the piece's last byte, and counts the completions so
far whose piece touches that file and the pieces that file spans. -/
theorem reportAt_eq_some {k : Nat} (hk : k < f.pieces.length) {r : Progress}
    (h : f.reportAt s total k = some r) :
    r.piecesDone = k + 1 ∧ r.piecesTotal = total ∧
      (s.rangeAt (f.pieces.getD k 0)).spans.getLast?.map (·.file) = some r.fileIndex ∧
      s.files.get? r.fileIndex = some r.file ∧
      r.filePiecesDone = (f.touching s (k + 1) r.fileIndex).length ∧
      r.filePiecesTotal = (s.piecesOfFile r.fileIndex).2 - (s.piecesOfFile r.fileIndex).1 := by
  obtain ⟨sp, e, hlast, hfile⟩ := Stream.lastSpan_rangeAt hs (getD_lt_pieceCount hlt hk)
  have hc : f.Counts s total k (f.after s total k) := counts_after k (Nat.le_of_lt hk)
  -- the file counts in the report are those after the completion
  have hfiles := (hc.complete hk (f.clock k)).fileDone_eq sp.file
  rw [complete_fst] at hfiles
  unfold reportAt at h
  rw [complete_snd _ _ _ hlast hfile] at h
  split at h
  · cases h
  · cases h
    exact ⟨by rw [hc.done_eq], hc.total_eq, by rw [hlast]; rfl, hfile, hfiles, rfl⟩

/-- Distinct completed pieces touching a file are among the pieces the file spans. -/
theorem length_touching_le (hnodup : f.pieces.Nodup) (k i : Nat) :
    (f.touching s k i).length ≤ (s.piecesOfFile i).2 - (s.piecesOfFile i).1 := by
  have hsub : f.touching s k i ⊆
      List.range' (s.piecesOfFile i).1 ((s.piecesOfFile i).2 - (s.piecesOfFile i).1) := by
    intro p hp
    obtain ⟨hmem, hi⟩ := List.mem_filter.mp hp
    have hp' := hlt p (List.mem_of_mem_take hmem)
    obtain ⟨h1, h2⟩ := (Stream.mem_files_rangeAt_iff hs hp' i).mp (of_decide_eq_true hi)
    exact List.mem_range'_1.mpr ⟨h1, by omega⟩
  have hnd : (f.touching s k i).Nodup :=
    (List.Nodup.sublist (List.take_sublist _ _) hnodup).filter _
  simpa using (hnd.subperm hsub).length_le

/-- Once every piece has completed, the completions touching a file are all the pieces it
spans. -/
theorem length_touching_of_all (hnodup : f.pieces.Nodup) {k : Nat}
    (hall : ∀ q < s.pieceCount, q ∈ f.pieces.take k) (i : Nat) :
    (f.touching s k i).length = (s.piecesOfFile i).2 - (s.piecesOfFile i).1 := by
  refine Nat.le_antisymm (length_touching_le hs hlt hnodup k i) ?_
  have hsub : List.range' (s.piecesOfFile i).1 ((s.piecesOfFile i).2 - (s.piecesOfFile i).1) ⊆
      f.touching s k i := by
    intro p hp
    obtain ⟨h1, h2⟩ := List.mem_range'_1.mp hp
    have hp' := Stream.lt_pieceCount_of_mem_piecesOfFile hs h1 (by omega)
    exact List.mem_filter.mpr ⟨hall p hp',
      decide_eq_true ((Stream.mem_files_rangeAt_iff hs hp' i).mpr ⟨h1, by omega⟩)⟩
  have hnd : (List.range' (s.piecesOfFile i).1
      ((s.piecesOfFile i).2 - (s.piecesOfFile i).1)).Nodup := List.nodup_range'
  simpa using (hnd.subperm hsub).length_le

end Valid

/-- What a run of `total` pieces reports, completion by completion. -/
structure ReportsRun (f : Feed) (s : Stream) (total : Nat) : Prop where
  /-- a completion is reported exactly when it is the first, brings the count to the total
  or past it, or comes at least the interval after the latest report -/
  gate : ∀ k < f.pieces.length, ((f.reportAt s total k).isSome ↔ k = 0 ∨ total ≤ k + 1 ∨
    ∃ j < k, (f.reportAt s total j).isSome ∧
      (∀ m, j < m → m < k → f.reportAt s total m = none) ∧
      f.interval ≤ f.clock k - f.clock j)
  /-- handed no more completions than the total, the count reaches it at the last
  completion only, which is reported -/
  gate_of_fed : f.pieces.length ≤ total → ∀ k < f.pieces.length,
    ((f.reportAt s total k).isSome ↔ k = 0 ∨ k + 1 = total ∨
      ∃ j < k, (f.reportAt s total j).isSome ∧
        (∀ m, j < m → m < k → f.reportAt s total m = none) ∧
        f.interval ≤ f.clock k - f.clock j)
  /-- with a zero interval every completion is reported -/
  every_of_zero : f.interval = 0 → ∀ k < f.pieces.length, (f.reportAt s total k).isSome
  /-- a report counts the completions so far out of the total, names the file of the
  piece's last byte, and counts the completed pieces that touch it: at most the pieces it
  spans, and all of them once every piece has completed -/
  report : ∀ k < f.pieces.length, ∀ r, f.reportAt s total k = some r →
    r.piecesDone = k + 1 ∧ r.piecesTotal = total ∧
    (s.rangeAt (f.pieces.getD k 0)).spans.getLast?.map (·.file) = some r.fileIndex ∧
    s.files.get? r.fileIndex = some r.file ∧
    r.filePiecesDone = (f.touching s (k + 1) r.fileIndex).length ∧
    r.filePiecesTotal = (s.piecesOfFile r.fileIndex).2 - (s.piecesOfFile r.fileIndex).1 ∧
    r.filePiecesDone ≤ r.filePiecesTotal ∧
    ((∀ q < s.pieceCount, q ∈ f.pieces.take (k + 1)) → r.filePiecesDone = r.filePiecesTotal)

/-- **What a run reports.** Handed distinct pieces of a valid stream, a tracker of a run of
`total` pieces reports the first completion, the one that completes the run (and, handed
more than the total, every one after it), and any other that comes at least the interval
after the latest report; each report counts what has completed, overall and for the file
of the piece's last byte, and that count never passes the pieces the file spans, reaching
them once all have completed. -/
theorem reports_run {f : Feed} {s : Stream} {total : Nat} (hs : s.Valid)
    (hlt : ∀ p ∈ f.pieces, p < s.pieceCount) (hnodup : f.pieces.Nodup) :
    f.ReportsRun s total := by
  refine ⟨fun k hk => isSome_reportAt_iff hs hlt hk, fun hfed k hk => ?_,
    fun hzero k hk => ?_, fun k hk r h => ?_⟩
  · -- handed no more than the total, the count reaches it only at the last completion
    rw [isSome_reportAt_iff hs hlt hk]
    have hiff : total ≤ k + 1 ↔ k + 1 = total := by omega
    rw [hiff]
  · rw [isSome_reportAt_iff_not_quiet hs hlt hk, hzero]
    intro hq
    exact absurd hq.1 (by rw [due_zero]; decide)
  · obtain ⟨hdone, htotal, hfile, hentry, hcount, hspan⟩ := reportAt_eq_some hs hlt hk h
    refine ⟨hdone, htotal, hfile, hentry, hcount, hspan, ?_, fun hall => ?_⟩
    · rw [hcount, hspan]
      exact length_touching_le hs hlt hnodup _ _
    · rw [hcount, hspan]
      exact length_touching_of_all hs hlt hnodup hall _

end Feed

/-- Three files of two, zero and three bytes in pieces of two, completed last piece first
under an hour's interval. -/
theorem threeFiles_reports_run :
    Stream.threeFiles.Valid ∧ (∀ p ∈ [2, 0, 1], p < Stream.threeFiles.pieceCount) ∧
      [2, 0, 1].Nodup ∧
      Feed.ReportsRun ⟨3600000, fun _ => 0, [2, 0, 1]⟩ Stream.threeFiles 3 := by
  have hs : Stream.threeFiles.Valid := ⟨by decide, rfl⟩
  have hlt : ∀ p ∈ [2, 0, 1], p < Stream.threeFiles.pieceCount := by decide
  have hnodup : [2, 0, 1].Nodup := by decide
  exact ⟨hs, hlt, hnodup,
    @Feed.reports_run ⟨3600000, fun _ => 0, [2, 0, 1]⟩ _ 3 hs hlt hnodup⟩

end Metainfo
