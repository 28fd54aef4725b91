import Metainfo.Content.Reader

/-!
# Progress of a run

A `Tracker` counts completed pieces, in total and per file, and decides which
completions a listener hears of. It sees the clock once per completion:

* the first completion is reported, and so is the one that makes the count reach the
  run's total;
* any other completion is reported when at least `interval` has passed since the last
  report, so every completion is reported when the interval is zero;
* a report names the file holding the last byte of the piece, how many completed
  pieces touch that file, and how many pieces the file spans.

Clock readings are plain numbers of milliseconds; a difference below zero counts as
zero, as when the clock does not move.
-/

namespace Metainfo

/-- What is reported after a piece completes. -/
structure Progress where
  /-- the file holding the piece's last byte -/
  file : FileEntry
  /-- that file's index -/
  fileIndex : Nat
  /-- completed pieces -/
  piecesDone : Nat
  /-- pieces in the run -/
  piecesTotal : Nat
  /-- completed pieces touching the file -/
  filePiecesDone : Nat
  /-- pieces the file spans -/
  filePiecesTotal : Nat
  deriving DecidableEq, Repr

/-- The report of the last completion. -/
def Progress.isLast (p : Progress) : Bool := p.piecesDone == p.piecesTotal

/-- A listener's answer. -/
inductive Flow where
  /-- go on -/
  | proceed
  /-- stop the run -/
  | halt
  deriving DecidableEq, Repr

/-- Counts of completed pieces, in total and per file. -/
structure Tracker where
  /-- pieces in the run -/
  total : Nat
  /-- completed pieces -/
  done : Nat
  /-- completed pieces touching each file -/
  fileDone : List Nat
  /-- the clock's reading at the last report, if there was one -/
  lastReport : Option Nat
  deriving DecidableEq, Repr

namespace Tracker

/-- A tracker for a run of `total` pieces. -/
def new (s : Stream) (total : Nat) : Tracker :=
  ⟨total, 0, List.replicate s.files.length 0, none⟩

/-- Adds one to entry `i`. -/
def bump (l : List Nat) (i : Nat) : List Nat :=
  l.set i (l.getD i 0 + 1)

/-- A report is due: none was made yet, or `interval` has passed since the last. -/
def due (t : Tracker) (interval now : Nat) : Bool :=
  match t.lastReport with
  | none => true
  | some last => interval ≤ now - last

/-- Counts a completed piece at clock reading `now`, and gives the report to make, if
one is due. -/
def complete (t : Tracker) (s : Stream) (interval : Nat) (range : PieceRange) (now : Nat) :
    Tracker × Option Progress :=
  let done := t.done + 1
  let fileDone := range.files.foldl bump t.fileDone
  if !t.due interval now ∧ done < t.total then (⟨t.total, done, fileDone, t.lastReport⟩, none)
  else
    let t2 : Tracker := ⟨t.total, done, fileDone, some now⟩
    match range.spans.getLast? with
    | none => (t2, none)
    | some span =>
      match s.files.get? span.file with
      | none => (t2, none)
      | some f =>
        let pieces := s.piecesOfFile span.file
        (t2, some ⟨f, span.file, done, t.total, fileDone.getD span.file 0, pieces.2 - pieces.1⟩)

end Tracker

end Metainfo
