import Metainfo.Content.Hashing
import Metainfo.Error

/-!
# Verifying content against piece digests

Verification checks the files first and reads only what can be read:

1. the number of expected digests must be the number of pieces;
2. every file is checked without reading it: it must exist (links followed), be a
   file and have its length; in the multi layout a content path that is itself a file
   fails alone, with no file index, and skips everything;
3. the pieces touching a file that failed are skipped; the others are read and
   digested in order, each completion reported as in hashing;
4. a piece whose digest differs is a content error, naming every file it touches; a
   piece that cannot be read is a read error.

The report passes when it has no errors of any kind and was not cancelled.
-/

namespace Metainfo

/-- A file that failed the check before reading. -/
structure FileCheck where
  /-- the file's index; none when the content path itself is unusable -/
  index : Option Nat
  /-- the problem -/
  error : FileError
  deriving DecidableEq, Repr

/-- A piece whose digest is not the expected one. -/
structure Mismatch where
  /-- the piece's index -/
  piece : Nat
  /-- the stream's piece size -/
  pieceSize : Nat
  /-- every file the piece touches, in stream order -/
  files : List Nat
  /-- their paths -/
  paths : List String
  deriving DecidableEq, Repr

/-- `piece <i> (<size> bytes) is corrupt; files: <paths>`. -/
def Mismatch.message (m : Mismatch) : String :=
  s!"piece {m.piece} ({m.pieceSize} bytes) is corrupt; files: " ++ ", ".intercalate m.paths

/-- The result of a verification run. -/
structure Report where
  /-- pieces of the stream -/
  total : Nat
  /-- pieces read and compared -/
  checked : Nat
  /-- pieces not read because a file they touch failed the check -/
  skipped : Nat
  /-- files that failed the check, in file order -/
  fileErrors : List FileCheck
  /-- pieces with another digest, in piece order -/
  contentErrors : List Mismatch
  /-- pieces that could not be read, in piece order -/
  readErrors : List PieceReadError
  /-- the listener stopped the run -/
  cancelled : Bool

/-- The verdict of a report. -/
inductive Status where
  /-- nothing is wrong -/
  | passed
  /-- something is wrong -/
  | failed
  /-- the run was stopped -/
  | cancelled
  deriving DecidableEq, Repr

namespace Report

/-- The verdict. -/
def status (r : Report) : Status :=
  if r.cancelled then .cancelled
  else if r.fileErrors.isEmpty ∧ r.contentErrors.isEmpty ∧ r.readErrors.isEmpty then .passed
  else .failed

/-- The report passed. -/
def isOk (r : Report) : Bool := r.status == .passed

/-- Every file named by a content error or a read error, in order. -/
def corruptFiles (r : Report) : List Nat :=
  sortedUnique (r.contentErrors.flatMap (·.files) ++ r.readErrors.flatMap (·.fileIndexes))

end Report

/-- The content mismatch of a piece. -/
def mismatchOf (s : Stream) (range : PieceRange) : Mismatch :=
  ⟨range.index, s.pieceSize, range.files, range.files.map s.filePath⟩

/-- The digest list has one digest per piece. -/
def checkHashCount (s : Stream) (expected : HashList) : Except Error Unit :=
  if expected.length ≠ s.pieceCount then .error (.hashCount s.pieceCount expected.length)
  else .ok ()

/-- The content path is a regular file (links followed). -/
def isFile (d : Disk) (path : String) : Bool :=
  match d.metadata path with
  | .ok (.file, _) => true
  | _ => false

/-- What is wrong with `path` as a file of `len` bytes, judged by its metadata alone. -/
def fileProblem (d : Disk) (path : String) (len : Nat) : Option FileProblem :=
  match d.metadata path with
  | .error e => some (FileProblem.ofOs e)
  | .ok (.dir, _) => some .isDirectory
  | .ok (_, size) => if size ≠ len then some (.sizeMismatch len size) else none

/-- Checks every file without reading it. -/
def checkFiles (d : Disk) (s : Stream) : List FileCheck :=
  if s.files.layout = .multi ∧ isFile d s.content then [⟨none, ⟨s.content, .notDirectory⟩⟩]
  else
    (List.range s.files.length).filterMap fun i =>
      let path := s.filePath i
      let len := (s.files.get? i).map (·.len) |>.getD 0
      (fileProblem d path len).map fun p => ⟨some i, ⟨path, p⟩⟩

/-- The pieces that touch a failed file. -/
def skippedPieces (s : Stream) (errors : List FileCheck) : List Nat :=
  (List.range s.pieceCount).filter fun p =>
    errors.any fun e =>
      match e.index with
      | none => true
      | some i =>
        let r := s.piecesOfFile i
        r.1 ≤ p ∧ p < r.2

/-- The content mismatch of a completion whose digest is not the expected one. -/
def Completion.mismatch? (s : Stream) (expected : HashList) (c : Completion) : Option Mismatch :=
  match c.2 with
  | .ok h => if expected.get? c.1.index = some h then none else some (mismatchOf s c.1)
  | .error _ => none

/-- The report of a run over the pieces `indices`, after the file check found
`fileErrors`. -/
def Report.ofRun {σ : Type} (s : Stream) (expected : HashList) (fileErrors : List FileCheck)
    (indices : List Nat) (run : RunResult σ) : Report :=
  let contentErrors := run.completed.filterMap (Completion.mismatch? s expected)
  let readErrors := run.completed.filterMap Completion.error?
  ⟨s.pieceCount, run.tracker.done, s.pieceCount - indices.length, fileErrors,
    contentErrors.mergeSort (fun a b => a.piece ≤ b.piece), sortByPiece readErrors, run.cancelled⟩

/-- The pieces that are read: those touching no failed file. -/
def checkedPieces (s : Stream) (fileErrors : List FileCheck) : List Nat :=
  let skipped := skippedPieces s fileErrors
  (List.range s.pieceCount).filter (· ∉ skipped)

/-- Verifies the content of a stream against expected digests, reporting to a
listener. -/
def verifyContent {σ : Type} (d : Disk) (s : Stream) (expected : HashList) (workers interval : Nat)
    (listen : σ → Progress → σ × Flow) (st : σ) : Except Error (σ × Report) := do
  checkHashCount s expected
  let fileErrors := checkFiles d s
  let indices := checkedPieces s fileErrors
  let run := runPieces d s workers interval listen indices st
  return (run.listener, Report.ofRun s expected fileErrors indices run)

/-- The outcome of checking one piece. -/
inductive PieceStatus where
  /-- the digest matches -/
  | matches
  /-- the digest differs -/
  | mismatch (m : Mismatch)
  /-- the piece could not be read -/
  | unreadable (e : PieceReadError)

/-- Checks one piece with a fresh reader. -/
def verifyPiece (d : Disk) (s : Stream) (expected : HashList) (index : Nat) :
    Except Error PieceStatus := do
  checkHashCount s expected
  let range ← (s.pieceRange index).mapError Error.stream
  match (Reader.fresh.read d s range).2 with
  | .ok data =>
    if expected.get? index = some (PieceHash.of data) then return .matches
    else return .mismatch (mismatchOf s range)
  | .error e => return .unreadable e

end Metainfo
