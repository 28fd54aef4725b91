import Metainfo.Content.Pool

/-!
# Hashing the pieces of a stream

Every piece is read and digested on the worker pool, and the coordinator counts each
completion with a `Tracker`, which decides whether a listener hears of it.

* The digests are put in place by piece index, whatever order the completions arrive
  in.
* When the listener answers `halt`, the coordinator hands on nothing more: the outcome
  is `cancelled` with the number of completions counted, even at the last piece.
* A piece that cannot be read still counts as completed; the run goes on, and fails at
  the end with every failed piece in index order.
* A run that was neither stopped nor failed yet left a piece without its digest fails
  with no errors.
-/

namespace Metainfo

/-- The coordinator's side of a run: the listener's state, the counts, and every
completion handed on, in the order handed on. -/
structure Handler (σ : Type) where
  /-- the listener's state -/
  listener : σ
  /-- the counts -/
  tracker : Tracker
  /-- the completions handed on -/
  passed : List Completion

namespace Handler

variable {σ : Type}

/-- Takes a completion at clock reading `now`: records it, counts it, and passes the
report, if one is due, to the listener, whose answer is the coordinator's. -/
def onDone (s : Stream) (interval : Nat) (listen : σ → Progress → σ × Flow) (h : Handler σ)
    (c : Completion) (now : Nat) : Handler σ × Flow :=
  let (t, report) := h.tracker.complete s interval c.1 now
  let h := { h with tracker := t, passed := h.passed ++ [c] }
  match report with
  | none => (h, .proceed)
  | some p =>
    let (st, flow) := listen h.listener p
    ({ h with listener := st }, flow)

end Handler

/-- What a run produces: the listener's state, every completion handed on (in order),
whether the listener stopped it, and the final counts. -/
structure RunResult (σ : Type) where
  /-- the listener's state -/
  listener : σ
  /-- the completions, each with its digest or read error -/
  completed : List Completion
  /-- the listener stopped the run -/
  cancelled : Bool
  /-- the counts -/
  tracker : Tracker

/-- What a pool has produced so far. -/
def RunResult.ofPool {σ : Type} (p : Pool (Handler σ)) : RunResult σ :=
  ⟨p.handler.listener, p.handler.passed, p.cancelled, p.handler.tracker⟩

/-- Runs the pieces `indices` on `workers` workers, reporting to a listener that
starts in state `st`. -/
def runPieces {σ : Type} (d : Disk) (s : Stream) (workers interval : Nat)
    (listen : σ → Progress → σ × Flow) (indices : List Nat) (st : σ) : RunResult σ :=
  let h : Handler σ := ⟨st, Tracker.new s indices.length, []⟩
  RunResult.ofPool (Pool.hashAll d s (Handler.onDone s interval listen) indices workers h)

/-- How a hashing run ended. -/
inductive HashOutcome where
  /-- every piece was hashed -/
  | complete (hashes : HashList)
  /-- the listener stopped the run after this many completions -/
  | cancelled (piecesDone : Nat)
  /-- some pieces could not be read; the errors in piece order -/
  | failed (errors : List PieceReadError)

/-- `<n> piece(s) could not be read`. -/
def failureMessage (errors : List PieceReadError) : String :=
  s!"{errors.length} piece(s) could not be read"

/-- `hashing cancelled after <k> pieces`. -/
def cancelMessage (k : Nat) : String :=
  s!"hashing cancelled after {k} pieces"

/-- Numbers in increasing order without repeats. -/
def sortedUnique (l : List Nat) : List Nat :=
  (l.mergeSort (· ≤ ·)).eraseDups

/-- Inserts a path into a list ordered by components, unless an equal one is there. -/
def insertPath (p : String) : List String → List String
  | [] => [p]
  | q :: rest =>
    match Path.cmp p q with
    | .lt => p :: q :: rest
    | .eq => q :: rest
    | .gt => q :: insertPath p rest

/-- The indexes of the files behind failed reads, in order. -/
def failedFiles (errors : List PieceReadError) : List Nat :=
  sortedUnique (errors.flatMap PieceReadError.fileIndexes)

/-- The paths of the files behind failed reads, in path order. -/
def failedPaths (errors : List PieceReadError) : List String :=
  (errors.flatMap PieceReadError.paths).foldl (fun acc p => insertPath p acc) []

/-- Read errors ordered by piece. -/
def sortByPiece (errors : List PieceReadError) : List PieceReadError :=
  errors.mergeSort (fun a b => a.piece ≤ b.piece)

/-- The read error of a completion, if its read failed. -/
def Completion.error? (c : Completion) : Option PieceReadError :=
  match c.2 with
  | .error e => some e
  | .ok _ => none

/-- Puts the digest of a completion in its slot; a failed read leaves the slots as they
are. -/
def putSlot (slots : List (Option PieceHash)) (c : Completion) : List (Option PieceHash) :=
  match c.2 with
  | .ok h => slots.set c.1.index (some h)
  | .error _ => slots

/-- The digests of `n` pieces by index, from completions in any order; a piece without
a digest has none. -/
def slotsOf (n : Nat) (completed : List Completion) : List (Option PieceHash) :=
  completed.foldl putSlot (List.replicate n none)

/-- The outcome of a run over every piece of a stream. -/
def HashOutcome.ofRun {σ : Type} (s : Stream) (run : RunResult σ) : HashOutcome :=
  if run.cancelled then .cancelled run.tracker.done
  else
    let errors := run.completed.filterMap Completion.error?
    if errors.isEmpty then
      match (slotsOf s.pieceCount run.completed).mapM id with
      | some hashes => .complete ⟨hashes⟩
      | none => .failed []
    else .failed (sortByPiece errors)

/-- Hashes every piece of a stream on `workers` workers, reporting to a listener. -/
def hashPieces {σ : Type} (d : Disk) (s : Stream) (workers interval : Nat)
    (listen : σ → Progress → σ × Flow) (st : σ) : σ × HashOutcome :=
  let run := runPieces d s workers interval listen (List.range s.pieceCount) st
  (run.listener, HashOutcome.ofRun s run)

end Metainfo
