import Metainfo.Content.Progress
import Metainfo.Piece.Hash

/-!
# The worker pool

Pieces are read and digested by a pool of workers. The workers and the coordinator
share three things:

* a **cursor** into the list of piece indices, which a worker reads and advances in
  one step, so that each position is taken once;
* a **stop flag**, which the coordinator raises when its handler asks to halt and each
  worker looks at before taking a position;
* a **queue** of completions, bounded by four places per worker, onto which a worker
  puts each completion; a worker facing a full queue waits.

Each worker reads with a reader of its own. The coordinator takes completions from the
front of the queue and hands each to its handler, together with the clock's reading,
until the handler asks to halt; after that it takes completions without handing them
on. The run is over when every worker has finished and the queue is empty.

A run is a sequence of moves, one actor each (`Pool.run`), so any interleaving of the
workers with the coordinator is a schedule. `Pool.runPlain` is one schedule: the
coordinator moves whenever the queue holds something, and otherwise the first worker
that has not finished.
-/

namespace Metainfo

/-- A piece's range with its digest, or the error that stopped its read. -/
abbrev Completion := PieceRange × Except PieceReadError PieceHash

/-- Where a worker is in its loop. -/
inductive Phase where
  /-- about to look at the stop flag -/
  | check
  /-- about to take a position from the cursor -/
  | fetch
  /-- holding a piece index to read and digest -/
  | work (index : Nat)
  /-- holding a completion to put on the queue -/
  | send (c : Completion)
  /-- finished -/
  | exited

/-- A worker: where it is in its loop, and its reader. -/
structure Worker where
  /-- the next thing it does -/
  phase : Phase
  /-- its reader, which keeps its last file open -/
  reader : Reader

/-- The worker has finished. -/
def Worker.isExited (w : Worker) : Bool :=
  match w.phase with
  | .exited => true
  | _ => false

/-- Who moves next: a worker by its number, or the coordinator with the clock's
reading. -/
inductive Actor where
  /-- worker `k` -/
  | worker (k : Nat)
  /-- the coordinator, the clock reading `now` -/
  | coordinator (now : Nat)
  deriving DecidableEq, Repr

/-- Queue places per worker. -/
def queueDepthPerWorker : Nat := 4

/-- The number of workers of a run of `n` pieces when `w` are asked for: at least one,
and no more than the pieces. -/
def workerCount (w n : Nat) : Nat := max 1 (min w (max n 1))

/-- A pool at some point of a run whose handler has state `σ`. -/
structure Pool (σ : Type) where
  /-- the piece indices to hash, in the order they are handed out -/
  indices : List Nat
  /-- the workers -/
  workers : List Worker
  /-- the next position the cursor hands out -/
  cursor : Nat
  /-- the stop flag -/
  stop : Bool
  /-- the completions sent and not yet taken, oldest first -/
  queue : List Completion
  /-- how many completions the queue holds at most -/
  capacity : Nat
  /-- the handler asked to halt -/
  cancelled : Bool
  /-- the handler's state -/
  handler : σ
  /-- the indices of the completions the coordinator took, in order -/
  received : List Nat

namespace Pool

variable {σ : Type}

/-- The pool at the start of a run of `indices` with `w` workers asked for. -/
def start (indices : List Nat) (w : Nat) (st : σ) : Pool σ :=
  let k := workerCount w indices.length
  ⟨indices, List.replicate k ⟨.check, Reader.fresh⟩, 0, false, [], k * queueDepthPerWorker,
    false, st, []⟩

/-- Worker `k` becomes `w`. -/
def setWorker (p : Pool σ) (k : Nat) (w : Worker) : Pool σ :=
  { p with workers := p.workers.set k w }

/-- One move of worker `k`; a worker that has finished, waits on a full queue or does
not exist does nothing. -/
def stepWorker (d : Disk) (s : Stream) (p : Pool σ) (k : Nat) : Pool σ :=
  match p.workers[k]? with
  | none => p
  | some w =>
    match w.phase with
    | .check => p.setWorker k { w with phase := if p.stop then .exited else .fetch }
    | .fetch =>
      let p' := { p with cursor := p.cursor + 1 }
      match p.indices[p.cursor]? with
      | none => p'.setWorker k { w with phase := .exited }
      | some i => p'.setWorker k { w with phase := .work i }
    | .work i =>
      let range := s.rangeAt i
      let (r, result) := w.reader.read d s range
      p.setWorker k ⟨.send (range, result.map PieceHash.of), r⟩
    | .send c =>
      if p.queue.length < p.capacity then
        { p.setWorker k { w with phase := .check } with queue := p.queue ++ [c] }
      else p
    | .exited => p

/-- One move of the coordinator at clock reading `now`: it takes the oldest completion
and, unless the run was cancelled, hands it to the handler; an empty queue leaves
everything as it is. -/
def stepCoordinator (onDone : σ → Completion → Nat → σ × Flow) (p : Pool σ) (now : Nat) :
    Pool σ :=
  match p.queue with
  | [] => p
  | c :: rest =>
    let p := { p with queue := rest, received := p.received ++ [c.1.index] }
    if p.cancelled then p
    else
      match onDone p.handler c now with
      | (st, .proceed) => { p with handler := st }
      | (st, .halt) => { p with handler := st, cancelled := true, stop := true }

/-- One move. -/
def step (d : Disk) (s : Stream) (onDone : σ → Completion → Nat → σ × Flow) (p : Pool σ) :
    Actor → Pool σ
  | .worker k => p.stepWorker d s k
  | .coordinator now => p.stepCoordinator onDone now

/-- The moves of a schedule, in order. -/
def run (d : Disk) (s : Stream) (onDone : σ → Completion → Nat → σ × Flow) (p : Pool σ)
    (schedule : List Actor) : Pool σ :=
  schedule.foldl (step d s onDone) p

/-- The run is over: every worker has finished and the queue is empty. -/
def finished (p : Pool σ) : Bool :=
  p.queue.isEmpty && p.workers.all Worker.isExited

/-- The next actor of the plain schedule: the coordinator while the queue holds
something, else the first worker that has not finished; none when the run is over. -/
def nextActor (p : Pool σ) : Option Actor :=
  if !p.queue.isEmpty then some (.coordinator 0)
  else (p.workers.findIdx? fun w => !w.isExited).map Actor.worker

/-- The plain schedule, at most `fuel` moves of it. -/
def runPlain (d : Disk) (s : Stream) (onDone : σ → Completion → Nat → σ × Flow) :
    (fuel : Nat) → Pool σ → Pool σ
  | 0, p => p
  | fuel + 1, p =>
    match p.nextActor with
    | none => p
    | some a => runPlain d s onDone fuel (p.step d s onDone a)

/-- Moves enough for the plain schedule to finish: five per piece (look, take, read,
send, receive) and two per worker to finish. -/
def plainFuel (p : Pool σ) : Nat :=
  5 * p.indices.length + 2 * p.workers.length + 1

/-- Hashes the pieces `indices` with `w` workers asked for, on the plain schedule. -/
def hashAll (d : Disk) (s : Stream) (onDone : σ → Completion → Nat → σ × Flow)
    (indices : List Nat) (w : Nat) (st : σ) : Pool σ :=
  let p := start indices w st
  runPlain d s onDone p.plainFuel p

end Pool

end Metainfo
