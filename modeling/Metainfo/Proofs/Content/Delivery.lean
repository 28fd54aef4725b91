import Metainfo.Content.Pool

/-!
# Every piece delivered exactly once

A run of the worker pool is any schedule of moves (`Pool.run`). This module says what a
move can do, once (`Pool.Move`, `step_move`), and derives from it what holds along every
schedule:

* `Pool.Balanced`: the positions the cursor has handed out are, each once, either held by
  a worker, waiting in the queue, or received by the coordinator; the stop flag is the
  cancellation; a finished worker saw the flag or the end of the list;
* `Pool.Logged`: a handler that logs its calls was handed the received completions in
  order, answering `proceed` to each but, after cancellation, the last;
* `Move.handed_cases`, `Pool.Recorded`: only the coordinator touches the handler, so a
  handler that records its calls was handed the received completions, all of them until
  the run is cancelled;
* `delivers_each_once`: in a run that finishes, every index taken is received once; if the
  handler never asks to halt it is called once for each index of the list and the run is
  not cancelled, and if it asks to halt on its `k`-th call it is called `k` times in all
  and the run is cancelled;
* `hashAll_finished`: the plain schedule finishes within its fuel, since every move it
  makes lowers `Pool.potential`.
-/

namespace Metainfo

@[simp] theorem Stream.index_rangeAt (s : Stream) (i : Nat) : (s.rangeAt i).index = i := rfl

/-- The piece index a worker holds: the one it reads, or the one whose completion it is
about to send. -/
def Worker.held (w : Worker) : List Nat :=
  match w.phase with
  | .work i => [i]
  | .send c => [c.1.index]
  | _ => []

/-- What is left of a worker's loop, weighted for `Pool.potential`. -/
def Phase.cost : Phase → Nat
  | .check => 2
  | .fetch => 1
  | .work _ => 5
  | .send _ => 4
  | .exited => 0

namespace Pool

variable {σ : Type} (d : Disk) (s : Stream) (onDone : σ → Completion → Nat → σ × Flow)

/-- The piece indices of the completions waiting in the queue. -/
def queued (p : Pool σ) : List Nat := p.queue.map (·.1.index)

/-- The piece indices the workers hold. -/
def holding (p : Pool σ) : List Nat := p.workers.flatMap Worker.held

@[simp] theorem setWorker_indices (p : Pool σ) (k : Nat) (w : Worker) :
    (p.setWorker k w).indices = p.indices := rfl
@[simp] theorem setWorker_workers (p : Pool σ) (k : Nat) (w : Worker) :
    (p.setWorker k w).workers = p.workers.set k w := rfl
@[simp] theorem setWorker_cursor (p : Pool σ) (k : Nat) (w : Worker) :
    (p.setWorker k w).cursor = p.cursor := rfl
@[simp] theorem setWorker_stop (p : Pool σ) (k : Nat) (w : Worker) :
    (p.setWorker k w).stop = p.stop := rfl
@[simp] theorem setWorker_queue (p : Pool σ) (k : Nat) (w : Worker) :
    (p.setWorker k w).queue = p.queue := rfl
@[simp] theorem setWorker_capacity (p : Pool σ) (k : Nat) (w : Worker) :
    (p.setWorker k w).capacity = p.capacity := rfl
@[simp] theorem setWorker_cancelled (p : Pool σ) (k : Nat) (w : Worker) :
    (p.setWorker k w).cancelled = p.cancelled := rfl
@[simp] theorem setWorker_handler (p : Pool σ) (k : Nat) (w : Worker) :
    (p.setWorker k w).handler = p.handler := rfl
@[simp] theorem setWorker_received (p : Pool σ) (k : Nat) (w : Worker) :
    (p.setWorker k w).received = p.received := rfl

/-! ## What a move can do -/

/-- The moves of a pool, one constructor for each thing an actor can do. -/
inductive Move (p : Pool σ) : Pool σ → Prop where
  /-- a worker looks at the stop flag -/
  | look {k : Nat} {w : Worker} (hw : p.workers[k]? = some w) (hph : w.phase = .check) :
      Move p (p.setWorker k { w with phase := if p.stop then .exited else .fetch })
  /-- a worker finds the cursor past the end of the list, and finishes -/
  | last {k : Nat} {w : Worker} (hw : p.workers[k]? = some w) (hph : w.phase = .fetch)
      (hi : p.indices[p.cursor]? = none) :
      Move p (({ p with cursor := p.cursor + 1 } : Pool σ).setWorker k { w with phase := .exited })
  /-- a worker takes the index under the cursor -/
  | take {k : Nat} {w : Worker} {i : Nat} (hw : p.workers[k]? = some w) (hph : w.phase = .fetch)
      (hi : p.indices[p.cursor]? = some i) :
      Move p (({ p with cursor := p.cursor + 1 } : Pool σ).setWorker k { w with phase := .work i })
  /-- a worker reads and digests its piece -/
  | read {k : Nat} {w : Worker} {i : Nat} (hw : p.workers[k]? = some w) (hph : w.phase = .work i) :
      Move p (p.setWorker k ⟨.send (s.rangeAt i, (w.reader.read d s (s.rangeAt i)).2.map PieceHash.of),
        (w.reader.read d s (s.rangeAt i)).1⟩)
  /-- a worker puts its completion on a queue with room -/
  | send {k : Nat} {w : Worker} {c : Completion} (hw : p.workers[k]? = some w)
      (hph : w.phase = .send c) (hroom : p.queue.length < p.capacity) :
      Move p { (p.setWorker k { w with phase := .check }) with queue := p.queue ++ [c] }
  /-- the coordinator takes a completion after the run was cancelled -/
  | drain {c : Completion} {rest : List Completion} (hq : p.queue = c :: rest)
      (hc : p.cancelled = true) :
      Move p { p with queue := rest, received := p.received ++ [c.1.index] }
  /-- the coordinator hands a completion on, and the handler goes on -/
  | pass {c : Completion} {rest : List Completion} {now : Nat} {st : σ} (hq : p.queue = c :: rest)
      (hc : p.cancelled = false) (hf : onDone p.handler c now = (st, .proceed)) :
      Move p { p with queue := rest, received := p.received ++ [c.1.index], handler := st }
  /-- the coordinator hands a completion on, and the handler asks to halt -/
  | halt {c : Completion} {rest : List Completion} {now : Nat} {st : σ} (hq : p.queue = c :: rest)
      (hc : p.cancelled = false) (hf : onDone p.handler c now = (st, .halt)) :
      Move p { p with queue := rest, received := p.received ++ [c.1.index], handler := st,
                      cancelled := true, stop := true }

/-- The actor has something to do: a worker that exists and has not finished, and that
finds room in the queue if it holds a completion; the coordinator, if the queue holds a
completion. -/
def Ready (p : Pool σ) : Actor → Prop
  | .worker k => ∃ w, p.workers[k]? = some w ∧ w.isExited = false ∧
      ∀ c, w.phase = .send c → p.queue.length < p.capacity
  | .coordinator _ => p.queue ≠ []

/-- An actor with something to do makes a move. -/
theorem move_of_ready {p : Pool σ} {a : Actor} (h : p.Ready a) :
    Move d s onDone p (p.step d s onDone a) := by
  cases a with
  | worker k =>
    obtain ⟨w, hw, hex, hroom⟩ := h
    simp only [step, stepWorker, hw]
    cases hph : w.phase with
    | check => exact .look hw hph
    | fetch =>
      cases hi : p.indices[p.cursor]? with
      | none => exact .last hw hph hi
      | some i => exact .take hw hph hi
    | work i => exact .read hw hph
    | send c =>
      simp only [hroom c hph, ↓reduceIte]
      exact .send hw hph (hroom c hph)
    | exited => simp [Worker.isExited, hph] at hex
  | coordinator now =>
    obtain ⟨c, rest, hq⟩ := List.exists_cons_of_ne_nil h
    simp only [step, stepCoordinator, hq]
    split
    · exact .drain hq ‹_›
    · rename_i hc
      split
      · exact .pass hq (Bool.eq_false_iff.mpr hc) ‹_›
      · exact .halt hq (Bool.eq_false_iff.mpr hc) ‹_›

/-- An actor with nothing to do leaves the pool as it is. -/
theorem step_idle {p : Pool σ} {a : Actor} (h : ¬ p.Ready a) : p.step d s onDone a = p := by
  cases a with
  | worker k =>
    simp only [Ready, not_exists, not_and] at h
    simp only [step, stepWorker]
    cases hw : p.workers[k]? with
    | none => rfl
    | some w =>
      dsimp only
      have hbusy := h w hw
      cases hph : w.phase with
      | send c =>
        dsimp only
        split
        · exact absurd (fun _ _ => ‹_›) (hbusy (by simp [Worker.isExited, hph]))
        · rfl
      | exited => rfl
      | _ => exact absurd (fun c hc => by simp [hph] at hc) (hbusy (by simp [Worker.isExited, hph]))
  | coordinator now =>
    simp only [Ready, ne_eq, Decidable.not_not] at h
    simp [step, stepCoordinator, h]

/-- **One move.** A step of any actor leaves the pool as it is or makes one move. -/
theorem step_move (p : Pool σ) (a : Actor) :
    p.step d s onDone a = p ∨ Move d s onDone p (p.step d s onDone a) := by
  by_cases h : p.Ready a
  · exact .inr (move_of_ready d s onDone h)
  · exact .inl (step_idle d s onDone h)

/-- **Invariants of runs.** A property that every move keeps holds after every schedule. -/
theorem run_invariant {P : Pool σ → Prop} (hmove : ∀ p p', P p → Move d s onDone p p' → P p') :
    ∀ (sched : List Actor) (p : Pool σ), P p → P (p.run d s onDone sched)
  | [], _, hp => hp
  | a :: rest, p, hp => by
    have hstep : P (p.step d s onDone a) := by
      rcases step_move d s onDone p a with heq | hm
      · rwa [heq]
      · exact hmove p _ hp hm
    exact run_invariant hmove rest _ hstep

/-! ## Every position once -/

/-- Summing over a list with one entry replaced: the new entry comes in, the old one
goes out. -/
theorem sum_map_set {α : Type} (f : α → Nat) :
    ∀ (l : List α) (k : Nat) {a : α} (b : α), l[k]? = some a →
      ((l.set k b).map f).sum + f a = (l.map f).sum + f b
  | [], _, _, _, h => by cases h
  | y :: ys, 0, a, b, h => by
    cases h
    simp only [List.set_cons_zero, List.map_cons, List.sum_cons]
    omega
  | y :: ys, k + 1, a, b, h => by
    have ih := sum_map_set f ys k b h
    simp only [List.set_cons_succ, List.map_cons, List.sum_cons]
    omega

theorem count_flatMap_set {α β : Type} [BEq β] (f : α → List β) (x : β) (l : List α) (k : Nat)
    {a : α} (b : α) (h : l[k]? = some a) :
    ((l.set k b).flatMap f).count x + (f a).count x = (l.flatMap f).count x + (f b).count x := by
  rw [List.count_flatMap, List.count_flatMap]
  exact sum_map_set (List.count x ∘ f) l k b h

/-- What every reachable pool keeps. -/
structure Balanced (p : Pool σ) : Prop where
  /-- every position the cursor handed out is, once, held, queued or received -/
  conserved : (p.received ++ p.queued ++ p.holding).Perm (p.indices.take p.cursor)
  /-- the stop flag is raised exactly when the run is cancelled -/
  stop_eq : p.stop = p.cancelled
  /-- a finished worker saw the stop flag or the end of the list -/
  exited : ∀ w ∈ p.workers, w.phase = .exited → p.stop = true ∨ p.indices.length ≤ p.cursor
  /-- there is a worker -/
  staffed : p.workers ≠ []
  /-- the queue has room for one completion at least -/
  room : 0 < p.capacity

theorem balanced_start (indices : List Nat) (w : Nat) (st : σ) : (start indices w st).Balanced where
  conserved := by
    simp only [start, queued, holding, List.take_zero, List.map_nil, List.append_nil,
      List.nil_append, List.flatMap_replicate, Worker.held]
    simp
  stop_eq := rfl
  exited := fun w hw hex => by
    simp only [start, List.mem_replicate] at hw
    rw [hw.2] at hex
    cases hex
  staffed := by simp [start, workerCount]
  room := by simp only [start, workerCount, queueDepthPerWorker]; omega

theorem take_succ_of_getElem? {l : List Nat} {n : Nat} {i : Option Nat} (h : l[n]? = i) :
    l.take (n + 1) = l.take n ++ i.toList := by
  rw [List.take_add_one, h]

/-- **Balance is kept.** Every move keeps a pool balanced. -/
theorem Balanced.move {p p' : Pool σ} (hb : p.Balanced) (hm : Move d s onDone p p') :
    p'.Balanced := by
  have hc := List.perm_iff_count.mp hb.conserved
  -- a worker's move swaps its entry of `holding`; `hset` counts through the swap
  cases hm with
  | @look k w hw hph =>
    refine ⟨List.perm_iff_count.mpr fun x => ?_, hb.stop_eq, fun w' hw' hex => ?_,
      by simpa using hb.staffed, hb.room⟩
    · have hnew : ({ w with phase := if p.stop then .exited else .fetch } : Worker).held = [] := by
        split <;> rfl
      have hset := count_flatMap_set Worker.held x p.workers k
        { w with phase := if p.stop then .exited else .fetch } hw
      have := hc x
      rw [hnew] at hset
      simp only [Worker.held, hph, List.count_nil] at hset
      simp only [queued, holding, List.count_append, setWorker_received, setWorker_queue,
        setWorker_indices, setWorker_cursor, setWorker_workers] at this ⊢
      omega
    · rcases List.mem_or_eq_of_mem_set hw' with hw' | rfl
      · exact hb.exited w' hw' hex
      · -- only a raised flag makes the worker finish here
        simp only at hex
        split at hex
        · exact .inl ‹_›
        · cases hex
  | @last k w hw hph hi =>
    refine ⟨List.perm_iff_count.mpr fun x => ?_, hb.stop_eq, fun w' hw' hex => ?_,
      by simpa using hb.staffed, hb.room⟩
    · have hset := count_flatMap_set Worker.held x p.workers k { w with phase := .exited } hw
      have := hc x
      simp only [Worker.held, hph, List.count_nil] at hset
      simp only [queued, holding, List.count_append, setWorker_received, setWorker_queue,
        setWorker_indices, setWorker_cursor, setWorker_workers, take_succ_of_getElem? hi,
        Option.toList_none, List.append_nil] at this ⊢
      omega
    · have hend : p.indices.length ≤ p.cursor := List.getElem?_eq_none_iff.mp hi
      exact .inr (by simp only [setWorker_indices, setWorker_cursor]; omega)
  | @take k w i hw hph hi =>
    refine ⟨List.perm_iff_count.mpr fun x => ?_, hb.stop_eq, fun w' hw' hex => ?_,
      by simpa using hb.staffed, hb.room⟩
    · have hset := count_flatMap_set Worker.held x p.workers k { w with phase := .work i } hw
      have := hc x
      simp only [Worker.held, hph, List.count_nil] at hset
      simp only [queued, holding, List.count_append, setWorker_received, setWorker_queue,
        setWorker_indices, setWorker_cursor, setWorker_workers, take_succ_of_getElem? hi,
        Option.toList_some] at this ⊢
      omega
    · rcases List.mem_or_eq_of_mem_set hw' with hw' | rfl
      · rcases hb.exited w' hw' hex with h | h
        · exact .inl h
        · exact .inr (by simp only [setWorker_indices, setWorker_cursor]; omega)
      · cases hex
  | @read k w i hw hph =>
    refine ⟨List.perm_iff_count.mpr fun x => ?_, hb.stop_eq, fun w' hw' hex => ?_,
      by simpa using hb.staffed, hb.room⟩
    · have hset := count_flatMap_set Worker.held x p.workers k
        ⟨.send (s.rangeAt i, (w.reader.read d s (s.rangeAt i)).2.map PieceHash.of),
          (w.reader.read d s (s.rangeAt i)).1⟩ hw
      have := hc x
      simp only [Worker.held, hph, Stream.index_rangeAt] at hset
      simp only [queued, holding, List.count_append, setWorker_received, setWorker_queue,
        setWorker_indices, setWorker_cursor, setWorker_workers] at this ⊢
      omega
    · rcases List.mem_or_eq_of_mem_set hw' with hw' | rfl
      · exact hb.exited w' hw' hex
      · cases hex
  | @send k w c hw hph hroom =>
    refine ⟨List.perm_iff_count.mpr fun x => ?_, hb.stop_eq, fun w' hw' hex => ?_,
      by simpa using hb.staffed, hb.room⟩
    · have hset := count_flatMap_set Worker.held x p.workers k { w with phase := .check } hw
      have := hc x
      simp only [Worker.held, hph, List.count_nil] at hset
      simp only [queued, holding, List.count_append, List.map_append, List.map_cons,
        List.map_nil, setWorker_received, setWorker_indices, setWorker_cursor,
        setWorker_workers] at this ⊢
      omega
    · rcases List.mem_or_eq_of_mem_set hw' with hw' | rfl
      · exact hb.exited w' hw' hex
      · cases hex
  | drain hq hcan =>
    refine ⟨List.perm_iff_count.mpr fun x => ?_, hb.stop_eq, hb.exited, hb.staffed, hb.room⟩
    have := hc x
    simp only [queued, holding, hq, List.map_cons, List.count_append, List.count_cons,
      List.count_nil] at this ⊢
    omega
  | pass hq hcan hf =>
    refine ⟨List.perm_iff_count.mpr fun x => ?_, hb.stop_eq, hb.exited, hb.staffed, hb.room⟩
    have := hc x
    simp only [queued, holding, hq, List.map_cons, List.count_append, List.count_cons,
      List.count_nil] at this ⊢
    omega
  | halt hq hcan hf =>
    refine ⟨List.perm_iff_count.mpr fun x => ?_, rfl, fun w hw _ => .inl rfl, hb.staffed, hb.room⟩
    have := hc x
    simp only [queued, holding, hq, List.map_cons, List.count_append, List.count_cons,
      List.count_nil] at this ⊢
    omega

theorem Move.indices {p p' : Pool σ} (hm : Move d s onDone p p') : p'.indices = p.indices := by
  cases hm <;> rfl

theorem indices_run (sched : List Actor) (p : Pool σ) :
    (p.run d s onDone sched).indices = p.indices := by
  have hmove : ∀ q q' : Pool σ, q.indices = p.indices → Move d s onDone q q' →
      q'.indices = p.indices :=
    fun _ _ h hm => (hm.indices d s onDone).trans h
  exact run_invariant d s onDone hmove sched p rfl

theorem Worker.isExited_eq_true {w : Worker} : w.isExited = true ↔ w.phase = .exited := by
  unfold Worker.isExited
  split <;> simp_all

theorem finished_iff {p : Pool σ} :
    p.finished = true ↔ p.queue = [] ∧ ∀ w ∈ p.workers, w.phase = .exited := by
  simp [finished, List.all_eq_true, Worker.isExited_eq_true]

/-- At the end of a run nothing is held and nothing queued, so every position handed out
was received. -/
theorem Balanced.received_perm {p : Pool σ} (hb : p.Balanced) (hfin : p.finished = true) :
    p.received.Perm (p.indices.take p.cursor) := by
  obtain ⟨hq, hall⟩ := finished_iff.mp hfin
  have hh : p.holding = [] :=
    List.flatMap_eq_nil_iff.mpr fun w hw => by simp [Worker.held, hall w hw]
  simpa [queued, hh, hq] using hb.conserved

/-- At the end of a run that was not stopped the cursor has handed out the whole list:
the first worker finished, and did not see the flag. -/
theorem Balanced.take_all {p : Pool σ} (hb : p.Balanced) (hfin : p.finished = true)
    (hstop : p.stop = false) : p.indices.take p.cursor = p.indices := by
  obtain ⟨w, hw⟩ := List.exists_mem_of_ne_nil p.workers hb.staffed
  rcases hb.exited w hw ((finished_iff.mp hfin).2 w hw) with h | h
  · simp [hstop] at h
  · exact List.take_of_length_le h

/-! ## What the handler is told -/

/-- The handler `onDone` that also logs each of its calls: the completion handed on, and
its answer. -/
def logging (h : σ × List (Completion × Flow)) (c : Completion) (now : Nat) :
    (σ × List (Completion × Flow)) × Flow :=
  let r := onDone h.1 c now
  ((r.1, h.2 ++ [(c, r.2)]), r.2)

theorem logging_fst {h : σ × List (Completion × Flow)} {c : Completion} {now : Nat}
    {st : σ × List (Completion × Flow)} {f : Flow} (hf : logging onDone h c now = (st, f)) :
    onDone h.1 c now = (st.1, f) := by
  simp only [logging, Prod.mk.injEq] at hf
  obtain ⟨rfl, rfl⟩ := hf
  rfl

theorem logging_log {h : σ × List (Completion × Flow)} {c : Completion} {now : Nat}
    {st : σ × List (Completion × Flow)} {f : Flow} (hf : logging onDone h c now = (st, f)) :
    st.2 = h.2 ++ [(c, f)] := by
  simp only [logging, Prod.mk.injEq] at hf
  obtain ⟨rfl, rfl⟩ := hf
  rfl

/-- The pool with its handler's state mapped by `g`. -/
def mapHandler {τ : Type} (g : σ → τ) (p : Pool σ) : Pool τ :=
  ⟨p.indices, p.workers, p.cursor, p.stop, p.queue, p.capacity, p.cancelled, g p.handler,
    p.received⟩

section mapHandler

variable {τ : Type} (g : σ → τ) (p : Pool σ)

@[simp] theorem mapHandler_indices : (p.mapHandler g).indices = p.indices := rfl
@[simp] theorem mapHandler_workers : (p.mapHandler g).workers = p.workers := rfl
@[simp] theorem mapHandler_cursor : (p.mapHandler g).cursor = p.cursor := rfl
@[simp] theorem mapHandler_stop : (p.mapHandler g).stop = p.stop := rfl
@[simp] theorem mapHandler_queue : (p.mapHandler g).queue = p.queue := rfl
@[simp] theorem mapHandler_capacity : (p.mapHandler g).capacity = p.capacity := rfl
@[simp] theorem mapHandler_cancelled : (p.mapHandler g).cancelled = p.cancelled := rfl

/-- A worker never reads the handler. -/
theorem mapHandler_stepWorker (k : Nat) :
    (p.stepWorker d s k).mapHandler g = (p.mapHandler g).stepWorker d s k := by
  simp only [stepWorker, mapHandler_workers]
  cases p.workers[k]? with
  | none => rfl
  | some w =>
    dsimp only
    cases w.phase with
    | fetch =>
      simp only [mapHandler_indices, mapHandler_cursor]
      cases p.indices[p.cursor]? <;> rfl
    | send c =>
      -- the completion joins the queue, or the worker waits; neither reads the handler
      by_cases hroom : p.queue.length < p.capacity
      · simp only [mapHandler_queue, mapHandler_capacity, hroom, ↓reduceIte]
        rfl
      · simp only [mapHandler_queue, mapHandler_capacity, hroom, ↓reduceIte]
    | _ => rfl

end mapHandler

/-- Logging changes nothing else: a step with the logging handler, its log forgotten, is a
step with `onDone`. -/
theorem mapHandler_step (p : Pool (σ × List (Completion × Flow))) (a : Actor) :
    (p.step d s (logging onDone) a).mapHandler Prod.fst =
      (p.mapHandler Prod.fst).step d s onDone a := by
  cases a with
  | worker k => exact mapHandler_stepWorker d s Prod.fst p k
  | coordinator now =>
    simp only [step, stepCoordinator, mapHandler_queue]
    cases p.queue with
    | nil => rfl
    | cons c rest =>
      by_cases hc : p.cancelled = true
      · simp [hc, mapHandler]
      · rcases hf : onDone p.handler.1 c now with ⟨st, _ | _⟩ <;>
          simp [hc, hf, logging, mapHandler]

theorem mapHandler_run (sched : List Actor) (p : Pool (σ × List (Completion × Flow))) :
    (p.run d s (logging onDone) sched).mapHandler Prod.fst =
      (p.mapHandler Prod.fst).run d s onDone sched := by
  induction sched generalizing p with
  | nil => rfl
  | cons a rest ih =>
    simp only [run, List.foldl_cons] at ih ⊢
    rw [ih, mapHandler_step]

/-- The log of a logging handler agrees with what the coordinator took. -/
structure Logged (p : Pool (σ × List (Completion × Flow))) : Prop where
  /-- the completions handed on are the first ones taken -/
  handed : p.handler.2.map (·.1.1.index) <+: p.received
  /-- until the run is cancelled, every completion taken was handed on and answered
  `proceed` -/
  uncancelled : p.cancelled = false →
    p.handler.2.map (·.1.1.index) = p.received ∧ ∀ e ∈ p.handler.2, e.2 = .proceed
  /-- once it is, the last call alone answered `halt` -/
  halted : p.cancelled = true →
    ∃ pre c, p.handler.2 = pre ++ [(c, .halt)] ∧ ∀ e ∈ pre, e.2 = .proceed

theorem logged_start (indices : List Nat) (w : Nat) (st : σ) :
    (start indices w (st, ([] : List (Completion × Flow)))).Logged where
  handed := List.nil_prefix
  uncancelled := fun _ => ⟨rfl, by simp [start]⟩
  halted := fun h => by cases h

/-- Whether a pool is logged depends on its handler, its received list and its
cancellation only. -/
theorem Logged.congr {p q : Pool (σ × List (Completion × Flow))} (hl : p.Logged)
    (hh : q.handler = p.handler) (hr : q.received = p.received) (hc : q.cancelled = p.cancelled) :
    q.Logged := by
  obtain ⟨h1, h2, h3⟩ := hl
  rw [← hh, ← hr, ← hc] at *
  exact ⟨h1, h2, h3⟩

/-- **The log is kept.** Every move of a run with the logging handler keeps it logged. -/
theorem Logged.move {p p' : Pool (σ × List (Completion × Flow))} (hl : p.Logged)
    (hm : Move d s (logging onDone) p p') : p'.Logged := by
  cases hm with
  | look hw hph => exact hl.congr rfl rfl rfl
  | last hw hph hi => exact hl.congr rfl rfl rfl
  | take hw hph hi => exact hl.congr rfl rfl rfl
  | read hw hph => exact hl.congr rfl rfl rfl
  | send hw hph hroom => exact hl.congr rfl rfl rfl
  | drain hq hcan =>
    -- a drained completion is taken and not handed on
    refine ⟨hl.handed.trans (List.prefix_append _ _), fun h => ?_, hl.halted⟩
    simp only [hcan] at h
    cases h
  | @pass c rest now st hq hcan hf =>
    obtain ⟨hmap, hall⟩ := hl.uncancelled hcan
    have hlog := logging_log onDone hf
    have hmap' : st.2.map (·.1.1.index) = p.received ++ [c.1.index] := by
      simp [hlog, hmap]
    refine ⟨hmap' ▸ List.prefix_refl _, fun _ => ⟨hmap', ?_⟩, fun h => ?_⟩
    · intro e he
      rw [hlog, List.mem_append, List.mem_singleton] at he
      rcases he with he | rfl
      · exact hall e he
      · rfl
    · simp only [hcan] at h
      cases h
  | @halt c rest now st hq hcan hf =>
    obtain ⟨hmap, hall⟩ := hl.uncancelled hcan
    have hlog := logging_log onDone hf
    refine ⟨by simp [hlog, hmap], (fun h => by cases h), fun _ => ⟨p.handler.2, c, hlog, hall⟩⟩

/-- The handler answered `halt` at most once, on its last call, and only then is the run
cancelled. -/
theorem Logged.halt_last {p : Pool (σ × List (Completion × Flow))} (hl : p.Logged) {k : Nat}
    {e : Completion × Flow} (hk : p.handler.2[k]? = some e) (he : e.2 = .halt) :
    p.handler.2.length = k + 1 ∧ p.cancelled = true := by
  cases hc : p.cancelled with
  | false =>
    have := (hl.uncancelled hc).2 e (List.mem_of_getElem? hk)
    rw [he] at this
    cases this
  | true =>
    obtain ⟨pre, c, hlog, hpre⟩ := hl.halted hc
    refine ⟨?_, rfl⟩
    rw [hlog] at hk ⊢
    -- every call before the last answered `proceed`
    have hlast : ¬ k < pre.length := fun hlt => by
      rw [List.getElem?_append_left hlt] at hk
      have := hpre e (List.mem_of_getElem? hk)
      rw [he] at this
      cases this
    have hlt : k < (pre ++ [(c, Flow.halt)]).length := (List.getElem?_eq_some_iff.mp hk).1
    simp only [List.length_append, List.length_singleton] at hlt ⊢
    omega

theorem Logged.proceeds_iff {p : Pool (σ × List (Completion × Flow))} (hl : p.Logged) :
    (∀ e ∈ p.handler.2, e.2 = .proceed) ↔ p.cancelled = false := by
  constructor
  · intro hall
    cases hc : p.cancelled with
    | false => rfl
    | true =>
      obtain ⟨pre, c, hlog, -⟩ := hl.halted hc
      have := hall (c, .halt) (by simp [hlog])
      cases this
  · exact fun hc => (hl.uncancelled hc).2

/-! ## Handlers that record what they are handed -/

/-- **What a move does on the coordinator's side.** A worker's move keeps the handler,
the received list and the cancellation; a drain, once the run is cancelled, takes a
completion of the queue without handing it on; the other moves hand a completion of the
queue on, and the run is cancelled after it exactly when the handler answers `halt`. -/
theorem Move.handed_cases {p p' : Pool σ} (hm : Move d s onDone p p') :
    (p'.handler = p.handler ∧ p'.received = p.received ∧ p'.cancelled = p.cancelled) ∨
    (p'.handler = p.handler ∧ p.cancelled = true ∧ p'.cancelled = true ∧
      ∃ c ∈ p.queue, p'.received = p.received ++ [c.1.index]) ∨
    (∃ c ∈ p.queue, ∃ now, p'.handler = (onDone p.handler c now).1 ∧ p.cancelled = false ∧
      (p'.cancelled = true ↔ (onDone p.handler c now).2 = .halt) ∧
      p'.received = p.received ++ [c.1.index]) := by
  cases hm with
  | look hw hph => exact .inl ⟨rfl, rfl, rfl⟩
  | last hw hph hi => exact .inl ⟨rfl, rfl, rfl⟩
  | take hw hph hi => exact .inl ⟨rfl, rfl, rfl⟩
  | read hw hph => exact .inl ⟨rfl, rfl, rfl⟩
  | send hw hph hroom => exact .inl ⟨rfl, rfl, rfl⟩
  | @drain c rest hq hcan => exact .inr (.inl ⟨rfl, hcan, hcan, c, hq ▸ List.mem_cons_self, rfl⟩)
  | @pass c rest now st hq hcan hf =>
    exact .inr (.inr ⟨c, hq ▸ List.mem_cons_self, now, by rw [hf], hcan, by simp [hcan, hf], rfl⟩)
  | @halt c rest now st hq hcan hf =>
    exact .inr (.inr ⟨c, hq ▸ List.mem_cons_self, now, by rw [hf], hcan, by simp [hf], rfl⟩)

/-- `calls` reads off a handler's state the completions it was handed: each call adds
its completion at the end. -/
def Records (calls : σ → List Completion) : Prop :=
  ∀ h c now, calls (onDone h c now).1 = calls h ++ [c]

/-- The completions a recording handler was handed are the first the coordinator took,
and, until the run is cancelled, all of them. -/
structure Recorded (calls : σ → List Completion) (p : Pool σ) : Prop where
  /-- those handed on are the first taken -/
  handed : (calls p.handler).map (·.1.index) <+: p.received
  /-- before cancellation, every completion taken was handed on -/
  uncancelled : p.cancelled = false → (calls p.handler).map (·.1.index) = p.received

theorem recorded_start {calls : σ → List Completion} (indices : List Nat) (w : Nat) {st : σ}
    (hnil : calls st = []) : (start indices w st).Recorded calls where
  handed := by simp [start, hnil]
  uncancelled := fun _ => by simp [start, hnil]

theorem Recorded.move {calls : σ → List Completion} (hrec : Records onDone calls)
    {p p' : Pool σ} (hr : p.Recorded calls) (hm : Move d s onDone p p') : p'.Recorded calls := by
  rcases Move.handed_cases d s onDone hm with ⟨hh, hrcv, hc⟩ | ⟨hh, -, hc, c, -, hrcv⟩ |
    ⟨c, -, now, hh, hcan, -, hrcv⟩
  · -- a worker's move
    refine ⟨?_, fun h => ?_⟩
    · rw [hh, hrcv]
      exact hr.handed
    · rw [hh, hrcv]
      exact hr.uncancelled (hc ▸ h)
  · -- a drained completion is taken and not handed on
    refine ⟨?_, fun h => ?_⟩
    · rw [hh, hrcv]
      exact hr.handed.trans (List.prefix_append _ _)
    · rw [hc] at h
      cases h
  · have hmap : (calls p'.handler).map (·.1.index) = p'.received := by
      simp [hh, hrec p.handler c now, hrcv, hr.uncancelled hcan]
    exact ⟨hmap ▸ List.prefix_refl _, fun _ => hmap⟩

/-- A handler that never asks to halt never has the run cancelled. -/
theorem cancelled_run_of_proceeds (hnever : ∀ h c now, (onDone h c now).2 = .proceed)
    (sched : List Actor) (indices : List Nat) (w : Nat) (st : σ) :
    ((start indices w st).run d s onDone sched).cancelled = false := by
  have hmove : ∀ q q' : Pool σ, q.cancelled = false → Move d s onDone q q' →
      q'.cancelled = false := by
    intro q q' hq hm
    rcases Move.handed_cases d s onDone hm with ⟨-, -, hc⟩ | ⟨-, hc, -⟩ | ⟨c, -, now, -, -, hc, -⟩
    · rwa [hc]
    · rw [hq] at hc
      cases hc
    · -- the handler never answers `halt`
      cases hc' : q'.cancelled with
      | false => rfl
      | true =>
        have := hc.mp hc'
        rw [hnever] at this
        cases this
  exact run_invariant d s onDone hmove sched _ rfl

/-- At the end of a run that was not cancelled, a recording handler was handed one
completion for each position of the list. -/
theorem calls_perm_of_finished {calls : σ → List Completion} {p : Pool σ} (hb : p.Balanced)
    (hr : p.Recorded calls) (hfin : p.finished = true) (hc : p.cancelled = false) :
    ((calls p.handler).map (·.1.index)).Perm p.indices := by
  rw [hr.uncancelled hc, ← hb.take_all hfin (hb.stop_eq.trans hc)]
  exact hb.received_perm hfin

/-! ## Delivery -/

/-- **Every piece delivered exactly once.** Along any schedule of a pool started on
`indices`, its handler `onDone` logged:

* the run is the run of `onDone`, the log only watches it;
* each position the cursor handed out is, once, received, queued or held by a worker, so
  with distinct indices no index is in two places;
* the handler answered `halt` only on its last call, and the run is then cancelled; the
  run is not cancelled exactly when every answer was `proceed`;
* once the run has finished, every position handed out was received, and if the run was
  not cancelled the handler was called for the completions received, in order, which are
  the list's indices, each once. -/
theorem delivers_each_once (indices : List Nat) (w : Nat) (st : σ) (sched : List Actor) :
    let q := (start indices w (st, ([] : List (Completion × Flow)))).run d s (logging onDone) sched
    q.mapHandler Prod.fst = (start indices w st).run d s onDone sched ∧
    (q.received ++ q.queued ++ q.holding).Perm (indices.take q.cursor) ∧
    (indices.Nodup → (q.received ++ q.queued ++ q.holding).Nodup) ∧
    (∀ k e, q.handler.2[k]? = some e → e.2 = .halt →
      q.handler.2.length = k + 1 ∧ q.cancelled = true) ∧
    ((∀ e ∈ q.handler.2, e.2 = .proceed) ↔ q.cancelled = false) ∧
    (q.finished = true →
      q.received.Perm (indices.take q.cursor) ∧
      (q.cancelled = false →
        q.handler.2.map (·.1.1.index) = q.received ∧ q.received.Perm indices)) := by
  intro q
  have hb : q.Balanced :=
    run_invariant d s _ (fun _ _ h hm => h.move d s _ hm) sched _ (balanced_start indices w _)
  have hl : q.Logged :=
    run_invariant d s _ (fun _ _ h hm => h.move d s onDone hm) sched _ (logged_start indices w st)
  have hi : q.indices = indices := indices_run d s _ sched _
  have hcons := hb.conserved
  rw [hi] at hcons
  refine ⟨mapHandler_run d s onDone sched _, hcons,
    fun hnd => hcons.nodup_iff.mpr (hnd.sublist (List.take_sublist _ _)),
    fun _ _ hk he => hl.halt_last hk he, hl.proceeds_iff, fun hfin => ?_⟩
  have hrec := hb.received_perm hfin
  rw [hi] at hrec
  refine ⟨hrec, fun hc => ⟨(hl.uncancelled hc).1, ?_⟩⟩
  have hall := hb.take_all hfin (hb.stop_eq.trans hc)
  rw [hi] at hall
  rwa [hall] at hrec

/-- A one-worker run of three pieces whose handler halts at once: the worker takes,
reads and sends piece `0`, the coordinator hands it on and raises the flag, and the
worker, seeing it, finishes with the rest of the list untouched. -/
theorem halt_on_first_call_drains :
    let q := (start [0, 1, 2] 1 ((), ([] : List (Completion × Flow)))).run Disk.empty
      ⟨FileList.single "a" 3, "a", 1, 3⟩ (logging fun _ _ _ => ((), Flow.halt))
      [.worker 0, .worker 0, .worker 0, .worker 0, .coordinator 0, .worker 0]
    q.finished = true ∧ q.received.Perm ([0, 1, 2].take q.cursor) := by
  intro q
  have hfin : q.finished = true := by decide
  exact ⟨hfin, ((delivers_each_once Disk.empty ⟨FileList.single "a" 3, "a", 1, 3⟩
    (fun _ _ _ => ((), Flow.halt)) [0, 1, 2] 1 ()
    [.worker 0, .worker 0, .worker 0, .worker 0, .coordinator 0, .worker 0]).2.2.2.2.2 hfin).1⟩

/-! ## The plain schedule finishes -/

/-- What is left to do: five for each position not yet handed out, the cost of each
worker's phase, and one for each completion in the queue. The costs are such that every
move lowers the sum: taking a position trades five for a worker's three. -/
def potential (p : Pool σ) : Nat :=
  5 * (p.indices.length - p.cursor) + (p.workers.map (·.phase.cost)).sum + p.queue.length

/-- **Every move makes progress.** -/
theorem potential_move {p p' : Pool σ} (hm : Move d s onDone p p') :
    p'.potential < p.potential := by
  -- a worker's move swaps its cost in the sum; `hset` counts through the swap
  cases hm with
  | @look k w hw hph =>
    have hset := sum_map_set (·.phase.cost) p.workers k
      { w with phase := if p.stop then .exited else .fetch } hw
    have hle : (if p.stop then Phase.exited else Phase.fetch).cost ≤ 1 := by split <;> decide
    simp only [hph, Phase.cost.eq_1] at hset
    simp only [potential, setWorker_indices, setWorker_cursor, setWorker_workers, setWorker_queue]
    omega
  | @last k w hw hph hi =>
    have hset := sum_map_set (·.phase.cost) p.workers k { w with phase := .exited } hw
    have hend : p.indices.length ≤ p.cursor := List.getElem?_eq_none_iff.mp hi
    simp only [hph, Phase.cost.eq_1, Phase.cost.eq_2, Phase.cost.eq_3, Phase.cost.eq_4,
      Phase.cost.eq_5] at hset
    simp only [potential, setWorker_indices, setWorker_cursor, setWorker_workers, setWorker_queue]
    omega
  | @take k w i hw hph hi =>
    have hset := sum_map_set (·.phase.cost) p.workers k { w with phase := .work i } hw
    have hlt : p.cursor < p.indices.length := (List.getElem?_eq_some_iff.mp hi).1
    simp only [hph, Phase.cost.eq_1, Phase.cost.eq_2, Phase.cost.eq_3, Phase.cost.eq_4,
      Phase.cost.eq_5] at hset
    simp only [potential, setWorker_indices, setWorker_cursor, setWorker_workers, setWorker_queue]
    omega
  | @read k w i hw hph =>
    have hset := sum_map_set (·.phase.cost) p.workers k
      ⟨.send (s.rangeAt i, (w.reader.read d s (s.rangeAt i)).2.map PieceHash.of),
        (w.reader.read d s (s.rangeAt i)).1⟩ hw
    simp only [hph, Phase.cost.eq_1, Phase.cost.eq_2, Phase.cost.eq_3, Phase.cost.eq_4,
      Phase.cost.eq_5] at hset
    simp only [potential, setWorker_indices, setWorker_cursor, setWorker_workers, setWorker_queue]
    omega
  | @send k w c hw hph hroom =>
    have hset := sum_map_set (·.phase.cost) p.workers k { w with phase := .check } hw
    simp only [hph, Phase.cost.eq_1, Phase.cost.eq_2, Phase.cost.eq_3, Phase.cost.eq_4,
      Phase.cost.eq_5] at hset
    simp only [potential, setWorker_indices, setWorker_cursor, setWorker_workers,
      List.length_append, List.length_singleton]
    omega
  | drain hq hcan =>
    simp only [potential, hq, List.length_cons]
    omega
  | pass hq hcan hf =>
    simp only [potential, hq, List.length_cons]
    omega
  | halt hq hcan hf =>
    simp only [potential, hq, List.length_cons]
    omega

/-- The plain schedule's next actor has something to do: the coordinator finds a
completion, or a worker that has not finished finds the queue empty. -/
theorem ready_of_nextActor {p : Pool σ} (hb : p.Balanced) {a : Actor}
    (ha : p.nextActor = some a) : p.Ready a := by
  unfold nextActor at ha
  split at ha
  · rename_i hq
    cases ha
    show p.queue ≠ []
    simpa using hq
  · rename_i hq
    obtain ⟨k, hk, rfl⟩ := Option.map_eq_some_iff.mp ha
    obtain ⟨hlt, hnot, -⟩ := List.findIdx?_eq_some_iff_getElem.mp hk
    have hempty : p.queue = [] := by simpa using hq
    refine ⟨p.workers[k], List.getElem?_eq_getElem hlt, by simpa using hnot, fun _ _ => ?_⟩
    simpa [hempty] using hb.room

theorem finished_of_nextActor {p : Pool σ} (h : p.nextActor = none) : p.finished = true := by
  unfold nextActor at h
  split at h
  · cases h
  · rename_i hq
    have hall := List.findIdx?_eq_none_iff.mp (Option.map_eq_none_iff.mp h)
    simp only [Bool.not_eq_true', Bool.not_eq_false] at hq
    simp only [finished, hq, Bool.true_and, List.all_eq_true]
    intro w hw
    simpa using hall w hw

/-- The plain schedule, given fuel above the potential, runs to the end. -/
theorem runPlain_finished (fuel : Nat) (p : Pool σ) (hb : p.Balanced)
    (hfuel : p.potential < fuel) : (p.runPlain d s onDone fuel).finished = true := by
  induction fuel generalizing p with
  | zero => omega
  | succ fuel ih =>
    simp only [runPlain]
    cases ha : p.nextActor with
    | none => exact finished_of_nextActor ha
    | some a =>
      have hm := move_of_ready d s onDone (ready_of_nextActor hb ha)
      exact ih _ (hb.move d s onDone hm) (by have := potential_move d s onDone hm; omega)

/-- The plain schedule is a schedule. -/
theorem runPlain_eq_run (fuel : Nat) (p : Pool σ) :
    ∃ sched, p.runPlain d s onDone fuel = p.run d s onDone sched := by
  induction fuel generalizing p with
  | zero => exact ⟨[], rfl⟩
  | succ fuel ih =>
    simp only [runPlain]
    cases p.nextActor with
    | none => exact ⟨[], rfl⟩
    | some a =>
      obtain ⟨sched, h⟩ := ih (p.step d s onDone a)
      exact ⟨a :: sched, h⟩

theorem potential_start (indices : List Nat) (w : Nat) (st : σ) :
    (start indices w st).potential < (start indices w st).plainFuel := by
  simp [potential, plainFuel, start, Phase.cost]
  omega

/-- **The plain schedule finishes.** `hashAll` is a run of the pool that ends with every
worker finished and the queue empty. -/
theorem hashAll_finished (indices : List Nat) (w : Nat) (st : σ) :
    (∃ sched, hashAll d s onDone indices w st = (start indices w st).run d s onDone sched) ∧
      (hashAll d s onDone indices w st).finished = true :=
  ⟨runPlain_eq_run d s onDone _ _,
    runPlain_finished d s onDone _ _ (balanced_start indices w st) (potential_start indices w st)⟩

end Pool

end Metainfo
