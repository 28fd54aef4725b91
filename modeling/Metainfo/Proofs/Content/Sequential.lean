import Metainfo.Content.Hashing
import Metainfo.Proofs.Content.Delivery
import Metainfo.Proofs.Content.Reading

/-!
# Hashing in parallel is hashing in order

`hashPieces` reads and digests the pieces on a pool of workers, each reading through a
reader of its own, and puts the digests in place as the completions arrive. This module
compares it with `Stream.hashReference`, which reads every piece afresh, in index order:

* `Pool.Faithful`: along every run on one disk, each worker's reader is sound and every
  completion built, queued or handed on is the piece's own (`Stream.completion`);
* `passed_pieceRun`: a run over any list of pieces that finishes uncancelled has handed
  on one completion of each, in some order;
* `slotsOf_perm`, `slotsOf_range`, `mergeSort_eq_of_perm`: the slots filled from the
  completions, and the errors sorted by piece, do not depend on that order;
* `readErrors_eq_nil_iff`, `failedFiles_readErrors`: the reference reads every piece
  exactly when every non-empty file is on disk with its length; otherwise it has one
  error for each piece touching a file that is not, in piece order, and those errors
  name exactly the non-empty files that are not;
* `hashPieces_eq_reference`: for every schedule that finishes, and for the plain one,
  the outcome is the reference, or `cancelled` with the number of completions handed on.
-/

namespace Metainfo

namespace Stream

/-- The completion of piece `i`: its range with the digest of a fresh read, or the
read's error. -/
def completion (d : Disk) (s : Stream) (i : Nat) : Completion :=
  (s.rangeAt i, (pieceRead d s (s.rangeAt i)).map PieceHash.of)

/-- The read error of piece `i`, if it has one. -/
def readError? (d : Disk) (s : Stream) (i : Nat) : Option PieceReadError :=
  match pieceRead d s (s.rangeAt i) with
  | .error e => some e
  | .ok _ => none

/-- The read errors of the pieces, in piece order. -/
def readErrors (d : Disk) (s : Stream) : List PieceReadError :=
  (List.range s.pieceCount).filterMap (s.readError? d)

/-- The digest of piece `p` of the content laid end to end. -/
def pieceDigest (d : Disk) (s : Stream) (p : Nat) : PieceHash :=
  PieceHash.of ⟨(slice (s.diskBytes d) (p * s.pieceSize)
    (min ((p + 1) * s.pieceSize) s.total)).toArray⟩

/-- Hashing in order: every piece read afresh, in index order; the digests if every
piece reads, else the read errors. -/
def hashReference (d : Disk) (s : Stream) : HashOutcome :=
  match s.readErrors d with
  | [] => .complete ⟨(List.range s.pieceCount).map (s.pieceDigest d)⟩
  | errors => .failed errors

end Stream

/-! ## The reference -/

section Reference

variable {d : Disk} {s : Stream}

/-- The files of a piece below the count are files of the list, and not empty. -/
theorem fileLen_pos_of_mem_files {p i : Nat} (hi : i ∈ (s.rangeAt p).files) :
    i < s.files.length ∧ 0 < s.fileLen i := by
  obtain ⟨sp, hsp, rfl⟩ := List.mem_map.mp hi
  obtain ⟨hpos, hin⟩ := Stream.offset_add_len_le hsp
  exact ⟨(Stream.mem_spansIn.mp hsp).1, by omega⟩

/-- A file that is not empty lies in the piece of its first byte. -/
theorem exists_piece_of_fileLen_pos (hs : s.Valid) {i : Nat} (hi : i < s.files.length)
    (hlen : 0 < s.fileLen i) : ∃ p < s.pieceCount, i ∈ (s.rangeAt p).files := by
  have hps := hs.pieceSize_pos
  have hstop := s.stop_eq hi
  have htot := Stream.stop_le_total hs i
  have hp : s.start i / s.pieceSize < s.pieceCount := by
    -- the first byte lies before the end, so its piece is below the count
    have hmul := Nat.div_mul_le_self (s.start i) s.pieceSize
    simp only [Stream.pieceCount, Piece.count]
    apply (Nat.le_div_iff_mul_le hps).mpr
    rw [Nat.succ_mul]
    omega
  refine ⟨_, hp, (Stream.mem_files_rangeAt_iff hs hp i).mpr ?_⟩
  have hget : s.files.get? i = some s.files.entries[i] := List.getElem?_eq_getElem hi
  have hne : s.files.entries[i].len ≠ 0 := by rw [← Stream.fileLen_of_lt hi]; omega
  simp only [Stream.piecesOfFile, hget, hne, ↓reduceIte, Nat.le_refl, true_and]
  have hle : s.start i / s.pieceSize ≤ (s.start i + s.files.entries[i].len - 1) / s.pieceSize :=
    Nat.div_le_div_right (by omega)
  omega

theorem readError?_eq_none_iff (p : Nat) :
    s.readError? d p = none ↔ ∀ i ∈ (s.rangeAt p).files, s.opens d i = true := by
  rw [← pieceRead_rangeAt_ok_iff]
  unfold Stream.readError?
  cases pieceRead d s (s.rangeAt p) <;> simp

theorem readError?_eq_some_iff {p : Nat} {e : PieceReadError} :
    s.readError? d p = some e ↔ pieceRead d s (s.rangeAt p) = .error e := by
  unfold Stream.readError?
  cases pieceRead d s (s.rangeAt p) <;> simp

/-- A piece's read error is that piece's. -/
theorem piece_of_readError? {p : Nat} {e : PieceReadError} (h : s.readError? d p = some e) :
    e.piece = p :=
  ((pieceRead_rangeAt p).2 e (readError?_eq_some_iff.mp h)).1

theorem pieceRead_of_mem_readErrors {e : PieceReadError} (he : e ∈ s.readErrors d) :
    e.piece < s.pieceCount ∧ pieceRead d s (s.rangeAt e.piece) = .error e := by
  obtain ⟨p, hp, hsome⟩ := List.mem_filterMap.mp he
  obtain rfl := piece_of_readError? hsome
  exact ⟨List.mem_range.mp hp, readError?_eq_some_iff.mp hsome⟩

/-- **Which pieces read.** The reference reads every piece exactly when every non-empty
file is on disk with its length. -/
theorem readErrors_eq_nil_iff (hs : s.Valid) : s.readErrors d = [] ↔ s.Present d := by
  simp only [Stream.readErrors, List.filterMap_eq_nil_iff, List.mem_range, readError?_eq_none_iff]
  constructor
  · intro h i hi hne
    -- the file lies in the piece of its first byte, and that piece reads
    obtain ⟨p, hp, hip⟩ := exists_piece_of_fileLen_pos hs hi (Nat.pos_of_ne_zero hne)
    exact Stream.opens_iff.mp (h p hp i hip)
  · intro hpres p hp i hip
    obtain ⟨hi, hlen⟩ := fileLen_pos_of_mem_files hip
    exact Stream.opens_iff.mpr (hpres i hi (by omega))

/-- Every piece touching a file that does not open has its error, in piece order. -/
theorem piece_readErrors :
    (s.readErrors d).map (·.piece) =
      (List.range s.pieceCount).filter fun p => (s.rangeAt p).files.any fun i => !s.opens d i := by
  rw [Stream.readErrors, List.map_filterMap]
  induction List.range s.pieceCount with
  | nil => rfl
  | cons p ps ih =>
    rw [List.filterMap_cons, List.filter_cons, ← ih]
    have hnone := @readError?_eq_none_iff d s p
    cases hread : pieceRead d s (s.rangeAt p) with
    | error e =>
      have hbad : ((s.rangeAt p).files.any fun i => !s.opens d i) = true := by
        simp only [Stream.readError?, hread, reduceCtorEq, false_iff] at hnone
        simpa using hnone
      simp [Stream.readError?, hread, hbad, ((pieceRead_rangeAt p).2 e hread).1]
    | ok bs =>
      have hgood : ((s.rangeAt p).files.any fun i => !s.opens d i) = false := by
        simp only [Stream.readError?, hread, true_iff] at hnone
        simpa using hnone
      simp [Stream.readError?, hread, hgood]

/-- The files the errors name are the non-empty files that do not open. -/
theorem mem_fileIndexes_readErrors (hs : s.Valid) (i : Nat) :
    i ∈ (s.readErrors d).flatMap PieceReadError.fileIndexes ↔
      i < s.files.length ∧ s.fileLen i ≠ 0 ∧ s.opens d i = false := by
  rw [List.mem_flatMap]
  constructor
  · rintro ⟨e, he, hi⟩
    obtain ⟨-, hread⟩ := pieceRead_of_mem_readErrors he
    obtain ⟨-, hfiles, -⟩ := (pieceRead_rangeAt e.piece).2 e hread
    rw [hfiles, List.mem_filter] at hi
    obtain ⟨hlt, hlen⟩ := fileLen_pos_of_mem_files hi.1
    exact ⟨hlt, by omega, by simpa using hi.2⟩
  · rintro ⟨hi, hlen, hopen⟩
    -- the piece of the file's first byte fails, and names the file
    obtain ⟨p, hp, hip⟩ := exists_piece_of_fileLen_pos hs hi (Nat.pos_of_ne_zero hlen)
    cases hr : s.readError? d p with
    | none =>
      rw [(readError?_eq_none_iff p).mp hr i hip] at hopen
      cases hopen
    | some e =>
      obtain ⟨-, hfiles, -⟩ := (pieceRead_rangeAt p).2 e (readError?_eq_some_iff.mp hr)
      refine ⟨e, List.mem_filterMap.mpr ⟨p, List.mem_range.mpr hp, hr⟩, ?_⟩
      rw [hfiles, List.mem_filter]
      exact ⟨hip, by simp [hopen]⟩

/-- The errors are ordered by piece, one for each. -/
theorem pairwise_readErrors :
    (s.readErrors d).Pairwise fun a b => a.piece < b.piece := by
  apply List.pairwise_filterMap.mpr
  refine List.pairwise_lt_range.imp fun {p q} hpq => ?_
  intro a ha b hb
  rw [piece_of_readError? ha, piece_of_readError? hb]
  exact hpq

end Reference

/-! ## Sorting -/

theorem eq_of_mem_iff_of_pairwise_lt {l₁ l₂ : List Nat} (h₁ : l₁.Pairwise (· < ·))
    (h₂ : l₂.Pairwise (· < ·)) (h : ∀ a, a ∈ l₁ ↔ a ∈ l₂) : l₁ = l₂ := by
  have hperm : l₁.Perm l₂ :=
    (List.perm_ext_iff_of_nodup (List.nodup_iff_pairwise_ne.mpr (h₁.imp Nat.ne_of_lt))
      (List.nodup_iff_pairwise_ne.mpr (h₂.imp Nat.ne_of_lt))).mpr h
  exact hperm.eq_of_pairwise (fun a b _ _ hab hba => absurd (Nat.lt_trans hab hba) (Nat.lt_irrefl a))
    h₁ h₂

theorem pairwise_lt_eraseDups : ∀ (l : List Nat), l.Pairwise (· ≤ ·) → l.eraseDups.Pairwise (· < ·)
  | [], _ => by simp [List.eraseDups]
  | a :: as, h => by
    rw [List.eraseDups_cons]
    have hf : (as.filter fun b => !b == a).Pairwise (· ≤ ·) :=
      (List.pairwise_cons.mp h).2.sublist List.filter_sublist
    have ih := pairwise_lt_eraseDups _ hf
    refine List.pairwise_cons.mpr ⟨fun b hb => ?_, ih⟩
    -- what is left after `a` is at least `a` and not `a`
    obtain ⟨hbas, hba⟩ := List.mem_filter.mp (List.mem_eraseDups.mp hb)
    have hle := (List.pairwise_cons.mp h).1 b hbas
    simp only [Bool.not_eq_true', beq_eq_false_iff_ne, ne_eq] at hba
    omega
termination_by l => l.length
decreasing_by
  have := List.length_filter_le (fun b => !b == a) as
  simp only [List.length_cons]
  omega

theorem mem_sortedUnique {l : List Nat} {a : Nat} : a ∈ sortedUnique l ↔ a ∈ l := by
  rw [sortedUnique, List.mem_eraseDups, List.mem_mergeSort]

theorem pairwise_sortedUnique (l : List Nat) : (sortedUnique l).Pairwise (· < ·) := by
  apply pairwise_lt_eraseDups
  have h := @List.pairwise_mergeSort Nat (fun a b => decide (a ≤ b))
    (fun a b c hab hbc => by simp only [decide_eq_true_eq] at *; omega)
    (fun a b => by simp only [Bool.or_eq_true, decide_eq_true_eq]; omega) l
  exact h.imp fun hab => by simpa using hab

/-- In a list strictly increasing by a key, two members of one key are one member. -/
theorem eq_of_key_eq {α : Type} {key : α → Nat} :
    ∀ {l : List α}, l.Pairwise (fun a b => key a < key b) →
      ∀ {a b : α}, a ∈ l → b ∈ l → key a = key b → a = b
  | [], _, _, _, ha, _, _ => by cases ha
  | x :: xs, hl, a, b, ha, hb, hab => by
    rw [List.pairwise_cons] at hl
    rcases List.mem_cons.mp ha with rfl | ha' <;> rcases List.mem_cons.mp hb with rfl | hb'
    · rfl
    · exact absurd hab (Nat.ne_of_lt (hl.1 b hb'))
    · exact absurd hab.symm (Nat.ne_of_lt (hl.1 a ha'))
    · exact eq_of_key_eq hl.2 ha' hb' hab

/-- **Sorting by a key.** Sorting, by the key, any order of a list strictly increasing by
that key gives the list back. -/
theorem mergeSort_eq_of_perm {α : Type} {key : α → Nat} {l t : List α}
    (ht : t.Pairwise (fun a b => key a < key b)) (hperm : l.Perm t) :
    l.mergeSort (fun a b => decide (key a ≤ key b)) = t := by
  have hsorted := @List.pairwise_mergeSort α (fun a b => decide (key a ≤ key b))
    (fun a b c hab hbc => by simp only [decide_eq_true_eq] at *; omega)
    (fun a b => by simp only [Bool.or_eq_true, decide_eq_true_eq]; omega) l
  refine @List.Perm.eq_of_pairwise α (fun a b => key a ≤ key b) _ _
    (fun a b ha hb hab hba => ?_) (hsorted.imp fun h => by simpa using h)
    (ht.imp Nat.le_of_lt) ((List.mergeSort_perm l _).trans hperm)
  exact eq_of_key_eq ht (hperm.subset (List.mem_mergeSort.mp ha)) hb (by omega)

/-- The errors put in piece order are the reference's, whatever order they came in. -/
theorem sortByPiece_eq_readErrors {d : Disk} {s : Stream} {errors : List PieceReadError}
    (hperm : errors.Perm (s.readErrors d)) : sortByPiece errors = s.readErrors d :=
  mergeSort_eq_of_perm pairwise_readErrors hperm

/-- **The files behind the errors.** They are the non-empty files that are not on disk
with their length, in increasing order. -/
theorem failedFiles_readErrors {d : Disk} {s : Stream} (hs : s.Valid) :
    failedFiles (s.readErrors d) =
      (List.range s.files.length).filter fun i => s.fileLen i != 0 && !s.opens d i := by
  unfold failedFiles
  apply eq_of_mem_iff_of_pairwise_lt (pairwise_sortedUnique _)
    (List.pairwise_lt_range.filter _)
  intro i
  rw [mem_sortedUnique, mem_fileIndexes_readErrors hs, List.mem_filter, List.mem_range]
  simp


/-! ## Filling the slots -/

/-- **Order does not matter.** Completions with one completion for each index fill the
same slots in any order. -/
theorem slotsOf_perm {n : Nat} {l₁ l₂ : List Completion} (hperm : l₁.Perm l₂)
    (hdist : ∀ x ∈ l₁, ∀ y ∈ l₁, x.1.index = y.1.index → x = y) :
    slotsOf n l₁ = slotsOf n l₂ := by
  unfold slotsOf
  apply hperm.foldl_eq'
  intro x hx y hy z
  by_cases hxy : x.1.index = y.1.index
  · rw [hdist x hx y hy hxy]
  · -- two slots apart are filled independently
    obtain ⟨rx, ex⟩ := x
    obtain ⟨ry, ey⟩ := y
    cases ex <;> cases ey <;> simp [putSlot, List.set_comm _ _ hxy]

theorem foldl_putSlot_range (f : Nat → Completion) (hf : ∀ i, (f i).1.index = i) {n : Nat} :
    ∀ m ≤ n, ((List.range m).map f).foldl putSlot (List.replicate n none) =
      (List.range m).map (fun i => (f i).2.toOption) ++ List.replicate (n - m) none
  | 0, _ => by simp
  | m + 1, hm => by
    -- slot `m` is the first of those still empty
    have hrep : List.replicate (n - m) (none : Option PieceHash) =
        none :: List.replicate (n - (m + 1)) none := by
      rw [show n - m = n - (m + 1) + 1 by omega, List.replicate_succ]
    rw [List.range_succ, List.map_append, List.foldl_append, foldl_putSlot_range f hf m (by omega),
      hrep]
    simp only [List.map_cons, List.map_nil, List.foldl_cons, List.foldl_nil, List.map_append,
      List.append_assoc, List.cons_append, List.nil_append]
    unfold putSlot
    cases hfm : (f m).2 with
    | ok h =>
      dsimp only
      rw [hf, List.set_append_right _ _ (by simp)]
      simp [Except.toOption]
    | error e => simp [Except.toOption]

theorem slotsOf_range (f : Nat → Completion) (hf : ∀ i, (f i).1.index = i) (n : Nat) :
    slotsOf n ((List.range n).map f) = (List.range n).map fun i => (f i).2.toOption := by
  rw [slotsOf, foldl_putSlot_range f hf n (Nat.le_refl n), Nat.sub_self, List.replicate_zero,
    List.append_nil]

theorem mapM_id_map_some {α : Type} (g : Nat → α) :
    ∀ l : List Nat, (l.map fun i => some (g i)).mapM id = some (l.map g)
  | [] => rfl
  | i :: l => by simp [List.mapM_cons, mapM_id_map_some g l]

/-! ## A run on one disk -/

/-- A worker of a run on one disk: its reader is sound, and a completion it holds is its
piece's own. -/
structure Worker.Faithful (d : Disk) (s : Stream) (w : Worker) : Prop where
  /-- the reader holds what a fresh open gives -/
  reader : w.reader.Sound d s
  /-- a completion held is the piece's own -/
  sending : ∀ c, w.phase = .send c → c = s.completion d c.1.index

theorem forall_mem_set {α : Type} {P : α → Prop} {l : List α} (hl : ∀ x ∈ l, P x) (k : Nat)
    {b : α} (hb : P b) : ∀ x ∈ l.set k b, P x := fun x hx => by
  rcases List.mem_or_eq_of_mem_set hx with hx | rfl
  · exact hl x hx
  · exact hb

namespace Pool

variable {σ : Type} (d : Disk) (s : Stream) (onDone : σ → Completion → Nat → σ × Flow)

/-- What a run on one disk keeps: every worker is faithful, and every completion queued
or handed on is its piece's own. -/
structure Faithful (calls : σ → List Completion) (p : Pool σ) : Prop where
  /-- every worker is faithful -/
  workers : ∀ w ∈ p.workers, w.Faithful d s
  /-- the queue holds the pieces' own completions -/
  waiting : ∀ c ∈ p.queue, c = s.completion d c.1.index
  /-- so do the completions handed on -/
  handed : ∀ c ∈ calls p.handler, c = s.completion d c.1.index

theorem faithful_start {calls : σ → List Completion} (indices : List Nat) (w : Nat) {st : σ}
    (hnil : calls st = []) : (start indices w st).Faithful d s calls where
  workers := fun w hw => by
    simp only [start, List.mem_replicate] at hw
    rw [hw.2]
    exact ⟨Reader.sound_fresh d s, fun c hc => by cases hc⟩
  waiting := fun c hc => by cases hc
  handed := fun c hc => by simp [start, hnil] at hc

variable {d s onDone}

/-- **Runs stay faithful.** -/
theorem Faithful.move {calls : σ → List Completion} (hrec : Records onDone calls)
    {p p' : Pool σ} (hf : p.Faithful d s calls) (hm : Move d s onDone p p') :
    p'.Faithful d s calls := by
  -- what is handed on comes from the queue
  have handed : ∀ c ∈ calls p'.handler, c = s.completion d c.1.index := by
    rcases Move.handed_cases d s onDone hm with ⟨hh, -⟩ | ⟨hh, -⟩ | ⟨c, hc, now, hh, -⟩
    · rw [hh]
      exact hf.handed
    · rw [hh]
      exact hf.handed
    · intro c' hc'
      rw [hh, hrec p.handler c now, List.mem_append, List.mem_singleton] at hc'
      rcases hc' with hc' | rfl
      · exact hf.handed c' hc'
      · exact hf.waiting _ hc
  -- a worker that moves keeps its reader unless it reads, and holds no completion unless
  -- it has just read one
  cases hm with
  | @look k w hw hph =>
    have hw' := hf.workers w (List.mem_of_getElem? hw)
    refine ⟨forall_mem_set hf.workers k ⟨hw'.reader, fun c hc => ?_⟩, hf.waiting, handed⟩
    simp only at hc
    split at hc <;> cases hc
  | @last k w hw hph hi =>
    have hw' := hf.workers w (List.mem_of_getElem? hw)
    exact ⟨forall_mem_set hf.workers k ⟨hw'.reader, fun c hc => by cases hc⟩, hf.waiting, handed⟩
  | @take k w i hw hph hi =>
    have hw' := hf.workers w (List.mem_of_getElem? hw)
    exact ⟨forall_mem_set hf.workers k ⟨hw'.reader, fun c hc => by cases hc⟩, hf.waiting, handed⟩
  | @read k w i hw hph =>
    have hw' := hf.workers w (List.mem_of_getElem? hw)
    obtain ⟨hread, hsound⟩ := Reader.read_sound hw'.reader (s.rangeAt i)
    refine ⟨forall_mem_set hf.workers k ⟨hsound, fun c hc => ?_⟩, hf.waiting, handed⟩
    cases hc
    simp [Stream.completion, hread]
  | @send k w c hw hph hroom =>
    have hw' := hf.workers w (List.mem_of_getElem? hw)
    refine ⟨forall_mem_set hf.workers k ⟨hw'.reader, fun c hc => by cases hc⟩, fun c' hc' => ?_,
      handed⟩
    rcases List.mem_append.mp hc' with hc' | hc'
    · exact hf.waiting c' hc'
    · rw [List.mem_singleton.mp hc']
      exact hw'.sending c hph
  | drain hq hcan =>
    exact ⟨hf.workers, fun c hc => hf.waiting c (hq ▸ List.mem_cons_of_mem _ hc), handed⟩
  | pass hq hcan hflow =>
    exact ⟨hf.workers, fun c hc => hf.waiting c (hq ▸ List.mem_cons_of_mem _ hc), handed⟩
  | halt hq hcan hflow =>
    exact ⟨hf.workers, fun c hc => hf.waiting c (hq ▸ List.mem_cons_of_mem _ hc), handed⟩

end Pool

/-! ## The coordinator's handler -/

theorem Tracker.done_complete (t : Tracker) (s : Stream) (interval : Nat) (range : PieceRange)
    (now : Nat) : (t.complete s interval range now).1.done = t.done + 1 := by
  unfold Tracker.complete
  dsimp only
  split
  · rfl
  · -- whichever report is made, the count is the same
    split
    · rfl
    · split <;> rfl

namespace Handler

variable {σ : Type} {s : Stream} {interval : Nat} {listen : σ → Progress → σ × Flow}

/-- A call records the completion and counts it. -/
theorem onDone_fst (h : Handler σ) (c : Completion) (now : Nat) :
    (h.onDone s interval listen c now).1.passed = h.passed ++ [c] ∧
      (h.onDone s interval listen c now).1.tracker.done = h.tracker.done + 1 := by
  have hdone := h.tracker.done_complete s interval c.1 now
  unfold onDone
  cases hc : h.tracker.complete s interval c.1 now with
  | mk t report =>
    rw [hc] at hdone
    cases report <;> exact ⟨rfl, hdone⟩

/-- A listener that never halts has its handler go on. -/
theorem onDone_snd (hnever : ∀ st p, (listen st p).2 = .proceed) (h : Handler σ) (c : Completion)
    (now : Nat) : (h.onDone s interval listen c now).2 = .proceed := by
  unfold onDone
  cases h.tracker.complete s interval c.1 now with
  | mk t report =>
    cases report with
    | none => rfl
    | some p => exact hnever _ p

theorem records : Pool.Records (onDone s interval listen) Handler.passed :=
  fun h c now => (onDone_fst h c now).1

end Handler

section Outcome

variable {σ : Type} {d : Disk} {s : Stream}

theorem error?_completion (i : Nat) : Completion.error? (s.completion d i) = s.readError? d i := by
  unfold Completion.error? Stream.completion Stream.readError?
  cases pieceRead d s (s.rangeAt i) <;> rfl

/-- When every file is on disk, the completion of a piece holds the digest of its part
of the content. -/
theorem toOption_completion (hs : s.Valid) (hpres : s.Present d) {i : Nat} (hi : i < s.pieceCount) :
    (s.completion d i).2.toOption = some (s.pieceDigest d i) := by
  have hall : ∀ j ∈ (s.rangeAt i).files, s.opens d j = true := fun j hj => by
    obtain ⟨hj, hlen⟩ := fileLen_pos_of_mem_files hj
    exact Stream.opens_iff.mpr (hpres j hj (by omega))
  have hbytes : s.pieceBytes d i =
      ⟨(slice (s.diskBytes d) (i * s.pieceSize) (min ((i + 1) * s.pieceSize) s.total)).toArray⟩ := by
    rw [← Bytes.toList_inj, Stream.pieceBytes_of_present hs hpres hi, Bytes.toList_mk,
      List.toList_toArray]
  simp [Stream.completion, (pieceRead_rangeAt i).1 hall, Except.map, Except.toOption,
    Stream.pieceDigest, hbytes]

/-- **The outcome of a run.** A run that was not cancelled and handed on one completion
of every piece, each its own, in any order, ends as the reference. -/
theorem ofRun_of_perm (hs : s.Valid) {run : RunResult σ} (hc : run.cancelled = false)
    (hperm : run.completed.Perm ((List.range s.pieceCount).map (s.completion d))) :
    HashOutcome.ofRun s run = s.hashReference d := by
  have herr : (run.completed.filterMap Completion.error?).Perm (s.readErrors d) := by
    have := hperm.filterMap Completion.error?
    rwa [List.filterMap_map,
      show (Completion.error? ∘ s.completion d) = s.readError? d from funext error?_completion]
      at this
  unfold HashOutcome.ofRun
  simp only [hc, Bool.false_eq_true, ↓reduceIte]
  by_cases hnil : s.readErrors d = []
  · have hE : run.completed.filterMap Completion.error? = [] := List.Perm.eq_nil (hnil ▸ herr)
    have hpres := (readErrors_eq_nil_iff hs).mp hnil
    -- one completion of each piece: the slots are filled as in index order
    have hdist : ∀ x ∈ run.completed, ∀ y ∈ run.completed, x.1.index = y.1.index → x = y := by
      intro x hx y hy hxy
      obtain ⟨i, -, rfl⟩ := List.mem_map.mp (hperm.subset hx)
      obtain ⟨j, -, rfl⟩ := List.mem_map.mp (hperm.subset hy)
      simp only [Stream.completion, Stream.index_rangeAt] at hxy
      rw [hxy]
    have hslots : slotsOf s.pieceCount run.completed =
        (List.range s.pieceCount).map fun i => some (s.pieceDigest d i) := by
      rw [slotsOf_perm hperm hdist, slotsOf_range _ (fun i => Stream.index_rangeAt s i)]
      exact List.map_congr_left fun i hi => toOption_completion hs hpres (List.mem_range.mp hi)
    simp only [hE, List.isEmpty_nil, ↓reduceIte, hslots, mapM_id_map_some]
    simp [Stream.hashReference, hnil]
  · have hE : run.completed.filterMap Completion.error? ≠ [] :=
      fun h => hnil (List.Perm.eq_nil (h ▸ herr.symm))
    rw [if_neg (by simpa [List.isEmpty_iff] using hE), sortByPiece_eq_readErrors herr]
    unfold Stream.hashReference
    cases h : s.readErrors d with
    | nil => exact absurd h hnil
    | cons e es => rfl

end Outcome

/-! ## Hashing every piece -/

/-- A completion list that holds each completion of its own key is the key list, mapped. -/
theorem perm_map_of_self {α : Type} {l : List Completion} {key : Completion → α} {f : α → Completion}
    {keys : List α} (hself : ∀ c ∈ l, c = f (key c)) (hperm : (l.map key).Perm keys) :
    l.Perm (keys.map f) := by
  have hl : l = (l.map key).map f := by
    rw [List.map_map]
    calc l = l.map id := (List.map_id l).symm
      _ = l.map (f ∘ key) := List.map_congr_left hself
  rw [hl]
  exact hperm.map f

/-- A run of the pool over the pieces `indices`: the pool after the moves `sched`, from the
start that `runPieces` makes. -/
def pieceRun {σ : Type} (d : Disk) (s : Stream) (indices : List Nat) (w interval : Nat)
    (listen : σ → Progress → σ × Flow) (st : σ) (sched : List Actor) : Pool (Handler σ) :=
  (Pool.start indices w ⟨st, Tracker.new s indices.length, []⟩).run d s
    (Handler.onDone s interval listen) sched

/-- A hashing run over every piece of a stream: the pool after the moves `sched`, from the
start that `hashPieces` makes. -/
def hashRun {σ : Type} (d : Disk) (s : Stream) (w interval : Nat)
    (listen : σ → Progress → σ × Flow) (st : σ) (sched : List Actor) : Pool (Handler σ) :=
  (Pool.start (List.range s.pieceCount) w
    ⟨st, Tracker.new s (List.range s.pieceCount).length, []⟩).run d s
    (Handler.onDone s interval listen) sched

section PieceRun

variable {σ : Type} {d : Disk} {s : Stream} {indices : List Nat} {w interval : Nat}
  {listen : σ → Progress → σ × Flow} {st : σ}

/-- Along a run the tracker counts the completions handed on. -/
theorem done_pieceRun (sched : List Actor) :
    (pieceRun d s indices w interval listen st sched).handler.tracker.done =
      (pieceRun d s indices w interval listen st sched).handler.passed.length := by
  have hmove : ∀ q q' : Pool (Handler σ),
      q.handler.tracker.done = q.handler.passed.length →
        Pool.Move d s (Handler.onDone s interval listen) q q' →
          q'.handler.tracker.done = q'.handler.passed.length := by
    intro q q' hq hm
    rcases Pool.Move.handed_cases d s _ hm with ⟨hh, -⟩ | ⟨hh, -⟩ | ⟨c, -, now, hh, -⟩
    · rw [hh]
      exact hq
    · rw [hh]
      exact hq
    · -- a call counts the completion it records
      have hcall := @Handler.onDone_fst σ s interval listen q.handler c now
      rw [hh, hcall.1, hcall.2, hq, List.length_append, List.length_singleton]
  exact Pool.run_invariant d s _ hmove sched _ rfl

/-- A listener that never halts never cancels a run. -/
theorem cancelled_pieceRun (hnever : ∀ st p, (listen st p).2 = .proceed) (sched : List Actor) :
    (pieceRun d s indices w interval listen st sched).cancelled = false :=
  Pool.cancelled_run_of_proceeds d s _ (fun h c now => Handler.onDone_snd hnever h c now)
    sched _ w _

/-- **What a finished run hands on.** A run that finished and was not cancelled handed on
one completion of every piece of `indices`, each its own, in some order. -/
theorem passed_pieceRun (sched : List Actor)
    (hfin : (pieceRun d s indices w interval listen st sched).finished = true)
    (hc : (pieceRun d s indices w interval listen st sched).cancelled = false) :
    (pieceRun d s indices w interval listen st sched).handler.passed.Perm
      (indices.map (s.completion d)) := by
  have hb : (pieceRun d s indices w interval listen st sched).Balanced :=
    Pool.run_invariant d s _ (fun _ _ h hm => h.move d s _ hm) sched _ (Pool.balanced_start _ w _)
  have hr : (pieceRun d s indices w interval listen st sched).Recorded Handler.passed :=
    Pool.run_invariant d s _ (fun _ _ h hm => h.move d s _ Handler.records hm) sched _
      (Pool.recorded_start _ w rfl)
  have hf : (pieceRun d s indices w interval listen st sched).Faithful d s Handler.passed :=
    Pool.run_invariant d s _ (fun _ _ h hm => h.move Handler.records hm) sched _
      (Pool.faithful_start d s _ w rfl)
  have hi : (pieceRun d s indices w interval listen st sched).indices = indices :=
    Pool.indices_run d s _ sched _
  have hperm := Pool.calls_perm_of_finished hb hr hfin hc
  rw [hi] at hperm
  exact perm_map_of_self hf.handed hperm

/-- `runPieces` is a run on the plain schedule, which finishes. -/
theorem runPieces_eq_pieceRun :
    ∃ sched, (pieceRun d s indices w interval listen st sched).finished = true ∧
      runPieces d s w interval listen indices st =
        RunResult.ofPool (pieceRun d s indices w interval listen st sched) := by
  obtain ⟨⟨sched, heq⟩, hfin⟩ := Pool.hashAll_finished d s (Handler.onDone s interval listen)
    indices w (⟨st, Tracker.new s indices.length, []⟩ : Handler σ)
  refine ⟨sched, ?_, ?_⟩
  · rw [pieceRun, ← heq]
    exact hfin
  · rw [runPieces, pieceRun, heq]

end PieceRun

section Hashing

variable {σ : Type} {d : Disk} {s : Stream} {w interval : Nat} {listen : σ → Progress → σ × Flow}
  {st : σ}

theorem hashRun_eq_pieceRun (sched : List Actor) :
    hashRun d s w interval listen st sched =
      pieceRun d s (List.range s.pieceCount) w interval listen st sched := rfl

/-- **Every schedule hashes as the reference.** A hashing run that finishes, whatever
the order of its moves, ends as the reference unless it was cancelled, and then it ends
`cancelled` with the number of completions handed on. A listener that never halts never
cancels it. -/
theorem ofRun_hashRun (hs : s.Valid) (sched : List Actor)
    (hfin : (hashRun d s w interval listen st sched).finished = true) :
    ((∀ st p, (listen st p).2 = .proceed) →
        (hashRun d s w interval listen st sched).cancelled = false) ∧
      HashOutcome.ofRun s (RunResult.ofPool (hashRun d s w interval listen st sched)) =
        if (hashRun d s w interval listen st sched).cancelled then
          .cancelled (hashRun d s w interval listen st sched).handler.passed.length
        else s.hashReference d := by
  rw [hashRun_eq_pieceRun] at hfin ⊢
  refine ⟨fun hnever => cancelled_pieceRun hnever sched, ?_⟩
  cases hc : (pieceRun d s (List.range s.pieceCount) w interval listen st sched).cancelled with
  | true => simp [HashOutcome.ofRun, RunResult.ofPool, hc, done_pieceRun]
  | false =>
    simp only [Bool.false_eq_true, ↓reduceIte]
    exact ofRun_of_perm hs hc (passed_pieceRun sched hfin hc)

/-- `hashPieces` is a hashing run on the plain schedule, which finishes. -/
theorem hashPieces_eq_ofRun :
    ∃ sched, (hashRun d s w interval listen st sched).finished = true ∧
      (hashPieces d s w interval listen st).2 =
        HashOutcome.ofRun s (RunResult.ofPool (hashRun d s w interval listen st sched)) := by
  obtain ⟨sched, hfin, heq⟩ := @runPieces_eq_pieceRun σ d s (List.range s.pieceCount) w interval
    listen st
  exact ⟨sched, hfin, by rw [hashPieces, heq]; rfl⟩

end Hashing

/-- **Hashing in parallel is hashing in order.** For every schedule of the pool that
finishes, the outcome is the reference's, unless the listener halted the run, which a
listener that never halts does not; then `hashPieces` gives the reference. The reference
is complete, with the digests of the content cut into pieces, when every non-empty file
is on disk with its length; otherwise it fails, with one read error for each piece that
touches a file that is not, in piece order, and the files behind the errors are exactly
the non-empty files that are not. -/
theorem hashPieces_eq_reference {σ : Type} (d : Disk) (s : Stream) (hs : s.Valid)
    (w interval : Nat) (listen : σ → Progress → σ × Flow) (st : σ) :
    (∀ sched : List Actor, (hashRun d s w interval listen st sched).finished = true →
      ((∀ st p, (listen st p).2 = .proceed) →
          (hashRun d s w interval listen st sched).cancelled = false) ∧
        HashOutcome.ofRun s (RunResult.ofPool (hashRun d s w interval listen st sched)) =
          if (hashRun d s w interval listen st sched).cancelled then
            .cancelled (hashRun d s w interval listen st sched).handler.passed.length
          else s.hashReference d) ∧
    ((∀ st p, (listen st p).2 = .proceed) →
      (hashPieces d s w interval listen st).2 = s.hashReference d) ∧
    (s.Present d →
      s.hashReference d = .complete ⟨(List.range s.pieceCount).map (s.pieceDigest d)⟩) ∧
    (¬ s.Present d →
      s.hashReference d = .failed (s.readErrors d) ∧ s.readErrors d ≠ [] ∧
      (s.readErrors d).map (·.piece) =
        (List.range s.pieceCount).filter (fun p => (s.rangeAt p).files.any fun i => !s.opens d i) ∧
      failedFiles (s.readErrors d) =
        (List.range s.files.length).filter fun i => s.fileLen i != 0 && !s.opens d i) := by
  refine ⟨fun sched hfin => ofRun_hashRun hs sched hfin, fun hnever => ?_, fun hpres => ?_,
    fun hpres => ?_⟩
  · obtain ⟨sched, hfin, heq⟩ := @hashPieces_eq_ofRun σ d s w interval listen st
    obtain ⟨hcan, hout⟩ := ofRun_hashRun hs sched hfin
    rw [heq, hout, hcan hnever]
    rfl
  · simp [Stream.hashReference, (readErrors_eq_nil_iff hs).mpr hpres]
  · have hne : s.readErrors d ≠ [] := fun h => hpres ((readErrors_eq_nil_iff hs).mp h)
    refine ⟨?_, hne, piece_readErrors, failedFiles_readErrors hs⟩
    unfold Stream.hashReference
    cases h : s.readErrors d with
    | nil => exact absurd h hne
    | cons e es => rfl

/-- A stream of one three-byte file in pieces of two, its file missing: the plain run of
`hashPieces`, with a listener that never halts, gives the reference. -/
theorem missing_file_hashes_as_reference :
    (⟨FileList.single "a" 3, "a", 2, 3⟩ : Stream).Valid ∧
      (hashPieces Disk.empty ⟨FileList.single "a" 3, "a", 2, 3⟩ 2 0
          (fun (u : Unit) _ => (u, Flow.proceed)) ()).2 =
        Stream.hashReference Disk.empty ⟨FileList.single "a" 3, "a", 2, 3⟩ :=
  ⟨⟨by decide, rfl⟩, (hashPieces_eq_reference Disk.empty _ ⟨by decide, rfl⟩ 2 0
    (fun (u : Unit) _ => (u, Flow.proceed)) ()).2.1 fun _ _ => rfl⟩

end Metainfo
