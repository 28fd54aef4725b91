import Metainfo.Proofs.Bencode.Locate

/-!
# The reader terminates and stays inside its input

`readValue` and `locateAt` recurse on a fuel of two steps per input byte, and answer
`unexpectedEof` when it runs out. This module gives the same two recursions without
fuel, by well-founded recursion on the bytes left (`Walk.value`, `Walk.items`,
`Walk.entries`, and `Walk.locateAt`, `Walk.locateEntries`). Their types say what holds at
every call and at every return:

* every call is at a position inside the input or just past it, and at a depth of at
  most `maxDepth + 1`: a depth past `maxDepth` is refused before anything is read there;
* every step returns a `Read`: what it read and where it stopped, at least two bytes on
  for a value and inside the input. So each turn of the list and dictionary loops moves
  on by at least two bytes, and this is the measure the recursion decreases;
* every refusal is a `Fault`: an error that points into the input
  (`DecodeError.Within`), with its offset at most the input's length and the byte an
  `unexpectedByte` names standing at its offset.

The scalar readers are only called at a byte of the input (`Walk.integer`,
`Walk.bytes`), and every range they cut is inside it (`findFrom_bounds`,
`readLength_bounds`).

`read_eq_walk` and `locateAt_eq_walk` show that, with fuel for two steps per byte left,
the fuelled readers give exactly what the walks give, so the fuel is never what decides
an answer (`decodePrefix_eq_walk`, `locate_eq_walk`); `reader_terminates_in_bounds`
states all of it for the three entry points.
-/

namespace Metainfo
namespace Bencode

open Bytes

/-! ## Errors that point into the input -/

/-- An error that points into the input: its offset, or its count of trailing bytes, is
at most the input's length; the byte an `unexpectedByte` names stands at its offset; and
a depth error names the limit. -/
def DecodeError.Within (data : ByteArray) : DecodeError → Prop
  | .unexpectedEof p | .invalidInteger p _ | .invalidLength p _ | .nonStringKey p
  | .unsortedKey p | .duplicateKey p | .trailingData p => p ≤ data.size
  | .unexpectedByte b p => data[p]? = some b
  | .tooDeep n => n = maxDepth

/-- What a step of the reader from `pos` gives back: what it read and where it stopped,
at least `k` bytes on and inside the input. -/
structure Read (data : ByteArray) (pos k : Nat) (α : Type) where
  /-- what was read -/
  val : α
  /-- the position after it -/
  stop : Nat
  /-- the reader moved on by at least `k` bytes -/
  advance : pos + k ≤ stop
  /-- and stopped inside the input -/
  le_size : stop ≤ data.size

/-- A refusal of the reader, with the fact that it points into the input. -/
structure Fault (data : ByteArray) where
  /-- the error reported -/
  error : DecodeError
  /-- it points into the input -/
  within : error.Within data

section

variable {data : ByteArray} {pos k : Nat} {α β : Type}

/-- The input ends at `pos`. -/
def Fault.eof (h : pos ≤ data.size) : Fault data := ⟨.unexpectedEof pos, h⟩

/-- A value nested deeper than the limit. -/
def Fault.tooDeep : Fault data := ⟨.tooDeep maxDepth, rfl⟩

/-- A dictionary key at `pos` that is not a byte string. -/
def Fault.nonStringKey (h : pos ≤ data.size) : Fault data := ⟨.nonStringKey pos, h⟩

/-- The same stop seen from an earlier position, with what was read passed through `f`. -/
def Read.widen {pos' k' : Nat} (r : Read data pos k α) (f : α → β) (h : pos' + k' ≤ pos + k) :
    Read data pos' k' β :=
  ⟨f r.val, r.stop, by have := r.advance; omega, r.le_size⟩

/-- The plain answer of a step: the error, or what was read with the position after it. -/
def Walk.forget : Except (Fault data) (Read data pos k α) → Except DecodeError (α × Nat)
  | .ok r => .ok (r.val, r.stop)
  | .error f => .error f.error

end

/-! ## What the scalar readers cut -/

/-- The byte found by a search lies at or after its start and inside the input. -/
theorem findFrom_bounds {data : ByteArray} {b : UInt8} {i j : Nat}
    (h : findFrom data b i = some j) : i ≤ j ∧ j < data.size ∧ data[j]? = some b := by
  obtain ⟨pre, t, hafter, -, rfl⟩ := after_of_findFrom h
  have hat : after data (i + pre.length) = b :: t := after_append hafter
  have hle := @add_length_le_size data (i + pre.length) [b] t hat (List.cons_ne_nil b [])
  exact ⟨Nat.le_add_right i pre.length, Nat.lt_of_succ_le (by simpa using hle),
    getElem?_of_after hat⟩

/-- The bytes of a byte string lie inside the input. -/
theorem readLength_bounds {data : ByteArray} {at_ start stop : Nat}
    (h : readLength data at_ = .ok (start, stop)) : at_ < start ∧ start ≤ stop ∧ stop ≤ data.size := by
  unfold readLength at h
  split at h
  · cases h
  · rename_i colon hcolon
    have hb := findFrom_bounds hcolon
    dsimp only at h
    split at h
    · cases h
    split at h
    · cases h
    split at h
    · cases h
    split at h
    · cases h
    · rename_i hover
      simp only [Except.ok.injEq, Prod.mk.injEq] at h
      obtain ⟨rfl, rfl⟩ := h
      omega

/-- The integer reader refuses with the end of the input or at its own position. -/
theorem readInteger_error {data : ByteArray} {at_ : Nat} {e : DecodeError}
    (h : readInteger data at_ = .error e) :
    e = .unexpectedEof data.size ∨ ∃ r, e = .invalidInteger at_ r := by
  unfold readInteger at h
  split at h
  · cases h
    exact .inl rfl
  · -- every other refusal is one of the checks on the digits, at the reader's position
    dsimp only at h
    repeat' (split at h)
    all_goals cases h
    all_goals exact .inr ⟨_, rfl⟩

/-- The length reader refuses with the end of the input or at its own position. -/
theorem readLength_error {data : ByteArray} {at_ : Nat} {e : DecodeError}
    (h : readLength data at_ = .error e) :
    e = .unexpectedEof data.size ∨ ∃ r, e = .invalidLength at_ r := by
  unfold readLength at h
  split at h
  · cases h
    exact .inl rfl
  · -- every other refusal is one of the checks on the digits, at the reader's position
    dsimp only at h
    repeat' (split at h)
    all_goals cases h
    all_goals exact .inr ⟨_, rfl⟩

/-- A byte string's reader refuses as its length reader does. -/
theorem readBytes_error {data : ByteArray} {at_ : Nat} {e : DecodeError}
    (h : readBytes data at_ = .error e) : readLength data at_ = .error e := by
  simp only [readBytes, bind, Except.bind] at h
  split at h
  · rename_i e' hlen
    cases h
    exact hlen
  · cases h

/-! ## Where each refusal points -/

section

variable {data : ByteArray} {at_ : Nat} {e : DecodeError}

theorem within_of_readInteger (hlt : at_ < data.size) (h : readInteger data at_ = .error e) :
    e.Within data := by
  rcases readInteger_error h with rfl | ⟨r, rfl⟩
  · exact Nat.le_refl _
  · exact Nat.le_of_lt hlt

theorem within_of_readBytes (hlt : at_ < data.size) (h : readBytes data at_ = .error e) :
    e.Within data := by
  rcases readLength_error (readBytes_error h) with rfl | ⟨r, rfl⟩
  · exact Nat.le_refl _
  · exact Nat.le_of_lt hlt

theorem within_of_checkKeyOrder {prev : Option ByteArray} {key : ByteArray}
    (hle : at_ ≤ data.size) (h : checkKeyOrder prev key at_ = .error e) : e.Within data := by
  unfold checkKeyOrder at h
  split at h
  · cases h
  · split at h
    · cases h
    · cases h
      exact hle
    · cases h
      exact hle

/-- A byte that starts no value is reported where it stands. -/
theorem within_unexpected {b : UInt8} (hb : data[at_]? = some b) :
    (unexpected b at_).Within data := by
  unfold unexpected
  split
  · exact Nat.le_of_lt (getElem?_eq_some_iff.mp hb).1
  · exact hb

end

/-! ## Scalars read at a byte of the input -/

section

variable (data : ByteArray)

theorem readInteger_advance {pos p : Nat} {n : Int} (hi : data[pos]? = some (ascii 'i'))
    (h : readInteger data pos = .ok (n, p)) : pos + 2 ≤ p ∧ p ≤ data.size := by
  obtain ⟨-, hafter, rfl⟩ := readInteger_sound hi h
  have hle := add_length_le_size hafter (by rw [toList_intBytes]; exact List.cons_ne_nil _ _)
  rw [length_toList] at hle
  exact ⟨by rw [size_intBytes]; omega, hle⟩

theorem readBytes_advance {pos p : Nat} {s : ByteArray} (h : readBytes data pos = .ok (s, p)) :
    pos + 2 ≤ p ∧ p ≤ data.size := by
  obtain ⟨-, -, rfl⟩ := readBytes_sound h
  have hdigits : 0 < (decimal s.size).length := List.length_pos_iff.mpr (decimal_ne_nil _)
  exact ⟨by rw [size_encode_bytes]; omega, le_size_of_readBytes h⟩

/-- The integer whose `i` stands at `at_`. -/
def Walk.integer (at_ : Nat) (hi : data[at_]? = some (ascii 'i')) :
    Except (Fault data) (Read data at_ 2 Int) :=
  match h : readInteger data at_ with
  | .ok (n, p) => .ok ⟨n, p, (readInteger_advance data hi h).1, (readInteger_advance data hi h).2⟩
  | .error e => .error ⟨e, within_of_readInteger (getElem?_eq_some_iff.mp hi).1 h⟩

/-- The byte string at `at_`, a byte of the input. -/
def Walk.bytes (at_ : Nat) (hlt : at_ < data.size) : Except (Fault data) (Read data at_ 2 ByteArray) :=
  match h : readBytes data at_ with
  | .ok (s, p) => .ok ⟨s, p, (readBytes_advance data h).1, (readBytes_advance data h).2⟩
  | .error e => .error ⟨e, within_of_readBytes hlt h⟩

end

/-! ## The reader without fuel -/

section

variable (data : ByteArray)

/-- A step's answer seen from an earlier position, with what was read passed through
`f`. -/
def Walk.widen {pos k pos' k' : Nat} {α β : Type} (o : Except (Fault data) (Read data pos k α))
    (f : α → β) (h : pos' + k' ≤ pos + k) : Except (Fault data) (Read data pos' k' β) :=
  o.map fun r => r.widen f h

theorem lt_size_of_getElem? {pos : Nat} {b : UInt8} (hb : data[pos]? = some b) :
    pos < data.size :=
  (getElem?_eq_some_iff.mp hb).1

mutual
/-- The value at `pos`, read at depth `depth`: a depth is at most one past `maxDepth`,
where it is refused. -/
def Walk.value (depth : Fin (maxDepth + 2)) (pos : Nat) (hpos : pos ≤ data.size) :
    Except (Fault data) (Read data pos 2 Value) :=
  if hdeep : depth.val > maxDepth then .error .tooDeep
  else
    match hb : data[pos]? with
    | none => .error (.eof hpos)
    | some b =>
      if hi : b = ascii 'i' then
        Walk.widen data (Walk.integer data pos (hi ▸ hb)) Value.int (Nat.le_refl _)
      else if Bytes.isDigit b then
        Walk.widen data (Walk.bytes data pos (lt_size_of_getElem? data hb)) Value.bytes
          (Nat.le_refl _)
      else if b = ascii 'l' then
        Walk.widen data (Walk.items ⟨depth.val + 1, by omega⟩ (pos + 1)
          (lt_size_of_getElem? data hb) []) id (Nat.le_refl _)
      else if b = ascii 'd' then
        Walk.widen data (Walk.entries ⟨depth.val + 1, by omega⟩ (pos + 1)
          (lt_size_of_getElem? data hb) none []) id (Nat.le_refl _)
      else .error ⟨unexpected b pos, within_unexpected hb⟩
termination_by 2 * (data.size - pos)
decreasing_by
  all_goals have := lt_size_of_getElem? data hb
  all_goals omega

/-- The items of a list from `pos` up to its closing `e`; `acc` holds those read so far,
last first. -/
def Walk.items (depth : Fin (maxDepth + 2)) (pos : Nat) (hpos : pos ≤ data.size)
    (acc : List Value) : Except (Fault data) (Read data pos 1 Value) :=
  match hb : data[pos]? with
  | none => .error (.eof hpos)
  | some b =>
    if b = ascii 'e' then .ok ⟨.list acc.reverse, pos + 1, Nat.le_refl _,
      Nat.succ_le_of_lt (lt_size_of_getElem? data hb)⟩
    else
      match Walk.value depth pos hpos with
      | .error f => .error f
      | .ok r =>
        -- the next item starts at least two bytes on
        Walk.widen data (Walk.items depth r.stop r.le_size (r.val :: acc)) id
          (by have := r.advance; omega)
termination_by 2 * (data.size - pos) + 1
decreasing_by
  all_goals have := lt_size_of_getElem? data hb
  · omega
  · have := r.advance
    have := r.le_size
    omega

/-- The entries of a dictionary from `pos` up to its closing `e`; `prev` is the last key
read and `acc` the entries so far, last first. -/
def Walk.entries (depth : Fin (maxDepth + 2)) (pos : Nat) (hpos : pos ≤ data.size)
    (prev : Option ByteArray) (acc : List (ByteArray × Value)) :
    Except (Fault data) (Read data pos 1 Value) :=
  match hb : data[pos]? with
  | none => .error (.eof hpos)
  | some b =>
    if b = ascii 'e' then .ok ⟨.dict acc.reverse, pos + 1, Nat.le_refl _,
      Nat.succ_le_of_lt (lt_size_of_getElem? data hb)⟩
    else if !Bytes.isDigit b then .error (.nonStringKey hpos)
    else
      match Walk.bytes data pos (lt_size_of_getElem? data hb) with
      | .error f => .error f
      | .ok key =>
        match h : checkKeyOrder prev key.val pos with
        | .error e => .error ⟨e, within_of_checkKeyOrder hpos h⟩
        | .ok () =>
          match Walk.value depth key.stop key.le_size with
          | .error f => .error f
          | .ok r =>
            -- the next key starts at least four bytes on
            Walk.widen data (Walk.entries depth r.stop r.le_size (some key.val)
              ((key.val, r.val) :: acc)) id
              (by have := key.advance; have := r.advance; omega)
termination_by 2 * (data.size - pos) + 1
decreasing_by
  all_goals have := lt_size_of_getElem? data hb
  · have := key.advance
    have := key.le_size
    omega
  · have := key.advance
    have := r.advance
    have := r.le_size
    omega
end

end

/-! ## Locating without fuel -/

section

variable (data : ByteArray)

mutual
/-- Follows `path` from the value at `pos`, read at depth `depth`: the range of the value
found there, if any. -/
def Walk.locateAt (path : List ByteArray) (depth : Fin (maxDepth + 2)) (pos : Nat)
    (hpos : pos ≤ data.size) : Except (Fault data) (Read data pos 2 (Option (Nat × Nat))) :=
  match path with
  | [] => (Walk.value data depth pos hpos).map fun r =>
      ⟨some (pos, r.stop), r.stop, r.advance, r.le_size⟩
  | key :: rest =>
    match hb : data[pos]? with
    | none => .error (.eof hpos)
    | some b =>
      if b ≠ ascii 'd' then
        Walk.widen data (Walk.value data depth pos hpos) (fun _ => none) (Nat.le_refl _)
      else if hdeep : depth.val > maxDepth then .error .tooDeep
      else
        Walk.widen data (Walk.locateEntries key rest ⟨depth.val + 1, by omega⟩ (pos + 1)
          (lt_size_of_getElem? data hb) none none) id (Nat.le_refl _)
termination_by 2 * (data.size - pos)
decreasing_by
  have := lt_size_of_getElem? data hb
  omega

/-- Walks the entries of a dictionary from `pos` looking for `key`; `found` is what
following `rest` under it gave. -/
def Walk.locateEntries (key : ByteArray) (rest : List ByteArray) (depth : Fin (maxDepth + 2))
    (pos : Nat) (hpos : pos ≤ data.size) (prev : Option ByteArray) (found : Option (Nat × Nat)) :
    Except (Fault data) (Read data pos 1 (Option (Nat × Nat))) :=
  match hb : data[pos]? with
  | none => .error (.eof hpos)
  | some b =>
    if b = ascii 'e' then .ok ⟨found, pos + 1, Nat.le_refl _,
      Nat.succ_le_of_lt (lt_size_of_getElem? data hb)⟩
    else if !Bytes.isDigit b then .error (.nonStringKey hpos)
    else
      match Walk.bytes data pos (lt_size_of_getElem? data hb) with
      | .error f => .error f
      | .ok k =>
        match h : checkKeyOrder prev k.val pos with
        | .error e => .error ⟨e, within_of_checkKeyOrder hpos h⟩
        | .ok () =>
          if k.val = key then
            match Walk.locateAt rest depth k.stop k.le_size with
            | .error f => .error f
            | .ok r =>
              Walk.widen data (Walk.locateEntries key rest depth r.stop r.le_size (some k.val) r.val)
                id (by have := k.advance; have := r.advance; omega)
          else
            match Walk.value data depth k.stop k.le_size with
            | .error f => .error f
            | .ok r =>
              Walk.widen data (Walk.locateEntries key rest depth r.stop r.le_size (some k.val) found)
                id (by have := k.advance; have := r.advance; omega)
termination_by 2 * (data.size - pos) + 1
decreasing_by
  all_goals have := lt_size_of_getElem? data hb
  · have := k.advance
    have := k.le_size
    omega
  · have := k.advance
    have := r.advance
    have := r.le_size
    omega
  · have := k.advance
    have := r.advance
    have := r.le_size
    omega
end

/-- One value read from the front of `data`, without fuel. -/
def Walk.decodePrefix : Except DecodeError (Value × Nat) :=
  Walk.forget (Walk.value data 0 0 (Nat.zero_le _))

/-- The range found by following `path` from the top value, without fuel; bytes after
the top value are refused as `locate` refuses them. -/
def Walk.locate (path : List ByteArray) : Except DecodeError (Option (Nat × Nat)) :=
  match Walk.forget (Walk.locateAt data path 0 0 (Nat.zero_le _)) with
  | .error e => .error e
  | .ok (r, p) => if p = data.size then .ok r else .error (.trailingData (data.size - p))

end

/-! ## The fuel is never what decides -/

section

variable {data : ByteArray}

@[simp] theorem forget_ok {pos k : Nat} {α : Type} (r : Read data pos k α) :
    Walk.forget (.ok r : Except (Fault data) _) = .ok (r.val, r.stop) := rfl

@[simp] theorem forget_error {pos k : Nat} {α : Type} (f : Fault data) :
    Walk.forget (.error f : Except (Fault data) (Read data pos k α)) = .error f.error := rfl

@[simp] theorem forget_widen {pos k pos' k' : Nat} {α β : Type}
    (o : Except (Fault data) (Read data pos k α)) (f : α → β) (h : pos' + k' ≤ pos + k) :
    Walk.forget (Walk.widen data o f h) = (Walk.forget o).map fun x => (f x.1, x.2) := by
  cases o <;> rfl

@[simp] theorem forget_widen_id {pos k pos' k' : Nat} {α : Type}
    (o : Except (Fault data) (Read data pos k α)) (h : pos' + k' ≤ pos + k) :
    Walk.forget (Walk.widen data o id h) = Walk.forget o := by
  cases o <;> rfl

theorem forget_integer {at_ : Nat} (hi : data[at_]? = some (ascii 'i')) :
    Walk.forget (Walk.integer data at_ hi) = readInteger data at_ := by
  unfold Walk.integer
  split <;> simp_all [Walk.forget]

theorem forget_bytes {at_ : Nat} (hlt : at_ < data.size) :
    Walk.forget (Walk.bytes data at_ hlt) = readBytes data at_ := by
  unfold Walk.bytes
  split <;> simp_all [Walk.forget]

/-- **The fuelled reader is the walk.** With fuel for two steps per byte left (and one
more for a container's closing `e`), each fuelled reader gives what the walk gives. -/
theorem read_eq_walk (fuel : Nat) :
    (∀ (depth : Fin (maxDepth + 2)) pos (hpos : pos ≤ data.size),
      2 * (data.size - pos) + 1 ≤ fuel →
      readValue data fuel depth pos = Walk.forget (Walk.value data depth pos hpos)) ∧
    (∀ (depth : Fin (maxDepth + 2)) pos (hpos : pos ≤ data.size) acc,
      2 * (data.size - pos) + 2 ≤ fuel →
      readItems data fuel depth pos acc = Walk.forget (Walk.items data depth pos hpos acc)) ∧
    (∀ (depth : Fin (maxDepth + 2)) pos (hpos : pos ≤ data.size) prev acc,
      2 * (data.size - pos) + 2 ≤ fuel →
      readEntries data fuel depth pos prev acc =
        Walk.forget (Walk.entries data depth pos hpos prev acc)) := by
  induction fuel with
  | zero => exact ⟨fun _ _ _ h => absurd h (by omega), fun _ _ _ _ h => absurd h (by omega),
      fun _ _ _ _ _ h => absurd h (by omega)⟩
  | succ fuel ih =>
    obtain ⟨ihValue, ihItems, ihEntries⟩ := ih
    refine ⟨?_, ?_, ?_⟩
    · intro depth pos hpos hfuel
      rw [readValue.eq_2, Walk.value]
      by_cases hdeep : depth.val > maxDepth
      · rw [if_pos hdeep, dif_pos hdeep]
        rfl
      rw [if_neg hdeep, dif_neg hdeep]
      -- split the walk's peek first: its match keeps the proof of what it saw
      symm
      split
      · rename_i hnone
        rw [hnone]
        rfl
      · rename_i b hb
        simp only [hb]
        have hlt := lt_size_of_getElem? data hb
        by_cases hi : b = ascii 'i'
        · rw [dif_pos hi, if_pos hi, forget_widen, forget_integer]
          rcases readInteger data pos with e | ⟨n, p⟩ <;> rfl
        rw [dif_neg hi, if_neg hi]
        by_cases hdig : isDigit b = true
        · rw [if_pos hdig, if_pos hdig, forget_widen, forget_bytes]
          rcases readBytes data pos with e | ⟨s, p⟩ <;> rfl
        rw [if_neg hdig, if_neg hdig]
        by_cases hl : b = ascii 'l'
        · -- a list: its items start one byte on, with fuel to spare
          rw [if_pos hl, if_pos hl, forget_widen_id]
          exact (ihItems _ _ _ _ (by omega)).symm
        rw [if_neg hl, if_neg hl]
        by_cases hd : b = ascii 'd'
        · rw [if_pos hd, if_pos hd, forget_widen_id]
          exact (ihEntries _ _ _ _ _ (by omega)).symm
        rw [if_neg hd, if_neg hd]
        rfl
    · intro depth pos hpos acc hfuel
      rw [readItems.eq_2, Walk.items]
      symm
      split
      · rename_i hnone
        rw [hnone]
        rfl
      · rename_i b hb
        simp only [hb]
        have hlt := lt_size_of_getElem? data hb
        by_cases he : b = ascii 'e'
        · rw [if_pos he, if_pos he]
          rfl
        rw [if_neg he, if_neg he, ihValue depth pos hpos (by omega)]
        rcases Walk.value data depth pos hpos with f | r
        · rfl
        · -- the next item is read with fuel to spare
          have := r.advance
          have := r.le_size
          dsimp only
          rw [forget_ok, forget_widen_id]
          exact (ihItems _ _ _ _ (by omega)).symm
    · intro depth pos hpos prev acc hfuel
      rw [readEntries.eq_2, Walk.entries]
      symm
      split
      · rename_i hnone
        rw [hnone]
        rfl
      · rename_i b hb
        simp only [hb]
        have hlt := lt_size_of_getElem? data hb
        by_cases he : b = ascii 'e'
        · rw [if_pos he, if_pos he]
          rfl
        rw [if_neg he, if_neg he]
        by_cases hdig : (!isDigit b) = true
        · rw [if_pos hdig, if_pos hdig]
          rfl
        rw [if_neg hdig, if_neg hdig, ← forget_bytes hlt]
        rcases Walk.bytes data pos hlt with f | key
        · rfl
        dsimp only
        rw [forget_ok]
        dsimp only
        split
        · rename_i e hk
          simp only [forget_error, hk]
        · rename_i hk
          have := key.advance
          have := key.le_size
          rw [hk]
          dsimp only
          rw [ihValue depth key.stop key.le_size (by omega)]
          rcases Walk.value data depth key.stop key.le_size with f | r
          · rfl
          · -- the next key is read with fuel to spare
            have := r.advance
            have := r.le_size
            dsimp only
            rw [forget_ok, forget_widen_id]
            exact (ihEntries _ _ _ _ _ (by omega)).symm

/-- Skipping a value is reading it and keeping where it ends. -/
theorem skipValue_eq_walk {fuel pos : Nat} (depth : Fin (maxDepth + 2)) (hpos : pos ≤ data.size)
    (hfuel : 2 * (data.size - pos) + 1 ≤ fuel) :
    skipValue data fuel depth pos = (Walk.forget (Walk.value data depth pos hpos)).map Prod.snd := by
  rw [skipValue, (read_eq_walk fuel).1 depth pos hpos hfuel]
  rcases Walk.forget (Walk.value data depth pos hpos) with e | ⟨v, p⟩ <;> rfl

/-- **Locating is the walk.** With fuel for two steps per byte left and one to spare,
following a path gives what the walk gives. -/
theorem locateAt_eq_walk (fuel : Nat) :
    (∀ path (depth : Fin (maxDepth + 2)) pos (hpos : pos ≤ data.size),
      2 * (data.size - pos) + 2 ≤ fuel →
      locateAt data fuel path depth pos = Walk.forget (Walk.locateAt data path depth pos hpos)) ∧
    (∀ key rest (depth : Fin (maxDepth + 2)) pos (hpos : pos ≤ data.size) prev found,
      2 * (data.size - pos) + 2 ≤ fuel →
      locateEntries data fuel key rest depth pos prev found =
        Walk.forget (Walk.locateEntries data key rest depth pos hpos prev found)) := by
  induction fuel with
  | zero => exact ⟨fun _ _ _ _ h => absurd h (by omega), fun _ _ _ _ _ _ _ h => absurd h (by omega)⟩
  | succ fuel ih =>
    obtain ⟨ihAt, ihEntries⟩ := ih
    refine ⟨?_, ?_⟩
    · intro path depth pos hpos hfuel
      cases path with
      | nil =>
        rw [locateAt.eq_2, Walk.locateAt, skipValue_eq_walk depth hpos (by omega)]
        rcases Walk.value data depth pos hpos with f | r <;> rfl
      | cons key rest =>
        rw [locateAt.eq_3, Walk.locateAt]
        symm
        split
        · rename_i hnone
          rw [hnone]
          rfl
        · rename_i b hb
          simp only [hb]
          have hlt := lt_size_of_getElem? data hb
          by_cases hd : b ≠ ascii 'd'
          · rw [if_pos hd, if_pos hd, forget_widen, skipValue_eq_walk depth hpos (by omega)]
            rcases Walk.forget (Walk.value data depth pos hpos) with e | ⟨v, p⟩ <;> rfl
          rw [if_neg hd, if_neg hd]
          by_cases hdeep : depth.val > maxDepth
          · rw [dif_pos hdeep, if_pos hdeep]
            rfl
          -- a dictionary on the path: its entries start one byte on, with fuel to spare
          rw [dif_neg hdeep, if_neg hdeep, forget_widen_id]
          exact (ihEntries _ _ _ _ _ _ _ (by omega)).symm
    · intro key rest depth pos hpos prev found hfuel
      rw [locateEntries.eq_2, Walk.locateEntries]
      symm
      split
      · rename_i hnone
        rw [hnone]
        rfl
      · rename_i b hb
        simp only [hb]
        have hlt := lt_size_of_getElem? data hb
        by_cases he : b = ascii 'e'
        · rw [if_pos he, if_pos he]
          rfl
        rw [if_neg he, if_neg he]
        by_cases hdig : (!isDigit b) = true
        · rw [if_pos hdig, if_pos hdig]
          rfl
        rw [if_neg hdig, if_neg hdig, ← forget_bytes hlt]
        rcases Walk.bytes data pos hlt with f | k
        · rfl
        dsimp only
        rw [forget_ok]
        dsimp only
        split
        · rename_i e hk
          simp only [forget_error, hk]
        · rename_i hk
          have := k.advance
          have := k.le_size
          rw [hk]
          dsimp only
          by_cases hkey : k.val = key
          · -- the key of the path: follow the rest of it under this entry
            rw [if_pos hkey, if_pos hkey, ihAt rest depth k.stop k.le_size (by omega)]
            rcases Walk.locateAt data rest depth k.stop k.le_size with f | r
            · rfl
            · have := r.advance
              have := r.le_size
              dsimp only
              rw [forget_ok, forget_widen_id]
              exact (ihEntries _ _ _ _ _ _ _ (by omega)).symm
          · rw [if_neg hkey, if_neg hkey, skipValue_eq_walk depth k.le_size (by omega)]
            rcases Walk.value data depth k.stop k.le_size with f | r
            · rfl
            · have := r.advance
              have := r.le_size
              dsimp only
              rw [forget_ok, forget_widen_id]
              exact (ihEntries _ _ _ _ _ _ _ (by omega)).symm

end

/-! ## The three entry points -/

section

variable {data : ByteArray}

theorem decodePrefix_eq_walk (data : ByteArray) : decodePrefix data = Walk.decodePrefix data :=
  (read_eq_walk (fuelFor data)).1 0 0 (Nat.zero_le _) (by unfold fuelFor; omega)

theorem locate_eq_walk (data : ByteArray) (path : List ByteArray) :
    locate data path = Walk.locate data path := by
  have hwalk : locateAt data (fuelFor data + 1) path 0 0 =
      Walk.forget (Walk.locateAt data path 0 0 (Nat.zero_le _)) :=
    (locateAt_eq_walk (fuelFor data + 1)).1 path 0 0 (Nat.zero_le _) (by unfold fuelFor; omega)
  -- the two answers differ only in the fuel of the walk: the same check of the end follows
  rw [locate, hwalk]
  rfl

/-- A refusal of the walk points into the input. -/
theorem within_of_forget {pos k : Nat} {α : Type} {o : Except (Fault data) (Read data pos k α)}
    {e : DecodeError} (h : Walk.forget o = .error e) : e.Within data := by
  rcases o with f | r
  · cases h
    exact f.within
  · cases h

/-- What the walk reads ends at least `k` bytes on and inside the input. -/
theorem bounds_of_forget {pos k : Nat} {α : Type} {o : Except (Fault data) (Read data pos k α)}
    {a : α} {n : Nat} (h : Walk.forget o = .ok (a, n)) : pos + k ≤ n ∧ n ≤ data.size := by
  rcases o with f | r
  · cases h
  · cases h
    exact ⟨r.advance, r.le_size⟩

theorem within_of_decodePrefix {e : DecodeError} (h : decodePrefix data = .error e) :
    e.Within data := by
  rw [decodePrefix_eq_walk] at h
  exact within_of_forget h

theorem within_of_decode {e : DecodeError} (h : decode data = .error e) : e.Within data := by
  unfold decode at h
  split at h
  · rename_i e' he
    cases h
    exact within_of_decodePrefix he
  · split at h
    · cases h
    · -- the bytes left after the value are fewer than the input's
      cases h
      exact Nat.sub_le _ _

theorem within_of_locate {path : List ByteArray} {e : DecodeError}
    (h : locate data path = .error e) : e.Within data := by
  rw [locate_eq_walk, Walk.locate] at h
  split at h
  · rename_i e' he
    cases h
    exact within_of_forget he
  · split at h
    · cases h
    · cases h
      exact Nat.sub_le _ _

/-- **The reader terminates and stays inside its input.** For every input and every path of
keys, `decodePrefix` and `locate` give what the walks give: recursions without fuel,
every call of which is at a position inside the input and at a depth of at most
`maxDepth + 1`, and every turn of whose loops moves on by at least two bytes. The value
read from the front ends inside the input; every refusal of `decodePrefix`, `decode` and
`locate` points into the input; and the ranges the scalar readers cut, up to the byte a
search finds and over the bytes of a byte string, lie inside it. -/
theorem reader_terminates_in_bounds (x : ByteArray) (path : List ByteArray) :
    decodePrefix x = Walk.decodePrefix x ∧
    locate x path = Walk.locate x path ∧
    (∀ v n, decodePrefix x = .ok (v, n) → 2 ≤ n ∧ n ≤ x.size) ∧
    (∀ e, decodePrefix x = .error e → e.Within x) ∧
    (∀ e, decode x = .error e → e.Within x) ∧
    (∀ e, locate x path = .error e → e.Within x) ∧
    (∀ b i j, findFrom x b i = some j → i ≤ j ∧ j < x.size) ∧
    (∀ at_ start stop, readLength x at_ = .ok (start, stop) → start ≤ stop ∧ stop ≤ x.size) := by
  refine ⟨decodePrefix_eq_walk x, locate_eq_walk x path, ?_, fun _ => within_of_decodePrefix,
    fun _ => within_of_decode, fun _ => within_of_locate, ?_, ?_⟩
  · intro v n h
    rw [decodePrefix_eq_walk] at h
    have hn := bounds_of_forget h
    omega
  · intro b i j h
    exact ⟨(findFrom_bounds h).1, (findFrom_bounds h).2.1⟩
  · intro at_ start stop h
    exact (readLength_bounds h).2

end

end Bencode
end Metainfo
