import Mathlib.Control.Monad.Basic
import Metainfo.Bencode.Locate
import Metainfo.Proofs.Bencode.RoundTrip
import Metainfo.Proofs.Bencode.Dict

/-!
# Locating agrees with reading

`locate data path` walks the input a second time, by its own recursion: it reads the
dictionaries on the path entry by entry and skips everything else with `skipValue`.
This module relates the two walks step by step.

* `read_fuel_succ`: once the fuel covers two steps per byte left, one step more
  changes nothing. `locate` skips a value with one step of fuel more than
  `decode` reads it with, so the two walks meet only through this.
* `Value.follow` is the value reached from a value along a path of keys, and
  `FoundAt data v path r` says that `r` is where that value sits in `data`.
* `locate_sim`: at every step of the two walks, a value read by one is located by the
  other and an error of one is the error of the other, with one exception. `locateAt`
  peeks at the next byte before it checks the depth, so where the input ends at a value
  nested deeper than `maxDepth` and keys of the path are left, it reports the end of
  the input where `readValue` reports `tooDeep`.
* `locate_agrees_with_decode` puts this together for the whole input; the exception
  needs a path of more than `maxDepth + 1` keys.
-/

namespace Metainfo
namespace Bencode

open Bytes

section

variable {data : ByteArray}

/-! ## More fuel changes nothing -/

/-- A value read from `pos` ends after `pos`. -/
theorem lt_of_readValue {fuel d pos : Nat} {v : Value} {p : Nat}
    (h : readValue data fuel d pos = .ok (v, p)) : pos < p := by
  have hv := (spells_of_read fuel).1 d pos v p h
  have := size_encode_pos v
  have := hv.stop_eq
  omega

/-- A byte string read from `pos` ends after `pos`. -/
theorem lt_of_readBytes {pos : Nat} {s : ByteArray} {p : Nat}
    (h : readBytes data pos = .ok (s, p)) : pos < p := by
  have := (readBytes_sound h).2.2
  have := size_encode_pos (.bytes s)
  omega

/-- **One more step of fuel.** With fuel for two steps per byte left (and one more for
the closing `e` of a container), a reader gives the same result with one step more. -/
theorem read_fuel_succ (fuel : Nat) :
    (∀ d pos, 2 * (data.size - pos) + 1 ≤ fuel →
      readValue data (fuel + 1) d pos = readValue data fuel d pos) ∧
    (∀ d pos acc, 2 * (data.size - pos) + 2 ≤ fuel →
      readItems data (fuel + 1) d pos acc = readItems data fuel d pos acc) ∧
    (∀ d pos prev acc, 2 * (data.size - pos) + 2 ≤ fuel →
      readEntries data (fuel + 1) d pos prev acc = readEntries data fuel d pos prev acc) := by
  induction fuel with
  | zero => exact ⟨fun _ _ h => absurd h (by omega), fun _ _ _ h => absurd h (by omega),
      fun _ _ _ _ h => absurd h (by omega)⟩
  | succ fuel ih =>
    obtain ⟨ihValue, ihItems, ihEntries⟩ := ih
    refine ⟨?_, ?_, ?_⟩
    · intro d pos hfuel
      rw [readValue.eq_2, readValue.eq_2]
      cases hb : data[pos]? with
      | none => rfl
      | some b =>
        -- a container's items start one byte on, with fuel to spare
        have hpos : pos < data.size := (getElem?_eq_some_iff.mp hb).1
        rw [ihItems (d + 1) (pos + 1) [] (by omega), ihEntries (d + 1) (pos + 1) none [] (by omega)]
    · intro d pos acc hfuel
      rw [readItems.eq_2, readItems.eq_2]
      cases hb : data[pos]? with
      | none => rfl
      | some b =>
        have hpos : pos < data.size := (getElem?_eq_some_iff.mp hb).1
        rw [ihValue d pos (by omega)]
        simp only
        split
        · rfl
        · split
          · rfl
          · rename_i v p hv
            exact ihItems d p (v :: acc) (by have := lt_of_readValue hv; omega)
    · intro d pos prev acc hfuel
      rw [readEntries.eq_2, readEntries.eq_2]
      cases hb : data[pos]? with
      | none => rfl
      | some b =>
        have hpos : pos < data.size := (getElem?_eq_some_iff.mp hb).1
        simp only
        split
        · rfl
        split
        · rfl
        split
        · rfl
        rename_i k q hk
        have hq := lt_of_readBytes hk
        split
        · rfl
        rw [ihValue d q (by omega)]
        split
        · rfl
        rename_i v p hv
        exact ihEntries d p (some k) ((k, v) :: acc) (by have := lt_of_readValue hv; omega)

/-- A value read from `pos` ends inside the input. -/
theorem le_size_of_readValue {fuel d pos : Nat} {v : Value} {p : Nat}
    (h : readValue data fuel d pos = .ok (v, p)) : p ≤ data.size := by
  have hv := (spells_of_read fuel).1 d pos v p h
  have hle := add_length_le_size hv.after_eq (by
    obtain ⟨c, t, hct, -⟩ := encode_head_ne_e v
    rw [hct]
    exact List.cons_ne_nil c t)
  rw [length_toList] at hle
  rw [hv.stop_eq]
  exact hle

/-- A byte string read from `pos` ends inside the input. -/
theorem le_size_of_readBytes {pos : Nat} {s : ByteArray} {p : Nat}
    (h : readBytes data pos = .ok (s, p)) : p ≤ data.size := by
  obtain ⟨-, hafter, hp⟩ := readBytes_sound h
  have hle := add_length_le_size hafter (by
    obtain ⟨c, t, hct, -⟩ := encode_bytes_head s
    rw [hct]
    exact List.cons_ne_nil c t)
  rw [length_toList] at hle
  rw [hp]
  exact hle

end

/-! ## Following a path of keys -/

/-- The value reached from `v` by following the keys of `path` through dictionaries:
`none` when a key is missing or a step meets a value that is not a dictionary. -/
def Value.follow : Value → List ByteArray → Option Value
  | v, [] => some v
  | v, k :: rest => (v.get? k).bind fun w => w.follow rest

/-- `r` is where the value reached from `v` along `path` sits in `data`: the range its
encoding takes, or `none` when the path leads nowhere. -/
def FoundAt (data : ByteArray) (v : Value) (path : List ByteArray) (r : Option (Nat × Nat)) :
    Prop :=
  match v.follow path with
  | none => r = none
  | some w => ∃ a b, r = some (a, b) ∧ after data a = w.encode.toList ++ after data b ∧
      b = a + w.encode.size

/-- What walking the entries `es` for `key` leaves: the range found under `key`, or
`found` when no entry has that key. -/
def EntryFound (data : ByteArray) (es : List (ByteArray × Value)) (key : ByteArray)
    (rest : List ByteArray) (found r : Option (Nat × Nat)) : Prop :=
  match Dict.get? es key with
  | none => r = found
  | some w => FoundAt data w rest r

theorem foundAt_nil {data : ByteArray} {v : Value} {pos p : Nat}
    (hafter : after data pos = v.encode.toList ++ after data p) (hp : p = pos + v.encode.size) :
    FoundAt data v [] (some (pos, p)) := by
  simp only [FoundAt, Value.follow]
  exact ⟨pos, p, rfl, hafter, hp⟩

/-- A path into a value that is not a dictionary leads nowhere. -/
theorem foundAt_cons_of_asDict? {data : ByteArray} {v : Value} (hv : v.asDict? = none)
    (k : ByteArray) (rest : List ByteArray) : FoundAt data v (k :: rest) none := by
  simp [FoundAt, Value.follow, Value.get?, hv]

theorem foundAt_dict_cons {data : ByteArray} {es : List (ByteArray × Value)} {k : ByteArray}
    {rest : List ByteArray} {r : Option (Nat × Nat)} :
    FoundAt data (.dict es) (k :: rest) r ↔ EntryFound data es k rest none r := by
  simp only [FoundAt, EntryFound, Value.follow, Value.get?, Value.asDict?, Option.bind_some]
  cases Dict.get? es k with
  | none => rfl
  | some w => rfl

theorem entryFound_nil {data : ByteArray} {key : ByteArray} {rest : List ByteArray}
    {found : Option (Nat × Nat)} : EntryFound data [] key rest found found := by
  simp [EntryFound, Dict.get?]

theorem entryFound_cons_ne {data : ByteArray} {k key : ByteArray} {w : Value}
    {es : List (ByteArray × Value)} {rest : List ByteArray} {found r : Option (Nat × Nat)}
    (hk : k ≠ key) : EntryFound data ((k, w) :: es) key rest found r ↔
      EntryFound data es key rest found r := by
  simp [EntryFound, Dict.get?, hk]

/-! ## The two walks side by side -/

/-- The outcome `l` of the located walk agrees with the error `e` of the read one: it
is `e`, or `e` is `tooDeep` and `l` the end of the input, which only a walk with more
than `maxDepth + 1` levels and keys counted in `n` meets. -/
def ErrorAgrees (data : ByteArray) (e : DecodeError)
    (l : Except DecodeError (Option (Nat × Nat) × Nat)) (n : Nat) : Prop :=
  l = .error e ∨ (e = .tooDeep maxDepth ∧ l = .error (.unexpectedEof data.size) ∧ maxDepth + 1 < n)

/-- At fuel `fuel`, locating along any path from `pos` agrees with reading the value
there: the value read is located, and an error is the same error. -/
def ValueSim (data : ByteArray) (fuel : Nat) : Prop :=
  ∀ path d pos, pos ≤ data.size → 2 * (data.size - pos) + 1 ≤ fuel →
    (∀ v p, readValue data fuel d pos = .ok (v, p) →
      ∃ r, locateAt data (fuel + 1) path d pos = .ok (r, p) ∧ FoundAt data v path r) ∧
    (∀ e, readValue data fuel d pos = .error e →
      ErrorAgrees data e (locateAt data (fuel + 1) path d pos) (d + path.length))

/-- At fuel `fuel`, walking dictionary entries for `key` agrees with reading them. -/
def EntriesSim (data : ByteArray) (fuel : Nat) : Prop :=
  ∀ key rest d pos prev found acc, pos ≤ data.size → 2 * (data.size - pos) + 2 ≤ fuel →
    (∀ v p, readEntries data fuel d pos prev acc = .ok (v, p) →
      ∃ es r, v = .dict (acc.reverse ++ es) ∧
        locateEntries data (fuel + 1) key rest d pos prev found = .ok (r, p) ∧
        EntryFound data es key rest found r) ∧
    (∀ e, readEntries data fuel d pos prev acc = .error e →
      ErrorAgrees data e (locateEntries data (fuel + 1) key rest d pos prev found) (d + rest.length))

section

variable {data : ByteArray}

/-- Where both walks stop at once with the same error, nothing is read and the errors
agree. -/
theorem sim_of_error {P : Value → Nat → Prop} {e₀ : DecodeError} {n : Nat} :
    (∀ v p, (.error e₀ : Except DecodeError (Value × Nat)) = .ok (v, p) → P v p) ∧
    (∀ e, (.error e₀ : Except DecodeError (Value × Nat)) = .error e →
      ErrorAgrees data e (.error e₀) n) :=
  ⟨fun _ _ h => (by cases h), fun _ h => Or.inl (by cases h; rfl)⟩

/-- A value read where a byte other than `d` stands is not a dictionary. -/
theorem asDict?_of_readValue {fuel d pos : Nat} {v : Value} {p : Nat} {b : UInt8}
    (h : readValue data fuel d pos = .ok (v, p)) (hb : data[pos]? = some b)
    (hbd : b ≠ ascii 'd') : v.asDict? = none := by
  cases v with
  | dict es =>
    obtain ⟨-, hd, -⟩ := spells_dict_iff.mp ((spells_of_read fuel).1 d pos _ p h)
    rw [hb] at hd
    exact absurd (Option.some.inj hd) hbd
  | bytes s => rfl
  | int n => rfl
  | list xs => rfl

/-- **Locating a value.** The step from the entries of a dictionary to a whole value:
the located walk skips what is off the path, refuses the depth where the read one does,
and walks the entries of a dictionary on the path. -/
theorem valueSim_succ {fuel : Nat} (hentries : EntriesSim data fuel) :
    ValueSim data (fuel + 1) := by
  intro path d pos hpos hfuel
  cases path with
  | nil =>
    -- the whole value is skipped, and its range is the answer
    refine ⟨fun v p h => ⟨some (pos, p), ?_, ?_⟩, fun e h => Or.inl ?_⟩
    · rw [locateAt.eq_2, skipValue, h]
    · have hv := (spells_of_read _).1 d pos v p h
      exact foundAt_nil hv.after_eq hv.stop_eq
    · rw [locateAt.eq_2, skipValue, h]
  | cons key rest =>
    cases hb : data[pos]? with
    | none =>
      -- the input ends where a value should start; only here the two checks differ
      have hend : pos = data.size := by
        have : data.size ≤ pos := by simpa [getElem?_def] using hb
        omega
      have hloc : locateAt data (fuel + 2) (key :: rest) d pos = .error (.unexpectedEof pos) := by
        rw [locateAt.eq_3, hb]
      rw [readValue.eq_2, hb, hloc]
      by_cases hd : d > maxDepth
      · rw [if_pos hd]
        refine ⟨fun v p h => (by cases h), fun e h => Or.inr ⟨?_, by rw [hend], ?_⟩⟩
        · cases h
          rfl
        · simp only [List.length_cons]
          unfold maxDepth at hd ⊢
          omega
      · rw [if_neg hd]
        exact sim_of_error
    | some b =>
      have hlt : pos < data.size := (getElem?_eq_some_iff.mp hb).1
      by_cases hbd : b = ascii 'd'
      · subst hbd
        by_cases hd : d > maxDepth
        · -- both refuse the depth before reading the dictionary
          have hread : readValue data (fuel + 1) d pos = .error (.tooDeep maxDepth) := by
            rw [readValue.eq_2, if_pos hd]
          have hloc : locateAt data (fuel + 2) (key :: rest) d pos =
              .error (.tooDeep maxDepth) := by
            rw [locateAt.eq_3, hb]
            simp [hd]
          rw [hread, hloc]
          exact sim_of_error
        · -- a dictionary on the path: its entries are walked one level deeper
          have hread : readValue data (fuel + 1) d pos =
              readEntries data fuel (d + 1) (pos + 1) none [] := by
            rw [readValue.eq_2, if_neg hd, hb]
            simp [isDigit_iff]
          have hloc : locateAt data (fuel + 2) (key :: rest) d pos =
              locateEntries data (fuel + 1) key rest (d + 1) (pos + 1) none none := by
            rw [locateAt.eq_3, hb]
            simp [hd]
          obtain ⟨hok, herr⟩ := hentries key rest (d + 1) (pos + 1) none none [] (by omega) (by omega)
          rw [hread, hloc]
          refine ⟨fun v p h => ?_, fun e h => ?_⟩
          · obtain ⟨es, r, rfl, hr, hfound⟩ := hok v p h
            exact ⟨r, hr, foundAt_dict_cons.mpr (by simpa using hfound)⟩
          · have hagree := herr e h
            rwa [List.length_cons, ← Nat.add_assoc, Nat.add_right_comm d rest.length 1]
      · -- any other value is skipped, and the path leads nowhere from it
        have hloc : locateAt data (fuel + 2) (key :: rest) d pos =
            (readValue data (fuel + 1) d pos).map fun vp => (none, vp.2) := by
          rw [locateAt.eq_3, hb]
          simp only [ne_eq, hbd, not_false_eq_true, ↓reduceIte, skipValue]
          rcases readValue data (fuel + 1) d pos with e | ⟨v, p⟩ <;> rfl
        rw [hloc]
        refine ⟨fun v p h => ⟨none, by rw [h]; rfl, foundAt_cons_of_asDict? ?_ key rest⟩,
          fun e h => Or.inl (by rw [h]; rfl)⟩
        exact asDict?_of_readValue h hb hbd

/-- **Locating among entries.** The step for the entries of a dictionary on the path:
the value under `key` is located along the rest of the path, and every other value is
skipped with one step of fuel more than reading it takes, which reads the same. -/
theorem entriesSim_succ {fuel : Nat} (hvalue : ValueSim data fuel)
    (hentries : EntriesSim data fuel) : EntriesSim data (fuel + 1) := by
  intro key rest d pos prev found acc hpos hfuel
  rw [readEntries.eq_2, locateEntries.eq_2]
  cases hb : data[pos]? with
  | none => exact sim_of_error
  | some b =>
    have hlt : pos < data.size := (getElem?_eq_some_iff.mp hb).1
    simp only
    by_cases he : b = ascii 'e'
    · -- the dictionary closes, and nothing more is found under `key`
      simp only [he, ↓reduceIte]
      refine ⟨fun v p h => ?_, fun e h => (by cases h)⟩
      cases h
      exact ⟨[], found, by simp, rfl, entryFound_nil⟩
    rw [if_neg he, if_neg he]
    by_cases hdig : (!isDigit b) = true
    · rw [if_pos hdig, if_pos hdig]
      exact sim_of_error
    rw [if_neg hdig, if_neg hdig]
    cases hk : readBytes data pos with
    | error e => exact sim_of_error
    | ok kq =>
      obtain ⟨k, q⟩ := kq
      have hq := lt_of_readBytes hk
      have hqs := le_size_of_readBytes hk
      simp only
      cases horder : checkKeyOrder prev k pos with
      | error e => exact sim_of_error
      | ok u =>
        simp only
        by_cases hkey : k = key
        · -- the key on the path: what is under it is located along the rest
          rw [if_pos hkey]
          obtain ⟨hok, herr⟩ := hvalue rest d q hqs (by omega)
          cases hw : readValue data fuel d q with
          | error e =>
            refine ⟨fun v p h => (by cases h), fun e' h => ?_⟩
            cases h
            rcases herr e hw with hl | ⟨rfl, hl, hn⟩
            · exact Or.inl (by rw [hl])
            · exact Or.inr ⟨rfl, by rw [hl], hn⟩
          | ok wp =>
            obtain ⟨w, p1⟩ := wp
            obtain ⟨r1, hr1, hfound1⟩ := hok w p1 hw
            rw [hr1]
            simp only
            obtain ⟨hok', herr'⟩ := hentries key rest d p1 (some k) r1 ((k, w) :: acc)
              (le_size_of_readValue hw) (by have := lt_of_readValue hw; omega)
            refine ⟨fun v p h => ?_, herr'⟩
            obtain ⟨es, r, rfl, hr, hfound⟩ := hok' v p h
            -- the keys after `key` sort after it, so `r1` stays the answer
            obtain ⟨es', hv', hes'⟩ := (spells_of_read fuel).2.2 d p1 (some k) ((k, w) :: acc) _ p h
            have hes : es = es' := by simpa using hv'
            subst hes hkey
            have hnone := get?_eq_none_of_entriesWellFormed hes'.wellFormed
            simp only [EntryFound, hnone] at hfound
            refine ⟨(k, w) :: es, r, by simp, hr, ?_⟩
            simp only [EntryFound, Dict.get?, ↓reduceIte]
            rw [hfound]
            exact hfound1
        · -- another key: its value is skipped
          rw [if_neg hkey, skipValue, (read_fuel_succ fuel).1 d q (by omega)]
          cases hw : readValue data fuel d q with
          | error e => exact sim_of_error
          | ok wp =>
            obtain ⟨w, p1⟩ := wp
            simp only
            obtain ⟨hok', herr'⟩ := hentries key rest d p1 (some k) found ((k, w) :: acc)
              (le_size_of_readValue hw) (by have := lt_of_readValue hw; omega)
            refine ⟨fun v p h => ?_, herr'⟩
            obtain ⟨es, r, rfl, hr, hfound⟩ := hok' v p h
            exact ⟨(k, w) :: es, r, by simp, hr, (entryFound_cons_ne hkey).mpr hfound⟩

/-- **The two walks agree** at every fuel, by induction on it: each step of one is
matched by the same step of the other. -/
theorem locate_sim (fuel : Nat) : ValueSim data fuel ∧ EntriesSim data fuel := by
  induction fuel with
  | zero =>
    exact ⟨fun _ _ _ _ hfuel => absurd hfuel (by omega),
      fun _ _ _ _ _ _ _ _ hfuel => absurd hfuel (by omega)⟩
  | succ fuel ih => exact ⟨valueSim_succ ih.2, entriesSim_succ ih.1 ih.2⟩

end

/-! ## The whole input -/

/-- What a path reaches in a well-formed value is well formed and no deeper than it. -/
theorem follow_wellFormed {v w : Value} {path : List ByteArray} (hwf : v.wellFormed)
    (h : v.follow path = some w) : w.wellFormed ∧ w.depth ≤ v.depth := by
  induction path generalizing v with
  | nil =>
    cases h
    exact ⟨hwf, Nat.le_refl _⟩
  | cons k rest ih =>
    simp only [Value.follow, Option.bind_eq_some_iff] at h
    obtain ⟨u, hu, hw⟩ := h
    -- only a dictionary has a value under a key
    cases v with
    | dict es =>
      have hmem := mem_of_get? (by simpa [Value.get?, Value.asDict?] using hu)
      have hwfu : u.wellFormed := Value.wellFormed_of_mem_entries hwf hmem
      have hdepth : u.depth + 1 ≤ (Value.dict es).depth :=
        (Value.entriesDepth_le_iff es (Value.dict es).depth).mp
          (Nat.le_of_eq (by rw [Value.depth])) (k, u) hmem
      obtain ⟨hwfw, hdw⟩ := ih hwfu hw
      exact ⟨hwfw, by omega⟩
    | bytes s => cases hu
    | int n => cases hu
    | list xs => cases hu

/-- On input that decodes to `v`, `locate` finds the range of the encoding of the value
that `path` reaches in `v`, or `none` when the path leads nowhere. -/
theorem locate_of_decode_ok {x : ByteArray} {v : Value} (hv : decode x = .ok v)
    (path : List ByteArray) :
    match v.follow path with
    | none => locate x path = .ok none
    | some w => ∃ a b, locate x path = .ok (some (a, b)) ∧ x.extract a b = w.encode ∧
        decode (x.extract a b) = .ok w := by
  obtain ⟨hok, -⟩ := (@locate_sim x (fuelFor x)).1 path 0 0 (Nat.zero_le _)
    (by unfold fuelFor; omega)
  obtain ⟨hwf, hd, -⟩ := decode_eq_ok_iff.mp hv
  obtain ⟨r, hr, hfound⟩ := hok v x.size (decode_eq_ok_iff_decodePrefix.mp hv)
  have hloc : locate x path = .ok r := by
    rw [locate, hr]
    simp
  cases hw : v.follow path with
  | none =>
    simp only [FoundAt, hw] at hfound
    rw [hloc, hfound]
  | some w =>
    simp only [FoundAt, hw] at hfound
    obtain ⟨a, b, rfl, hafter, rfl⟩ := hfound
    have hext : x.extract a (a + w.encode.size) = w.encode := extract_of_after hafter
    obtain ⟨hwfw, hdw⟩ := follow_wellFormed hwf hw
    have hdecode : decode w.encode = .ok w := decode_eq_ok_iff.mpr ⟨hwfw, by omega, rfl⟩
    exact ⟨a, a + w.encode.size, hloc, hext, by rw [hext, hdecode]⟩

/-- **Locating agrees with decoding, up to one check.** When the input decodes to `v`,
`locate` gives the range of the encoding of the value that `path` reaches in `v`, and
`none` when the path leads nowhere. When decoding fails, `locate` fails with the same
error, except that a value nested deeper than `maxDepth` that starts where the input
ends, with keys of the path left, is reported as the end of the input: this needs a
path of more than `maxDepth + 1` keys. -/
theorem locate_agrees_with_decode (x : ByteArray) (path : List ByteArray) :
    (∀ v, decode x = .ok v →
      match v.follow path with
      | none => locate x path = .ok none
      | some w => ∃ a b, locate x path = .ok (some (a, b)) ∧ x.extract a b = w.encode ∧
          decode (x.extract a b) = .ok w) ∧
    (∀ e, decode x = .error e →
      locate x path = .error e ∨
        (e = .tooDeep maxDepth ∧ locate x path = .error (.unexpectedEof x.size) ∧
          maxDepth + 1 < path.length)) := by
  refine ⟨fun v hv => locate_of_decode_ok hv path, fun e he => ?_⟩
  obtain ⟨hok, herr⟩ := (@locate_sim x (fuelFor x)).1 path 0 0 (Nat.zero_le _)
    (by unfold fuelFor; omega)
  -- an error of the reader, or bytes left after the value read
  rw [decode] at he
  cases hread : decodePrefix x with
  | error e' =>
    rw [hread] at he
    cases he
    rcases herr e hread with hl | ⟨rfl, hl, hn⟩
    · exact Or.inl (by rw [locate, hl])
    · exact Or.inr ⟨rfl, by rw [locate, hl], by omega⟩
  | ok vn =>
    obtain ⟨v, n⟩ := vn
    rw [hread] at he
    simp only at he
    split at he
    · cases he
    · rename_i hn
      cases he
      obtain ⟨r, hr, -⟩ := hok v n hread
      exact Or.inl (by rw [locate, hr]; simp [hn])

/-- Sixty-five dictionaries, each opened with the key `a` and cut off before its value:
the bytes `d1:a` sixty-five times. -/
def deepKeys : ByteArray :=
  ⟨(List.replicate 65 [0x64, 0x31, 0x3A, 0x61]).flatten.toArray⟩

/-- **Where the two walks part.** With the dictionaries cut off sixty-five deep, `decode`
reports the nesting, while `locate` along sixty-six keys `a` peeks first and reports
the end of the input. -/
theorem deepKeys_locate_reports_end :
    decode deepKeys = .error (.tooDeep maxDepth) ∧
      locate deepKeys (List.replicate 66 ⟨#[0x61]⟩) = .error (.unexpectedEof deepKeys.size) := by
  decide +kernel

end Bencode
end Metainfo
