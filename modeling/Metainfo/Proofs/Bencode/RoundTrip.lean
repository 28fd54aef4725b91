import Metainfo.Proofs.Bencode.Scalars

/-!
# The reader inverts the encoder

The reader accepts a value exactly where its canonical encoding stands, and nothing
else:

* `Spells data d pos v p` says that the bytes of `data` from `pos` to `p` are the
  encoding of the well-formed value `v`, which fits under `maxDepth` when it sits at
  depth `d`; `SpellsItems` and `SpellsEntries` say the same of the items and entries of
  a container up to its closing `e`;
* `spells_of_read`: whatever the reader returns is spelled where it was read;
* `read_of_spells`: whatever is spelled there is read, given fuel for its length;
* `read_tooDeep`: a well-formed value nested too deep is refused with `tooDeep`;
* `decodePrefix_eq_ok_iff`, `decode_eq_ok_iff` and `decode_encode` put these together
  for the two entry points.

Each of the three is an induction on the fuel, stated for the three readers at once
because they call one another.
-/

namespace Metainfo
namespace Bencode

open Bytes

/-! ## What the reader is after -/

/-- The bytes of `data` from `pos` to `p` are the encoding of `v`, a well-formed value
that fits under the depth limit when it sits at depth `d`. -/
structure Spells (data : ByteArray) (d pos : Nat) (v : Value) (p : Nat) : Prop where
  wellFormed : v.wellFormed
  depth_le : d + v.depth ≤ maxDepth
  after_eq : after data pos = v.encode.toList ++ after data p
  stop_eq : p = pos + v.encode.size

/-- The bytes of `data` from `pos` to `p` are the items `xs`, each at depth `d`, and
the `e` that closes their list. -/
structure SpellsItems (data : ByteArray) (d pos : Nat) (xs : List Value) (p : Nat) : Prop where
  wellFormed : ∀ x ∈ xs, x.wellFormed
  depth_le : ∀ x ∈ xs, d + x.depth ≤ maxDepth
  after_eq : after data pos = (encodeItems xs).toList ++ ascii 'e' :: after data p
  stop_eq : p = pos + (encodeItems xs).size + 1

/-- The bytes of `data` from `pos` to `p` are the entries `es`, their keys ascending
from after `prev` and their values at depth `d`, and the `e` that closes their
dictionary. -/
structure SpellsEntries (data : ByteArray) (d pos : Nat) (prev : Option ByteArray)
    (es : List (ByteArray × Value)) (p : Nat) : Prop where
  wellFormed : Value.wellFormed.entriesWellFormed prev es
  depth_le : ∀ e ∈ es, d + e.2.depth ≤ maxDepth
  after_eq : after data pos = (encodeEntries es).toList ++ ascii 'e' :: after data p
  stop_eq : p = pos + (encodeEntries es).size + 1

section

variable {data : ByteArray}

theorem spells_int_iff {d pos p : Nat} {n : Int} :
    Spells data d pos (.int n) p ↔
      d ≤ maxDepth ∧ Value.inRange n ∧ after data pos = (intBytes n).toList ++ after data p ∧
        p = pos + (intBytes n).size := by
  constructor
  · rintro ⟨hwf, hd, hafter, hp⟩
    rw [encode_int] at hafter hp
    exact ⟨by simpa using hd, by simpa using hwf, hafter, hp⟩
  · rintro ⟨hd, hn, hafter, hp⟩
    refine ⟨by simpa using hn, by simpa using hd, ?_, ?_⟩
    · rw [encode_int]
      exact hafter
    · rw [encode_int]
      exact hp

theorem spells_bytes_iff {d pos p : Nat} {s : ByteArray} :
    Spells data d pos (.bytes s) p ↔
      d ≤ maxDepth ∧ s.size < 2 ^ 64 ∧ after data pos = (Value.bytes s).encode.toList ++ after data p ∧
        p = pos + (Value.bytes s).encode.size := by
  constructor
  · rintro ⟨hwf, hd, hafter, hp⟩
    exact ⟨by simpa using hd, by simpa using hwf, hafter, hp⟩
  · rintro ⟨hd, hs, hafter, hp⟩
    exact ⟨by simpa using hs, by simpa using hd, hafter, hp⟩

/-- A list is spelled by its `l` and then its items, one level deeper. -/
theorem spells_list_iff {d pos p : Nat} {xs : List Value} :
    Spells data d pos (.list xs) p ↔
      d ≤ maxDepth ∧ data[pos]? = some (ascii 'l') ∧ SpellsItems data (d + 1) (pos + 1) xs p := by
  constructor
  · rintro ⟨hwf, hd, hafter, hp⟩
    rw [Value.add_depth_list_le] at hd
    rw [toList_encode_list, List.cons_append] at hafter
    refine ⟨hd.1, getElem?_of_after hafter, ?_, hd.2, ?_, ?_⟩
    · simpa using hwf
    · rw [after_cons hafter]
      simp
    · rw [hp, size_encode_list]
      omega
  · rintro ⟨hd, hl, hwf, hdepth, hafter, hp⟩
    refine ⟨by simpa using hwf, (Value.add_depth_list_le xs d maxDepth).mpr ⟨hd, hdepth⟩, ?_, ?_⟩
    · rw [after_of_getElem? hl, hafter, toList_encode_list]
      simp
    · rw [hp, size_encode_list]
      omega

/-- A dictionary is spelled by its `d` and then its entries, one level deeper. -/
theorem spells_dict_iff {d pos p : Nat} {es : List (ByteArray × Value)} :
    Spells data d pos (.dict es) p ↔
      d ≤ maxDepth ∧ data[pos]? = some (ascii 'd') ∧ SpellsEntries data (d + 1) (pos + 1) none es p := by
  constructor
  · rintro ⟨hwf, hd, hafter, hp⟩
    rw [Value.add_depth_dict_le] at hd
    rw [toList_encode_dict, List.cons_append] at hafter
    refine ⟨hd.1, getElem?_of_after hafter, ?_, hd.2, ?_, ?_⟩
    · simpa using hwf
    · rw [after_cons hafter]
      simp
    · rw [hp, size_encode_dict]
      omega
  · rintro ⟨hd, hl, hwf, hdepth, hafter, hp⟩
    refine ⟨by simpa using hwf, (Value.add_depth_dict_le es d maxDepth).mpr ⟨hd, hdepth⟩, ?_, ?_⟩
    · rw [after_of_getElem? hl, hafter, toList_encode_dict]
      simp
    · rw [hp, size_encode_dict]
      omega

theorem spellsItems_nil_iff {d pos p : Nat} :
    SpellsItems data d pos [] p ↔ data[pos]? = some (ascii 'e') ∧ p = pos + 1 := by
  constructor
  · rintro ⟨-, -, hafter, hp⟩
    simp only [toList_encodeItems_nil, List.nil_append] at hafter
    refine ⟨getElem?_of_after hafter, ?_⟩
    rw [hp]
    simp [encodeItems]
  · rintro ⟨he, rfl⟩
    refine ⟨by simp, by simp, ?_, by simp [encodeItems]⟩
    rw [after_of_getElem? he]
    simp

/-- Items are spelled by the first item and then the rest. -/
theorem spellsItems_cons_iff {d pos p : Nat} {x : Value} {xs : List Value} :
    SpellsItems data d pos (x :: xs) p ↔
      Spells data d pos x (pos + x.encode.size) ∧
        SpellsItems data d (pos + x.encode.size) xs p := by
  constructor
  · rintro ⟨hwf, hdepth, hafter, hp⟩
    rw [toList_encodeItems_cons, List.append_assoc] at hafter
    have hrest := after_append hafter
    rw [length_toList] at hrest
    refine ⟨⟨hwf x (by simp), hdepth x (by simp), ?_, rfl⟩,
      ⟨fun y hy => hwf y (by simp [hy]), fun y hy => hdepth y (by simp [hy]), hrest, ?_⟩⟩
    · rw [hafter, hrest]
    · rw [hp, size_encodeItems_cons]
      omega
  · rintro ⟨⟨hwf, hd, hafter, -⟩, ⟨hwfs, hds, hrest, hp⟩⟩
    refine ⟨?_, ?_, ?_, ?_⟩
    · simpa using ⟨hwf, hwfs⟩
    · simpa using ⟨hd, hds⟩
    · rw [hafter, hrest, toList_encodeItems_cons]
      simp
    · rw [hp, size_encodeItems_cons]
      omega

theorem spellsEntries_nil_iff {d pos p : Nat} {prev : Option ByteArray} :
    SpellsEntries data d pos prev [] p ↔ data[pos]? = some (ascii 'e') ∧ p = pos + 1 := by
  constructor
  · rintro ⟨-, -, hafter, hp⟩
    simp only [toList_encodeEntries_nil, List.nil_append] at hafter
    refine ⟨getElem?_of_after hafter, ?_⟩
    rw [hp]
    simp [encodeEntries]
  · rintro ⟨he, rfl⟩
    refine ⟨by simp, by simp, ?_, by simp [encodeEntries]⟩
    rw [after_of_getElem? he]
    simp

/-- Entries are spelled by the first key, which must follow `prev`, its value, and then
the rest, whose keys follow the first. -/
theorem spellsEntries_cons_iff {d pos p : Nat} {prev : Option ByteArray} {k : ByteArray}
    {x : Value} {es : List (ByteArray × Value)} :
    SpellsEntries data d pos prev ((k, x) :: es) p ↔
      keyFollows prev k ∧ Spells data d pos (.bytes k) (pos + (Value.bytes k).encode.size) ∧
        Spells data d (pos + (Value.bytes k).encode.size) x
          (pos + (Value.bytes k).encode.size + x.encode.size) ∧
        SpellsEntries data d (pos + (Value.bytes k).encode.size + x.encode.size) (some k) es p := by
  constructor
  · rintro ⟨hwf, hdepth, hafter, hp⟩
    rw [Value.entriesWellFormed_cons] at hwf
    obtain ⟨hfollows, hk, hx, hwfs⟩ := hwf
    have hdx := hdepth (k, x) (by simp)
    rw [toList_encodeEntries_cons, List.append_assoc, List.append_assoc] at hafter
    have hval := after_append hafter
    have hrest := after_append hval
    simp only [length_toList] at hval hrest
    refine ⟨hfollows, ⟨by simpa using hk, by simp; omega, by rw [hafter, hval], rfl⟩,
      ⟨hx, hdx, by rw [hval, hrest], rfl⟩,
      ⟨hwfs, fun e he => hdepth e (by simp [he]), hrest, ?_⟩⟩
    rw [hp, size_encodeEntries_cons]
    omega
  · rintro ⟨hfollows, ⟨hk, -, hkafter, -⟩, ⟨hx, hdx, hxafter, -⟩, ⟨hwfs, hds, hrest, hp⟩⟩
    refine ⟨?_, ?_, ?_, ?_⟩
    · rw [Value.entriesWellFormed_cons]
      exact ⟨hfollows, by simpa using hk, hx, hwfs⟩
    · intro e he
      rcases List.mem_cons.mp he with rfl | he
      · exact hdx
      · exact hds e he
    · rw [hkafter, hxafter, hrest, toList_encodeEntries_cons]
      simp
    · rw [hp, size_encodeEntries_cons]
      omega

/-- The key-order check passes exactly when the key follows the one before it. -/
theorem checkKeyOrder_eq_ok {prev : Option ByteArray} {k : ByteArray} {at_ : Nat} :
    checkKeyOrder prev k at_ = .ok () ↔ keyFollows prev k := by
  cases prev with
  | none => simp [checkKeyOrder, keyFollows]
  | some p =>
    simp only [checkKeyOrder, keyFollows]
    split <;> simp_all

/-! ## Soundness -/

/-- **What the reader accepts.** Whatever a reader returns is spelled where it was
read: a value by its encoding, the rest of a list or a dictionary by its items or
entries, which follow those already in the accumulator. -/
theorem spells_of_read (fuel : Nat) :
    (∀ d pos v p, readValue data fuel d pos = .ok (v, p) → Spells data d pos v p) ∧
    (∀ d pos acc v p, readItems data fuel d pos acc = .ok (v, p) →
      ∃ xs, v = .list (acc.reverse ++ xs) ∧ SpellsItems data d pos xs p) ∧
    (∀ d pos prev acc v p, readEntries data fuel d pos prev acc = .ok (v, p) →
      ∃ es, v = .dict (acc.reverse ++ es) ∧ SpellsEntries data d pos prev es p) := by
  induction fuel with
  | zero =>
    refine ⟨?_, ?_, ?_⟩ <;> intros <;> simp_all [readValue, readItems, readEntries]
  | succ fuel ih =>
    obtain ⟨ihValue, ihItems, ihEntries⟩ := ih
    refine ⟨?_, ?_, ?_⟩
    · intro d pos v p h
      rw [readValue.eq_2] at h
      split at h
      · cases h
      rename_i hd
      split at h
      · cases h
      rename_i b hb
      split at h
      · -- an integer
        rename_i hi
        subst hi
        split at h
        · rename_i n p' hread
          cases h
          obtain ⟨hn, hafter, hp⟩ := readInteger_sound hb hread
          exact spells_int_iff.mpr ⟨by omega, hn, hafter, hp⟩
        · cases h
      split at h
      · -- a byte string
        split at h
        · rename_i s p' hread
          cases h
          obtain ⟨hs, hafter, hp⟩ := readBytes_sound hread
          exact spells_bytes_iff.mpr ⟨by omega, hs, hafter, hp⟩
        · cases h
      split at h
      · -- a list: its items are read one level deeper
        rename_i hl
        subst hl
        obtain ⟨xs, rfl, hxs⟩ := ihItems _ _ _ _ _ h
        exact spells_list_iff.mpr ⟨by omega, hb, by simpa using hxs⟩
      split at h
      · rename_i hdict
        subst hdict
        obtain ⟨es, rfl, hes⟩ := ihEntries _ _ _ _ _ _ h
        exact spells_dict_iff.mpr ⟨by omega, hb, by simpa using hes⟩
      · cases h
    · intro d pos acc v p h
      rw [readItems.eq_2] at h
      split at h
      · cases h
      rename_i b hb
      split at h
      · rename_i he
        subst he
        cases h
        exact ⟨[], by simp, spellsItems_nil_iff.mpr ⟨hb, rfl⟩⟩
      split at h
      · cases h
      rename_i x p1 hx
      obtain ⟨xs, rfl, hxs⟩ := ihItems _ _ _ _ _ h
      have hxv := ihValue _ _ _ _ hx
      obtain rfl := hxv.stop_eq
      exact ⟨x :: xs, by simp, spellsItems_cons_iff.mpr ⟨hxv, hxs⟩⟩
    · intro d pos prev acc v p h
      rw [readEntries.eq_2] at h
      split at h
      · cases h
      rename_i b hb
      split at h
      · rename_i he
        subst he
        cases h
        exact ⟨[], by simp, spellsEntries_nil_iff.mpr ⟨hb, rfl⟩⟩
      split at h
      · cases h
      split at h
      · cases h
      rename_i k pk hkey
      split at h
      · cases h
      rename_i horder
      split at h
      · cases h
      rename_i x p1 hx
      obtain ⟨es, rfl, hes⟩ := ihEntries _ _ _ _ _ _ h
      obtain ⟨hs, hkafter, rfl⟩ := readBytes_sound hkey
      have hxv := ihValue _ _ _ _ hx
      obtain rfl := hxv.stop_eq
      have hkey : Spells data d pos (.bytes k) (pos + (Value.bytes k).encode.size) :=
        spells_bytes_iff.mpr ⟨by have := hxv.depth_le; omega, hs, hkafter, rfl⟩
      exact ⟨(k, x) :: es, by simp,
        spellsEntries_cons_iff.mpr ⟨checkKeyOrder_eq_ok.mp horder, hkey, hxv, hes⟩⟩

/-! ## Completeness -/

/-- **What the reader finds.** Whatever is spelled at `pos` is read, given fuel for as
many steps as its encoding has bytes. -/
theorem read_of_spells (fuel : Nat) :
    (∀ d pos v p, Spells data d pos v p → v.encode.size ≤ fuel →
      readValue data fuel d pos = .ok (v, p)) ∧
    (∀ d pos acc xs p, SpellsItems data d pos xs p → (encodeItems xs).size < fuel →
      readItems data fuel d pos acc = .ok (.list (acc.reverse ++ xs), p)) ∧
    (∀ d pos prev acc es p, SpellsEntries data d pos prev es p → (encodeEntries es).size < fuel →
      readEntries data fuel d pos prev acc = .ok (.dict (acc.reverse ++ es), p)) := by
  induction fuel with
  | zero =>
    refine ⟨fun d pos v p _ hfuel => ?_, fun _ _ _ _ _ _ hfuel => absurd hfuel (by omega),
      fun _ _ _ _ _ _ _ hfuel => absurd hfuel (by omega)⟩
    exact absurd hfuel (by have := size_encode_pos v; omega)
  | succ fuel ih =>
    obtain ⟨ihValue, ihItems, ihEntries⟩ := ih
    refine ⟨?_, ?_, ?_⟩
    · intro d pos v p hv hfuel
      have hd : ¬ d > maxDepth := by have := hv.depth_le; omega
      cases v with
      | bytes s =>
        obtain ⟨-, hs, hafter, hp⟩ := spells_bytes_iff.mp hv
        obtain ⟨c, t, hct, hc⟩ := encode_bytes_head s
        have hci : c ≠ ascii 'i' := by
          rintro rfl
          exact absurd hc (by decide)
        have hpos : data[pos]? = some c := by
          rw [hct, List.cons_append] at hafter
          exact getElem?_of_after hafter
        rw [readValue.eq_2, if_neg hd, hpos]
        simp only [hci, hc, ↓reduceIte, readBytes_of_after hs hafter, hp]
      | int n =>
        obtain ⟨-, hn, hafter, hp⟩ := spells_int_iff.mp hv
        have hpos : data[pos]? = some (ascii 'i') := by
          rw [toList_intBytes, List.cons_append] at hafter
          exact getElem?_of_after hafter
        rw [readValue.eq_2, if_neg hd, hpos]
        simp only [↓reduceIte, readInteger_of_after hn hafter, hp]
      | list xs =>
        obtain ⟨-, hl, hxs⟩ := spells_list_iff.mp hv
        rw [size_encode_list] at hfuel
        rw [readValue.eq_2, if_neg hd, hl]
        simp only [ascii_i, ascii_l, isDigit_iff, ↓reduceIte]
        rw [ihItems _ _ [] xs p hxs (by omega)]
        simp
      | dict es =>
        obtain ⟨-, hl, hes⟩ := spells_dict_iff.mp hv
        rw [size_encode_dict] at hfuel
        rw [readValue.eq_2, if_neg hd, hl]
        simp only [ascii_i, ascii_l, ascii_d, isDigit_iff, ↓reduceIte]
        rw [ihEntries _ _ none [] es p hes (by omega)]
        simp
    · intro d pos acc xs p hxs hfuel
      cases xs with
      | nil =>
        obtain ⟨he, rfl⟩ := spellsItems_nil_iff.mp hxs
        rw [readItems.eq_2, he]
        simp
      | cons x xs =>
        obtain ⟨hx, hrest⟩ := spellsItems_cons_iff.mp hxs
        obtain ⟨c, t, hct, hce⟩ := encode_head_ne_e x
        have hpos : data[pos]? = some c := by
          have hafter := hx.after_eq
          rw [hct, List.cons_append] at hafter
          exact getElem?_of_after hafter
        have hpos' := size_encode_pos x
        rw [size_encodeItems_cons] at hfuel
        rw [readItems.eq_2, hpos]
        simp only [hce, ↓reduceIte]
        rw [ihValue _ _ _ _ hx (by omega)]
        simp only
        rw [ihItems _ _ _ _ _ hrest (by omega)]
        simp
    · intro d pos prev acc es p hes hfuel
      cases es with
      | nil =>
        obtain ⟨he, rfl⟩ := spellsEntries_nil_iff.mp hes
        rw [readEntries.eq_2, he]
        simp
      | cons e es =>
        obtain ⟨k, x⟩ := e
        obtain ⟨hfollows, hk, hx, hrest⟩ := spellsEntries_cons_iff.mp hes
        obtain ⟨-, hs, hkafter, -⟩ := spells_bytes_iff.mp hk
        obtain ⟨c, t, hct, hc⟩ := encode_bytes_head k
        have hce : c ≠ ascii 'e' := by
          rintro rfl
          exact absurd hc (by decide)
        have hpos : data[pos]? = some c := by
          have hafter := hkafter
          rw [hct, List.cons_append] at hafter
          exact getElem?_of_after hafter
        have hpos' := size_encode_pos (.bytes k)
        rw [size_encodeEntries_cons] at hfuel
        rw [readEntries.eq_2, hpos]
        simp only [hce, hc, Bool.not_true, Bool.false_eq_true, ↓reduceIte]
        rw [readBytes_of_after hs hkafter]
        simp only
        rw [checkKeyOrder_eq_ok.mpr hfollows]
        simp only
        rw [ihValue _ _ _ _ hx (by omega)]
        simp only
        rw [ihEntries _ _ _ _ _ _ hrest (by omega)]
        simp

/-! ## Values nested too deep -/

/-- **Too deep is refused.** A well-formed value some part of which sits deeper than
`maxDepth` is refused with `tooDeep`, whatever follows it: everything the reader meets
before the deep part is read as it is spelled. -/
theorem read_tooDeep (fuel : Nat) :
    (∀ d pos (v : Value) r, v.wellFormed → maxDepth < d + v.depth → v.encode.size ≤ fuel →
      after data pos = v.encode.toList ++ r →
      readValue data fuel d pos = .error (.tooDeep maxDepth)) ∧
    (∀ d pos acc xs r, (∀ x ∈ xs, x.wellFormed) → (∃ x ∈ xs, maxDepth < d + x.depth) →
      (encodeItems xs).size < fuel → after data pos = (encodeItems xs).toList ++ r →
      readItems data fuel d pos acc = .error (.tooDeep maxDepth)) ∧
    (∀ d pos prev acc es r, Value.wellFormed.entriesWellFormed prev es →
      (∃ e ∈ es, maxDepth < d + e.2.depth) →
      (encodeEntries es).size < fuel → after data pos = (encodeEntries es).toList ++ r →
      readEntries data fuel d pos prev acc = .error (.tooDeep maxDepth)) := by
  induction fuel with
  | zero =>
    refine ⟨fun d pos v r _ _ hfuel _ => ?_, fun _ _ _ _ _ _ _ hfuel _ => absurd hfuel (by omega),
      fun _ _ _ _ _ _ _ _ hfuel _ => absurd hfuel (by omega)⟩
    exact absurd hfuel (by have := size_encode_pos v; omega)
  | succ fuel ih =>
    obtain ⟨ihValue, ihItems, ihEntries⟩ := ih
    have hread := (@read_of_spells data fuel).1
    refine ⟨?_, ?_, ?_⟩
    · intro d pos v r hwf hdeep hfuel hafter
      by_cases hd : d > maxDepth
      · rw [readValue.eq_2, if_pos hd]
      cases v with
      | bytes s =>
        simp at hdeep
        omega
      | int n =>
        simp at hdeep
        omega
      | list xs =>
        -- the reader opens the list and meets the deep item among its items
        rw [toList_encode_list, List.cons_append, List.cons_append] at hafter
        rw [size_encode_list] at hfuel
        rw [readValue.eq_2, if_neg hd, getElem?_of_after hafter]
        simp only [ascii_i, ascii_l, isDigit_iff, ↓reduceIte]
        obtain ⟨x, hx, hxdeep⟩ := Value.exists_deep_item (Nat.le_of_not_lt hd) hdeep
        exact ihItems _ _ [] xs _ (by simpa using hwf) ⟨x, hx, hxdeep⟩ (by omega)
          (by rw [after_cons hafter, List.append_assoc])
      | dict es =>
        rw [toList_encode_dict, List.cons_append, List.cons_append] at hafter
        rw [size_encode_dict] at hfuel
        rw [readValue.eq_2, if_neg hd, getElem?_of_after hafter]
        simp only [ascii_i, ascii_l, ascii_d, isDigit_iff, ↓reduceIte]
        obtain ⟨e, he, hedeep⟩ := Value.exists_deep_entry (Nat.le_of_not_lt hd) hdeep
        exact ihEntries _ _ none [] es _ (by simpa using hwf) ⟨e, he, hedeep⟩ (by omega)
          (by rw [after_cons hafter, List.append_assoc])
    · intro d pos acc xs r hwf hdeep hfuel hafter
      cases xs with
      | nil =>
        obtain ⟨x, hx, -⟩ := hdeep
        cases hx
      | cons x xs =>
        obtain ⟨c, t, hct, hce⟩ := encode_head_ne_e x
        rw [toList_encodeItems_cons, List.append_assoc] at hafter
        have hpos : data[pos]? = some c := by
          have h := hafter
          rw [hct, List.cons_append] at h
          exact getElem?_of_after h
        have hpos' := size_encode_pos x
        rw [size_encodeItems_cons] at hfuel
        rw [readItems.eq_2, hpos]
        simp only [hce, ↓reduceIte]
        by_cases hx : maxDepth < d + x.depth
        · -- the first item is the deep one
          rw [ihValue _ _ _ _ (hwf x (by simp)) hx (by omega) hafter]
        · -- the first item is read as it is spelled, and the deep one is among the rest
          have hrest := after_append hafter
          rw [length_toList] at hrest
          have hxv : Spells data d pos x (pos + x.encode.size) :=
            ⟨hwf x (by simp), Nat.le_of_not_lt hx, by rw [hafter, hrest], rfl⟩
          rw [hread _ _ _ _ hxv (by omega)]
          simp only
          obtain ⟨y, hy, hydeep⟩ := hdeep
          rcases List.mem_cons.mp hy with rfl | hy
          · exact absurd hydeep hx
          · exact ihItems _ _ _ _ _ (fun z hz => hwf z (by simp [hz])) ⟨y, hy, hydeep⟩
              (by omega) hrest
    · intro d pos prev acc es r hwf hdeep hfuel hafter
      cases es with
      | nil =>
        obtain ⟨e, he, -⟩ := hdeep
        cases he
      | cons e es =>
        obtain ⟨k, x⟩ := e
        rw [Value.entriesWellFormed_cons] at hwf
        obtain ⟨hfollows, hk, hwfx, hwfs⟩ := hwf
        obtain ⟨c, t, hct, hc⟩ := encode_bytes_head k
        have hce : c ≠ ascii 'e' := by
          rintro rfl
          exact absurd hc (by decide)
        rw [toList_encodeEntries_cons, List.append_assoc, List.append_assoc] at hafter
        have hpos : data[pos]? = some c := by
          have h := hafter
          rw [hct, List.cons_append] at h
          exact getElem?_of_after h
        have hval := after_append hafter
        simp only [length_toList] at hval
        have hpos' := size_encode_pos (.bytes k)
        rw [size_encodeEntries_cons] at hfuel
        rw [readEntries.eq_2, hpos]
        simp only [hce, hc, Bool.not_true, Bool.false_eq_true, ↓reduceIte]
        rw [readBytes_of_after hk hafter]
        simp only
        rw [checkKeyOrder_eq_ok.mpr hfollows]
        simp only
        by_cases hx : maxDepth < d + x.depth
        · rw [ihValue _ _ _ _ hwfx hx (by omega) hval]
        · have hrest := after_append hval
          simp only [length_toList] at hrest
          have hxv : Spells data d (pos + (Value.bytes k).encode.size) x
              (pos + (Value.bytes k).encode.size + x.encode.size) :=
            ⟨hwfx, Nat.le_of_not_lt hx, by rw [hval, hrest], rfl⟩
          rw [hread _ _ _ _ hxv (by omega)]
          simp only
          obtain ⟨y, hy, hydeep⟩ := hdeep
          rcases List.mem_cons.mp hy with rfl | hy
          · exact absurd hydeep hx
          · exact ihEntries _ _ _ _ _ _ hwfs ⟨y, hy, hydeep⟩ (by omega) hrest

/-! ## The two entry points -/

/-- The fuel `decodePrefix` gives covers anything spelled at the front of `data`. -/
theorem size_le_fuelFor {v : Value} {r : List UInt8} (h : after data 0 = v.encode.toList ++ r) :
    v.encode.size ≤ fuelFor data := by
  have hlen := congrArg List.length h
  simp only [length_after, List.length_append, length_toList] at hlen
  unfold fuelFor
  omega

theorem decodePrefix_eq_ok_iff_spells {v : Value} {n : Nat} :
    decodePrefix data = .ok (v, n) ↔ Spells data 0 0 v n := by
  constructor
  · exact (spells_of_read _).1 0 0 v n
  · intro h
    exact (read_of_spells _).1 0 0 v n h (size_le_fuelFor h.after_eq)

/-- At the front of the input, `Spells` says that the first `n` bytes are the encoding. -/
theorem spells_zero_iff {v : Value} {n : Nat} :
    Spells data 0 0 v n ↔
      v.wellFormed ∧ v.depth ≤ maxDepth ∧ n = v.encode.size ∧ data.extract 0 n = v.encode := by
  constructor
  · rintro ⟨hwf, hd, hafter, rfl⟩
    refine ⟨hwf, by omega, by omega, ?_⟩
    exact extract_of_after hafter
  · rintro ⟨hwf, hd, rfl, hext⟩
    refine ⟨hwf, by omega, ?_, by omega⟩
    have htake : data.toList.take v.encode.size = v.encode.toList := by
      have h := congrArg ByteArray.toList hext
      rwa [toList_extract, List.drop_zero, Nat.sub_zero] at h
    rw [after_zero, ← htake, after, List.take_append_drop]

/-- **Reading a prefix.** `decodePrefix` returns `v` and `n` exactly when the first `n`
bytes of the input are the encoding of `v`, a well-formed value at most `maxDepth`
deep. -/
theorem decodePrefix_eq_ok_iff {v : Value} {n : Nat} :
    decodePrefix data = .ok (v, n) ↔
      v.wellFormed ∧ v.depth ≤ maxDepth ∧ n = v.encode.size ∧ data.extract 0 n = v.encode := by
  rw [decodePrefix_eq_ok_iff_spells, spells_zero_iff]

theorem decode_eq_ok_iff_decodePrefix {v : Value} :
    decode data = .ok v ↔ decodePrefix data = .ok (v, data.size) := by
  unfold decode
  split
  · rename_i e h
    simp [h]
  · rename_i v' used h
    rw [h]
    by_cases hu : used = data.size
    · simp [hu]
    · simp [hu]

theorem extract_zero_size (b : ByteArray) : b.extract 0 b.size = b := by
  rw [← toList_inj, toList_extract, List.drop_zero, Nat.sub_zero, ← length_toList, List.take_length]

/-- **Reading a whole input.** `decode` returns `v` exactly when the input is the
encoding of `v`, a well-formed value at most `maxDepth` deep. -/
theorem decode_eq_ok_iff {v : Value} :
    decode data = .ok v ↔ v.wellFormed ∧ v.depth ≤ maxDepth ∧ data = v.encode := by
  rw [decode_eq_ok_iff_decodePrefix, decodePrefix_eq_ok_iff, extract_zero_size]
  constructor
  · rintro ⟨hwf, hd, -, rfl⟩
    exact ⟨hwf, hd, rfl⟩
  · rintro ⟨hwf, hd, rfl⟩
    exact ⟨hwf, hd, rfl, rfl⟩

/-- A value read from the front of a longer input leaves the rest as trailing data. -/
theorem decode_of_decodePrefix_lt {v : Value} {n : Nat} (h : decodePrefix data = .ok (v, n))
    (hn : n < data.size) : decode data = .error (.trailingData (data.size - n)) := by
  rw [decode, h]
  simp only
  rw [if_neg (by omega)]

end

/-- **Encoding then reading a prefix.** A well-formed value at most `maxDepth` deep is read
back from the front of its encoding, whatever follows. -/
theorem decodePrefix_encode_append {v : Value} (hwf : v.wellFormed) (hd : v.depth ≤ maxDepth)
    (r : ByteArray) : decodePrefix (v.encode ++ r) = .ok (v, v.encode.size) := by
  rw [decodePrefix_eq_ok_iff_spells]
  refine ⟨hwf, by omega, ?_, by omega⟩
  rw [after_zero, after, toList_append, List.drop_left' (length_toList _)]

/-- **Encoding then reading.** `decode` gives back every well-formed value from its
encoding when it is at most `maxDepth` deep, and refuses it with `tooDeep` otherwise. -/
theorem decode_encode {v : Value} (hwf : v.wellFormed) :
    decode v.encode = if v.depth ≤ maxDepth then .ok v else .error (.tooDeep maxDepth) := by
  split
  · rename_i hd
    exact decode_eq_ok_iff.mpr ⟨hwf, hd, rfl⟩
  · rename_i hd
    have hread := (@read_tooDeep v.encode (fuelFor v.encode)).1 0 0 v []
      hwf (by omega) (size_le_fuelFor (r := []) (by rw [after_zero, List.append_nil]))
      (by rw [after_zero, List.append_nil])
    rw [decode, decodePrefix, hread]

/-- **Bencode is a canonical codec.** The reader accepts exactly the encodings of
well-formed values at most `maxDepth` deep: from the front of the input, from the whole
of it, or with bytes left over; and every well-formed value comes back from its encoding,
or is refused as too deep. -/
theorem codec_canonical :
    (∀ (x : ByteArray) (v : Value) (n : Nat), decodePrefix x = .ok (v, n) ↔
      v.wellFormed ∧ v.depth ≤ maxDepth ∧ n = v.encode.size ∧ x.extract 0 n = v.encode) ∧
    (∀ (x : ByteArray) (v : Value),
      decode x = .ok v ↔ v.wellFormed ∧ v.depth ≤ maxDepth ∧ x = v.encode) ∧
    (∀ (x : ByteArray) (v : Value) (n : Nat), decodePrefix x = .ok (v, n) → n < x.size →
      decode x = .error (.trailingData (x.size - n))) ∧
    (∀ v : Value, v.wellFormed →
      decode v.encode = if v.depth ≤ maxDepth then .ok v else .error (.tooDeep maxDepth)) ∧
    (∀ (v : Value) (r : ByteArray), v.wellFormed → v.depth ≤ maxDepth →
      decodePrefix (v.encode ++ r) = .ok (v, v.encode.size)) :=
  ⟨fun _ _ _ => decodePrefix_eq_ok_iff, fun _ _ => decode_eq_ok_iff,
    fun _ _ _ h hn => decode_of_decodePrefix_lt h hn, fun _ hwf => decode_encode hwf,
    fun _ r hwf hd => decodePrefix_encode_append hwf hd r⟩

end Bencode
end Metainfo
