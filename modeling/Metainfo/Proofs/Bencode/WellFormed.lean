import Metainfo.Bencode.Decode
import Metainfo.Bencode.Encode
import Metainfo.Proofs.Bytes

/-!
# Well-formed values and their bytes

The reader only ever builds values of one shape, the shape the documentation of
`Value` promises: integers in the signed 64-bit range, byte strings (and keys) whose
length is a 64-bit number, dictionary keys in strictly ascending order. This module
names that shape, `Value.wellFormed`, and spells out `Value.encode` byte by byte,
which is the form in which the reader meets it:

* an integer is `i`, `intDigits n`, `e`;
* a byte string is `Bytes.decimal` of its length, `:`, its bytes;
* a list is `l`, its items, `e`, and a dictionary `d`, its keys and values, `e`.

The first byte decides how the reader goes on, so the lemmas at the end say which of
the reader's tests each first byte passes.
-/

namespace Metainfo
namespace Bencode

open Bytes

/-! ## The shape the reader builds -/

/-- `k` may follow `prev` as the next key of a dictionary: it sorts strictly after it. -/
def keyFollows : Option ByteArray → ByteArray → Bool
  | none, _ => true
  | some p, k => Bytes.compare p k == .lt

/-- A value of the shape the reader builds: integers in the signed 64-bit range,
byte strings and keys shorter than `2^64` bytes, keys of every dictionary in strictly
ascending order. -/
def Value.wellFormed : Value → Bool
  | .bytes b => decide (b.size < 2 ^ 64)
  | .int n => Value.inRange n
  | .list xs => itemsWellFormed xs
  | .dict es => entriesWellFormed none es
where
  /-- every item is well formed -/
  itemsWellFormed : List Value → Bool
    | [] => true
    | v :: vs => v.wellFormed && itemsWellFormed vs
  /-- the keys ascend from after `prev` on, and every key and value is well formed -/
  entriesWellFormed : Option ByteArray → List (ByteArray × Value) → Bool
    | _, [] => true
    | prev, (k, v) :: es =>
      keyFollows prev k && decide (k.size < 2 ^ 64) && v.wellFormed &&
        entriesWellFormed (some k) es

namespace Value

@[simp] theorem wellFormed_bytes (b : ByteArray) :
    (Value.bytes b).wellFormed ↔ b.size < 2 ^ 64 := by
  simp [wellFormed]

@[simp] theorem wellFormed_int (n : Int) : (Value.int n).wellFormed ↔ inRange n := by
  simp [wellFormed]

theorem itemsWellFormed_iff (xs : List Value) :
    wellFormed.itemsWellFormed xs ↔ ∀ x ∈ xs, x.wellFormed := by
  induction xs with
  | nil => simp [wellFormed.itemsWellFormed]
  | cons x xs ih => simp [wellFormed.itemsWellFormed, ih]

@[simp] theorem wellFormed_list (xs : List Value) :
    (Value.list xs).wellFormed ↔ ∀ x ∈ xs, x.wellFormed := by
  rw [wellFormed, itemsWellFormed_iff]

@[simp] theorem wellFormed_dict (es : List (ByteArray × Value)) :
    (Value.dict es).wellFormed = wellFormed.entriesWellFormed none es := by
  rw [wellFormed]

@[simp] theorem entriesWellFormed_nil (prev : Option ByteArray) :
    wellFormed.entriesWellFormed prev [] := by
  simp [wellFormed.entriesWellFormed]

@[simp] theorem entriesWellFormed_cons (prev : Option ByteArray) (k : ByteArray) (v : Value)
    (es : List (ByteArray × Value)) :
    wellFormed.entriesWellFormed prev ((k, v) :: es) ↔
      keyFollows prev k ∧ k.size < 2 ^ 64 ∧ v.wellFormed ∧
        wellFormed.entriesWellFormed (some k) es := by
  simp [wellFormed.entriesWellFormed, Bool.and_assoc]

theorem wellFormed_of_mem_entries {prev : Option ByteArray} {es : List (ByteArray × Value)}
    (h : wellFormed.entriesWellFormed prev es) {e : ByteArray × Value} (he : e ∈ es) :
    e.2.wellFormed := by
  induction es generalizing prev with
  | nil => cases he
  | cons e' es ih =>
    obtain ⟨k, v⟩ := e'
    rw [entriesWellFormed_cons] at h
    rcases List.mem_cons.mp he with rfl | he
    · exact h.2.2.1
    · exact ih h.2.2.2 he

/-! ## Depth -/

@[simp] theorem depth_bytes (b : ByteArray) : (Value.bytes b).depth = 0 := by
  simp [depth]

@[simp] theorem depth_int (n : Int) : (Value.int n).depth = 0 := by
  simp [depth]

theorem itemsDepth_le_iff (xs : List Value) (m : Nat) :
    depth.itemsDepth xs ≤ m ↔ ∀ x ∈ xs, x.depth + 1 ≤ m := by
  induction xs with
  | nil => simp [depth.itemsDepth]
  | cons x xs ih => rw [depth.itemsDepth, Nat.max_le, ih, List.forall_mem_cons]

theorem entriesDepth_le_iff (es : List (ByteArray × Value)) (m : Nat) :
    depth.entriesDepth es ≤ m ↔ ∀ e ∈ es, e.2.depth + 1 ≤ m := by
  induction es with
  | nil => simp [depth.entriesDepth]
  | cons e es ih =>
    obtain ⟨k, v⟩ := e
    rw [depth.entriesDepth, Nat.max_le, ih, List.forall_mem_cons]

/-- A list at depth `d` fits under `m` exactly when its items, one deeper, do. -/
theorem add_depth_list_le (xs : List Value) (d m : Nat) :
    d + (Value.list xs).depth ≤ m ↔ d ≤ m ∧ ∀ x ∈ xs, d + 1 + x.depth ≤ m := by
  have h := itemsDepth_le_iff xs (m - d)
  rw [depth]
  constructor
  · intro hle
    refine ⟨by omega, fun x hx => ?_⟩
    have := h.mp (by omega) x hx
    omega
  · rintro ⟨hd, hxs⟩
    have := h.mpr (fun x hx => by have := hxs x hx; omega)
    omega

/-- A dictionary at depth `d` fits under `m` exactly when its values, one deeper, do. -/
theorem add_depth_dict_le (es : List (ByteArray × Value)) (d m : Nat) :
    d + (Value.dict es).depth ≤ m ↔ d ≤ m ∧ ∀ e ∈ es, d + 1 + e.2.depth ≤ m := by
  have h := entriesDepth_le_iff es (m - d)
  rw [depth]
  constructor
  · intro hle
    refine ⟨by omega, fun e he => ?_⟩
    have := h.mp (by omega) e he
    omega
  · rintro ⟨hd, hes⟩
    have := h.mpr (fun e he => by have := hes e he; omega)
    omega

/-- A list at depth `d ≤ m` that does not fit under `m` has an item that does not. -/
theorem exists_deep_item {xs : List Value} {d m : Nat} (hd : d ≤ m)
    (h : m < d + (Value.list xs).depth) : ∃ x ∈ xs, m < d + 1 + x.depth :=
  Classical.byContradiction fun hall => by
    have hfit : d + (Value.list xs).depth ≤ m :=
      (add_depth_list_le xs d m).mpr ⟨hd, fun x hx => Nat.le_of_not_lt fun hx' => hall ⟨x, hx, hx'⟩⟩
    omega

/-- A dictionary at depth `d ≤ m` that does not fit under `m` has a value that does not. -/
theorem exists_deep_entry {es : List (ByteArray × Value)} {d m : Nat} (hd : d ≤ m)
    (h : m < d + (Value.dict es).depth) : ∃ e ∈ es, m < d + 1 + e.2.depth :=
  Classical.byContradiction fun hall => by
    have hfit : d + (Value.dict es).depth ≤ m :=
      (add_depth_dict_le es d m).mpr ⟨hd, fun e he => Nat.le_of_not_lt fun he' => hall ⟨e, he, he'⟩⟩
    omega

end Value

/-! ## The bytes of the encoding -/

/-- The decimal spelling of an integer: a `-` before the digits of its magnitude when
it is negative. -/
def intDigits : Int → List UInt8
  | .ofNat m => decimal m
  | .negSucc m => ascii '-' :: decimal (m + 1)

@[simp] theorem ascii_i : ascii 'i' = 105 := rfl
@[simp] theorem ascii_e : ascii 'e' = 101 := rfl
@[simp] theorem ascii_l : ascii 'l' = 108 := rfl
@[simp] theorem ascii_d : ascii 'd' = 100 := rfl
@[simp] theorem ascii_colon : ascii ':' = 58 := rfl
@[simp] theorem ascii_minus : ascii '-' = 45 := rfl
@[simp] theorem ascii_zero : ascii '0' = 48 := rfl

theorem toList_lengthPrefix (n : Nat) : (lengthPrefix n).toList = decimal n ++ [ascii ':'] := by
  rw [lengthPrefix, String.toUTF8_eq_toByteArray, String.toByteArray_append,
    ← String.toUTF8_eq_toByteArray, ← String.toUTF8_eq_toByteArray, toList_append,
    toUTF8_toString, toList_eq_data ":".toUTF8]
  rfl

theorem toUTF8_toString_int (n : Int) : (toString n).toUTF8.toList = intDigits n := by
  cases n with
  | ofNat m => exact toUTF8_toString m
  | negSucc m =>
    change (String.toUTF8 ("-" ++ Nat.repr (m + 1))).toList = _
    rw [String.toUTF8_eq_toByteArray, String.toByteArray_append,
      ← String.toUTF8_eq_toByteArray, ← String.toUTF8_eq_toByteArray, toList_append]
    rw [← Nat.toString_eq_repr, toUTF8_toString, toList_eq_data "-".toUTF8]
    rfl

theorem toList_intBytes (n : Int) :
    (intBytes n).toList = ascii 'i' :: intDigits n ++ [ascii 'e'] := by
  rw [intBytes, String.toUTF8_eq_toByteArray, String.toByteArray_append,
    String.toByteArray_append, ← String.toUTF8_eq_toByteArray, ← String.toUTF8_eq_toByteArray,
    ← String.toUTF8_eq_toByteArray, toList_append, toList_append, toUTF8_toString_int,
    toList_eq_data "i".toUTF8, toList_eq_data "e".toUTF8]
  rfl

theorem toList_encode_bytes (b : ByteArray) :
    (Value.bytes b).encode.toList = decimal b.size ++ ascii ':' :: b.toList := by
  simp [toList_lengthPrefix]

theorem toList_encode_int (n : Int) :
    (Value.int n).encode.toList = ascii 'i' :: intDigits n ++ [ascii 'e'] := by
  rw [encode_int, toList_intBytes]

theorem toList_encode_list (xs : List Value) :
    (Value.list xs).encode.toList = ascii 'l' :: (encodeItems xs).toList ++ [ascii 'e'] := by
  simp [Value.encode]

theorem toList_encode_dict (es : List (ByteArray × Value)) :
    (Value.dict es).encode.toList = ascii 'd' :: (encodeEntries es).toList ++ [ascii 'e'] := by
  simp [Value.encode]

@[simp] theorem toList_encodeItems_nil : (encodeItems []).toList = [] := by
  simp [encodeItems]

@[simp] theorem toList_encodeItems_cons (v : Value) (vs : List Value) :
    (encodeItems (v :: vs)).toList = v.encode.toList ++ (encodeItems vs).toList := by
  simp [encodeItems]

@[simp] theorem toList_encodeEntries_nil : (encodeEntries []).toList = [] := by
  simp [encodeEntries]

/-- An entry is its key, written as a byte string, and then its value. -/
theorem toList_encodeEntries_cons (k : ByteArray) (v : Value) (es : List (ByteArray × Value)) :
    (encodeEntries ((k, v) :: es)).toList =
      (Value.bytes k).encode.toList ++ v.encode.toList ++ (encodeEntries es).toList := by
  simp [encodeEntries]

theorem size_encode_list (xs : List Value) :
    (Value.list xs).encode.size = (encodeItems xs).size + 2 := by
  rw [← length_toList, toList_encode_list]
  simp

theorem size_encode_dict (es : List (ByteArray × Value)) :
    (Value.dict es).encode.size = (encodeEntries es).size + 2 := by
  rw [← length_toList, toList_encode_dict]
  simp

theorem size_encodeItems_cons (v : Value) (vs : List Value) :
    (encodeItems (v :: vs)).size = v.encode.size + (encodeItems vs).size := by
  rw [← length_toList, toList_encodeItems_cons]
  simp

theorem size_encodeEntries_cons (k : ByteArray) (v : Value) (es : List (ByteArray × Value)) :
    (encodeEntries ((k, v) :: es)).size =
      (Value.bytes k).encode.size + v.encode.size + (encodeEntries es).size := by
  rw [← length_toList, toList_encodeEntries_cons]
  simp only [List.length_append, length_toList]

/-! ## The first byte

The reader decides what comes next from one byte. A byte string starts with a digit,
and no encoding starts with the `e` that closes a container. -/

theorem encode_bytes_head (b : ByteArray) :
    ∃ c t, (Value.bytes b).encode.toList = c :: t ∧ isDigit c := by
  obtain ⟨c, t, hct⟩ := List.exists_cons_of_ne_nil (decimal_ne_nil b.size)
  refine ⟨c, t ++ ascii ':' :: b.toList, ?_, ?_⟩
  · rw [toList_encode_bytes, hct]
    rfl
  · exact isDigit_of_mem_decimal (by rw [hct]; exact List.mem_cons_self)

theorem encode_head_ne_e (v : Value) : ∃ c t, v.encode.toList = c :: t ∧ c ≠ ascii 'e' := by
  cases v with
  | bytes b =>
    obtain ⟨c, t, hct, hc⟩ := encode_bytes_head b
    refine ⟨c, t, hct, ?_⟩
    rintro rfl
    exact absurd hc (by decide)
  | int n => exact ⟨_, _, toList_encode_int n, by decide⟩
  | list xs => exact ⟨_, _, toList_encode_list xs, by decide⟩
  | dict es => exact ⟨_, _, toList_encode_dict es, by decide⟩

theorem size_encode_pos (v : Value) : 0 < v.encode.size := by
  obtain ⟨c, t, hct, -⟩ := encode_head_ne_e v
  rw [← length_toList, hct]
  simp

end Bencode
end Metainfo
