import Metainfo.Data.Bytes

/-!
# Byte strings as lists

The bencode reader walks a byte string by position. The statements about it speak of
what stands in the input from a position on, as a list of bytes (`Bytes.after`). This
module ties the two views together and gives the facts about the reader's primitives
that the codec proofs rest on:

* byte strings are `==` exactly when they are equal;
* `ByteArray.toList` is the list of the bytes, and appending, cutting out a range and
  indexing agree with the list operations;
* `Bytes.findFrom` finds the first occurrence of a byte at or after a position;
* `Bytes.compare` is the lexicographic order of `List.compareLex`, so a strict total
  order: it says `eq` exactly on equal strings, it turns round when its arguments do,
  and it is transitive;
* `Bytes.decimal n` are the decimal digits of `n`, the bytes that `toString n`
  spells; `Bytes.digitsValue` reads them back as `n`, and a string of digits without a
  leading zero is the decimal spelling of its value.
-/

namespace Metainfo

/-- Byte strings are `==` exactly when they are equal, so places, lists of names, can be
compared with `==` and reasoned about by equality. -/
instance bytesLawfulBEq : LawfulBEq ByteArray where
  eq_of_beq {a b} h := by
    change (a.data == b.data) = true at h
    exact ByteArray.ext (beq_iff_eq.mp h)
  rfl {a} := by
    change (a.data == a.data) = true
    exact beq_self_eq_true a.data

namespace Bytes

/-! ## Bytes as a list -/

theorem toList_loop (bs : ByteArray) (i : Nat) (r : List UInt8) :
    ByteArray.toList.loop bs i r = r.reverse ++ bs.data.toList.drop i := by
  fun_induction ByteArray.toList.loop bs i r with
  | case1 i r hi ih =>
    -- one byte moves from the array to the accumulator
    have hlen : i < bs.data.toList.length := by rw [Array.length_toList]; exact hi
    have hget : bs.get! i = bs.data.toList[i] := by
      rw [Array.getElem_toList]
      exact getElem!_pos bs.data i hi
    rw [ih, List.drop_eq_getElem_cons hlen, hget]
    simp
  | case2 i r hi =>
    have hnil : bs.data.toList.drop i = [] := by
      apply List.drop_of_length_le
      rw [Array.length_toList]
      exact Nat.le_of_not_lt hi
    simp [hnil]

theorem toList_eq_data (b : ByteArray) : b.toList = b.data.toList := by
  rw [ByteArray.toList, toList_loop]
  simp

@[simp] theorem length_toList (b : ByteArray) : b.toList.length = b.size := by
  rw [toList_eq_data, Array.length_toList]
  rfl

@[simp] theorem toList_append (a b : ByteArray) : (a ++ b).toList = a.toList ++ b.toList := by
  simp only [toList_eq_data, ByteArray.toList_data_append]

@[simp] theorem toList_mk (a : Array UInt8) : (ByteArray.mk a).toList = a.toList := by
  rw [toList_eq_data]

@[simp] theorem toList_empty : ByteArray.empty.toList = [] := ByteArray.toList_empty

theorem toList_extract (b : ByteArray) (start stop : Nat) :
    (b.extract start stop).toList = (b.toList.drop start).take (stop - start) := by
  simp only [toList_eq_data, ByteArray.data_extract, Array.toList_extract, List.extract_eq_take_drop]

theorem toList_inj {a b : ByteArray} : a.toList = b.toList ↔ a = b := by
  constructor
  · intro h
    rw [toList_eq_data, toList_eq_data] at h
    cases a
    cases b
    simp only [ByteArray.mk.injEq]
    exact Array.toList_inj.mp h
  · intro h
    rw [h]

theorem getElem_toList (b : ByteArray) (i : Nat) (hi : i < b.size) (h : i < b.toList.length) :
    b.toList[i] = b[i] := by
  simp only [toList_eq_data, Array.getElem_toList]
  rfl

theorem getElem?_eq (b : ByteArray) (i : Nat) : b[i]? = b.toList[i]? := by
  rw [toList_eq_data, Array.getElem?_toList]
  by_cases hi : i < b.size
  · rw [getElem?_pos b i hi, getElem?_pos b.data i hi]
    rfl
  · rw [getElem?_neg b i hi, getElem?_neg b.data i hi]

/-- The text of a list of ASCII characters is spelt by one byte per character. -/
theorem toUTF8_ofList_ascii (l : List Char) (h : ∀ c ∈ l, c.toNat < 128) :
    (String.ofList l).toUTF8.toList = l.map (fun c => c.toNat.toUInt8) := by
  rw [toList_eq_data, String.toUTF8_eq_toByteArray, String.toByteArray_ofList, List.utf8Encode,
    List.toList_data_toByteArray]
  induction l with
  | nil => rfl
  | cons c l ih =>
    have hc : c.utf8Size = 1 := by
      have hlt := h c List.mem_cons_self
      change c.val.toNat < 128 at hlt
      simp only [Char.utf8Size]
      rw [if_pos]
      exact UInt32.le_iff_toNat_le.mpr (show c.val.toNat ≤ 127 by omega)
    simp only [List.flatMap_cons, String.utf8EncodeChar_eq_singleton hc, List.map_cons,
      ih (fun d hd => h d (List.mem_cons_of_mem _ hd))]
    rfl

/-! ## The input from a position on -/

/-- The bytes of `data` from position `pos` on. -/
def after (data : ByteArray) (pos : Nat) : List UInt8 :=
  data.toList.drop pos

@[simp] theorem length_after (data : ByteArray) (pos : Nat) :
    (after data pos).length = data.size - pos := by
  simp [after]

theorem after_zero (data : ByteArray) : after data 0 = data.toList := by
  simp [after]

theorem getElem?_eq_head?_after (data : ByteArray) (pos : Nat) :
    data[pos]? = (after data pos).head? := by
  rw [after, List.head?_drop, getElem?_eq]

theorem after_add (data : ByteArray) (pos n : Nat) :
    after data (pos + n) = (after data pos).drop n := by
  simp only [after, List.drop_drop]

/-- Past a prefix of what stands at `pos` stands the rest. -/
theorem after_append {data : ByteArray} {pos : Nat} {l r : List UInt8}
    (h : after data pos = l ++ r) : after data (pos + l.length) = r := by
  rw [after_add, h, List.drop_left]

theorem after_cons {data : ByteArray} {pos : Nat} {b : UInt8} {r : List UInt8}
    (h : after data pos = b :: r) : after data (pos + 1) = r :=
  after_append (l := [b]) h

theorem getElem?_of_after {data : ByteArray} {pos : Nat} {b : UInt8} {r : List UInt8}
    (h : after data pos = b :: r) : data[pos]? = some b := by
  rw [getElem?_eq_head?_after, h]
  rfl

theorem after_of_getElem? {data : ByteArray} {pos : Nat} {b : UInt8}
    (h : data[pos]? = some b) : after data pos = b :: after data (pos + 1) := by
  obtain ⟨hlt, hget⟩ := getElem?_eq_some_iff.mp h
  rw [after, List.drop_eq_getElem_cons (by simpa using hlt), getElem_toList data pos hlt, hget]
  rfl

theorem after_eq_nil {data : ByteArray} {pos : Nat} (h : data[pos]? = none) :
    after data pos = [] := by
  rw [getElem?_eq_head?_after, List.head?_eq_none_iff] at h
  exact h

/-- A non-empty list standing at `pos` ends inside the input. -/
theorem add_length_le_size {data : ByteArray} {pos : Nat} {l r : List UInt8}
    (h : after data pos = l ++ r) (hl : l ≠ []) : pos + l.length ≤ data.size := by
  have hlen := congrArg List.length h
  rw [length_after, List.length_append] at hlen
  have hpos : 0 < l.length := List.length_pos_iff.mpr hl
  omega

theorem slice_eq_take (data : ByteArray) (start stop : Nat) :
    slice data start stop = (after data start).take (stop - start) := by
  rw [slice, toList_extract, after]

/-- The bytes of `s`, found at `start`, are cut out again by `extract`. -/
theorem extract_of_after {data s : ByteArray} {start : Nat} {r : List UInt8}
    (h : after data start = s.toList ++ r) : data.extract start (start + s.size) = s := by
  rw [← toList_inj, toList_extract, ← after, h, Nat.add_sub_cancel_left, ← length_toList,
    List.take_left]

/-! ## The next occurrence of a byte -/

theorem findFrom_of_after {data : ByteArray} {b : UInt8} {i : Nat} {pre t : List UInt8}
    (h : after data i = pre ++ b :: t) (hb : b ∉ pre) :
    findFrom data b i = some (i + pre.length) := by
  induction pre generalizing i with
  | nil =>
    have hi : data[i]? = some b := getElem?_of_after h
    rw [findFrom]
    obtain ⟨hlt, hget⟩ := getElem?_eq_some_iff.mp hi
    simp [hlt, hget]
  | cons c pre ih =>
    have hi : data[i]? = some c := getElem?_of_after h
    obtain ⟨hlt, hget⟩ := getElem?_eq_some_iff.mp hi
    have hcb : c ≠ b := fun hc => hb (hc ▸ List.mem_cons_self)
    rw [findFrom, dif_pos hlt, if_neg (by rw [hget]; exact hcb),
      ih (after_cons h) (fun hm => hb (List.mem_cons_of_mem _ hm))]
    simp only [List.length_cons, Option.some.injEq]
    omega

theorem after_of_findFrom {data : ByteArray} {b : UInt8} {i j : Nat}
    (h : findFrom data b i = some j) :
    ∃ pre t, after data i = pre ++ b :: t ∧ b ∉ pre ∧ j = i + pre.length := by
  fun_induction findFrom data b i with
  | case1 i hi hb =>
    simp only [Option.some.injEq] at h
    subst h
    refine ⟨[], after data (i + 1), ?_, List.not_mem_nil, by simp⟩
    rw [after, List.drop_eq_getElem_cons (by simpa using hi), ← after, ← hb, getElem_toList data i hi]
    rfl
  | case2 i hi hb ih =>
    obtain ⟨pre, t, hafter, hnot, rfl⟩ := ih h
    refine ⟨data[i] :: pre, t, ?_, ?_, by simp; omega⟩
    · rw [after, List.drop_eq_getElem_cons (by simpa using hi), ← after, hafter, getElem_toList data i hi]
      rfl
    · simp only [List.mem_cons, not_or]
      exact ⟨Ne.symm hb, hnot⟩
  | case3 i hi => cases h

theorem findFrom_eq_none {data : ByteArray} {b : UInt8} {i : Nat}
    (h : findFrom data b i = none) : b ∉ after data i := by
  fun_induction findFrom data b i with
  | case1 => cases h
  | case2 i hi hb ih =>
    rw [after, List.drop_eq_getElem_cons (by simpa using hi), ← after, getElem_toList data i hi]
    simp only [List.mem_cons, not_or]
    exact ⟨Ne.symm hb, ih h⟩
  | case3 i hi =>
    rw [after, List.drop_of_length_le (by simpa using Nat.le_of_not_lt hi)]
    exact List.not_mem_nil


/-! ## The order of byte strings -/

theorem compareList_eq_compareLex : compareList = List.compareLex Ord.compare := by
  funext a b
  induction a generalizing b with
  | nil => cases b <;> rfl
  | cons x xs ih =>
    cases b with
    | nil => rfl
    | cons y ys =>
      simp only [compareList, List.compareLex]
      cases Ord.compare x y <;> simp [ih]

theorem compare_eq_compareLex (a b : ByteArray) :
    compare a b = List.compareLex Ord.compare a.toList b.toList := by
  rw [compare, compareList_eq_compareLex]

theorem compare_eq_eq {a b : ByteArray} : compare a b = .eq ↔ a = b := by
  rw [compare_eq_compareLex, Std.LawfulEqCmp.compare_eq_iff_eq, toList_inj]

theorem compare_eq_gt {a b : ByteArray} : compare a b = .gt ↔ compare b a = .lt := by
  rw [compare_eq_compareLex, compare_eq_compareLex]
  exact Std.OrientedCmp.gt_iff_lt

theorem compare_self (a : ByteArray) : compare a a = .eq :=
  compare_eq_eq.mpr rfl

theorem compare_lt_trans {a b c : ByteArray} (hab : compare a b = .lt)
    (hbc : compare b c = .lt) : compare a c = .lt := by
  rw [compare_eq_compareLex] at *
  exact Std.TransCmp.lt_trans hab hbc

theorem ne_of_compare_lt {a b : ByteArray} (h : compare a b = .lt) : a ≠ b := by
  rintro rfl
  rw [compare_self] at h
  cases h

/-! ## Decimal digits -/

/-- The decimal digits of `n`, most significant first, as bytes. -/
def decimal (n : Nat) : List UInt8 :=
  (Nat.toDigits 10 n).map fun c => c.toNat.toUInt8

theorem toNat_lt_of_mem_toDigits {n : Nat} {c : Char} (hc : c ∈ Nat.toDigits 10 n) :
    48 ≤ c.toNat ∧ c.toNat ≤ 57 := by
  have hdig := Nat.isDigit_of_mem_toDigits (by decide) (by decide) hc
  simp only [Char.isDigit, Bool.and_eq_true, decide_eq_true_eq] at hdig
  exact ⟨UInt32.le_iff_toNat_le.mp hdig.1, UInt32.le_iff_toNat_le.mp hdig.2⟩

theorem toUTF8_toString (n : Nat) : (toString n).toUTF8.toList = decimal n := by
  rw [Nat.toString_eq_ofList_toDigits, toUTF8_ofList_ascii]
  · rfl
  · intro c hc
    have := toNat_lt_of_mem_toDigits hc
    omega

theorem decimal_ne_nil (n : Nat) : decimal n ≠ [] := by
  simp [decimal]

theorem isDigit_iff {b : UInt8} : isDigit b ↔ 48 ≤ b.toNat ∧ b.toNat ≤ 57 := by
  simp [isDigit, UInt8.le_iff_toNat_le]

theorem isDigit_of_mem_decimal {n : Nat} {b : UInt8} (hb : b ∈ decimal n) : isDigit b := by
  obtain ⟨c, hc, rfl⟩ := List.mem_map.mp hb
  have hrange := toNat_lt_of_mem_toDigits hc
  rw [isDigit_iff, Nat.toUInt8_eq, UInt8.toNat_ofNat']
  omega

theorem digitsValue_append (ds : List UInt8) (d : UInt8) :
    digitsValue (ds ++ [d]) = digitsValue ds * 10 + (d.toNat - 48) := by
  simp [digitsValue]

theorem digitsValue_map_toDigits (l : List Char) (init : Nat) (hl : ∀ c ∈ l, c.toNat < 256) :
    (l.map fun c => c.toNat.toUInt8).foldl (fun acc d => acc * 10 + (d.toNat - 48)) init =
      Nat.ofDigitChars 10 l init := by
  induction l generalizing init with
  | nil => rfl
  | cons c l ih =>
    have hc : (c.toNat.toUInt8).toNat = c.toNat := by
      simp only [Nat.toUInt8_eq, UInt8.toNat_ofNat']
      exact Nat.mod_eq_of_lt (hl c List.mem_cons_self)
    rw [List.map_cons, List.foldl_cons, ih _ (fun d hd => hl d (List.mem_cons_of_mem _ hd)),
      Nat.ofDigitChars_cons, hc, Nat.mul_comm]
    rfl

@[simp] theorem digitsValue_decimal (n : Nat) : digitsValue (decimal n) = n := by
  rw [decimal, digitsValue, digitsValue_map_toDigits, Nat.ofDigitChars_ten_toDigits]
  intro c hc
  have := toNat_lt_of_mem_toDigits hc
  omega

theorem digitChar_byte (d : Nat) (h : d < 10) : (Nat.digitChar d).toNat.toUInt8 = (d + 48).toUInt8 := by
  revert d
  decide

theorem decimal_of_lt {n : Nat} (h : n < 10) : decimal n = [(n + 48).toUInt8] := by
  rw [decimal, Nat.toDigits_of_lt_base h, List.map_singleton, digitChar_byte n h]

theorem decimal_of_ge {n : Nat} (h : 10 ≤ n) :
    decimal n = decimal (n / 10) ++ [(n % 10 + 48).toUInt8] := by
  rw [decimal, Nat.toDigits_of_base_le (by decide) h, List.map_append, List.map_singleton,
    digitChar_byte _ (Nat.mod_lt _ (by decide))]
  rfl

/-- Only zero is spelt with a leading `0`. -/
theorem eq_zero_of_head?_decimal {n : Nat} (h : (decimal n).head? = some 48) : n = 0 := by
  induction n using Nat.strongRecOn with
  | ind n ih =>
    rcases Nat.lt_or_ge n 10 with hlt | hge
    · rw [decimal_of_lt hlt] at h
      simp only [List.head?_cons, Option.some.injEq] at h
      have := congrArg UInt8.toNat h
      simp only [Nat.toUInt8_eq, UInt8.toNat_ofNat', UInt8.toNat_ofNat, Nat.reducePow,
        Nat.reduceMod] at this
      omega
    · obtain ⟨d, ds, hds⟩ := List.exists_cons_of_ne_nil (decimal_ne_nil (n / 10))
      rw [decimal_of_ge hge, hds, List.cons_append, List.head?_cons] at h
      have := ih (n / 10) (by omega) (by rw [hds, List.head?_cons, h])
      omega

theorem toNat_sub_lt_of_isDigit {d : UInt8} (h : isDigit d) : d.toNat - 48 < 10 := by
  rw [isDigit_iff] at h
  omega

/-- A non-empty string of digits without a leading zero is the decimal spelling of
its value. -/
theorem decimal_digitsValue (ds : List UInt8) (hne : ds ≠ []) (hdig : ∀ b ∈ ds, isDigit b)
    (hlead : ds.head? = some 48 → ds.length = 1) : decimal (digitsValue ds) = ds := by
  -- induction on the length, taking off the last digit
  induction hlen : ds.length generalizing ds with
  | zero => exact absurd (List.eq_nil_of_length_eq_zero hlen) hne
  | succ k ih =>
    obtain ⟨init, d, rfl⟩ := (List.eq_nil_or_concat ds).resolve_left hne
    rw [List.concat_eq_append] at hdig hlead hlen ⊢
    have hd : isDigit d := hdig d (by simp)
    have hdlt := toNat_sub_lt_of_isDigit hd
    have hdbyte : (d.toNat - 48 + 48).toUInt8 = d := by
      rw [isDigit_iff] at hd
      rw [Nat.sub_add_cancel (by omega)]
      simp
    rw [digitsValue_append]
    rcases List.eq_nil_or_concat init with rfl | ⟨pre, last, rfl⟩
    · rw [digitsValue, List.foldl_nil, Nat.zero_mul, Nat.zero_add, decimal_of_lt hdlt, hdbyte]
      rfl
    · -- the leading digits spell a positive number, one decimal place up
      rw [List.concat_eq_append] at hdig hlead hlen ⊢
      have hne' : pre ++ [last] ≠ [] := by simp
      have hlead' : (pre ++ [last]).head? ≠ some 48 := by
        intro h0
        have hlen1 := hlead (by simpa using h0)
        simp at hlen1
      have ih' := ih (pre ++ [last]) hne' (fun b hb => hdig b (List.mem_append_left _ hb))
        (fun h0 => absurd h0 hlead') (by simp at hlen ⊢; omega)
      have hpos : digitsValue (pre ++ [last]) ≠ 0 := by
        intro h0
        rw [h0] at ih'
        rw [← ih'] at hlead'
        exact hlead' rfl
      have hge : 10 ≤ digitsValue (pre ++ [last]) * 10 + (d.toNat - 48) := by omega
      rw [decimal_of_ge hge]
      have hdiv : (digitsValue (pre ++ [last]) * 10 + (d.toNat - 48)) / 10 =
          digitsValue (pre ++ [last]) := by omega
      have hmod : (digitsValue (pre ++ [last]) * 10 + (d.toNat - 48)) % 10 = d.toNat - 48 := by
        omega
      rw [hdiv, hmod, ih', hdbyte]

end Bytes
end Metainfo
