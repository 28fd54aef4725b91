import Metainfo.Proofs.Bencode.WellFormed

/-!
# Reading integers and byte strings

The two scalar readers accept exactly the canonical spelling that the encoder writes.

* `readInteger_of_after`, `readInteger_sound`: at an `i`, the reader returns `n`
  precisely when `i`, `intDigits n`, `e` stands there and `n` is a 64-bit integer;
* `readBytes_of_after`, `readBytes_sound`: the reader returns `s` precisely when the
  encoding of the byte string `s` stands there and its length is a 64-bit number.

Both directions rest on `Bytes.decimal_digitsValue`: a string of digits that passes
the reader's checks is the decimal spelling of its value.
-/

namespace Metainfo
namespace Bencode

open Bytes

/-! ## What the digits of a number look like to the reader -/

theorem not_mem_decimal {b : UInt8} (hb : ¬ isDigit b) (n : Nat) : b ∉ decimal n :=
  fun h => hb (isDigit_of_mem_decimal h)

theorem head?_decimal_ne {b : UInt8} (hb : ¬ isDigit b) (n : Nat) :
    (decimal n).head? ≠ some b := by
  intro h
  exact not_mem_decimal hb n (List.mem_of_head? h)

/-- The reader's leading-zero test never fires on a decimal spelling. -/
theorem length_le_one_of_head?_decimal {n : Nat} (h : (decimal n).head? = some 48) :
    (decimal n).length ≤ 1 := by
  rw [eq_zero_of_head?_decimal h, decimal_of_lt (by decide)]
  simp

theorem leadingZeroTest_decimal (n : Nat) :
    (decide ((decimal n).head? = some (ascii '0')) && decide ((decimal n).length > 1)) = false := by
  cases h : (decimal n).head? == some 48
  · simp_all
  · have := length_le_one_of_head?_decimal (beq_iff_eq.mp h)
    simp
    omega

/-- Digits that pass the reader's tests (some digits, only digits, no leading zero)
are the decimal spelling of their value. -/
theorem decimal_of_checks {ds : List UInt8} (hempty : ¬ ds.isEmpty = true)
    (hdig : ¬ (!ds.all isDigit) = true)
    (hlead : ¬ (decide (ds.head? = some (ascii '0')) && decide (ds.length > 1)) = true) :
    decimal (digitsValue ds) = ds := by
  apply decimal_digitsValue
  · simpa using hempty
  · simpa using hdig
  · intro h0
    have hpos : ds.length ≠ 0 := by simpa using hempty
    rcases Nat.lt_or_ge 1 ds.length with hgt | hle
    · exact absurd (by simp [h0, hgt]) hlead
    · omega

theorem intDigits_natCast (k : Nat) : intDigits k = decimal k := rfl

theorem isEmpty_decimal (n : Nat) : (decimal n).isEmpty = false :=
  List.isEmpty_eq_false_iff.mpr (decimal_ne_nil n)

theorem all_isDigit_decimal (n : Nat) : (decimal n).all isDigit = true :=
  List.all_eq_true.mpr fun _ hb => isDigit_of_mem_decimal hb

theorem e_not_mem_intDigits (n : Int) : ascii 'e' ∉ intDigits n := by
  cases n with
  | ofNat m => exact not_mem_decimal (by decide) m
  | negSucc m =>
    simp only [intDigits, List.mem_cons, not_or]
    exact ⟨by decide, not_mem_decimal (by decide) (m + 1)⟩

theorem size_intBytes (n : Int) : (intBytes n).size = (intDigits n).length + 2 := by
  rw [← length_toList, toList_intBytes]
  simp

/-! ## Integers -/

/-- **Reading an integer.** At `i`, the decimal digits of a 64-bit integer and `e`,
the reader returns the integer and the position after the `e`. -/
theorem readInteger_of_after {data : ByteArray} {pos : Nat} {n : Int} {r : List UInt8}
    (hn : Value.inRange n) (h : after data pos = (intBytes n).toList ++ r) :
    readInteger data pos = .ok (n, pos + (intBytes n).size) := by
  have hafter : after data (pos + 1) = intDigits n ++ ascii 'e' :: r := by
    apply after_cons (b := ascii 'i')
    rw [h, toList_intBytes]
    simp
  have hfind := findFrom_of_after hafter (e_not_mem_intDigits n)
  have hslice : slice data (pos + 1) (pos + 1 + (intDigits n).length) = intDigits n := by
    rw [slice_eq_take, hafter, Nat.add_sub_cancel_left, List.take_left]
  have hend : pos + 1 + (intDigits n).length + 1 = pos + (intBytes n).size := by
    rw [size_intBytes]
    omega
  rw [← hend]
  -- the sign decides which digits are the body; every check then passes
  cases n with
  | ofNat m =>
    simp only [intDigits] at hfind hslice
    have hneg := head?_decimal_ne (b := ascii '-') (by decide) m
    have hzero : (decide (decimal m = [ascii '0']) && decide ((decimal m).length > 1)) = false := by
      cases h0 : decide (decimal m = [ascii '0'])
      · rfl
      · simp only [decide_eq_true_eq] at h0
        simp [h0]
    rw [readInteger, hfind]
    dsimp only
    rw [hslice]
    simp only [hneg, ↓reduceIte, List.isEmpty_iff, decimal_ne_nil, all_isDigit_decimal,
      Bool.not_true, Bool.false_eq_true, leadingZeroTest_decimal, hzero, digitsValue_decimal]
    rw [Int.ofNat_eq_natCast] at hn ⊢
    rw [if_pos hn]
    rfl
  | negSucc m =>
    simp only [intDigits] at hfind hslice
    have hnz : decimal (m + 1) ≠ [ascii '0'] := by
      intro h0
      have := digitsValue_decimal (m + 1)
      rw [h0] at this
      simp [digitsValue] at this
    rw [readInteger, hfind]
    dsimp only
    rw [hslice]
    simp only [List.head?_cons, ↓reduceIte, List.tail_cons, List.isEmpty_iff, decimal_ne_nil,
      all_isDigit_decimal, Bool.not_true, Bool.false_eq_true, leadingZeroTest_decimal, hnz,
      decide_false, Bool.false_and, digitsValue_decimal]
    have hval : -(((m + 1 : Nat) : Int)) = Int.negSucc m := by omega
    rw [hval, if_pos hn]
    rfl

/-- **What an integer reader accepts.** If the reader returns `n` for the integer at
an `i`, then `n` is a 64-bit integer and its canonical spelling stands there. -/
theorem readInteger_sound {data : ByteArray} {pos p : Nat} {n : Int}
    (hi : data[pos]? = some (ascii 'i')) (h : readInteger data pos = .ok (n, p)) :
    Value.inRange n ∧ after data pos = (intBytes n).toList ++ after data p ∧
      p = pos + (intBytes n).size := by
  rw [readInteger] at h
  split at h
  · cases h
  · rename_i stop hstop
    obtain ⟨pre, t, hafter, _, rfl⟩ := after_of_findFrom hstop
    have hslice : slice data (pos + 1) (pos + 1 + pre.length) = pre := by
      rw [slice_eq_take, hafter, Nat.add_sub_cancel_left, List.take_left]
    dsimp only at h
    rw [hslice] at h
    -- whatever the sign, the digits are the canonical spelling of `n`
    have hdigits : intDigits n = pre ∧ Value.inRange n ∧ p = pos + 1 + pre.length + 1 := by
      by_cases hneg : pre.head? = some (ascii '-')
      · obtain ⟨body, rfl⟩ : ∃ body, pre = ascii '-' :: body := by
          cases pre with
          | nil => cases hneg
          | cons b body =>
            simp only [List.head?_cons, Option.some.injEq] at hneg
            exact ⟨body, by rw [hneg]⟩
        simp only [List.head?_cons, ↓reduceIte, List.tail_cons] at h
        split at h
        · cases h
        split at h
        · cases h
        split at h
        · cases h
        split at h
        · cases h
        split at h
        · next hempty hdig hlead hzero hrange =>
          simp only [Except.ok.injEq, Prod.mk.injEq] at h
          obtain ⟨rfl, rfl⟩ := h
          have hcanon := decimal_of_checks hempty hdig hlead
          -- a `-` before the single digit `0` was refused, so the magnitude is positive
          obtain ⟨k, hk⟩ : ∃ k, digitsValue body = k + 1 := by
            refine Nat.exists_eq_add_one.mpr (Nat.pos_of_ne_zero fun h0 => hzero ?_)
            rw [h0, decimal_of_lt (by decide)] at hcanon
            simp [← hcanon]
          have hneg' : -((digitsValue body : Nat) : Int) = Int.negSucc k := by
            rw [hk]
            omega
          rw [hneg'] at hrange ⊢
          refine ⟨?_, hrange, rfl⟩
          rw [hk] at hcanon
          simp only [intDigits, hcanon]
        · cases h
      · simp only [hneg, ↓reduceIte] at h
        split at h
        · cases h
        split at h
        · cases h
        split at h
        · cases h
        split at h
        · cases h
        split at h
        · next hempty hdig hlead hzero hrange =>
          simp only [Except.ok.injEq, Prod.mk.injEq] at h
          obtain ⟨rfl, rfl⟩ := h
          exact ⟨by rw [intDigits_natCast, decimal_of_checks hempty hdig hlead], hrange, rfl⟩
        · cases h
    obtain ⟨hpre, hn, rfl⟩ := hdigits
    have hrest : after data (pos + 1 + pre.length + 1) = t :=
      after_cons (after_append hafter)
    refine ⟨hn, ?_, ?_⟩
    · rw [after_of_getElem? hi, hafter, toList_intBytes, hpre, hrest]
      simp
    · rw [size_intBytes, hpre]
      omega


/-! ## Byte strings -/

theorem size_encode_bytes (s : ByteArray) :
    (Value.bytes s).encode.size = (decimal s.size).length + 1 + s.size := by
  rw [← length_toList, toList_encode_bytes]
  simp
  omega

/-- **Reading a length.** At the decimal digits of a 64-bit number and `:`, with as
many bytes after the colon, the reader gives where those bytes start and end. -/
theorem readLength_of_after {data : ByteArray} {pos len : Nat} {r : List UInt8}
    (hlen : len < 2 ^ 64) (hroom : len ≤ r.length)
    (h : after data pos = decimal len ++ ascii ':' :: r) :
    readLength data pos =
      .ok (pos + (decimal len).length + 1, pos + (decimal len).length + 1 + len) := by
  have hfind := findFrom_of_after h (not_mem_decimal (by decide) len)
  have hslice : slice data pos (pos + (decimal len).length) = decimal len := by
    rw [slice_eq_take, h, Nat.add_sub_cancel_left, List.take_left]
  have hsize : pos + (decimal len).length + 1 + len ≤ data.size := by
    have hl := congrArg List.length h
    simp only [length_after, List.length_append, List.length_cons] at hl
    omega
  rw [readLength, hfind]
  dsimp only
  rw [hslice]
  simp only [isEmpty_decimal, all_isDigit_decimal, Bool.not_true, Bool.or_self,
    Bool.false_eq_true, ↓reduceIte, leadingZeroTest_decimal, digitsValue_decimal]
  rw [if_neg (show ¬ len ≥ 2 ^ 64 by omega),
    if_neg (show ¬ pos + (decimal len).length + 1 + len > data.size by omega)]

/-- **Reading a byte string.** The reader returns the byte string whose encoding stands
at `pos` and the position after it. -/
theorem readBytes_of_after {data s : ByteArray} {pos : Nat} {r : List UInt8}
    (hs : s.size < 2 ^ 64) (h : after data pos = (Value.bytes s).encode.toList ++ r) :
    readBytes data pos = .ok (s, pos + (Value.bytes s).encode.size) := by
  rw [toList_encode_bytes, List.append_assoc, List.cons_append] at h
  have hlen := readLength_of_after hs (by simp) h
  have hbytes : after data (pos + (decimal s.size).length + 1) = s.toList ++ r :=
    after_cons (after_append h)
  have hend : pos + (Value.bytes s).encode.size = pos + (decimal s.size).length + 1 + s.size := by
    rw [size_encode_bytes]
    omega
  rw [hend]
  simp only [readBytes, hlen, bind, Except.bind, pure, Except.pure]
  rw [extract_of_after hbytes]

/-- **What a byte-string reader accepts.** If the reader returns `s`, then the length
of `s` is a 64-bit number and the encoding of `s` stands at `pos`. -/
theorem readBytes_sound {data s : ByteArray} {pos p : Nat}
    (h : readBytes data pos = .ok (s, p)) :
    s.size < 2 ^ 64 ∧ after data pos = (Value.bytes s).encode.toList ++ after data p ∧
      p = pos + (Value.bytes s).encode.size := by
  simp only [readBytes, bind, Except.bind] at h
  split at h
  · cases h
  · rename_i range hrange
    obtain ⟨start, stop⟩ := range
    simp only [pure, Except.pure, Except.ok.injEq, Prod.mk.injEq] at h
    obtain ⟨rfl, rfl⟩ := h
    rw [readLength] at hrange
    split at hrange
    · cases hrange
    · rename_i colon hcolon
      obtain ⟨pre, t, hafter, _, rfl⟩ := after_of_findFrom hcolon
      have hslice : slice data pos (pos + pre.length) = pre := by
        rw [slice_eq_take, hafter, Nat.add_sub_cancel_left, List.take_left]
      dsimp only at hrange
      rw [hslice] at hrange
      split at hrange
      · cases hrange
      split at hrange
      · cases hrange
      split at hrange
      · cases hrange
      split at hrange
      · cases hrange
      next hbad hlead hbig hover =>
        simp only [Except.ok.injEq, Prod.mk.injEq] at hrange
        obtain ⟨rfl, rfl⟩ := hrange
        -- the digits spell the length, and that many bytes follow the colon
        simp only [Bool.or_eq_true, not_or] at hbad
        have hcanon : decimal (digitsValue pre) = pre := decimal_of_checks hbad.1 hbad.2 hlead
        have hrest : after data (pos + pre.length + 1) = t := after_cons (after_append hafter)
        have hroom : digitsValue pre ≤ t.length := by
          have := congrArg List.length hrest
          simp only [length_after] at this
          omega
        have hbytes : (data.extract (pos + pre.length + 1)
            (pos + pre.length + 1 + digitsValue pre)).toList = t.take (digitsValue pre) := by
          rw [toList_extract, ← after, hrest, Nat.add_sub_cancel_left]
        have hsize : (data.extract (pos + pre.length + 1)
            (pos + pre.length + 1 + digitsValue pre)).size = digitsValue pre := by
          rw [← length_toList, hbytes, List.length_take]
          omega
        have htail : after data (pos + pre.length + 1 + digitsValue pre) = t.drop (digitsValue pre) := by
          rw [after_add, hrest]
        refine ⟨by rw [hsize]; exact Nat.lt_of_not_le hbig, ?_, ?_⟩
        · rw [toList_encode_bytes, hsize, hcanon, hbytes, hafter, htail]
          simp
        · rw [size_encode_bytes, hsize, hcanon]
          omega

end Bencode
end Metainfo
