import Metainfo.Proofs.Bencode.Scalars

/-!
# The encoding is prefix-free

No encoding is a proper prefix of another: an encoding followed by any bytes determines
both the value and the bytes (`encode_append_inj`), so `Value.encode` is injective on all
values (`encode_injective`), well formed or not. This is what lets bytes written back be
compared through the values they encode.

Each kind ends where its own syntax says: a byte string after as many bytes as its
length prefix gives, an integer at the first `e`, a container at the `e` that follows
its last item, which no item can start with.
-/

namespace Metainfo
namespace Bencode

open Bytes

/-! ## Words ended by a letter they do not contain -/

/-- Two words of letters from `p`, each followed by a letter `c` outside `p`: the words
agree, and so do the rests. -/
theorem append_cons_inj {p : UInt8 → Prop} {c : UInt8} (hc : ¬ p c) :
    ∀ {l l' r r' : List UInt8}, (∀ b ∈ l, p b) → (∀ b ∈ l', p b) →
      l ++ c :: r = l' ++ c :: r' → l = l' ∧ r = r'
  | [], [], _, _, _, _, h => ⟨rfl, (List.cons.inj h).2⟩
  | [], b :: _, _, _, _, hl', h => by
    rw [List.nil_append, List.cons_append] at h
    exact absurd ((List.cons.inj h).1 ▸ hl' b List.mem_cons_self) hc
  | b :: _, [], _, _, hl, _, h => by
    rw [List.nil_append, List.cons_append] at h
    exact absurd ((List.cons.inj h).1 ▸ hl b List.mem_cons_self) hc
  | b :: _, b' :: _, _, _, hl, hl', h => by
    rw [List.cons_append, List.cons_append] at h
    obtain ⟨rfl, htail⟩ := List.cons.inj h
    obtain ⟨rfl, rfl⟩ := append_cons_inj hc (fun x hx => hl x (List.mem_cons_of_mem _ hx))
      (fun x hx => hl' x (List.mem_cons_of_mem _ hx)) htail
    exact ⟨rfl, rfl⟩

theorem decimal_inj {m n : Nat} (h : decimal m = decimal n) : m = n := by
  rw [← digitsValue_decimal m, h, digitsValue_decimal]

theorem intDigits_inj {m n : Int} (h : intDigits m = intDigits n) : m = n := by
  -- a `-` opens the spelling of a negative number and of no other
  have hminus : ∀ (a b : Nat), decimal a ≠ ascii '-' :: decimal b := fun a b h =>
    not_mem_decimal (by decide) a (h ▸ List.mem_cons_self)
  cases m with
  | ofNat a =>
    cases n with
    | ofNat b => rw [decimal_inj h]
    | negSucc b => exact absurd h (hminus a (b + 1))
  | negSucc a =>
    cases n with
    | ofNat b => exact absurd h.symm (hminus b (a + 1))
    | negSucc b =>
      have hab : a + 1 = b + 1 := decimal_inj (List.cons.inj h).2
      rw [Nat.add_right_cancel hab]

/-! ## Scalars -/

theorem bytes_append_inj {x y : ByteArray} {r r' : List UInt8}
    (h : (Value.bytes x).encode.toList ++ r = (Value.bytes y).encode.toList ++ r') :
    x = y ∧ r = r' := by
  rw [toList_encode_bytes, toList_encode_bytes, List.append_assoc, List.append_assoc,
    List.cons_append, List.cons_append] at h
  obtain ⟨hdec, hrest⟩ := append_cons_inj (p := fun b => isDigit b) (by decide)
    (fun _ hb => isDigit_of_mem_decimal hb) (fun _ hb => isDigit_of_mem_decimal hb) h
  -- the length prefixes agree, so the bytes are cut at the same place
  have hsize : x.toList.length = y.toList.length := by
    rw [length_toList, length_toList, decimal_inj hdec]
  obtain ⟨hxy, hr⟩ := List.append_inj hrest hsize
  exact ⟨toList_inj.mp hxy, hr⟩

theorem int_append_inj {m n : Int} {r r' : List UInt8}
    (h : (Value.int m).encode.toList ++ r = (Value.int n).encode.toList ++ r') :
    m = n ∧ r = r' := by
  rw [toList_encode_int, toList_encode_int] at h
  simp only [List.cons_append, List.cons.injEq, true_and, List.append_assoc] at h
  have hdigits : ∀ k : Int, ∀ b ∈ intDigits k, b ≠ ascii 'e' := fun k _ hb he =>
    e_not_mem_intDigits k (he ▸ hb)
  obtain ⟨hmn, hr⟩ := append_cons_inj (p := fun b => b ≠ ascii 'e') (fun h => h rfl)
    (hdigits m) (hdigits n) h
  exact ⟨intDigits_inj hmn, hr⟩

/-- A byte string's encoding starts with a digit, which no other kind starts with. -/
theorem bytes_head {x : ByteArray} {r t : List UInt8} {c : UInt8}
    (h : (Value.bytes x).encode.toList ++ r = c :: t) (hc : ¬ isDigit c) : False := by
  obtain ⟨c', t', hct, hdig⟩ := encode_bytes_head x
  rw [hct, List.cons_append] at h
  exact hc ((List.cons.inj h).1 ▸ hdig)

/-! ## All values -/

mutual
/-- **The encoding is prefix-free.** An encoding followed by any bytes determines the
value and the bytes that follow. -/
theorem encode_append_inj : ∀ {a b : Value} {r r' : List UInt8},
    a.encode.toList ++ r = b.encode.toList ++ r' → a = b ∧ r = r'
  | .bytes x, .bytes y, _, _, h => by
    obtain ⟨rfl, rfl⟩ := bytes_append_inj h
    exact ⟨rfl, rfl⟩
  | .bytes _, .int n, _, _, h => by
    rw [toList_encode_int, List.cons_append] at h
    exact (bytes_head h (by decide)).elim
  | .bytes _, .list ys, _, _, h => by
    rw [toList_encode_list, List.cons_append] at h
    exact (bytes_head h (by decide)).elim
  | .bytes _, .dict es, _, _, h => by
    rw [toList_encode_dict, List.cons_append] at h
    exact (bytes_head h (by decide)).elim
  | .int m, .int n, _, _, h => by
    obtain ⟨rfl, rfl⟩ := int_append_inj h
    exact ⟨rfl, rfl⟩
  | .int m, .bytes _, _, _, h => by
    rw [toList_encode_int, List.cons_append] at h
    exact (bytes_head h.symm (by decide)).elim
  | .int m, .list ys, _, _, h => by
    rw [toList_encode_int, toList_encode_list, List.cons_append, List.cons_append] at h
    exact absurd (List.cons.inj h).1 (by decide)
  | .int m, .dict es, _, _, h => by
    rw [toList_encode_int, toList_encode_dict, List.cons_append, List.cons_append] at h
    exact absurd (List.cons.inj h).1 (by decide)
  | .list xs, .list ys, _, _, h => by
    rw [toList_encode_list, toList_encode_list] at h
    simp only [List.cons_append, List.cons.injEq, true_and, List.append_assoc] at h
    obtain ⟨rfl, rfl⟩ := items_append_inj h
    exact ⟨rfl, rfl⟩
  | .list xs, .bytes _, _, _, h => by
    rw [toList_encode_list, List.cons_append] at h
    exact (bytes_head h.symm (by decide)).elim
  | .list xs, .int n, _, _, h => by
    rw [toList_encode_list, toList_encode_int, List.cons_append, List.cons_append] at h
    exact absurd (List.cons.inj h).1 (by decide)
  | .list xs, .dict es, _, _, h => by
    rw [toList_encode_list, toList_encode_dict, List.cons_append, List.cons_append] at h
    exact absurd (List.cons.inj h).1 (by decide)
  | .dict es, .dict es', _, _, h => by
    rw [toList_encode_dict, toList_encode_dict] at h
    simp only [List.cons_append, List.cons.injEq, true_and, List.append_assoc] at h
    obtain ⟨rfl, rfl⟩ := entries_append_inj h
    exact ⟨rfl, rfl⟩
  | .dict es, .bytes _, _, _, h => by
    rw [toList_encode_dict, List.cons_append] at h
    exact (bytes_head h.symm (by decide)).elim
  | .dict es, .int n, _, _, h => by
    rw [toList_encode_dict, toList_encode_int, List.cons_append, List.cons_append] at h
    exact absurd (List.cons.inj h).1 (by decide)
  | .dict es, .list ys, _, _, h => by
    rw [toList_encode_dict, toList_encode_list, List.cons_append, List.cons_append] at h
    exact absurd (List.cons.inj h).1 (by decide)

/-- The items of two lists, each closed by `e`: the same items, and the same rest. -/
theorem items_append_inj : ∀ {xs ys : List Value} {r r' : List UInt8},
    (encodeItems xs).toList ++ ascii 'e' :: r = (encodeItems ys).toList ++ ascii 'e' :: r' →
      xs = ys ∧ r = r'
  | [], [], _, _, h => by
    simp only [toList_encodeItems_nil, List.nil_append, List.cons.injEq, true_and] at h
    exact ⟨rfl, h⟩
  | [], y :: _, _, _, h => by
    -- an item never starts with the closing `e`
    obtain ⟨c, t, hct, hc⟩ := encode_head_ne_e y
    simp only [toList_encodeItems_nil, toList_encodeItems_cons, hct, List.nil_append,
      List.cons_append, List.cons.injEq] at h
    exact (hc h.1.symm).elim
  | x :: _, [], _, _, h => by
    obtain ⟨c, t, hct, hc⟩ := encode_head_ne_e x
    simp only [toList_encodeItems_nil, toList_encodeItems_cons, hct, List.nil_append,
      List.cons_append, List.cons.injEq] at h
    exact (hc h.1).elim
  | x :: _, y :: _, _, _, h => by
    rw [toList_encodeItems_cons, toList_encodeItems_cons, List.append_assoc,
      List.append_assoc] at h
    obtain ⟨rfl, hrest⟩ := encode_append_inj h
    obtain ⟨rfl, rfl⟩ := items_append_inj hrest
    exact ⟨rfl, rfl⟩

/-- The entries of two dictionaries, each closed by `e`: the same entries, and the same
rest. -/
theorem entries_append_inj : ∀ {es es' : List (ByteArray × Value)} {r r' : List UInt8},
    (encodeEntries es).toList ++ ascii 'e' :: r = (encodeEntries es').toList ++ ascii 'e' :: r' →
      es = es' ∧ r = r'
  | [], [], _, _, h => by
    simp only [toList_encodeEntries_nil, List.nil_append, List.cons.injEq, true_and] at h
    exact ⟨rfl, h⟩
  | [], (k, _) :: _, _, _, h => by
    rw [toList_encodeEntries_nil, toList_encodeEntries_cons, List.nil_append,
      List.append_assoc, List.append_assoc] at h
    exact (bytes_head h.symm (by decide)).elim
  | (k, _) :: _, [], _, _, h => by
    rw [toList_encodeEntries_nil, toList_encodeEntries_cons, List.nil_append,
      List.append_assoc, List.append_assoc] at h
    exact (bytes_head h (by decide)).elim
  | (k, v) :: _, (k', v') :: _, _, _, h => by
    rw [toList_encodeEntries_cons, toList_encodeEntries_cons, List.append_assoc,
      List.append_assoc, List.append_assoc, List.append_assoc] at h
    obtain ⟨rfl, hvalue⟩ := bytes_append_inj h
    obtain ⟨rfl, hrest⟩ := encode_append_inj hvalue
    obtain ⟨rfl, rfl⟩ := entries_append_inj hrest
    exact ⟨rfl, rfl⟩
end

/-- Different values have different encodings. -/
theorem encode_injective {a b : Value} (h : a.encode = b.encode) : a = b :=
  (@encode_append_inj a b [] [] (by rw [h])).1

end Bencode
end Metainfo
