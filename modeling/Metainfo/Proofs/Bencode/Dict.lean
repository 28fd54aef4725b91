import Metainfo.Proofs.Bencode.WellFormed

/-!
# Dictionaries as sorted maps

A dictionary is kept as its entries in ascending key order. This module gives the
lookup `Dict.get?` the laws of a finite map, and shows that the order makes the entries
a function of the lookups:

* `get?_insert`, `get?_erase`: what a lookup sees after an insertion or an erasure;
* `Ascending d`: the keys of `d` ascend strictly. Insertion and erasure keep it
  (`ascending_insert`, `ascending_erase`), and the entries of every well-formed
  dictionary ascend (`ascending_of_entriesWellFormed`);
* `eq_of_get?_eq`: two ascending dictionaries with the same lookups are equal, so a
  dictionary rebuilt by insertions is the one it was read from as soon as every key
  looks up the same value.
-/

namespace Metainfo
namespace Bencode

open Bytes

/-- The keys of the entries ascend strictly. -/
def Ascending (d : Dict) : Prop :=
  d.Pairwise fun a b => Bytes.compare a.1 b.1 = .lt

/-! ## Lookups -/

theorem get?_cons (d : Dict) (k k' : ByteArray) (v : Value) :
    Dict.get? ((k', v) :: d) k = if k' = k then some v else Dict.get? d k := rfl

theorem mem_of_get? {es : Dict} {k : ByteArray} {w : Value}
    (h : Dict.get? es k = some w) : (k, w) ∈ es := by
  induction es with
  | nil => cases h
  | cons e es ih =>
    obtain ⟨k', w'⟩ := e
    rw [get?_cons] at h
    split at h
    · rename_i hk
      cases h
      rw [hk]
      exact List.mem_cons_self
    · exact List.mem_cons_of_mem _ (ih h)

theorem get?_eq_none_of_forall_ne {k : ByteArray} {es : Dict}
    (h : ∀ e ∈ es, e.1 ≠ k) : Dict.get? es k = none := by
  induction es with
  | nil => rfl
  | cons e es ih =>
    obtain ⟨k', w⟩ := e
    rw [get?_cons, if_neg (h (k', w) List.mem_cons_self)]
    exact ih fun e he => h e (List.mem_cons_of_mem _ he)

/-- A key below every key of a dictionary is not in it. -/
theorem get?_eq_none_of_lt {k : ByteArray} {es : Dict}
    (h : ∀ e ∈ es, Bytes.compare k e.1 = .lt) : Dict.get? es k = none :=
  get?_eq_none_of_forall_ne fun e he heq => ne_of_compare_lt (h e he) heq.symm

theorem get?_insert (d : Dict) (k k' : ByteArray) (v : Value) :
    Dict.get? (Dict.insert d k v) k' = if k = k' then some v else Dict.get? d k' := by
  induction d with
  | nil => rfl
  | cons e d ih =>
    obtain ⟨j, w⟩ := e
    unfold Dict.insert
    split
    · -- a new smallest key
      rfl
    · -- the key is there: its value is replaced
      rename_i heq
      obtain rfl := compare_eq_eq.mp heq
      rw [get?_cons, get?_cons]
      by_cases hk : k = k'
      · rw [if_pos hk, if_pos hk]
      · rw [if_neg hk, if_neg hk, if_neg hk]
    · -- the key goes further on, past `j`
      rename_i hgt
      have hjk : j ≠ k := fun hjk => by
        rw [hjk, compare_self] at hgt
        cases hgt
      rw [get?_cons, get?_cons, ih]
      by_cases hk : k = k'
      · subst hk
        rw [if_neg hjk, if_pos rfl, if_pos rfl]
      · rw [if_neg hk, if_neg hk]

theorem get?_erase_ne {d : Dict} {k k' : ByteArray} (h : k ≠ k') :
    Dict.get? (Dict.erase d k) k' = Dict.get? d k' := by
  induction d with
  | nil => rfl
  | cons e d ih =>
    obtain ⟨k'', v⟩ := e
    unfold Dict.erase at ih ⊢
    rw [List.filter_cons]
    by_cases hk : k'' = k
    · -- the erased key goes, and it is not the key looked up
      subst hk
      rw [if_neg (by simp [bne]), ih, get?_cons, if_neg h]
    · rw [if_pos (by simp [bne, hk]), get?_cons, get?_cons]
      split
      · rfl
      · exact ih

theorem get?_erase_self (d : Dict) (k : ByteArray) : Dict.get? (Dict.erase d k) k = none :=
  get?_eq_none_of_forall_ne fun e he => by
    have := (List.mem_filter.mp he).2
    simpa [bne] using this

theorem get?_erase (d : Dict) (k k' : ByteArray) :
    Dict.get? (Dict.erase d k) k' = if k = k' then none else Dict.get? d k' := by
  by_cases hk : k = k'
  · subst hk
    rw [if_pos rfl, get?_erase_self]
  · rw [if_neg hk, get?_erase_ne hk]

/-! ## Ascending keys -/

theorem mem_insert {d : Dict} {k : ByteArray} {v : Value} {e : ByteArray × Value}
    (he : e ∈ Dict.insert d k v) : e = (k, v) ∨ e ∈ d := by
  induction d with
  | nil => exact Or.inl (List.mem_singleton.mp he)
  | cons e' d ih =>
    obtain ⟨j, w⟩ := e'
    unfold Dict.insert at he
    split at he
    · exact (List.mem_cons.mp he).imp id id
    · rcases List.mem_cons.mp he with h | h
      · exact Or.inl h
      · exact Or.inr (List.mem_cons_of_mem _ h)
    · rcases List.mem_cons.mp he with h | h
      · exact Or.inr (h ▸ List.mem_cons_self)
      · exact (ih h).imp id (List.mem_cons_of_mem _)

theorem ascending_insert {d : Dict} (hd : Ascending d) (k : ByteArray) (v : Value) :
    Ascending (Dict.insert d k v) := by
  induction d with
  | nil => exact List.pairwise_singleton _ _
  | cons e d ih =>
    obtain ⟨j, w⟩ := e
    unfold Ascending at hd ⊢
    rw [List.pairwise_cons] at hd
    obtain ⟨hj, hrest⟩ := hd
    unfold Dict.insert
    split
    · rename_i hlt
      refine List.Pairwise.cons (fun e he => ?_) (List.Pairwise.cons hj hrest)
      rcases List.mem_cons.mp he with rfl | he
      · exact hlt
      · exact compare_lt_trans hlt (hj e he)
    · rename_i heq
      obtain rfl := compare_eq_eq.mp heq
      exact List.Pairwise.cons hj hrest
    · rename_i hgt
      refine List.Pairwise.cons (fun e he => ?_) (ih hrest)
      rcases mem_insert he with rfl | he
      · exact compare_eq_gt.mp hgt
      · exact hj e he

theorem ascending_erase {d : Dict} (hd : Ascending d) (k : ByteArray) :
    Ascending (Dict.erase d k) :=
  List.Pairwise.filter _ hd

theorem compare_lt_of_entriesWellFormed {k : ByteArray} {es : Dict}
    (h : Value.wellFormed.entriesWellFormed (some k) es) : ∀ e ∈ es, Bytes.compare k e.1 = .lt := by
  induction es generalizing k with
  | nil => intro e he; cases he
  | cons e es ih =>
    obtain ⟨k', w⟩ := e
    rw [Value.entriesWellFormed_cons] at h
    obtain ⟨hfollows, -, -, hrest⟩ := h
    have hlt : Bytes.compare k k' = .lt := by simpa [keyFollows] using hfollows
    intro e he
    rcases List.mem_cons.mp he with rfl | he
    · exact hlt
    · exact compare_lt_trans hlt (ih hrest e he)

/-- Keys that ascend from after `k` do not hold `k` again. -/
theorem get?_eq_none_of_entriesWellFormed {k : ByteArray} {es : Dict}
    (h : Value.wellFormed.entriesWellFormed (some k) es) : Dict.get? es k = none :=
  get?_eq_none_of_lt (compare_lt_of_entriesWellFormed h)

/-- A value found in a well-formed dictionary is well formed. -/
theorem wellFormed_of_get? {d : Dict} {k : ByteArray} {v : Value}
    (hwf : (Value.dict d).wellFormed) (h : Dict.get? d k = some v) : v.wellFormed := by
  rw [Value.wellFormed_dict] at hwf
  exact Value.wellFormed_of_mem_entries hwf (mem_of_get? h)

theorem ascending_of_entriesWellFormed {prev : Option ByteArray} {es : Dict}
    (h : Value.wellFormed.entriesWellFormed prev es) : Ascending es := by
  induction es generalizing prev with
  | nil => exact List.Pairwise.nil
  | cons e es ih =>
    obtain ⟨k, w⟩ := e
    rw [Value.entriesWellFormed_cons] at h
    exact List.Pairwise.cons (compare_lt_of_entriesWellFormed h.2.2.2) (ih h.2.2.2)

theorem ascending_of_wellFormed {d : Dict} (hwf : (Value.dict d).wellFormed) : Ascending d := by
  rw [Value.wellFormed_dict] at hwf
  exact ascending_of_entriesWellFormed hwf

/-! ## A dictionary is its lookups -/

/-- Of two ascending dictionaries with the same lookups, neither has a smaller first key
than the other. -/
theorem head_key_eq {k k' : ByteArray} {v v' : Value} {d d' : Dict}
    (hd : Ascending ((k, v) :: d)) (hd' : Ascending ((k', v') :: d'))
    (h : ∀ j, Dict.get? ((k, v) :: d) j = Dict.get? ((k', v') :: d') j) : k = k' := by
  -- a key below the other's first key is below all its keys, so the other misses it
  have below : ∀ {j k : ByteArray} {v : Value} {d : Dict}, Ascending ((k, v) :: d) →
      Bytes.compare j k = .lt → Dict.get? ((k, v) :: d) j = none := by
    intro j k v d hd hlt
    refine get?_eq_none_of_lt fun e he => ?_
    rcases List.mem_cons.mp he with rfl | he
    · exact hlt
    · exact compare_lt_trans hlt ((List.pairwise_cons.mp hd).1 e he)
  cases hc : Bytes.compare k k' with
  | lt =>
    have := h k
    rw [below hd' hc, get?_cons, if_pos rfl] at this
    cases this
  | eq => exact compare_eq_eq.mp hc
  | gt =>
    have := h k'
    rw [below hd (compare_eq_gt.mp hc), get?_cons, if_pos rfl] at this
    cases this

/-- **Extensionality.** Two ascending dictionaries with the same lookups are equal. -/
theorem eq_of_get?_eq {d d' : Dict} (hd : Ascending d) (hd' : Ascending d')
    (h : ∀ k, Dict.get? d k = Dict.get? d' k) : d = d' := by
  induction d generalizing d' with
  | nil =>
    cases d' with
    | nil => rfl
    | cons e d' =>
      have := h e.1
      rw [get?_cons, if_pos rfl] at this
      cases this
  | cons e d ih =>
    obtain ⟨k, v⟩ := e
    cases d' with
    | nil =>
      have := h k
      rw [get?_cons, if_pos rfl] at this
      cases this
    | cons e' d' =>
      obtain ⟨k', v'⟩ := e'
      obtain rfl := head_key_eq hd hd' h
      have hv : v = v' := by
        have := h k
        rw [get?_cons, get?_cons, if_pos rfl, if_pos rfl] at this
        exact Option.some.inj this
      subst hv
      -- the rests agree: at `k` both miss, elsewhere they answer as the whole
      have hrest : ∀ j, Dict.get? d j = Dict.get? d' j := by
        intro j
        by_cases hj : k = j
        · subst hj
          rw [get?_eq_none_of_lt (List.pairwise_cons.mp hd).1,
            get?_eq_none_of_lt (List.pairwise_cons.mp hd').1]
        · have := h j
          rwa [get?_cons, get?_cons, if_neg hj, if_neg hj] at this
      rw [ih (List.pairwise_cons.mp hd).2 (List.pairwise_cons.mp hd').2 hrest]

/-- Putting back the value a key held gives the dictionary back. -/
theorem insert_erase_self {d : Dict} (hd : Ascending d) {k : ByteArray} {v : Value}
    (h : Dict.get? d k = some v) : Dict.insert (Dict.erase d k) k v = d := by
  refine eq_of_get?_eq (ascending_insert (ascending_erase hd k) k v) hd fun j => ?_
  rw [get?_insert, get?_erase]
  by_cases hj : k = j
  · rw [if_pos hj, ← hj, h]
  · rw [if_neg hj, if_neg hj]

end Bencode
end Metainfo
