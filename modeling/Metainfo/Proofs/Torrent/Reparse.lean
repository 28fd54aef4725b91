import Metainfo.Torrent.Raw
import Metainfo.Proofs.Torrent.Lossless

/-!
# A torrent written and read back

`Torrent.toBytes` writes any torrent and checks nothing: the typed fields go over kept
keys of the same name, sizes above `2^63 - 1` are capped, and the single layout is written
from the name alone. This module says exactly which torrents come back from their own
bytes.

* `Info.Valid`: the rules of the format said of the typed fields of `info`; every `info`
  read from a well-formed value keeps them (`valid_of_ofValue`);
* `Info.ofValue_toValue`, `Torrent.ofValue_toValue`: a valid torrent whose kept keys are
  none of the typed ones is read back from its value;
* `ofBytes_toBytes_iff`: a torrent is read back from its bytes exactly when it is
  `Torrent.Rereadable`, and as soon as its value is shallow enough to be read, the `info`
  bytes found in its bytes are those its info hash digests.

Proof shape: reading back runs `Info.ofValue` forward over the dictionary `Info.toValue`
builds, each lookup answered by `get?_insert`; the converse takes the rules from the one
inversion of a successful read, `infoRead_of_ofValue`.
-/

namespace Metainfo

open Bencode

/-- The keys the typed fields of `info` are written under. -/
def typedKeys : List String := ["name", "piece length", "pieces", "length", "files"]

namespace Info

/-- The rules of the metainfo format, said of the typed fields of `info`. -/
structure Valid (i : Info) : Prop where
  /-- the name is one path segment -/
  name : Segment i.name
  /-- the piece length is a power of two from `2^14` to `2^26` -/
  pieceLength : i.pieceLength.isPowerOfTwo ∧ Piece.sizeMin ≤ i.pieceLength ∧
    i.pieceLength ≤ Piece.sizeMax
  /-- there is a digest, and one for each piece of the content -/
  pieces : 0 < i.pieces.length ∧
    i.pieces.length = Piece.count (i.files.entries.map FileEntry.len).sum i.pieceLength
  /-- the one file of the single layout is named after the torrent -/
  single : i.files.layout = .single → ∃ len, i.files.entries = [⟨[i.name], len⟩]
  /-- the multi layout has files, each below a non-empty path of segments -/
  multi : i.files.layout = .multi →
    i.files.entries ≠ [] ∧ ∀ e ∈ i.files.entries, e.path ≠ [] ∧ ∀ s ∈ e.path, Segment s
  /-- every length is a signed 64-bit number -/
  lengths : ∀ e ∈ i.files.entries, (e.len : Int) ≤ Value.maxInt
  /-- the total is an unsigned 64-bit number -/
  total : (i.files.entries.map FileEntry.len).sum ≤ FileList.u64Max

end Info

/-- A torrent that its bytes give back: its `info` is valid, none of its kept keys is
written over by a typed field, and its value is no deeper than the reader goes. -/
structure Torrent.Rereadable (t : Torrent) : Prop where
  /-- the typed fields keep the rules -/
  valid : t.info.Valid
  /-- the kept keys of `info` are none of the typed ones -/
  infoKeys : ∀ k ∈ typedKeys, Dict.get? t.info.extra (key k) = none
  /-- the kept top-level keys do not hold `info` -/
  infoKey : Dict.get? t.extra (key "info") = none
  /-- the value nests at most `maxDepth` deep -/
  depth : t.toValue.depth ≤ maxDepth

/-! ## Fields read back -/

theorem fromUTF8?_toUTF8 (s : String) : String.fromUTF8? s.toUTF8 = some s := by
  unfold String.fromUTF8?
  rw [String.toUTF8_eq_toByteArray, dif_pos s.isValidUTF8]
  rfl

@[simp] theorem asStr?_string (s : String) : (Value.string s).asStr? = some s := by
  show (some s.toUTF8).bind String.fromUTF8? = some s
  rw [Option.bind_some, fromUTF8?_toUTF8]

theorem readSegment_string {s : String} (field : String) (hs : Segment s) :
    readSegment (Value.string s) field = .ok s := by
  simp only [readSegment, asStr?_string, (segment_iff s).mp hs, Bool.false_eq_true, ↓reduceIte]

theorem readLengthField_sizeValue (n : Nat) (field : String) :
    readLengthField (Info.sizeValue n) field = .ok (min n 9223372036854775807) := by
  have hnn : ¬ ((min n 9223372036854775807 : Nat) : Int) < 0 := by omega
  simp only [Info.sizeValue, readLengthField, hnn, ↓reduceIte, Int.toNat_natCast]

theorem min_maxInt_of_le {n : Nat} (h : (n : Int) ≤ Value.maxInt) :
    min n 9223372036854775807 = n := by
  simp only [Value.maxInt] at h
  omega

@[simp] theorem ok_bind {ε α β : Type} (a : α) (f : α → Except ε β) :
    (Except.ok a >>= f) = f a := rfl

theorem key_inj {s t : String} : key s = key t ↔ s = t := by
  rw [key, key, String.toUTF8_eq_toByteArray, String.toUTF8_eq_toByteArray, String.toByteArray_inj]

/-- Validating the items of a list built from `xs` gives `xs` back when each item does. -/
theorem mapM_map_eq_ok {α β : Type} {f : β → Except MetainfoError α} {g : α → β} :
    ∀ {xs : List α}, (∀ x ∈ xs, f (g x) = .ok x) → (xs.map g).mapM f = .ok xs
  | [], _ => rfl
  | x :: xs, h => by
    rw [List.map_cons, List.mapM_cons, h x List.mem_cons_self,
      mapM_map_eq_ok fun y hy => h y (List.mem_cons_of_mem _ hy)]
    rfl

/-! ## Digests read back -/

theorem foldl_append_bytes (hs : List PieceHash) (acc : ByteArray) :
    hs.foldl (fun acc h => acc ++ h.bytes) acc = acc ++ (⟨hs⟩ : HashList).toBytes := by
  induction hs generalizing acc with
  | nil => simp [HashList.toBytes, ByteArray.append_empty]
  | cons h hs ih =>
    simp only [List.foldl_cons, HashList.toBytes] at *
    rw [ih, ih (ByteArray.empty ++ h.bytes), ByteArray.empty_append, ByteArray.append_assoc]

theorem toBytes_cons (h : PieceHash) (hs : List PieceHash) :
    (⟨h :: hs⟩ : HashList).toBytes = h.bytes ++ (⟨hs⟩ : HashList).toBytes := by
  rw [HashList.toBytes, List.foldl_cons, foldl_append_bytes, ByteArray.empty_append]

/-- Digests are cut back out of their concatenation, after any prefix. -/
theorem chunks_append_toBytes (hs : List PieceHash) (pre : ByteArray) :
    HashList.chunks (pre ++ (⟨hs⟩ : HashList).toBytes) pre.size = hs := by
  induction hs generalizing pre with
  | nil =>
    rw [HashList.chunks, dif_neg]
    simp [HashList.toBytes, digestLen]
  | cons h hs ih =>
    have hh := h.size_eq
    rw [toBytes_cons, HashList.chunks, dif_pos (by simp [ByteArray.size_append, hh])]
    congr 1
    · -- the first 20 bytes after the prefix are the first digest
      have hcut := @ByteArray.extract_append_size_add pre (h.bytes ++ (⟨hs⟩ : HashList).toBytes) 0
        digestLen
      rw [Nat.add_zero, ByteArray.extract_append_eq_left hh.symm] at hcut
      exact PieceHash.ext hcut
    · have := ih (pre ++ h.bytes)
      rwa [ByteArray.size_append, hh, ByteArray.append_assoc] at this

theorem size_toBytes (l : HashList) : l.toBytes.size = digestLen * l.length := by
  obtain ⟨hs⟩ := l
  induction hs with
  | nil => rfl
  | cons h hs ih =>
    rw [toBytes_cons, ByteArray.size_append, h.size_eq, ih]
    simp only [HashList.length, List.length_cons]
    rw [Nat.mul_add_one, Nat.add_comm]

/-- Digests are read back from their concatenation. -/
theorem ofBytes_toBytes (l : HashList) : HashList.ofBytes l.toBytes = .ok l := by
  have hcut := chunks_append_toBytes l.hashes ByteArray.empty
  rw [ByteArray.empty_append, ByteArray.size_empty] at hcut
  rw [HashList.ofBytes, if_pos (by rw [size_toBytes]; exact Nat.mul_mod_right _ _), hcut]

/-! ## File entries read back -/

theorem readFileEntry_entryValue {e : FileEntry} (hpath : e.path ≠ [])
    (hseg : ∀ s ∈ e.path, Segment s) (hlen : (e.len : Int) ≤ Value.maxInt) :
    readFileEntry (Info.entryValue e) = .ok e := by
  obtain ⟨path, len⟩ := e
  obtain ⟨s, rest, rfl⟩ := List.exists_cons_of_ne_nil hpath
  have hsegs : ((s :: rest).map Value.string).mapM (readSegment · "info.files.path") =
      .ok (s :: rest) :=
    mapM_map_eq_ok fun x hx => readSegment_string _ (hseg x hx)
  have hlp : key "length" ≠ key "path" := by decide
  simp only [readFileEntry, Info.entryValue, takeField, get?_cons, ↓reduceIte, ok_bind,
    readLengthField_sizeValue, min_maxInt_of_le hlen, get?_erase_ne hlp, hlp, pure_bind]
  rw [List.map_cons] at hsegs ⊢
  simp only [hsegs, ok_bind]
  rfl

theorem readFileEntries_map {es : List FileEntry} (hne : es ≠ [])
    (hpath : ∀ e ∈ es, e.path ≠ [] ∧ ∀ s ∈ e.path, Segment s)
    (hlen : ∀ e ∈ es, (e.len : Int) ≤ Value.maxInt) :
    readFileEntries (.list (es.map Info.entryValue)) = .ok es := by
  obtain ⟨e, rest, rfl⟩ := List.exists_cons_of_ne_nil hne
  have hread : ((e :: rest).map Info.entryValue).mapM readFileEntry = .ok (e :: rest) :=
    mapM_map_eq_ok fun x hx => readFileEntry_entryValue (hpath x hx).1 (hpath x hx).2 (hlen x hx)
  rw [List.map_cons] at hread ⊢
  simp only [readFileEntries, List.isEmpty_cons, Bool.false_eq_true, ↓reduceIte, hread]

/-! ## Kept keys -/

/-- An insertion keeps the keys that were there, in their order. -/
theorem keys_sublist_insert (d : Dict) (k : ByteArray) (v : Value) :
    (d.map Prod.fst).Sublist ((Dict.insert d k v).map Prod.fst) := by
  induction d with
  | nil => exact List.nil_sublist _
  | cons e d ih =>
    obtain ⟨j, w⟩ := e
    unfold Dict.insert
    split
    · exact List.sublist_cons_self _ _
    · rename_i heq
      obtain rfl := Bytes.compare_eq_eq.mp heq
      exact List.Sublist.refl _
    · exact ih.cons_cons j

/-- The keys of a dictionary ascend when they do after an insertion. -/
theorem ascending_of_insert {d : Dict} {k : ByteArray} {v : Value}
    (h : Ascending (Dict.insert d k v)) : Ascending d := by
  unfold Ascending at h ⊢
  have hkeys : ((Dict.insert d k v).map Prod.fst).Pairwise (fun a b => Bytes.compare a b = .lt) :=
    List.pairwise_map.mpr h
  exact List.pairwise_map.mp (hkeys.sublist (keys_sublist_insert d k v))

/-- Erasing a key just inserted gives back a dictionary that did not hold it. -/
theorem erase_insert_of_get?_eq_none {d : Dict} (hd : Ascending d) {k : ByteArray} {v : Value}
    (h : Dict.get? d k = none) : Dict.erase (Dict.insert d k v) k = d := by
  refine eq_of_get?_eq (ascending_erase (ascending_insert hd k v) k) hd fun j => ?_
  rw [get?_erase, get?_insert]
  by_cases hj : k = j
  · rw [if_pos hj, ← hj, h]
  · rw [if_neg hj, if_neg hj]

/-- The kept keys of a well-formed value ascend. -/
theorem ascending_of_toValue {i : Info} (hwf : i.toValue.wellFormed) : Ascending i.extra := by
  have hasc := ascending_of_wellFormed hwf
  cases hlay : i.files.layout with
  | single =>
    simp only [hlay] at hasc
    exact ascending_of_insert (ascending_of_insert (ascending_of_insert (ascending_of_insert hasc)))
  | multi =>
    simp only [hlay] at hasc
    exact ascending_of_insert (ascending_of_insert (ascending_of_insert (ascending_of_insert hasc)))

/-- A read leaves none of the typed keys. -/
theorem get?_keptKeys (i : Dict) {k : String} (hk : k ∈ typedKeys) :
    Dict.get? (keptKeys i) (key k) = none := by
  simp only [typedKeys, List.mem_cons, List.mem_nil_iff, or_false] at hk
  rcases hk with rfl | rfl | rfl | rfl | rfl <;>
    simp [keptKeys, get?_erase, key_inj]

/-! ## The `info` dictionary read back -/

/-- Erasing the typed keys from the typed fields written over kept keys that hold none of
them gives the kept keys back. -/
theorem erase_typed_insert {d : Dict} (hasc : Ascending d)
    (hkeys : ∀ k ∈ typedKeys, Dict.get? d (key k) = none) {kl : ByteArray}
    (hkl : kl = key "length" ∨ kl = key "files") (S P B L : Value) :
    Dict.erase (Dict.erase (Dict.erase (Dict.erase (Dict.erase (Dict.insert (Dict.insert
      (Dict.insert (Dict.insert d (key "name") S) (key "piece length") P) (key "pieces") B) kl L)
      (key "name")) (key "piece length")) (key "pieces")) (key "length")) (key "files") = d := by
  refine eq_of_get?_eq ?_ hasc fun k => ?_
  · exact ascending_erase (ascending_erase (ascending_erase (ascending_erase (ascending_erase
      (ascending_insert (ascending_insert (ascending_insert (ascending_insert hasc _ _) _ _) _ _)
      _ _) _) _) _) _) _
  simp only [get?_erase, get?_insert]
  -- a typed key is erased and the kept keys miss it; any other key looks up the kept value
  by_cases hf : key "files" = k
  · rw [if_pos hf, ← hf, hkeys "files" (by decide)]
  by_cases hl : key "length" = k
  · rw [if_neg hf, if_pos hl, ← hl, hkeys "length" (by decide)]
  by_cases hp : key "pieces" = k
  · rw [if_neg hf, if_neg hl, if_pos hp, ← hp, hkeys "pieces" (by decide)]
  by_cases hpl : key "piece length" = k
  · rw [if_neg hf, if_neg hl, if_neg hp, if_pos hpl, ← hpl, hkeys "piece length" (by decide)]
  by_cases hn : key "name" = k
  · rw [if_neg hf, if_neg hl, if_neg hp, if_neg hpl, if_pos hn, ← hn, hkeys "name" (by decide)]
  have hk : kl ≠ k := by
    rcases hkl with rfl | rfl
    · exact hl
    · exact hf
  rw [if_neg hf, if_neg hl, if_neg hp, if_neg hpl, if_neg hn, if_neg hk, if_neg hp, if_neg hpl,
    if_neg hn]

theorem Info.ofValue_toValue {i : Info} (hv : i.Valid)
    (hasc : Ascending i.extra)
    (hkeys : ∀ k ∈ typedKeys, Dict.get? i.extra (key k) = none) :
    Info.ofValue i.toValue = .ok i := by
  -- the typed fields pass their checks, whatever the layout
  have hpl : min i.pieceLength 9223372036854775807 = i.pieceLength := by
    have := hv.pieceLength.2.2
    simp only [Piece.sizeMax] at this
    omega
  have hval : Piece.validate i.pieceLength = .ok i.pieceLength :=
    validate_eq_ok_iff.mpr ⟨rfl, hv.pieceLength⟩
  have hempty : i.pieces.isEmpty = false := by
    have := hv.pieces.1
    simp only [HashList.length] at this
    simp only [HashList.isEmpty, List.isEmpty_eq_false_iff]
    exact List.ne_nil_of_length_pos this
  have htotal : i.files.totalLen? = some (i.files.entries.map FileEntry.len).sum := by
    rw [totalLen?_eq, if_pos hv.total]
  have hcount := hv.pieces.2
  have hfiles := hkeys "files" (by decide)
  have hlength := hkeys "length" (by decide)
  cases hlay : i.files.layout with
  | single =>
    obtain ⟨len, hent⟩ := hv.single hlay
    have hfl : i.files = FileList.single i.name len := by
      rw [FileList.single, ← hlay, ← hent]
    have hlen : min len 9223372036854775807 = len :=
      min_maxInt_of_le (hv.lengths ⟨[i.name], len⟩ (by rw [hent]; exact List.mem_singleton_self _))
    have hsum : (FileList.single i.name len).totalLen? = some len := by
      simpa [hfl, FileList.single] using htotal
    have htot : i.files.totalLen? = some len := by rw [hfl, hsum]
    rw [hfl] at hcount
    simp only [FileList.single, List.map_cons, List.map_nil, List.sum_cons, List.sum_nil,
      Nat.add_zero] at hcount
    simp only [Info.toValue, hlay, Info.ofValue, takeField, get?_insert, get?_erase, key_inj,
      String.reduceEq, ↓reduceIte, ok_bind, readSegment_string _ hv.name, readLengthField_sizeValue,
      hpl, hval, pure_bind, ofBytes_toBytes, hempty, Bool.false_eq_true, hfiles,
      Info.totalSize, htot, Option.getD_some, hlen, hsum, hcount, ne_eq, not_true_eq_false]
    rw [erase_typed_insert hasc hkeys (Or.inl rfl), ← hfl]
    rfl
  | multi =>
    obtain ⟨hne, hpaths⟩ := hv.multi hlay
    have hfl : i.files = FileList.multi i.files.entries := by rw [FileList.multi, ← hlay]
    have hread := readFileEntries_map hne hpaths hv.lengths
    rw [hfl] at htotal
    simp only [Info.toValue, hlay, Info.ofValue, takeField, get?_insert, get?_erase, key_inj,
      String.reduceEq, ↓reduceIte, ok_bind, readSegment_string _ hv.name, readLengthField_sizeValue,
      hpl, hval, pure_bind, ofBytes_toBytes, hempty, Bool.false_eq_true, hlength, hread,
      htotal, ne_eq]
    rw [erase_typed_insert hasc hkeys (Or.inr rfl), ← hfl, if_neg (fun h => h hcount.symm)]
    rfl

/-- **A torrent read back from its value.** -/
theorem Torrent.ofValue_toValue {t : Torrent} (hv : t.info.Valid)
    (hasc : Ascending t.extra) (hiasc : Ascending t.info.extra) (hkeys : ∀ k ∈ typedKeys, Dict.get? t.info.extra (key k) = none)
    (hinfo : Dict.get? t.extra (key "info") = none) : Torrent.ofValue t.toValue = .ok t := by
  simp only [Torrent.toValue, Torrent.ofValue, takeField, Dict.get?_insert_self, ok_bind,
    Info.ofValue_toValue hv hiasc hkeys, erase_insert_of_get?_eq_none hasc hinfo]
  rfl

/-! ## What a read keeps -/

theorem segment_of_readSegment {v : Value} {field s : String} (h : readSegment v field = .ok s) :
    Segment s := by
  unfold readSegment at h
  split at h
  · cases h
  · split at h
    · cases h
    · rename_i hbad
      cases h
      exact (segment_iff _).mpr (by simpa using hbad)

/-- Each result of validating a list's items comes from one of them. -/
theorem mem_of_mapM_ok {α β : Type} {f : α → Except MetainfoError β} :
    ∀ {xs : List α} {ys : List β}, xs.mapM f = .ok ys → ∀ y ∈ ys, ∃ x ∈ xs, f x = .ok y
  | [], ys, h, y, hy => by
    cases h
    cases hy
  | x :: xs, ys, h, y, hy => by
    rw [List.mapM_cons] at h
    obtain ⟨y', hx, h⟩ := bind_eq_ok h
    obtain ⟨ys', hxs, h⟩ := bind_eq_ok h
    cases h
    rcases List.mem_cons.mp hy with rfl | hy
    · exact ⟨x, List.mem_cons_self, hx⟩
    · obtain ⟨x', hx', hf⟩ := mem_of_mapM_ok hxs y hy
      exact ⟨x', List.mem_cons_of_mem _ hx', hf⟩

theorem length_of_mapM_ok {α β : Type} {f : α → Except MetainfoError β} :
    ∀ {xs : List α} {ys : List β}, xs.mapM f = .ok ys → ys.length = xs.length
  | [], ys, h => by
    cases h
    rfl
  | x :: xs, ys, h => by
    rw [List.mapM_cons] at h
    obtain ⟨y, -, h⟩ := bind_eq_ok h
    obtain ⟨ys', hxs, h⟩ := bind_eq_ok h
    cases h
    rw [List.length_cons, List.length_cons, length_of_mapM_ok hxs]

/-- An integer found in a well-formed dictionary is at most `2^63 - 1`. -/
theorem le_maxInt_of_get? {d : Dict} {k : ByteArray} {m : Int} (hwf : (Value.dict d).wellFormed)
    (h : Dict.get? d k = some (.int m)) : m ≤ Value.maxInt := by
  have hm := (Value.wellFormed_int m).mp (wellFormed_of_get? hwf h)
  simp only [Value.inRange, decide_eq_true_eq] at hm
  exact hm.2

/-- An entry read from a well-formed item has a non-empty path of segments and a length
of the signed 64-bit range. -/
theorem entry_of_readFileEntry {item : Value} {e : FileEntry} (hwf : item.wellFormed)
    (h : readFileEntry item = .ok e) :
    (e.path ≠ [] ∧ ∀ s ∈ e.path, Segment s) ∧ (e.len : Int) ≤ Value.maxInt := by
  obtain ⟨d, m, segs, rfl, hlen, hm, hle, hpath, hsegs⟩ := readFileEntry_ok h
  -- `readFileEntry` only reads a non-empty list of segments
  have hne : segs ≠ [] := by
    rintro rfl
    simp only [readFileEntry, takeField, hlen, ok_bind, readLengthField, if_neg (Int.not_lt.mpr hm),
      get?_erase_ne (show key "length" ≠ key "path" by decide), hpath] at h
    cases h
  refine ⟨⟨fun hnil => hne ?_, fun s hs => ?_⟩, ?_⟩
  · have := length_of_mapM_ok hsegs
    rw [hnil, List.length_nil] at this
    exact List.eq_nil_of_length_eq_zero this.symm
  · obtain ⟨v, -, hv⟩ := mem_of_mapM_ok hsegs s hs
    exact segment_of_readSegment hv
  · rw [hle, Int.toNat_of_nonneg hm]
    exact le_maxInt_of_get? hwf hlen

/-- **What a read keeps.** Every `info` dictionary read from a well-formed dictionary keeps
the rules of the format. -/
theorem valid_of_ofValue {i : Dict} {info : Info} (hwf : (Value.dict i).wellFormed)
    (h : Info.ofValue (.dict i) = .ok info) : info.Valid := by
  have hr := infoRead_of_ofValue h
  obtain ⟨v, -, hseg⟩ := hr.name
  obtain ⟨m, -, -, hlen, hval⟩ := hr.pieceLength
  obtain ⟨-, hpow, hlo, hhi⟩ := validate_eq_ok_iff.mp hval
  obtain ⟨total, htotal, hcount⟩ := hr.count
  have hsum : (info.files.entries.map FileEntry.len).sum = total ∧ total ≤ FileList.u64Max := by
    rw [totalLen?_eq] at htotal
    split at htotal
    · cases htotal
      exact ⟨rfl, ‹_›⟩
    · cases htotal
  have hpos : 0 < info.pieces.length := by
    have := hr.nonempty
    simp only [HashList.isEmpty, List.isEmpty_eq_false_iff] at this
    exact List.length_pos_iff.mpr this
  rcases hr.files with ⟨m', hl, hm', -, hfiles⟩ | ⟨f, es, -, hf, hes, hfiles⟩
  · -- one file, of the length read from an integer of the dictionary
    refine ⟨segment_of_readSegment hseg, hlen ▸ ⟨hpow, hlo, hhi⟩,
      ⟨hpos, by rw [hsum.1, hcount]⟩, fun _ => ⟨m'.toNat, by rw [hfiles]; rfl⟩,
      (fun hlay => by rw [hfiles] at hlay; cases hlay), fun e he => ?_, hsum.1 ▸ hsum.2⟩
    rw [hfiles] at he
    rw [List.mem_singleton.mp he, Int.toNat_of_nonneg hm']
    exact le_maxInt_of_get? hwf hl
  · -- many files, each read from a well-formed item of `files`
    obtain ⟨items, rfl, hmap⟩ := readFileEntries_ok hes
    have hitems : ∀ item ∈ items, item.wellFormed :=
      (Value.wellFormed_list items).mp (wellFormed_of_get? hwf hf)
    have hentry : ∀ e ∈ es, (e.path ≠ [] ∧ ∀ s ∈ e.path, Segment s) ∧ (e.len : Int) ≤ Value.maxInt :=
      fun e he => by
        obtain ⟨item, hitem, hread⟩ := mem_of_mapM_ok hmap e he
        exact entry_of_readFileEntry (hitems item hitem) hread
    -- an empty `files` list is refused
    have hne : es ≠ [] := by
      rintro rfl
      have := length_of_mapM_ok hmap
      rw [List.length_nil] at this
      rw [List.eq_nil_of_length_eq_zero this.symm] at hes
      cases hes
    refine ⟨segment_of_readSegment hseg, hlen ▸ ⟨hpow, hlo, hhi⟩,
      ⟨hpos, by rw [hsum.1, hcount]⟩, (fun hlay => by rw [hfiles] at hlay; cases hlay),
      fun _ => ?_, fun e he => ?_, hsum.1 ▸ hsum.2⟩
    · rw [hfiles]
      exact ⟨hne, fun e he => (hentry e he).1⟩
    · rw [hfiles] at he
      exact (hentry e he).2

/-! ## Bytes read back -/

/-- A torrent read back from its own bytes is rereadable. -/
theorem rereadable_of_ofBytes {t : Torrent} (h : Torrent.ofBytes t.toBytes = .ok t) :
    t.Rereadable := by
  obtain ⟨v, hv, ht⟩ := Torrent.ofBytes_ok h
  obtain ⟨hwf, hdepth, hbytes⟩ := decode_eq_ok_iff.mp hv
  obtain rfl : v = t.toValue := (encode_injective hbytes).symm
  obtain ⟨d, i, hd, hinfo, hread, hextra⟩ := Torrent.ofValue_ok ht
  -- the `info` value read is the one written
  have hdict : Dict.insert t.extra (key "info") t.info.toValue = d := Value.dict.inj hd
  have hi : Value.dict i = t.info.toValue := by
    rw [← hdict, Dict.get?_insert_self] at hinfo
    exact (Option.some.inj hinfo).symm
  rw [hd] at hwf
  refine ⟨valid_of_ofValue (wellFormed_of_get? hwf hinfo) hread, fun k hk => ?_, ?_, hdepth⟩
  · rw [(infoRead_of_ofValue hread).extra]
    exact get?_keptKeys i hk
  · rw [hextra]
    exact get?_erase_self d _

theorem ofBytes_toBytes_of_rereadable {t : Torrent} (hwf : t.toValue.wellFormed)
    (hr : t.Rereadable) :
    Torrent.ofBytes t.toBytes = .ok t := by
  have hasc : Ascending t.extra := ascending_of_insert (ascending_of_wellFormed hwf)
  have hiwf : t.info.toValue.wellFormed := wellFormed_of_get? hwf (Dict.get?_insert_self _ _ _)
  rw [Torrent.ofBytes, Torrent.toBytes, decode_encode hwf, if_pos hr.depth]
  exact Torrent.ofValue_toValue hr.valid hasc (ascending_of_toValue hiwf) hr.infoKeys
    hr.infoKey

/-- The `info` bytes found in the bytes of a torrent are those of its own `info`. -/
theorem rawInfoHash_toBytes {t : Torrent} (hwf : t.toValue.wellFormed)
    (hd : t.toValue.depth ≤ maxDepth) : rawInfoHash t.toBytes = .ok t.infoHash := by
  have hv : decode t.toBytes = .ok t.toValue := decode_eq_ok_iff.mpr ⟨hwf, hd, rfl⟩
  have hloc := locate_of_decode_ok hv [key "info"]
  have hfollow : t.toValue.follow [key "info"] = some t.info.toValue := by
    simp [Value.follow, Value.get?, Value.asDict?, Torrent.toValue, Dict.get?_insert_self]
  rw [hfollow] at hloc
  obtain ⟨a, b, hloc, hext, -⟩ := hloc
  rw [rawInfoHash, hloc]
  simp only [hext, Torrent.infoHash]

/-- **A torrent written and read back.** For a torrent whose value is well formed (as
every value of the library's own types is): reading its
bytes gives it back exactly when it is rereadable, and as soon as its value is no deeper
than the reader goes, the `info` bytes found in its bytes hash to its info hash, whether or
not the rest reads back. -/
theorem ofBytes_toBytes_iff (t : Torrent) (hwf : t.toValue.wellFormed) :
    (Torrent.ofBytes t.toBytes = .ok t ↔ t.Rereadable) ∧
    (t.toValue.depth ≤ maxDepth → rawInfoHash t.toBytes = .ok t.infoHash) :=
  ⟨⟨rereadable_of_ofBytes, ofBytes_toBytes_of_rereadable hwf⟩, rawInfoHash_toBytes hwf⟩

/-- A torrent of one byte in one piece, with an `announce` key. -/
def oneByteTorrent : Torrent :=
  ⟨⟨"a", 16384, ⟨[⟨ByteArray.mk (Array.replicate 20 0), rfl⟩]⟩, FileList.single "a" 1, []⟩,
    [(key "announce", Value.string "http://t")]⟩

theorem oneByteTorrent_rereads :
    oneByteTorrent.toValue.wellFormed ∧
      ((Torrent.ofBytes oneByteTorrent.toBytes = .ok oneByteTorrent ↔ oneByteTorrent.Rereadable) ∧
        (oneByteTorrent.toValue.depth ≤ maxDepth →
          rawInfoHash oneByteTorrent.toBytes = .ok oneByteTorrent.infoHash)) := by
  have hwf : oneByteTorrent.toValue.wellFormed := by decide +kernel
  exact ⟨hwf, ofBytes_toBytes_iff oneByteTorrent hwf⟩

end Metainfo
