import Metainfo.Torrent.Raw
import Metainfo.Proofs.Torrent.Grammar
import Metainfo.Proofs.Bencode.Locate
import Metainfo.Proofs.Bencode.PrefixFree

/-!
# Writing a torrent back

`Torrent.toValue` writes back the keys a torrent keeps, with its typed fields over them.
For a torrent read from a value this gives back the value read in every part but one: a
file entry is written back from its `length` and `path` alone, so any other key of an
entry is lost, and with it the bytes of the input and its info hash.

* `InfoRead i info`: the steps of a successful read of the `info` dictionary `i`
  (`infoRead_of_ofValue`), and `ReadsInfo i info`, what that read took from `i` as it is
  written back (`readsInfo_of_ofValue`);
* `entryValue_eq_iff`, `infoToValue_eq_iff`, `toValue_eq_iff`: a file entry, the `info`
  dictionary and the metainfo value are written back as they were read exactly when the
  file entries hold no keys besides `length` and `path` (`PlainEntries`);
* `ofBytes_writes_back`: on input read as a torrent, the `pieces` read straight from the
  input are the torrent's digests, and the input is written back, and its `info` bytes
  are the ones the info hash digests, exactly when the file entries are plain.
-/

namespace Metainfo

open Bencode

/-! ## Scalars written back -/

theorem toUTF8_of_fromUTF8? {b : ByteArray} {s : String} (h : String.fromUTF8? b = some s) :
    s.toUTF8 = b := by
  unfold String.fromUTF8? at h
  split at h
  · cases h
    rfl
  · cases h

/-- A segment is written back as the byte string it was read from. -/
theorem string_of_readSegment {v : Value} {field : String} {s : String}
    (h : readSegment v field = .ok s) : Value.string s = v := by
  unfold readSegment at h
  split at h
  · cases h
  · rename_i s' hstr
    split at h
    · cases h
    · cases h
      cases v with
      | bytes b =>
        have hutf : String.fromUTF8? b = some s := by
          simpa [Value.asStr?, Value.asBytes?] using hstr
        rw [Value.string, toUTF8_of_fromUTF8? hutf]
      | int n => simp [Value.asStr?, Value.asBytes?] at hstr
      | list xs => simp [Value.asStr?, Value.asBytes?] at hstr
      | dict d => simp [Value.asStr?, Value.asBytes?] at hstr

/-- A size read from an integer of the 64-bit range is written back as that integer. -/
theorem sizeValue_toNat {m : Int} (h0 : 0 ≤ m) (hm : Value.inRange m) :
    Info.sizeValue m.toNat = .int m := by
  have hle : m ≤ 9223372036854775807 := by
    simp only [Value.inRange, Value.maxInt, Value.minInt] at hm
    exact (of_decide_eq_true hm).2
  unfold Info.sizeValue
  rw [Nat.min_eq_left (by omega), Int.toNat_of_nonneg h0]

/-- A size read from an integer of a well-formed dictionary is written back as that
integer. -/
theorem sizeValue_of_get? {d : Dict} {k : ByteArray} {m : Int}
    (hwf : (Value.dict d).wellFormed) (hk : Dict.get? d k = some (.int m)) (h0 : 0 ≤ m) :
    Info.sizeValue m.toNat = .int m :=
  sizeValue_toNat h0 ((Value.wellFormed_int m).mp (wellFormed_of_get? hwf hk))

theorem foldl_chunks (b : ByteArray) (i : Nat) (acc : ByteArray)
    (h : (b.size - i) % digestLen = 0) :
    (HashList.chunks b i).foldl (fun acc h => acc ++ h.bytes) acc = acc ++ b.extract i b.size := by
  fun_induction HashList.chunks b i generalizing acc with
  | case1 i hle ih =>
    rw [List.foldl_cons, ih _ (by simp only [digestLen] at *; omega), ByteArray.append_assoc,
      ByteArray.extract_append_extract, Nat.min_eq_left (by omega), Nat.max_eq_right hle]
  | case2 i hlt =>
    -- fewer than 20 bytes are left, and a whole number of digests: none
    have hend : b.size ≤ i := by simp only [digestLen] at *; omega
    rw [List.foldl_nil, ByteArray.extract_eq_empty_iff.mpr (by omega), ByteArray.append_empty]

/-- Digests cut from a byte string join back into it. -/
theorem toBytes_ofBytes {b : ByteArray} {p : HashList} (h : HashList.ofBytes b = .ok p) :
    p.toBytes = b := by
  unfold HashList.ofBytes at h
  split at h
  · rename_i hdiv
    cases h
    rw [HashList.toBytes, foldl_chunks b 0 _ (by simpa using hdiv), ByteArray.empty_append,
      ByteArray.extract_zero_size]
  · cases h

/-! ## What a read of the `info` dictionary takes -/

/-- The piece-size check passes a size unchanged, exactly when it is a power of two in
range. -/
theorem validate_eq_ok_iff {n s : Nat} : Piece.validate n = .ok s ↔
    s = n ∧ n.isPowerOfTwo ∧ Piece.sizeMin ≤ n ∧ n ≤ Piece.sizeMax := by
  rw [← isPowerOfTwo_iff]
  unfold Piece.validate
  by_cases hpow : Piece.isPowerOfTwo n = true
  · by_cases hrange : n < Piece.sizeMin ∨ Piece.sizeMax < n
    · simp only [hpow, hrange, Bool.not_true, Bool.false_eq_true, ↓reduceIte, reduceCtorEq,
        false_iff]
      omega
    · simp only [hpow, hrange, Bool.not_true, Bool.false_eq_true, ↓reduceIte, Except.ok.injEq,
        true_and]
      constructor
      · rintro rfl
        exact ⟨rfl, by omega⟩
      · rintro ⟨rfl, -⟩
        rfl
  · simp [hpow]

/-- The keys a read of `info` leaves: all but the typed ones. -/
def keptKeys (i : Dict) : Dict :=
  Dict.erase (Dict.erase (Dict.erase (Dict.erase (Dict.erase i (key "name")) (key "piece length"))
    (key "pieces")) (key "length")) (key "files")

/-- The steps of a successful read of the `info` dictionary `i` into `info`: what each
typed field was read from, the layout key that was present, and the kept keys. -/
structure InfoRead (i : Dict) (info : Info) : Prop where
  /-- the name is the segment read from `name` -/
  name : ∃ v, Dict.get? i (key "name") = some v ∧ readSegment v "info.name" = .ok info.name
  /-- the piece length is the non-negative integer under `piece length`, a valid size -/
  pieceLength : ∃ m : Int, Dict.get? i (key "piece length") = some (.int m) ∧ 0 ≤ m ∧
    info.pieceLength = m.toNat ∧ Piece.validate m.toNat = .ok m.toNat
  /-- the digests are cut from the byte string under `pieces` -/
  pieces : ∃ b, Dict.get? i (key "pieces") = some (.bytes b) ∧ HashList.ofBytes b = .ok info.pieces
  /-- there is a digest -/
  nonempty : info.pieces.isEmpty = false
  /-- one file of the length under `length`, or the entries read from `files` -/
  files : (∃ m : Int, Dict.get? i (key "length") = some (.int m) ∧ 0 ≤ m ∧
      Dict.get? i (key "files") = none ∧ info.files = FileList.single info.name m.toNat) ∨
    (∃ f es, Dict.get? i (key "length") = none ∧ Dict.get? i (key "files") = some f ∧
      readFileEntries f = .ok es ∧ info.files = FileList.multi es)
  /-- the total fits in 64 bits and needs one piece per digest -/
  count : ∃ total, info.files.totalLen? = some total ∧
    Piece.count total info.pieceLength = info.pieces.length
  /-- the kept keys are the rest of the dictionary -/
  extra : info.extra = keptKeys i

theorem infoRead_of_ofValue {i : Dict} {info : Info} (h : Info.ofValue (.dict i) = .ok info) :
    InfoRead i info := by
  simp -zeta only [Info.ofValue] at h
  obtain ⟨⟨nameValue, d1⟩, htake, h⟩ := bind_eq_ok h
  obtain ⟨hname, rfl⟩ := takeField_ok htake
  obtain ⟨name, hseg, h⟩ := bind_eq_ok h
  obtain ⟨⟨plValue, d2⟩, htake, h⟩ := bind_eq_ok h
  obtain ⟨hpl, rfl⟩ := takeField_ok htake
  obtain ⟨pl, hread, h⟩ := bind_eq_ok h
  extract_lets jp at h
  split at h
  · rename_i s hval
    rw [pure_bind] at h
    simp -zeta only [jp] at h
    obtain ⟨⟨piecesValue, d3⟩, htake, h⟩ := bind_eq_ok h
    obtain ⟨hpieces, rfl⟩ := takeField_ok htake
    extract_lets lengthValue filesValue extra jp2 at h
    cases piecesValue with
    | bytes b =>
      obtain ⟨p, hp, h⟩ := bind_eq_ok h
      simp -zeta only [jp2] at h
      extract_lets tail layout at h
      split at h
      · cases h
      rename_i hne
      simp -zeta only [layout, lengthValue, filesValue] at h
      rw [get?_erase_ne (by decide), get?_erase_ne (by decide), get?_erase_ne (by decide),
        get?_erase_ne (by decide), get?_erase_ne (by decide), get?_erase_ne (by decide)] at h
      -- both layouts end in the same checks, which build the torrent from the files read
      have htail : ∀ files, tail files = .ok info →
          info = ⟨name, s, p, files, extra⟩ ∧ ∃ total, files.totalLen? = some total ∧
            Piece.count total s = p.length := by
        intro files h
        simp only [tail] at h
        split at h
        · rename_i total htotal
          split at h
          · cases h
          · rename_i hcount
            cases h
            exact ⟨rfl, total, htotal, Classical.not_not.mp hcount⟩
        · cases h
      obtain ⟨m, rfl, hm, rfl⟩ := readLengthField_ok hread
      rw [get?_erase_ne (by decide)] at hpl
      obtain ⟨rfl, -⟩ := validate_eq_ok_iff.mp hval
      rw [get?_erase_ne (by decide), get?_erase_ne (by decide)] at hpieces
      rcases hl : Dict.get? i (key "length") with _ | l <;>
        rcases hf : Dict.get? i (key "files") with _ | f <;>
        rw [hl, hf] at h
      · cases h
      · -- many files
        obtain ⟨entries, hentries, h⟩ := bind_eq_ok h
        obtain ⟨rfl, total, htotal, hcount⟩ := htail _ h
        exact ⟨⟨_, hname, hseg⟩, ⟨m, hpl, hm, rfl, hval⟩, ⟨b, hpieces, hp⟩, by simpa using hne,
          .inr ⟨f, entries, hl, hf, hentries, rfl⟩, ⟨total, htotal, hcount⟩, rfl⟩
      · -- one file
        obtain ⟨len, hlen, h⟩ := bind_eq_ok h
        obtain ⟨rfl, total, htotal, hcount⟩ := htail _ h
        obtain ⟨m', rfl, hm', rfl⟩ := readLengthField_ok hlen
        exact ⟨⟨_, hname, hseg⟩, ⟨m, hpl, hm, rfl, hval⟩, ⟨b, hpieces, hp⟩, by simpa using hne,
          .inl ⟨m', hl, hm', hf, rfl⟩, ⟨total, htotal, hcount⟩, rfl⟩
      · cases h
    | int n => cases h
    | list xs => cases h
    | dict d => cases h
  · cases h
/-- What a successful read of the `info` dictionary `i` took from it to build `info`:
each typed field stands in `i` as it is written back, the file entries are read from
`info.files`, and the kept keys are the rest of `i`. -/
structure ReadsInfo (i : Dict) (info : Info) : Prop where
  name_eq : Dict.get? i (key "name") = some (Value.string info.name)
  pieceLength_eq : Dict.get? i (key "piece length") = some (Info.sizeValue info.pieceLength)
  pieces_eq : Dict.get? i (key "pieces") = some (.bytes info.pieces.toBytes)
  files_eq : match info.files.layout with
    | .single => Dict.get? i (key "length") = some (Info.sizeValue info.totalSize) ∧
        Dict.get? i (key "files") = none
    | .multi => Dict.get? i (key "length") = none ∧ ∃ items,
        Dict.get? i (key "files") = some (.list items) ∧
          items.mapM readFileEntry = .ok info.files.entries
  extra_eq : info.extra = Dict.erase (Dict.erase (Dict.erase (Dict.erase
    (Dict.erase i (key "name")) (key "piece length")) (key "pieces")) (key "length")) (key "files")

theorem readsInfo_of_ofValue {i : Dict} {info : Info} (hwf : (Value.dict i).wellFormed)
    (h : Info.ofValue (.dict i) = .ok info) : ReadsInfo i info := by
  have hr := infoRead_of_ofValue h
  obtain ⟨v, hname, hseg⟩ := hr.name
  obtain ⟨m, hpl, hm, hlen, -⟩ := hr.pieceLength
  obtain ⟨b, hpieces, hp⟩ := hr.pieces
  refine ⟨by rw [hname, string_of_readSegment hseg], by rw [hpl, hlen, sizeValue_of_get? hwf hpl hm],
    by rw [hpieces, toBytes_ofBytes hp], ?_, hr.extra⟩
  obtain ⟨total, htotal, -⟩ := hr.count
  rcases hr.files with ⟨m', hl, hm', hf, hfiles⟩ | ⟨f, es, hl, hf, hes, hfiles⟩
  · -- one file: its length is the total, read from an integer of the dictionary
    have hsum : total = m'.toNat := by
      rw [hfiles, totalLen?_eq] at htotal
      split at htotal
      · cases htotal
        simp [FileList.single]
      · cases htotal
    rw [hfiles]
    refine ⟨?_, hf⟩
    rw [hl, Info.totalSize, htotal, hsum, Option.getD_some, sizeValue_of_get? hwf hl hm']
  · -- many files
    obtain ⟨items, rfl, hmap⟩ := readFileEntries_ok hes
    rw [hfiles]
    exact ⟨hl, items, hf, hmap⟩

/-! ## File entries written back -/

/-- A file entry holds no key besides `length` and `path`, the two keys it is written
back with. -/
def PlainEntry (item : Value) : Prop :=
  ∀ k, item.get? k ≠ none → k = key "length" ∨ k = key "path"

/-- Every entry of `info.files` is plain. -/
def PlainEntries (i : Dict) : Prop :=
  ∀ items, Dict.get? i (key "files") = some (.list items) → ∀ item ∈ items, PlainEntry item

theorem ascending_entry (x y : Value) : Ascending [(key "length", x), (key "path", y)] := by
  refine List.Pairwise.cons (fun e he => ?_) (List.pairwise_singleton _ _)
  rw [List.mem_singleton.mp he]
  show Bytes.compare (key "length") (key "path") = .lt
  rw [Bytes.compare, Bytes.toList_eq_data, Bytes.toList_eq_data]
  decide

theorem plainEntry_entryValue (e : FileEntry) : PlainEntry (Info.entryValue e) := by
  intro k hk
  by_cases hl : key "length" = k
  · exact Or.inl hl.symm
  by_cases hp : key "path" = k
  · exact Or.inr hp.symm
  simp only [Info.entryValue, Value.get?, Value.asDict?, Option.bind_some, get?_cons,
    if_neg hl, if_neg hp] at hk
  exact absurd rfl hk

/-- **A file entry written back.** An entry read from a well-formed `item` is written
back as `item` exactly when `item` is plain. -/
theorem entryValue_eq_iff {item : Value} {e : FileEntry} (hwf : item.wellFormed)
    (h : readFileEntry item = .ok e) : Info.entryValue e = item ↔ PlainEntry item := by
  obtain ⟨d, m, segs, rfl, hlen, hm, hle, hpath, hsegs⟩ := readFileEntry_ok h
  refine ⟨fun heq => heq ▸ plainEntry_entryValue e, fun hplain => ?_⟩
  unfold Info.entryValue
  congr 1
  refine eq_of_get?_eq (ascending_entry _ _) (ascending_of_wellFormed hwf) fun k => ?_
  rw [get?_cons, get?_cons]
  by_cases hl : key "length" = k
  · subst hl
    rw [if_pos rfl, hlen, hle, sizeValue_of_get? hwf hlen hm]
  by_cases hp : key "path" = k
  · subst hp
    -- the segments are written back as they were read
    rw [if_neg hl, if_pos rfl, hpath,
      map_of_mapM_ok (g := Value.string) (h := id) (fun _ _ _ => string_of_readSegment) hsegs,
      List.map_id]
  · -- a plain entry holds no other key
    rw [if_neg hl, if_neg hp]
    show none = Dict.get? d k
    cases hk : Dict.get? d k with
    | none => rfl
    | some w =>
      have hne : (Value.dict d).get? k ≠ none := by simp [Value.get?, Value.asDict?, hk]
      rcases hplain k hne with hk' | hk'
      · exact absurd hk'.symm hl
      · exact absurd hk'.symm hp

/-- The entries read from a list of plain, well-formed items are written back as the
items. -/
theorem map_entryValue {items : List Value} {es : List FileEntry}
    (hwf : ∀ item ∈ items, item.wellFormed) (hplain : ∀ item ∈ items, PlainEntry item)
    (h : items.mapM readFileEntry = .ok es) : es.map Info.entryValue = items := by
  rw [map_of_mapM_ok (h := id) (fun item hitem e he =>
    (entryValue_eq_iff (hwf item hitem) he).mpr (hplain item hitem)) h, List.map_id]

/-! ## The `info` dictionary written back -/

/-- Erasing the keys of the typed fields and writing values back over the rest gives
back a dictionary that held those values, when the layout key written is the one
present and the other layout key is absent. -/
theorem rebuild_eq {i : Dict} (hasc : Ascending i) {kl kn : ByteArray} {S P B L : Value}
    (hlayout : kl = key "length" ∧ kn = key "files" ∨ kl = key "files" ∧ kn = key "length")
    (hS : Dict.get? i (key "name") = some S) (hP : Dict.get? i (key "piece length") = some P)
    (hB : Dict.get? i (key "pieces") = some B) (hL : Dict.get? i kl = some L)
    (hN : Dict.get? i kn = none) :
    Dict.insert (Dict.insert (Dict.insert (Dict.insert (Dict.erase (Dict.erase (Dict.erase
      (Dict.erase (Dict.erase i (key "name")) (key "piece length")) (key "pieces"))
      (key "length")) (key "files")) (key "name") S) (key "piece length") P) (key "pieces") B)
      kl L = i := by
  refine eq_of_get?_eq ?_ hasc fun k => ?_
  · exact ascending_insert (ascending_insert (ascending_insert (ascending_insert
      (ascending_erase (ascending_erase (ascending_erase (ascending_erase
      (ascending_erase hasc _) _) _) _) _) _ _) _ _) _ _) _ _
  simp only [get?_insert, get?_erase]
  -- the keys written back look up the values written
  by_cases hl : kl = k
  · rw [if_pos hl, ← hl, hL]
  rw [if_neg hl]
  by_cases hb : key "pieces" = k
  · rw [if_pos hb, ← hb, hB]
  rw [if_neg hb]
  by_cases hp : key "piece length" = k
  · rw [if_pos hp, ← hp, hP]
  rw [if_neg hp]
  by_cases hs : key "name" = k
  · rw [if_pos hs, ← hs, hS]
  rw [if_neg hs]
  -- an erased layout key that is not written back is the absent one
  by_cases hf : key "files" = k
  · rw [if_pos hf, ← hf]
    rcases hlayout with ⟨rfl, rfl⟩ | ⟨rfl, -⟩
    · exact hN.symm
    · exact absurd hf hl
  rw [if_neg hf]
  by_cases hlen : key "length" = k
  · rw [if_pos hlen, ← hlen]
    rcases hlayout with ⟨rfl, -⟩ | ⟨rfl, rfl⟩
    · exact absurd hlen hl
    · exact hN.symm
  rw [if_neg hlen, if_neg hb, if_neg hp, if_neg hs]

/-- **The `info` dictionary written back.** The `info` dictionary read from a
well-formed `i` is written back as `i` exactly when the file entries of `i` are
plain. -/
theorem infoToValue_eq_iff {i : Dict} {info : Info} (hwf : (Value.dict i).wellFormed)
    (h : Info.ofValue (.dict i) = .ok info) : info.toValue = .dict i ↔ PlainEntries i := by
  have hr := readsInfo_of_ofValue hwf h
  have hasc := ascending_of_wellFormed hwf
  have hfiles := hr.files_eq
  simp only [Info.toValue]
  rw [hr.extra_eq]
  cases hlay : info.files.layout with
  | single =>
    rw [hlay] at hfiles
    obtain ⟨hlen, hnone⟩ := hfiles
    -- a single file has no entry to lose
    have hplain : PlainEntries i := fun items hitems => by
      rw [hnone] at hitems
      cases hitems
    refine ⟨fun _ => hplain, fun _ => ?_⟩
    exact congrArg Value.dict
      (rebuild_eq hasc (Or.inl ⟨rfl, rfl⟩) hr.name_eq hr.pieceLength_eq hr.pieces_eq hlen hnone)
  | multi =>
    rw [hlay] at hfiles
    obtain ⟨hlen, items, hitems, hmap⟩ := hfiles
    dsimp only
    constructor
    · -- the entries written back are plain, and they stand where the items stood
      intro heq items' hitems' item hitem
      have hback : Dict.get? i (key "files") =
          some (.list (info.files.entries.map Info.entryValue)) := by
        rw [← Value.dict.inj heq, Dict.get?_insert_self]
      rw [hback] at hitems'
      cases hitems'
      obtain ⟨e, -, rfl⟩ := List.mem_map.mp hitem
      exact plainEntry_entryValue e
    · intro hplain
      have hitemsWf : ∀ item ∈ items, item.wellFormed :=
        (Value.wellFormed_list items).mp (wellFormed_of_get? hwf hitems)
      refine congrArg Value.dict
        (rebuild_eq hasc (Or.inr ⟨rfl, rfl⟩) hr.name_eq hr.pieceLength_eq hr.pieces_eq ?_ hlen)
      rw [hitems, map_entryValue hitemsWf (hplain items hitems) hmap]

/-! ## The metainfo value written back -/

/-- What a successful read of metainfo took: a dictionary with an `info` dictionary,
read as the torrent's `info`, the other keys kept. -/
theorem Torrent.ofValue_ok {v : Value} {t : Torrent} (h : Torrent.ofValue v = .ok t) :
    ∃ d i, v = .dict d ∧ Dict.get? d (key "info") = some (.dict i) ∧
      Info.ofValue (.dict i) = .ok t.info ∧ t.extra = Dict.erase d (key "info") := by
  cases v with
  | dict d =>
    simp only [Torrent.ofValue] at h
    obtain ⟨⟨infoValue, d1⟩, htake, h⟩ := bind_eq_ok h
    obtain ⟨hinfo, rfl⟩ := takeField_ok htake
    obtain ⟨info, hread, h⟩ := bind_eq_ok h
    cases h
    -- only a dictionary is read as `info`
    cases infoValue with
    | dict i => exact ⟨d, i, rfl, hinfo, hread, rfl⟩
    | bytes b => cases hread
    | int n => cases hread
    | list xs => cases hread
  | bytes b => cases h
  | int n => cases h
  | list xs => cases h

/-- **Metainfo written back.** A torrent read from a well-formed value `v` is written
back as `v` exactly when the file entries of the `info` dictionary of `v` are plain. -/
theorem toValue_eq_iff {v : Value} {t : Torrent} {i : Dict} (hwf : v.wellFormed)
    (h : Torrent.ofValue v = .ok t) (hi : infoDict? v = some i) :
    t.toValue = v ↔ PlainEntries i := by
  obtain ⟨d, i', rfl, hinfo, hread, hextra⟩ := Torrent.ofValue_ok h
  have hi' : i' = i := by simpa [infoDict?, Value.asDict?, hinfo] using hi
  subst hi'
  rw [← infoToValue_eq_iff (wellFormed_of_get? hwf hinfo) hread]
  unfold Torrent.toValue
  rw [hextra]
  constructor
  · -- `info` looks up what was written under it
    intro heq
    have hback : Dict.get? d (key "info") = some t.info.toValue := by
      rw [← Value.dict.inj heq, Dict.get?_insert_self]
    rw [hinfo] at hback
    exact (Option.some.inj hback).symm
  · intro heq
    rw [heq, insert_erase_self (ascending_of_wellFormed hwf) hinfo]

/-! ## Bytes written back -/

theorem Torrent.ofBytes_ok {data : ByteArray} {t : Torrent} (h : Torrent.ofBytes data = .ok t) :
    ∃ v, decode data = .ok v ∧ Torrent.ofValue v = .ok t := by
  unfold Torrent.ofBytes at h
  split at h
  · cases h
  · rename_i v hv
    exact ⟨v, hv, h⟩

theorem size_lengthPrefix (n : Nat) : (lengthPrefix n).size = (Bytes.decimal n).length + 1 := by
  rw [← Bytes.length_toList, toList_lengthPrefix, List.length_append, List.length_singleton]

/-- Where the input decodes to a dictionary whose `info` dictionary holds the byte
string `b` under `pieces`, the pieces read straight from the input are `b`. -/
theorem rawPieces_of_decode {data : ByteArray} {d i : Dict} {b : ByteArray}
    (hv : decode data = .ok (.dict d)) (hinfo : Dict.get? d (key "info") = some (.dict i))
    (hb : Dict.get? i (key "pieces") = some (.bytes b)) : rawPieces data = .ok b := by
  have hfollow : (Value.dict d).follow [key "info", key "pieces"] = some (.bytes b) := by
    simp [Value.follow, Value.get?, Value.asDict?, hinfo, hb]
  have hloc := locate_of_decode_ok hv [key "info", key "pieces"]
  rw [hfollow] at hloc
  obtain ⟨s, e, hloc, hext, -⟩ := hloc
  -- the located bytes are the length prefix, the colon and `b`
  have hcolon : Bytes.findFrom (Value.bytes b).encode (ascii ':') 0 =
      some (Bytes.decimal b.size).length := by
    have hfound := @Bytes.findFrom_of_after (Value.bytes b).encode (ascii ':') 0
      (Bytes.decimal b.size) b.toList (by rw [Bytes.after_zero, toList_encode_bytes])
      (not_mem_decimal (by decide) _)
    rwa [Nat.zero_add] at hfound
  obtain ⟨c, t, hct, hdig⟩ := encode_bytes_head b
  unfold rawPieces
  rw [hloc]
  simp only [hext, hct, hcolon, hdig, ↓reduceIte]
  rw [encode_bytes, ByteArray.extract_append_eq_right (by rw [size_lengthPrefix])
    ByteArray.size_append]

/-- **Reading is lossless but for the extra keys of file entries.** For input read as
the torrent `t`: the `pieces` read straight from the input are `t`'s digests; and, with
`i` the `info` dictionary of the input, `t` is written back as the input, and the
input's `info` bytes are the bytes whose digest is `t.infoHash`, each exactly when the
file entries of `i` are plain. -/
theorem ofBytes_writes_back {data : ByteArray} {t : Torrent}
    (h : Torrent.ofBytes data = .ok t) :
    rawPieces data = .ok t.info.pieces.toBytes ∧
    ∃ v i raw, decode data = .ok v ∧ infoDict? v = some i ∧
      rawInfoHash data = .ok (Sha1.digest raw) ∧
      (t.toBytes = data ↔ PlainEntries i) ∧ (raw = t.info.toValue.encode ↔ PlainEntries i) := by
  obtain ⟨v, hv, ht⟩ := Torrent.ofBytes_ok h
  obtain ⟨hwf, -, hdata⟩ := decode_eq_ok_iff.mp hv
  obtain ⟨d, i, rfl, hinfo, hread, -⟩ := Torrent.ofValue_ok ht
  have hi : infoDict? (.dict d) = some i := by simp [infoDict?, Value.asDict?, hinfo]
  have hiwf : (Value.dict i).wellFormed := wellFormed_of_get? hwf hinfo
  -- the `info` value sits in the input as its encoding
  have hloc := locate_of_decode_ok hv [key "info"]
  have hfollow : (Value.dict d).follow [key "info"] = some (.dict i) := by
    simp [Value.follow, Value.get?, Value.asDict?, hinfo]
  rw [hfollow] at hloc
  obtain ⟨a, b, hloc, hext, -⟩ := hloc
  refine ⟨rawPieces_of_decode hv hinfo (readsInfo_of_ofValue hiwf hread).pieces_eq,
    .dict d, i, data.extract a b, hv, hi, ?_, ?_, ?_⟩
  · unfold rawInfoHash
    rw [hloc]
  · -- bytes are equal exactly when the values they encode are
    rw [← toValue_eq_iff hwf ht hi, Torrent.toBytes, hdata]
    exact ⟨encode_injective, fun heq => by rw [heq]⟩
  · rw [hext, ← infoToValue_eq_iff hiwf hread]
    exact ⟨fun heq => (encode_injective heq).symm, fun heq => by rw [heq]⟩

/-- A file entry that also holds an `md5` key. -/
def md5Entry : Value :=
  .dict [(key "length", .int 1), (key "md5", Value.string "x"),
    (key "path", .list [Value.string "a"])]

/-- Metainfo with that one file entry. -/
def md5Sample : Value :=
  .dict [(key "info", .dict [(key "files", .list [md5Entry]), (key "name", Value.string "a"),
    (key "piece length", .int 16384), (key "pieces", Value.string "xxxxxxxxxxxxxxxxxxxx")])]

/-- The sample is read as a torrent, and its `md5` key is lost when it is written
back. -/
theorem md5_entry_not_written_back :
    ∃ t, Torrent.ofBytes md5Sample.encode = .ok t ∧
      rawPieces md5Sample.encode = .ok t.info.pieces.toBytes ∧ t.toBytes ≠ md5Sample.encode := by
  have hwf : md5Sample.wellFormed := by
    simp only [md5Sample, md5Entry, Value.wellFormed_dict, Value.entriesWellFormed_cons,
      Value.entriesWellFormed_nil, Value.wellFormed_list, keyFollows, Bytes.compare,
      Bytes.toList_eq_data, Value.string, Value.wellFormed_bytes, Value.wellFormed_int,
      List.forall_mem_cons, List.not_mem_nil, false_implies, implies_true, and_true]
    decide
  have hv : decode md5Sample.encode = .ok md5Sample :=
    decode_eq_ok_iff.mpr ⟨hwf, by decide, rfl⟩
  obtain ⟨t, ht⟩ := (agrees_ofValue md5Sample).ok_iff.mpr (by decide)
  have h : Torrent.ofBytes md5Sample.encode = .ok t := by
    rw [Torrent.ofBytes, hv]
    exact ht
  obtain ⟨hpieces, v, i, -, hv', hi, -, hbytes, -⟩ := ofBytes_writes_back h
  rw [hv] at hv'
  cases hv'
  refine ⟨t, h, hpieces, fun heq => ?_⟩
  -- written back as read would make the entry plain, but it holds `md5`
  have hplain := hbytes.mp heq
  simp only [md5Sample, infoDict?, Value.asDict?, Option.bind_some, get?_cons, ↓reduceIte,
    Option.some.injEq] at hi
  subst hi
  have hmd5 := hplain [md5Entry] (by decide) md5Entry List.mem_cons_self (key "md5") (by decide)
  exact absurd hmd5 (by decide)

/-- The same metainfo with a plain file entry: its length and path only. -/
def plainSample : Value :=
  .dict [(key "info", .dict [(key "files",
      .list [.dict [(key "length", .int 1), (key "path", .list [Value.string "a"])]]),
    (key "name", Value.string "a"), (key "piece length", .int 16384),
    (key "pieces", Value.string "xxxxxxxxxxxxxxxxxxxx")])]

/-- With a plain file entry the sample is read as a torrent that is written back byte for
byte. -/
theorem plainEntry_written_back :
    ∃ t, Torrent.ofBytes plainSample.encode = .ok t ∧ t.toBytes = plainSample.encode := by
  have hwf : plainSample.wellFormed := by
    simp only [plainSample, Value.wellFormed_dict, Value.entriesWellFormed_cons,
      Value.entriesWellFormed_nil, Value.wellFormed_list, keyFollows, Bytes.compare,
      Bytes.toList_eq_data, Value.string, Value.wellFormed_bytes, Value.wellFormed_int,
      List.forall_mem_cons, List.not_mem_nil, false_implies, implies_true, and_true]
    decide
  have hv : decode plainSample.encode = .ok plainSample :=
    decode_eq_ok_iff.mpr ⟨hwf, by decide, rfl⟩
  obtain ⟨t, ht⟩ := (agrees_ofValue plainSample).ok_iff.mpr (by decide)
  have h : Torrent.ofBytes plainSample.encode = .ok t := by
    rw [Torrent.ofBytes, hv]
    exact ht
  obtain ⟨-, v, i, -, hv', hi, -, hbytes, -⟩ := ofBytes_writes_back h
  rw [hv] at hv'
  cases hv'
  simp only [plainSample, infoDict?, Value.asDict?, Option.bind_some, get?_cons, ↓reduceIte,
    Option.some.injEq] at hi
  subst hi
  -- the one entry holds `length` and `path` and nothing else
  refine ⟨t, h, hbytes.mpr fun items hitems item hitem k hk => ?_⟩
  simp only [get?_cons, if_pos, Option.some.injEq, Value.list.injEq] at hitems
  subst hitems
  rw [List.mem_singleton.mp hitem] at hk
  by_cases hlen : key "length" = k
  · exact .inl hlen.symm
  · by_cases hpath : key "path" = k
    · exact .inr hpath.symm
    · simp [Value.get?, Value.asDict?, hlen, hpath, Dict.get?] at hk

end Metainfo
