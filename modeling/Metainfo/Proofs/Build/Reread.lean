import Metainfo.Build.Builder
import Metainfo.Proofs.Content.HashVerify
import Metainfo.Proofs.Torrent.Reparse

/-!
# Built torrents read back

`buildTorrent` scans a source, settles a name and a piece size, hashes the content and
assembles a torrent, and checks none of what it writes against the reader's rules. This
module says what a successful build holds and exactly when its bytes read back:

* `specFor_eq_ok`, `size_specFor`: the piece size is `2^e` for the exponent asked for,
  which lies from 14 to 26, or the size chosen for the total; either way a power of two
  the reader accepts;
* `planBuild_eq_ok`, `hashPlan_eq_ok_iff`, `buildTorrent_eq_ok`: one inversion lemma for
  each step of the build; hashing a plan succeeds exactly when every non-empty file is on
  disk, and then gives the digests of the content;
* `valid_of_buildTorrent`, `depth_toValue_le`, `get?_extraKeys_info`: what the reader asks of a
  built torrent holds once its name and path segments are path segments and its lengths
  are signed 64-bit numbers; the rest (piece size, digests, layout, total, nesting, keys)
  the build guarantees by itself;
* `buildTorrent_rereads`: the piece size and count of every built torrent, and its bytes
  read back to it exactly when its value is well formed, its name and every path segment
  are path segments and every length is a signed 64-bit number. The builder takes a name
  as it is given, so a name with a `/` builds a torrent that does not read back
  (`slashName_not_reread`).
-/

namespace Metainfo

open Bencode

/-! ## The piece size -/

namespace Piece

/-- A power of two with an exponent from 14 to 26 is a size the reader accepts. -/
theorem pow_accepted {e : Nat} (hlo : expMin ≤ e) (hhi : e ≤ expMax) :
    (2 ^ e).isPowerOfTwo ∧ sizeMin ≤ 2 ^ e ∧ 2 ^ e ≤ sizeMax := by
  have hmin : sizeMin = 2 ^ expMin := rfl
  have hmax : sizeMax = 2 ^ expMax := rfl
  rw [hmin, hmax]
  exact ⟨⟨e, rfl⟩, Nat.pow_le_pow_right (by omega) hlo, Nat.pow_le_pow_right (by omega) hhi⟩

/-- The size chosen for a total has an exponent from 14 to 26. -/
theorem exists_forTotal (total : Nat) :
    ∃ e, expMin ≤ e ∧ e ≤ expMax ∧ (Spec.forTotal total).size = 2 ^ e := by
  refine ⟨min expMax (max expMin (exponentFor total)), ?_, ?_, rfl⟩
  · simp only [expMin, expMax]
    omega
  · exact Nat.min_le_left _ _

theorem sizeOfExponent_eq_ok {e size : Nat} (h : sizeOfExponent e = .ok size) :
    expMin ≤ e ∧ e ≤ expMax ∧ size = 2 ^ e := by
  unfold sizeOfExponent at h
  split at h
  · cases h
  · cases h
    exact ⟨by omega, by omega, rfl⟩

theorem Spec.new_eq_ok {size total : Nat} {spec : Spec} (h : Spec.new size total = .ok spec) :
    spec = ⟨size, Piece.count total size⟩ := by
  obtain ⟨size', hval, hspec⟩ := bind_eq_ok h
  obtain ⟨rfl, -⟩ := validate_eq_ok_iff.mp hval
  cases hspec
  rfl

end Piece

section Plan

variable {opts : BuildOptions} {total : Nat} {spec : Piece.Spec}

/-- **The piece size settled.** The exponent asked for, which lies from 14 to 26, or the
size chosen for the total; and the count of pieces that size gives. -/
theorem specFor_eq_ok (h : specFor opts total = .ok spec) :
    spec.count = Piece.count total spec.size ∧
      (∀ e, opts.pieceLength = some e →
        Piece.expMin ≤ e ∧ e ≤ Piece.expMax ∧ spec.size = 2 ^ e) ∧
      (opts.pieceLength = none → spec = Piece.Spec.forTotal total) := by
  unfold specFor at h
  cases hpl : opts.pieceLength with
  | none =>
    simp only [hpl, Except.ok.injEq] at h
    subst h
    exact ⟨rfl, fun e he => (nomatch he), fun _ => rfl⟩
  | some e =>
    simp only [hpl] at h
    cases hsz : Piece.sizeOfExponent e with
    | error err =>
      rw [hsz] at h
      cases h
    | ok size =>
      rw [hsz] at h
      dsimp only at h
      obtain ⟨hlo, hhi, rfl⟩ := Piece.sizeOfExponent_eq_ok hsz
      -- the exponent's power passes the size rules, so the spec is made
      cases hnew : Piece.Spec.new (2 ^ e) total with
      | error err =>
        rw [hnew] at h
        cases h
      | ok spec' =>
        rw [hnew] at h
        cases h
        cases Piece.Spec.new_eq_ok hnew
        refine ⟨rfl, fun e' he' => ?_, fun hnone => nomatch hnone⟩
        cases he'
        exact ⟨hlo, hhi, rfl⟩

theorem size_specFor (h : specFor opts total = .ok spec) :
    spec.size.isPowerOfTwo ∧ Piece.sizeMin ≤ spec.size ∧ spec.size ≤ Piece.sizeMax := by
  obtain ⟨-, hsome, hnone⟩ := specFor_eq_ok h
  cases hpl : opts.pieceLength with
  | some e =>
    obtain ⟨hlo, hhi, hsize⟩ := hsome e hpl
    rw [hsize]
    exact Piece.pow_accepted hlo hhi
  | none =>
    obtain ⟨e, hlo, hhi, hsize⟩ := Piece.exists_forTotal total
    rw [hnone hpl, hsize]
    exact Piece.pow_accepted hlo hhi

end Plan

/-! ## The files of a scan -/

/-- Every file collected below a directory lies below it, under a name of its own. -/
theorem Disk.path_ne_nil_of_mem_collect (d : Disk) (exclude : Option Loc) :
    ∀ (fuel : Nat) (dir rel : Loc) {e : WalkEntry},
      e ∈ d.collect exclude fuel dir rel → e.rel ≠ []
  | 0, _, _, _, he => by cases he
  | fuel + 1, dir, rel, e, he => by
    unfold Disk.collect at he
    obtain ⟨name, -, he⟩ := List.mem_flatMap.mp he
    unfold Disk.visit at he
    dsimp only at he
    split at he
    · cases he
    · split at he
      · exact path_ne_nil_of_mem_collect d exclude fuel _ _ he
      · split at he
        · cases he
        · rw [List.mem_singleton.mp he]
          simp
      · split at he
        · cases he
        · rw [List.mem_singleton.mp he]
          simp
      · cases he

/-- A scan gives one file named after the source, or a non-empty list of files each
under a non-empty path. -/
theorem scanFiles_eq_ok {d : Disk} {rootName source : String} {output : Option String}
    {scan : Scan} (h : scanFiles d rootName source output = .ok scan) :
    (scan.files.layout = .single ∧ ∃ len, scan.files.entries = [⟨[scan.name], len⟩]) ∨
      (scan.files.layout = .multi ∧ scan.files.entries ≠ [] ∧
        ∀ e ∈ scan.files.entries, e.path ≠ []) := by
  unfold scanFiles at h
  obtain ⟨loc, -, h⟩ := bind_eq_ok h
  dsimp only at h
  split at h
  · cases h
    exact .inl ⟨rfl, _, rfl⟩
  · split at h
    · cases h
    · rename_i hne
      cases h
      refine .inr ⟨rfl, ?_, fun e he => ?_⟩
      · -- sorting keeps every file
        obtain ⟨x, hx⟩ := List.exists_mem_of_ne_nil _ fun hnil => hne (List.isEmpty_iff.mpr hnil)
        exact List.ne_nil_of_mem (List.mem_mergeSort.mpr hx)
      · obtain ⟨w, hw, rfl⟩ := List.mem_map.mp (List.mem_mergeSort.mp he)
        simpa [WalkEntry.entry] using Disk.path_ne_nil_of_mem_collect d _ _ loc [] hw

/-! ## The steps of a build -/

section Steps

variable {d : Disk} {rootName source : String} {output : Option String} {opts : BuildOptions}
  {w interval : Nat} {now : Int}

/-- **Planning a build.** A plan comes from a scan whose total fits in 64 bits and is
positive; it takes the name asked for or else the scan's, renames the one file of a single
layout after it, and takes the piece size settled for the total. -/
theorem planBuild_eq_ok {plan : BuildPlan}
    (h : planBuild d rootName source output opts = .ok plan) :
    ∃ scan, scanFiles d rootName source output = .ok scan ∧
      scan.files.totalLen? = some plan.totalSize ∧ plan.totalSize ≠ 0 ∧
      specFor opts plan.totalSize = .ok plan.spec ∧
      plan.name = opts.name.getD scan.name ∧ plan.content = scan.content ∧
      plan.files = (match scan.files.layout with
        | .single => FileList.single plan.name plan.totalSize
        | .multi => scan.files) := by
  unfold planBuild at h
  obtain ⟨scan, hscan, h⟩ := bind_eq_ok h
  cases htotal : scan.files.totalLen? with
  | none =>
    rw [htotal] at h
    cases h
  | some total =>
    rw [htotal] at h
    dsimp only at h
    by_cases hzero : total = 0
    · rw [if_pos hzero] at h
      cases h
    · rw [if_neg hzero] at h
      obtain ⟨spec, hspec, h⟩ := bind_eq_ok h
      cases h
      refine ⟨scan, hscan, htotal, hzero, hspec, rfl, rfl, ?_⟩
      cases scan.files.layout <;> rfl

/-- **Hashing a plan.** It succeeds exactly when the plan's stream can be made and every
non-empty file is on disk with its length, and then gives the digests of the content. -/
theorem hashPlan_eq_ok_iff {plan : BuildPlan} {pieces : HashList} :
    hashPlan d plan w interval = .ok pieces ↔
      ∃ s, Stream.new plan.files plan.spec.size plan.content = .ok s ∧ s.Present d ∧
        pieces = ⟨(List.range s.pieceCount).map (s.pieceDigest d)⟩ := by
  unfold hashPlan
  cases hnew : Stream.new plan.files plan.spec.size plan.content with
  | error e => simp
  | ok s =>
    have hs := Stream.valid_of_new hnew
    have hhash : (hashPieces d s w interval (fun (u : Unit) _ => (u, Flow.proceed)) ()).2 =
        s.hashReference d := hashPieces_eq_hashReference hs fun _ _ => rfl
    simp only [Except.ok.injEq, exists_eq_left', hhash]
    rw [← Stream.hashReference_eq_complete_iff hs]
    cases s.hashReference d <;> simp [eq_comm]

theorem buildTorrent_eq_ok {t : Torrent}
    (h : buildTorrent d rootName source output opts w interval now = .ok t) :
    ∃ plan pieces, planBuild d rootName source output opts = .ok plan ∧
      hashPlan d plan w interval = .ok pieces ∧ t = assemble plan pieces opts now := by
  unfold buildTorrent at h
  obtain ⟨plan, hplan, h⟩ := bind_eq_ok h
  obtain ⟨pieces, hpieces, h⟩ := bind_eq_ok h
  cases h
  exact ⟨plan, pieces, hplan, hpieces, rfl⟩

end Steps

/-! ## What a build holds -/

theorem Stream.fields_of_new {files : FileList} {size : Nat} {content : String} {s : Stream}
    (h : Stream.new files size content = .ok s) : s.files = files ∧ s.pieceSize = size := by
  obtain ⟨-, -, hs⟩ := Stream.new_eq_ok h
  rw [hs]
  exact ⟨rfl, rfl⟩

/-- **The files of a plan.** The one file of a single layout is named after the plan; a
multi layout has files, each under a non-empty path; the lengths add up to the total,
which is positive and fits in 64 bits. -/
theorem files_of_planBuild {d : Disk} {rootName source : String} {output : Option String}
    {opts : BuildOptions} {plan : BuildPlan}
    (h : planBuild d rootName source output opts = .ok plan) :
    (plan.files.layout = .single → plan.files.entries = [⟨[plan.name], plan.totalSize⟩]) ∧
      (plan.files.layout = .multi →
        plan.files.entries ≠ [] ∧ ∀ e ∈ plan.files.entries, e.path ≠ []) ∧
      (plan.files.entries.map FileEntry.len).sum = plan.totalSize ∧
      plan.totalSize ≤ FileList.u64Max ∧ plan.totalSize ≠ 0 := by
  obtain ⟨scan, hscan, htotal, hzero, -, -, -, hfiles⟩ := planBuild_eq_ok h
  rw [totalLen?_eq] at htotal
  have hsum : (scan.files.entries.map FileEntry.len).sum = plan.totalSize ∧
      plan.totalSize ≤ FileList.u64Max := by
    split at htotal
    · rename_i hle
      have heq := Option.some.inj htotal
      exact ⟨heq, heq ▸ hle⟩
    · cases htotal
  rcases scanFiles_eq_ok hscan with ⟨hl, -⟩ | ⟨hl, hne, hpaths⟩
  · -- one file, renamed after the plan
    simp only [hl] at hfiles
    rw [hfiles]
    exact ⟨fun _ => rfl, (fun hm => nomatch hm), by simp [FileList.single], hsum.2, hzero⟩
  · simp only [hl] at hfiles
    rw [hfiles]
    exact ⟨(fun hs => by rw [hl] at hs; cases hs), fun _ => ⟨hne, hpaths⟩, hsum.1, hsum.2, hzero⟩

section Built

variable {d : Disk} {rootName source : String} {output : Option String} {opts : BuildOptions}
  {w interval : Nat} {now : Int} {t : Torrent}

/-- **The digests of a build.** One for each piece of the content, and at least one. -/
theorem pieces_of_buildTorrent
    (h : buildTorrent d rootName source output opts w interval now = .ok t) :
    0 < t.info.pieces.length ∧
      t.info.pieces.length =
        Piece.count (t.info.files.entries.map FileEntry.len).sum t.info.pieceLength := by
  obtain ⟨plan, pieces, hplan, hpieces, rfl⟩ := buildTorrent_eq_ok h
  obtain ⟨-, -, hsum, -, hzero⟩ := files_of_planBuild hplan
  obtain ⟨s, hnew, -, rfl⟩ := hashPlan_eq_ok_iff.mp hpieces
  have hs := Stream.valid_of_new hnew
  obtain ⟨hfiles, hsize⟩ := Stream.fields_of_new hnew
  -- the stream is the plan's files laid end to end, in pieces of the plan's size
  have htotal : s.total = plan.totalSize := by
    rw [hs.total_eq, hfiles, hsum]
  have hlen : HashList.length ⟨(List.range s.pieceCount).map (s.pieceDigest d)⟩ = s.pieceCount := by
    simp [HashList.length]
  simp only [assemble]
  refine ⟨?_, ?_⟩
  · rw [hlen]
    exact Stream.pieceCount_pos hs (by omega)
  · rw [hlen, hsum, ← htotal, ← hsize]
    rfl

/-- **The info of a build keeps the reader's rules** once its name and path segments are
path segments and its lengths are signed 64-bit numbers. -/
theorem valid_of_buildTorrent
    (h : buildTorrent d rootName source output opts w interval now = .ok t)
    (hname : Segment t.info.name) (hsegs : ∀ e ∈ t.info.files.entries, ∀ s ∈ e.path, Segment s)
    (hlens : ∀ e ∈ t.info.files.entries, (e.len : Int) ≤ Value.maxInt) : t.info.Valid := by
  obtain ⟨hpos, hcount⟩ := pieces_of_buildTorrent h
  obtain ⟨plan, pieces, hplan, -, rfl⟩ := buildTorrent_eq_ok h
  obtain ⟨-, -, -, -, hspec, -, -, -⟩ := planBuild_eq_ok hplan
  obtain ⟨hsingle, hmulti, hsum, hmax, -⟩ := files_of_planBuild hplan
  refine ⟨hname, size_specFor hspec, ⟨hpos, hcount⟩, fun hl => ⟨_, hsingle hl⟩, fun hl => ?_,
    hlens, hsum ▸ hmax⟩
  obtain ⟨hne, hpaths⟩ := hmulti hl
  exact ⟨hne, fun e he => ⟨hpaths e he, hsegs e he⟩⟩

/-! ## Nesting and keys -/

theorem depth_dict_le {es : List (ByteArray × Value)} {m : Nat} (h : ∀ e ∈ es, e.2.depth < m) :
    (Value.dict es).depth ≤ m := by
  have hle := (Value.add_depth_dict_le es 0 m).mpr
    ⟨Nat.zero_le m, fun e he => by have := h e he; omega⟩
  omega

theorem depth_list_le {xs : List Value} {m : Nat} (h : ∀ x ∈ xs, x.depth < m) :
    (Value.list xs).depth ≤ m := by
  have hle := (Value.add_depth_list_le xs 0 m).mpr
    ⟨Nat.zero_le m, fun x hx => by have := h x hx; omega⟩
  omega

theorem depth_strings (l : List String) : (Value.list (l.map Value.string)).depth ≤ 1 :=
  depth_list_le fun x hx => by
    obtain ⟨s, -, rfl⟩ := List.mem_map.mp hx
    simp [Value.string]

theorem forall_mem_insert {P : ByteArray × Value → Prop} {es : Dict} {k : ByteArray} {v : Value}
    (hes : ∀ e ∈ es, P e) (hv : P (k, v)) : ∀ e ∈ Dict.insert es k v, P e := fun e he =>
  (mem_insert he).elim (fun heq => heq ▸ hv) (hes e)

/-- Every top-level key a build writes is its own, never `info`, and holds a text, the
date or the tracker tiers, nested at most two deep. -/
theorem mem_extraKeys {e : ByteArray × Value} (he : e ∈ extraKeys opts now) :
    e.1 ≠ key "info" ∧ e.2.depth ≤ 2 := by
  have htiers : (Value.list ((trackerTiers opts.announce).map fun t =>
      .list (t.map Value.string))).depth ≤ 2 :=
    depth_list_le fun x hx => by
      obtain ⟨l, -, rfl⟩ := List.mem_map.mp hx
      have := depth_strings l
      omega
  simp only [extraKeys] at he
  -- peel the inserts off from the last one; each step inserts one key or none
  repeat' (first
    | exact absurd he List.not_mem_nil
    | obtain rfl | he := mem_insert he
    | split at he)
  all_goals exact ⟨by simp [key_inj], by simp [Value.string, htiers]⟩

theorem depth_entryValue (e : FileEntry) : (Info.entryValue e).depth ≤ 2 :=
  depth_dict_le fun x hx => by
    simp only [List.mem_cons, List.not_mem_nil, or_false] at hx
    rcases hx with rfl | rfl
    · simp [Info.sizeValue]
    · have := depth_strings e.path
      simp only at this ⊢
      omega

/-- The `info` of a build nests four deep at most: its file list holds dictionaries of
lists of texts. -/
theorem depth_infoToValue {i : Info} (hextra : ∀ e ∈ i.extra, e.2.depth ≤ 3) :
    i.toValue.depth ≤ 4 := by
  have hbase : ∀ e ∈ Dict.insert (Dict.insert (Dict.insert i.extra (key "name")
      (Value.string i.name)) (key "piece length") (Info.sizeValue i.pieceLength)) (key "pieces")
      (.bytes i.pieces.toBytes), e.2.depth < 4 :=
    forall_mem_insert (forall_mem_insert (forall_mem_insert
      (fun e he => by have := hextra e he; omega) (by simp [Value.string]))
      (by simp [Info.sizeValue])) (by simp)
  unfold Info.toValue
  apply depth_dict_le
  split
  · exact forall_mem_insert hbase (by simp [Info.sizeValue])
  · refine forall_mem_insert hbase ?_
    have hfiles : (Value.list (i.files.entries.map Info.entryValue)).depth ≤ 3 :=
      depth_list_le fun x hx => by
        obtain ⟨e, -, rfl⟩ := List.mem_map.mp hx
        have := depth_entryValue e
        omega
    simp only
    omega

/-- **A built torrent nests five deep at most**, far within what the reader goes. -/
theorem depth_toValue_le (h : buildTorrent d rootName source output opts w interval now = .ok t) :
    t.toValue.depth ≤ 5 := by
  obtain ⟨plan, pieces, -, -, rfl⟩ := buildTorrent_eq_ok h
  have hinfo : (assemble plan pieces opts now).info.toValue.depth ≤ 4 := by
    apply depth_infoToValue
    intro e he
    simp only [assemble] at he
    split at he
    · simp only [List.mem_cons, List.not_mem_nil, or_false] at he
      subst he
      simp
    · exact absurd he List.not_mem_nil
  apply depth_dict_le
  refine forall_mem_insert (fun e he => ?_) (by simp only; omega)
  have := (mem_extraKeys he).2
  omega

theorem get?_extraKeys_info : Dict.get? (extraKeys opts now) (key "info") = none :=
  get?_eq_none_of_forall_ne fun _ he => (mem_extraKeys he).1

/-- The `info` of a build keeps none of the typed keys: at most the `private` flag. -/
theorem infoKeys_of_buildTorrent
    (h : buildTorrent d rootName source output opts w interval now = .ok t) :
    ∀ k ∈ typedKeys, Dict.get? t.info.extra (key k) = none := by
  obtain ⟨plan, pieces, -, -, rfl⟩ := buildTorrent_eq_ok h
  intro k hk
  simp only [typedKeys, List.mem_cons, List.not_mem_nil, or_false] at hk
  simp only [assemble]
  split
  · simp only [Dict.get?, key_inj]
    rcases hk with rfl | rfl | rfl | rfl | rfl <;> decide
  · rfl

end Built

/-- A torrent read back from its own bytes has a well-formed value. -/
theorem wellFormed_of_ofBytes {t : Torrent} (h : Torrent.ofBytes t.toBytes = .ok t) :
    t.toValue.wellFormed := by
  obtain ⟨v, hv, -⟩ := Torrent.ofBytes_ok h
  obtain ⟨hwf, -, hbytes⟩ := decode_eq_ok_iff.mp hv
  obtain rfl : v = t.toValue := (encode_injective hbytes).symm
  exact hwf

/-- Every path segment of a valid info is a path segment, in either layout: the one file
of a single layout is named by the info's name. -/
theorem Info.Valid.segment_of_mem {i : Info} (hv : i.Valid) {e : FileEntry}
    (he : e ∈ i.files.entries) {s : String} (hs : s ∈ e.path) : Segment s := by
  cases hl : i.files.layout with
  | single =>
    obtain ⟨len, hentries⟩ := hv.single hl
    rw [hentries, List.mem_singleton] at he
    subst he
    rw [List.mem_singleton] at hs
    exact hs ▸ hv.name
  | multi => exact ((hv.multi hl).2 e he).2 s hs

/-- **Built torrents read back.** Every torrent a build gives has the piece size of the
exponent asked for, which lies from 14 to 26, or else the size chosen for its total, and
one digest for each piece of its content. Its bytes read back to it exactly when its value
is well formed (integers are signed 64-bit numbers and byte strings are shorter than `2^64`
bytes), its name and every segment of its paths are path segments, and every length is a
signed 64-bit number: the build checks none of these itself. -/
theorem buildTorrent_rereads (d : Disk) (rootName source : String) (output : Option String)
    (opts : BuildOptions) (w interval : Nat) (now : Int) {t : Torrent}
    (h : buildTorrent d rootName source output opts w interval now = .ok t) :
    (∀ e, opts.pieceLength = some e →
      Piece.expMin ≤ e ∧ e ≤ Piece.expMax ∧ t.info.pieceLength = 2 ^ e) ∧
    (opts.pieceLength = none → t.info.pieceLength =
      (Piece.Spec.forTotal (t.info.files.entries.map FileEntry.len).sum).size) ∧
    t.info.pieces.length =
      Piece.count (t.info.files.entries.map FileEntry.len).sum t.info.pieceLength ∧
    (Torrent.ofBytes t.toBytes = .ok t ↔ t.toValue.wellFormed ∧ Segment t.info.name ∧
      (∀ e ∈ t.info.files.entries, ∀ s ∈ e.path, Segment s) ∧
      ∀ e ∈ t.info.files.entries, (e.len : Int) ≤ Value.maxInt) := by
  obtain ⟨-, hcount⟩ := pieces_of_buildTorrent h
  have hdepth := depth_toValue_le h
  have hkeys := infoKeys_of_buildTorrent h
  obtain ⟨plan, pieces, hplan, -, rfl⟩ := buildTorrent_eq_ok h
  obtain ⟨-, -, -, -, hspec, -, -, -⟩ := planBuild_eq_ok hplan
  obtain ⟨-, -, hsum, -, -⟩ := files_of_planBuild hplan
  obtain ⟨-, hsome, hnone⟩ := specFor_eq_ok hspec
  refine ⟨hsome, fun hpl => ?_, hcount, ⟨fun hre => ?_, fun ⟨hwf, hname, hsegs, hlens⟩ => ?_⟩⟩
  · show plan.spec.size = _
    rw [hnone hpl]
    exact congrArg (fun n => (Piece.Spec.forTotal n).size) hsum.symm
  · -- what reads back keeps the reader's rules
    have hv := (rereadable_of_ofBytes hre).valid
    exact ⟨wellFormed_of_ofBytes hre, hv.name, fun _ he _ hs => hv.segment_of_mem he hs,
      hv.lengths⟩
  · exact ofBytes_toBytes_of_rereadable hwf
      ⟨valid_of_buildTorrent h hname hsegs hlens, hkeys, get?_extraKeys_info,
        Nat.le_trans hdepth (by decide)⟩

/-! ## One file -/

section OneFile

variable {d : Disk} {loc : Loc} {i : Nat}

/-- A single file whose place leads to a regular file of positive length that fits in 64
bits hashes, under any name, in pieces of the size chosen for its length. -/
theorem hashPlan_of_file (w interval : Nat) (name : String) {content : String}
    (hcontent : d.resolve content true = .ok (.node loc (.file i)))
    (hpos : 0 < (d.blob i).size) (hmax : (d.blob i).size ≤ FileList.u64Max) :
    ∃ pieces, hashPlan d ⟨name, content, FileList.single name (d.blob i).size,
      Piece.Spec.forTotal (d.blob i).size, (d.blob i).size⟩ w interval = .ok pieces := by
  obtain ⟨e, -, -, hsize⟩ := Piece.exists_forTotal (d.blob i).size
  have hne : (Piece.Spec.forTotal (d.blob i).size).size ≠ 0 := by
    rw [hsize]
    exact Nat.pos_iff_ne_zero.mp (Nat.two_pow_pos e)
  have htotal : (FileList.single name (d.blob i).size).totalLen? = some (d.blob i).size := by
    simp [totalLen?_eq, FileList.single, hmax]
  have hnew : Stream.new (FileList.single name (d.blob i).size)
      (Piece.Spec.forTotal (d.blob i).size).size content =
      .ok ⟨FileList.single name (d.blob i).size, content,
        (Piece.Spec.forTotal (d.blob i).size).size, (d.blob i).size⟩ := by
    refine Stream.new_of_totalSize content (Nat.pos_of_ne_zero hne) ?_
    unfold FileList.totalSize
    rw [htotal]
    obtain ⟨k, hk⟩ := Nat.exists_eq_succ_of_ne_zero (Nat.pos_iff_ne_zero.mp hpos)
    rw [hk]
    rfl
  -- the stream's one file is the file on disk, with its length
  have hpres : Stream.Present d ⟨FileList.single name (d.blob i).size, content,
      (Piece.Spec.forTotal (d.blob i).size).size, (d.blob i).size⟩ := by
    intro j hj _
    have hj0 : j = 0 := by
      simp [FileList.single, FileList.length] at hj
      omega
    subst hj0
    exact ⟨i, loc, hcontent, rfl⟩
  exact ⟨_, hashPlan_eq_ok_iff.mpr ⟨_, hnew, hpres, rfl⟩⟩

variable {rootName source : String} {output : Option String} {opts : BuildOptions}

/-- A source that leads to a regular file of positive length that fits in 64 bits plans
that one file under the name asked for or else the source's, in pieces of the size chosen
for its length, when no piece size is asked for. -/
theorem planBuild_of_file
    (hres : d.resolve source true = .ok (.node loc (.file i)))
    (hlook : d.lookup loc = some (.file i))
    (hpos : 0 < (d.blob i).size) (hmax : (d.blob i).size ≤ FileList.u64Max)
    (hspec : opts.pieceLength = none) :
    planBuild d rootName source output opts = .ok ⟨opts.name.getD ((loc.getLast?.map Utf8.lossy).getD rootName),
      Loc.path loc, FileList.single (opts.name.getD ((loc.getLast?.map Utf8.lossy).getD rootName)) (d.blob i).size,
      Piece.Spec.forTotal (d.blob i).size, (d.blob i).size⟩ := by
  have hscan : scanFiles d rootName source output = .ok ⟨(loc.getLast?.map Utf8.lossy).getD rootName,
      Loc.path loc, FileList.single ((loc.getLast?.map Utf8.lossy).getD rootName) (d.blob i).size⟩ := by
    simp [scanFiles, Disk.canonicalize, hres, hlook, Except.mapError, pure, Except.pure]
  simp [planBuild, hscan, totalLen?_eq, FileList.single, hmax, Nat.pos_iff_ne_zero.mp hpos,
    specFor, hspec]

/-- **Building from one file.** When the source leads to a regular file of positive length
that fits in 64 bits, which its own place, written as a path, also leads to, and no piece
size is asked for, the build plans that one file and succeeds. -/
theorem buildTorrent_of_file {w interval : Nat} {now : Int}
    (hres : d.resolve source true = .ok (.node loc (.file i)))
    (hlook : d.lookup loc = some (.file i))
    (hcontent : d.resolve (Loc.path loc) true = .ok (.node loc (.file i)))
    (hpos : 0 < (d.blob i).size) (hmax : (d.blob i).size ≤ FileList.u64Max)
    (hspec : opts.pieceLength = none) :
    ∃ pieces, buildTorrent d rootName source output opts w interval now =
      .ok (assemble ⟨opts.name.getD ((loc.getLast?.map Utf8.lossy).getD rootName), Loc.path loc,
        FileList.single (opts.name.getD ((loc.getLast?.map Utf8.lossy).getD rootName)) (d.blob i).size,
        Piece.Spec.forTotal (d.blob i).size, (d.blob i).size⟩ pieces opts now) := by
  obtain ⟨pieces, hpieces⟩ :=
    hashPlan_of_file w interval (opts.name.getD ((loc.getLast?.map Utf8.lossy).getD rootName)) hcontent hpos hmax
  refine ⟨pieces, ?_⟩
  rw [buildTorrent, planBuild_of_file hres hlook hpos hmax hspec, ok_bind, hpieces, ok_bind]
  rfl

end OneFile

/-- A disk holding the file `f` with the byte `x`. -/
def Disk.oneByteFile : Disk :=
  ⟨[(["f".toUTF8], .file 0)], [Blob.ofBytes ⟨#[120]⟩]⟩

theorem Loc.path_f : Loc.path ["f".toUTF8] = "f" := by decide +kernel

theorem Disk.resolve_oneByteFile :
    Disk.oneByteFile.resolve "f" true = .ok (.node ["f".toUTF8] (.file 0)) := by
  have hf : Disk.oneByteFile.lookup ["f".toByteArray] = some (.file 0) := by decide +kernel
  rw [Disk.resolve, if_neg (by decide +kernel), show Path.split "f" = ["f"] by decide]
  simp [Disk.walk, hf]

/-- Building the file `f` with no piece size asked for plans that one file, of one byte,
under the name asked for or else `f`. -/
theorem buildTorrent_oneByteFile {opts : BuildOptions} (hspec : opts.pieceLength = none) :
    ∃ pieces, buildTorrent Disk.oneByteFile "root" "f" none opts 1 0 0 =
      .ok (assemble ⟨opts.name.getD "f", "f", FileList.single (opts.name.getD "f") 1,
        Piece.Spec.forTotal 1, 1⟩ pieces opts 0) := by
  have hname : (["f".toUTF8].getLast?.map Utf8.lossy).getD "root" = "f" := by decide +kernel
  have hsize : (Disk.oneByteFile.blob 0).size = 1 := rfl
  obtain ⟨pieces, hbuild⟩ := @buildTorrent_of_file Disk.oneByteFile ["f".toUTF8] 0 "root" "f" none
    opts 1 0 0 Disk.resolve_oneByteFile (by decide +kernel)
    (by rw [Loc.path_f]; exact Disk.resolve_oneByteFile) (by decide) (by decide) hspec
  rw [hname, Loc.path_f, hsize] at hbuild
  exact ⟨pieces, hbuild⟩

/-- Build options naming the torrent `a/b`, writing no date. -/
def BuildOptions.slashName : BuildOptions :=
  ⟨.none, false, .none, [], true, .none, some "a/b"⟩

/-- A name with a `/`: building the file `f` under the name `a/b` succeeds, and the
torrent it gives does not read back from its bytes. -/
theorem slashName_not_reread :
    ∃ t, buildTorrent Disk.oneByteFile "root" "f" none BuildOptions.slashName 1 0 0 = .ok t ∧
      Torrent.ofBytes t.toBytes ≠ .ok t := by
  obtain ⟨pieces, hbuild⟩ := @buildTorrent_oneByteFile BuildOptions.slashName rfl
  refine ⟨_, hbuild, fun hre => ?_⟩
  -- what reads back has a path segment for a name, and `a/b` is none
  have hname : Segment "a/b" := (rereadable_of_ofBytes hre).valid.name
  exact absurd hname (by decide)

/-- Building the file `f` under the name `a/b` succeeds, and its torrent reads back
exactly when the reader's rules hold of it. -/
theorem slashName_build_rereads_iff :
    ∃ t, buildTorrent Disk.oneByteFile "root" "f" none BuildOptions.slashName 1 0 0 = .ok t ∧
      (Torrent.ofBytes t.toBytes = .ok t ↔ t.toValue.wellFormed ∧ Segment t.info.name ∧
        (∀ e ∈ t.info.files.entries, ∀ s ∈ e.path, Segment s) ∧
        ∀ e ∈ t.info.files.entries, (e.len : Int) ≤ Value.maxInt) := by
  obtain ⟨pieces, hbuild⟩ := @buildTorrent_oneByteFile BuildOptions.slashName rfl
  exact ⟨_, hbuild, (buildTorrent_rereads _ _ _ _ _ _ _ _ hbuild).2.2.2⟩

end Metainfo
