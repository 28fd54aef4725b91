import Metainfo.Torrent.Basic
import Metainfo.Proofs.Bencode.Dict

/-!
# The metainfo format, rule by rule

The metainfo format is a list of rules in the order they are checked. Each rule is a
`Check`: `none` when a value keeps it, and otherwise the error that reports it. A
value is valid metainfo when it keeps every rule, and the error for an invalid value is
the error of the first rule it breaks (`firstError`). The rules read the value as it
is, each from the original dictionaries; none of them removes keys or threads a state.

* `metainfoRules`: the top value is a dictionary, with an `info` dictionary, which keeps
  `infoRules`: `name`, `piece length`, `pieces`, the layout keys, the sizes (the single
  `length` or each file in turn, with `fileRules`), the total and the piece count.
* `Agrees m o` relates a validation in the `Except` monad to a check; `Agrees.bind` and
  `agrees_mapM` carry it through a `do` block.
* `ofValue_follows_rules`: `Torrent.ofValue` fails with exactly the error of the first
  rule broken, and succeeds exactly when none is.
-/

namespace Metainfo

open Bencode

/-! ## Checks and validations -/

/-- A rule as a check: `none` when it is kept, the error that reports it otherwise. -/
abbrev Check (α : Type) := α → Option MetainfoError

/-- The error of the first rule broken, the rules tried in order. -/
def firstError {α : Type} (rules : List (Check α)) (x : α) : Option MetainfoError :=
  rules.findSome? fun r => r x

@[simp] theorem firstError_nil {α : Type} (x : α) : firstError [] x = none := rfl

theorem firstError_cons {α : Type} (r : Check α) (rules : List (Check α)) (x : α) :
    firstError (r :: rules) x = (r x).or (firstError rules x) := by
  simp only [firstError, List.findSome?_cons]
  cases r x <;> rfl

theorem firstError_eq_none_iff {α : Type} {rules : List (Check α)} {x : α} :
    firstError rules x = none ↔ ∀ r ∈ rules, r x = none := by
  simp [firstError, List.findSome?_eq_none_iff]

/-- A validation agrees with a check: it fails with the error the check reports, and
succeeds when the check reports none. -/
def Agrees {α : Type} (m : Except MetainfoError α) (o : Option MetainfoError) : Prop :=
  match m with
  | .error e => o = some e
  | .ok _ => o = none

section Agrees

variable {α β : Type}

theorem agrees_pure (a : α) : Agrees (pure a : Except MetainfoError α) none := rfl

theorem agrees_throw (e : MetainfoError) : Agrees (throw e : Except MetainfoError α) (some e) :=
  rfl

/-- A validation step followed by the rest agrees with its check followed by the rest's
checks: a failed step reports its error, a passed one hands over to the rest. -/
theorem Agrees.bind {m : Except MetainfoError α} {f : α → Except MetainfoError β}
    {o o' : Option MetainfoError} (hm : Agrees m o) (hf : ∀ a, m = .ok a → Agrees (f a) o') :
    Agrees (m >>= f) (o.or o') := by
  cases h : m with
  | error e =>
    rw [h] at hm
    change o = some e at hm
    rw [hm]
    rfl
  | ok a =>
    rw [h] at hm
    change o = none at hm
    rw [hm, Option.none_or]
    exact hf a h

/-- Validating each item in turn agrees with the first item's error. -/
theorem agrees_mapM {f : α → Except MetainfoError β} {c : Check α} :
    ∀ xs : List α, (∀ x ∈ xs, Agrees (f x) (c x)) → Agrees (xs.mapM f) (xs.findSome? c)
  | [], _ => rfl
  | x :: xs, h => by
    rw [List.mapM_cons, List.findSome?_cons]
    have hstep := Agrees.bind (h x List.mem_cons_self) fun a _ =>
      Agrees.bind (agrees_mapM xs fun y hy => h y (List.mem_cons_of_mem _ hy)) fun as _ =>
        agrees_pure (a :: as)
    cases hc : c x with
    | some e => rw [hc] at hstep; exact hstep
    | none => rw [hc, Option.none_or, Option.or_none] at hstep; exact hstep

/-- A step that succeeds followed by the rest: the step gave some value, and the rest
succeeded on it. -/
theorem bind_eq_ok {ε : Type} {m : Except ε α} {f : α → Except ε β} {b : β}
    (h : (m >>= f) = .ok b) : ∃ a, m = .ok a ∧ f a = .ok b := by
  cases hm : m with
  | error e =>
    rw [hm] at h
    cases h
  | ok a =>
    rw [hm] at h
    exact ⟨a, rfl, h⟩

theorem Agrees.error_iff {m : Except MetainfoError α} {o : Option MetainfoError}
    (h : Agrees m o) (e : MetainfoError) : m = .error e ↔ o = some e := by
  cases m with
  | error e' =>
    change o = some e' at h
    rw [h]
    simp
  | ok a =>
    change o = none at h
    rw [h]
    simp

theorem Agrees.ok_iff {m : Except MetainfoError α} {o : Option MetainfoError}
    (h : Agrees m o) : (∃ a, m = .ok a) ↔ o = none := by
  cases m with
  | error e =>
    change o = some e at h
    rw [h]
    simp
  | ok a =>
    change o = none at h
    rw [h]
    simp

end Agrees

/-! ## The rules -/

/-- A name that stands for one path segment and cannot leave its directory: not empty,
not `.` or `..`, without `/` or `\`. -/
def Segment (s : String) : Prop :=
  s ≠ "" ∧ s ≠ "." ∧ s ≠ ".." ∧ '/' ∉ s.toList ∧ '\\' ∉ s.toList

instance : DecidablePred Segment := fun s => by
  unfold Segment
  infer_instance

/-- `field` is UTF-8 text that is a `Segment`. -/
def segmentRule (field : String) : Check Value := fun v =>
  match v.asStr? with
  | none => some (.wrongType field "a UTF-8 string")
  | some s =>
    if Segment s then none
    else some (.invalid field s!"{Text.quote s} is not a valid path component")

/-- `field` is a non-negative integer. -/
def lengthRule (field : String) : Check Value
  | .int n => if n < 0 then some (.invalid field s!"{n} is negative") else none
  | _ => some (.wrongType field "an integer")

/-- The key `k` is present, as `field`. -/
def present (k field : String) : Check Dict := fun d =>
  match Dict.get? d (key k) with
  | some _ => none
  | none => some (.missing field)

/-- The value under `k`, when there is one, keeps `r`. -/
def under (k : String) (r : Check Value) : Check Dict := fun d =>
  (Dict.get? d (key k)).bind r

/-- A value that is a dictionary keeps `r`. -/
def inDict (r : Check Dict) : Check Value := fun v =>
  v.asDict?.bind r

/-- `field` is a dictionary. -/
def dictRule (field expected : String) : Check Value
  | .dict _ => none
  | _ => some (.wrongType field expected)

/-! ### File entries -/

/-- `info.files.path` is a non-empty list. -/
def pathListRule : Check Value
  | .list (_ :: _) => none
  | _ => some (.wrongType "info.files.path" "a non-empty list of strings")

/-- Every segment of `info.files.path` is a `Segment`, the first bad one reported. -/
def pathSegmentsRule : Check Value
  | .list segs => segs.findSome? (segmentRule "info.files.path")
  | _ => none

/-- The rules of one entry of `info.files`: a dictionary, with a `length` and then a
`path` of segments. -/
def fileRules : List (Check Value) :=
  [dictRule "info.files" "a list of dictionaries",
   inDict (present "length" "info.files.length"),
   inDict (under "length" (lengthRule "info.files.length")),
   inDict (present "path" "info.files.path"),
   inDict (under "path" pathListRule),
   inDict (under "path" pathSegmentsRule)]

/-- `info.files` is a non-empty list whose entries keep `fileRules`, the first bad entry
reported. -/
def filesRule : Check Value
  | .list [] => some (.invalid "info.files" "no files")
  | .list items => items.findSome? (firstError fileRules)
  | _ => some (.wrongType "info.files" "a list")

/-! ### The `info` dictionary -/

/-- The piece length, when it is an integer. -/
def pieceLength? (i : Dict) : Option Nat :=
  match Dict.get? i (key "piece length") with
  | some (.int n) => some n.toNat
  | _ => none

/-- The bytes of `pieces`, when it is a byte string. -/
def piecesBytes? (i : Dict) : Option ByteArray :=
  match Dict.get? i (key "pieces") with
  | some (.bytes b) => some b
  | _ => none

/-- The size of a file entry: its `length`. -/
def entrySize (item : Value) : Nat :=
  match item.get? (key "length") with
  | some (.int n) => n.toNat
  | _ => 0

/-- The sizes of the files: the single `length`, or the lengths of the entries. -/
def fileSizes? (i : Dict) : Option (List Nat) :=
  match Dict.get? i (key "length"), Dict.get? i (key "files") with
  | some (.int n), none => some [n.toNat]
  | none, some (.list items) => some (items.map entrySize)
  | _, _ => none

/-- The piece length is a power of two. -/
def powerOfTwoRule : Check Dict := fun i =>
  (pieceLength? i).bind fun n =>
    if n.isPowerOfTwo then none else some (.pieceSize (.notPowerOfTwo n))

/-- The piece length lies between `Piece.sizeMin` and `Piece.sizeMax`. -/
def pieceRangeRule : Check Dict := fun i =>
  (pieceLength? i).bind fun n =>
    if Piece.sizeMin ≤ n ∧ n ≤ Piece.sizeMax then none
    else some (.pieceSize (.outOfRange n Piece.sizeMin Piece.sizeMax))

/-- `pieces` is a byte string. -/
def piecesBytesRule : Check Value
  | .bytes _ => none
  | _ => some (.wrongType "info.pieces" "a byte string")

/-- `pieces` holds whole digests. -/
def wholeDigestsRule : Check Dict := fun i =>
  (piecesBytes? i).bind fun b =>
    if b.size % digestLen = 0 then none
    else some (.invalid "info.pieces" s!"length {b.size} is not divisible by {digestLen}")

/-- `pieces` holds at least one digest. -/
def someDigestRule : Check Dict := fun i =>
  (piecesBytes? i).bind fun b =>
    if b.size = 0 then some (.invalid "info.pieces" "no piece hashes") else none

/-- Exactly one of `length` and `files` is present. -/
def layoutRule : Check Dict := fun i =>
  match Dict.get? i (key "length"), Dict.get? i (key "files") with
  | some _, some _ => some (.invalid "info" "both 'length' and 'files' are present")
  | none, none => some (.missing "info.length or info.files")
  | _, _ => none

/-- The single `length` is a length, or `files` keeps `filesRule`. -/
def sizesRule : Check Dict := fun i =>
  match Dict.get? i (key "length"), Dict.get? i (key "files") with
  | some l, none => lengthRule "info.length" l
  | none, some f => filesRule f
  | _, _ => none

/-- The sizes add up to a 64-bit number. -/
def totalRule : Check Dict := fun i =>
  (fileSizes? i).bind fun sizes =>
    if sizes.sum ≤ FileList.u64Max then none
    else some (.invalid "info.files" "total size overflows 64 bits")

/-- There is one digest for each piece of the content. -/
def pieceCountRule : Check Dict := fun i =>
  match fileSizes? i, pieceLength? i, piecesBytes? i with
  | some sizes, some n, some b =>
    if Piece.count sizes.sum n = b.size / digestLen then none
    else some (.invalid "info.pieces"
      s!"{b.size / digestLen} hashes for {sizes.sum} bytes of content ({Piece.count sizes.sum n} pieces)")
  | _, _, _ => none

/-- The rules of the `info` dictionary, in order. -/
def infoRules : List (Check Dict) :=
  [present "name" "info.name", under "name" (segmentRule "info.name"),
   present "piece length" "info.piece length",
   under "piece length" (lengthRule "info.piece length"), powerOfTwoRule, pieceRangeRule,
   present "pieces" "info.pieces", under "pieces" piecesBytesRule, wholeDigestsRule,
   someDigestRule, layoutRule, sizesRule, totalRule, pieceCountRule]

/-- The `info` dictionary of a metainfo value. -/
def infoDict? (v : Value) : Option Dict :=
  v.asDict?.bind fun d => (Dict.get? d (key "info")).bind Value.asDict?

/-- The rules of metainfo, in order: a dictionary, with an `info` dictionary that keeps
`infoRules`. -/
def metainfoRules : List (Check Value) :=
  [dictRule "metainfo" "a dictionary", inDict (present "info" "info"),
   inDict (under "info" (dictRule "info" "a dictionary"))] ++
  infoRules.map fun r v => (infoDict? v).bind r

/-! ## Each step of validation agrees with its rule -/

theorem string_any_eq (s : String) (p : Char → Bool) : s.any p = s.toList.any p :=
  String.contains_bool_eq

/-- The test `readSegment` makes is the negation of `Segment`. -/
theorem segment_iff (s : String) :
    Segment s ↔ (s.isEmpty || s = "." || s = ".." || s.any (fun c => c = '/' || c = '\\')) = false := by
  rw [string_any_eq]
  simp only [Segment, Bool.or_eq_false_iff, decide_eq_false_iff_not, String.isEmpty_eq_false_iff,
    List.any_eq_false, Bool.or_eq_true, decide_eq_true_eq, not_or]
  constructor
  · rintro ⟨h1, h2, h3, h4, h5⟩
    exact ⟨⟨⟨h1, h2⟩, h3⟩, fun c hc => ⟨fun h => h4 (h ▸ hc), fun h => h5 (h ▸ hc)⟩⟩
  · rintro ⟨⟨⟨h1, h2⟩, h3⟩, h4⟩
    exact ⟨h1, h2, h3, fun hc => (h4 _ hc).1 rfl, fun hc => (h4 _ hc).2 rfl⟩

theorem agrees_readSegment (v : Value) (field : String) :
    Agrees (readSegment v field) (segmentRule field v) := by
  unfold readSegment segmentRule
  cases v.asStr? with
  | none => rfl
  | some s =>
    dsimp only
    by_cases hs : Segment s
    · have htest := (segment_iff s).mp hs
      simp only [hs, htest, Bool.false_eq_true, ↓reduceIte]
      rfl
    · have htest : (s.isEmpty || s = "." || s = ".." ||
          s.any (fun c => c = '/' || c = '\\')) = true := by
        cases h : (s.isEmpty || s = "." || s = ".." || s.any (fun c => c = '/' || c = '\\'))
        · exact absurd ((segment_iff s).mpr h) hs
        · rfl
      simp only [hs, htest, ↓reduceIte]
      rfl

theorem agrees_readLengthField (v : Value) (field : String) :
    Agrees (readLengthField v field) (lengthRule field v) := by
  cases v with
  | int n =>
    simp only [readLengthField, lengthRule]
    by_cases hn : n < 0
    · rw [if_pos hn, if_pos hn]
      rfl
    · rw [if_neg hn, if_neg hn]
      rfl
  | bytes b => rfl
  | list xs => rfl
  | dict d => rfl

/-- Taking a field agrees with its presence, in any dictionary that holds the same value
under the key. -/
theorem agrees_takeField {d i : Dict} {k field : String}
    (h : Dict.get? d (key k) = Dict.get? i (key k)) :
    Agrees (takeField d k field) (present k field i) := by
  unfold takeField present
  rw [h]
  cases Dict.get? i (key k) <;> rfl

theorem takeField_ok {d d' : Dict} {k field : String} {v : Value}
    (h : takeField d k field = .ok (v, d')) :
    Dict.get? d (key k) = some v ∧ d' = Dict.erase d (key k) := by
  unfold takeField at h
  split at h
  · rename_i v' hv
    cases h
    exact ⟨hv, rfl⟩
  · cases h

theorem inDict_dict (r : Check Dict) (d : Dict) : inDict r (.dict d) = r d := rfl

theorem under_of_get? {r : Check Value} {d : Dict} {k : String} {v : Value}
    (h : Dict.get? d (key k) = some v) : under k r d = r v := by
  simp only [under, h, Option.bind_some]

/-- **One file entry.** Reading an entry of `info.files` fails with the error of the
first of `fileRules` it breaks. -/
theorem agrees_readFileEntry (item : Value) :
    Agrees (readFileEntry item) (firstError fileRules item) := by
  simp only [fileRules, firstError_cons, firstError_nil]
  cases item with
  | dict d =>
    simp only [dictRule, inDict_dict, Option.none_or, readFileEntry]
    refine Agrees.bind (agrees_takeField rfl) ?_
    rintro ⟨lenValue, d1⟩ htake
    obtain ⟨hlen, rfl⟩ := takeField_ok htake
    rw [under_of_get? hlen]
    refine Agrees.bind (agrees_readLengthField lenValue _) fun len _ => ?_
    -- `path` is looked up in the entry without its `length`, which holds the same `path`
    refine Agrees.bind (agrees_takeField (get?_erase_ne (by decide))) ?_
    rintro ⟨pathValue, d2⟩ htake
    obtain ⟨hpath, -⟩ := takeField_ok htake
    rw [get?_erase_ne (by decide)] at hpath
    rw [under_of_get? hpath, under_of_get? hpath]
    dsimp only
    -- the path must be a non-empty list, and then its segments are read in order
    cases pathValue with
    | list xs =>
      cases xs with
      | nil => rfl
      | cons s rest =>
        exact Agrees.bind (agrees_pure _) fun segments hsegs => by
          cases hsegs
          exact Agrees.bind (agrees_mapM (s :: rest) fun s _ => agrees_readSegment s _)
            fun path _ => agrees_pure _
    | bytes b => rfl
    | int n => rfl
    | dict d => rfl
  | bytes b => rfl
  | int n => rfl
  | list xs => rfl

/-- **The file list.** Reading `info.files` fails with the error of `filesRule`: not a
list, an empty list, or the first entry that breaks a rule. -/
theorem agrees_readFileEntries (v : Value) : Agrees (readFileEntries v) (filesRule v) := by
  cases v with
  | list items =>
    cases items with
    | nil => rfl
    | cons x xs =>
      exact agrees_mapM (x :: xs) fun item _ => agrees_readFileEntry item
  | bytes b => rfl
  | int n => rfl
  | dict d => rfl

/-! ## Facts the later rules rest on -/

/-- The bit test of `Piece.isPowerOfTwo` decides the power of two. -/
theorem isPowerOfTwo_iff (n : Nat) : Piece.isPowerOfTwo n = true ↔ n.isPowerOfTwo := by
  rw [← Nat.ne_zero_and_sub_one_eq_zero_iff_isPowerOfTwo]
  simp [Piece.isPowerOfTwo]

/-- A byte string holds one digest for every 20 bytes. -/
theorem length_chunks (data : ByteArray) (i : Nat) :
    (HashList.chunks data i).length = (data.size - i) / digestLen := by
  fun_induction HashList.chunks data i with
  | case1 i h ih =>
    have hfit : i + 20 ≤ data.size := h
    rw [List.length_cons, ih]
    simp only [digestLen]
    omega
  | case2 i h =>
    simp only [List.length_nil, digestLen] at *
    omega

/-- Adding with overflow checks gives the sum exactly when it fits. -/
theorem sumChecked_eq {acc : Nat} (hacc : acc ≤ FileList.u64Max) (es : List FileEntry) :
    FileList.sumChecked acc es =
      if acc + (es.map FileEntry.len).sum ≤ FileList.u64Max then
        some (acc + (es.map FileEntry.len).sum)
      else none := by
  induction es generalizing acc with
  | nil => simp [FileList.sumChecked, hacc]
  | cons e es ih =>
    simp only [FileList.sumChecked, List.map_cons, List.sum_cons]
    by_cases he : acc + e.len ≤ FileList.u64Max
    · rw [if_pos he, ih he, Nat.add_assoc]
    · -- a partial sum past the bound leaves the whole sum past it
      rw [if_neg he, if_neg (by omega)]

theorem totalLen?_eq (f : FileList) :
    f.totalLen? =
      if (f.entries.map FileEntry.len).sum ≤ FileList.u64Max then
        some (f.entries.map FileEntry.len).sum
      else none := by
  rw [FileList.totalLen?, sumChecked_eq (Nat.zero_le _), Nat.zero_add]

/-- What `mapM` returns corresponds item by item to what it was given. -/
theorem map_of_mapM_ok {α β γ : Type} {f : α → Except MetainfoError β} {g : β → γ}
    {h : α → γ} : ∀ {xs : List α} {ys : List β}, (∀ x ∈ xs, ∀ y, f x = .ok y → g y = h x) →
      xs.mapM f = .ok ys → ys.map g = xs.map h
  | [], ys, _, hm => by
    cases hm
    rfl
  | x :: xs, ys, hfg, hm => by
    rw [List.mapM_cons] at hm
    obtain ⟨y, hx, hm⟩ := bind_eq_ok hm
    obtain ⟨ys', hxs, hm⟩ := bind_eq_ok hm
    cases hm
    rw [List.map_cons, List.map_cons, hfg x List.mem_cons_self y hx,
      map_of_mapM_ok (fun x' hx' => hfg x' (List.mem_cons_of_mem _ hx')) hxs]

/-- A length read is a non-negative integer's value. -/
theorem readLengthField_ok {v : Value} {field : String} {n : Nat}
    (h : readLengthField v field = .ok n) : ∃ m : Int, v = .int m ∧ 0 ≤ m ∧ n = m.toNat := by
  cases v with
  | int m =>
    simp only [readLengthField] at h
    split at h
    · cases h
    · rename_i hm
      cases h
      exact ⟨m, rfl, Int.not_lt.mp hm, rfl⟩
  | bytes b => cases h
  | list xs => cases h
  | dict d => cases h

/-- What reading a file entry took from it: a non-negative `length` and a non-empty
`path` of segments. -/
theorem readFileEntry_ok {item : Value} {e : FileEntry} (h : readFileEntry item = .ok e) :
    ∃ d m segs, item = .dict d ∧ Dict.get? d (key "length") = some (.int m) ∧ 0 ≤ m ∧
      e.len = m.toNat ∧ Dict.get? d (key "path") = some (.list segs) ∧
      segs.mapM (readSegment · "info.files.path") = .ok e.path := by
  cases item with
  | dict d =>
    simp only [readFileEntry] at h
    obtain ⟨⟨lenValue, d1⟩, htake, h⟩ := bind_eq_ok h
    obtain ⟨hlen, rfl⟩ := takeField_ok htake
    obtain ⟨len, hread, h⟩ := bind_eq_ok h
    obtain ⟨m, rfl, hm, rfl⟩ := readLengthField_ok hread
    obtain ⟨⟨pathValue, d2⟩, htake, h⟩ := bind_eq_ok h
    obtain ⟨hpath, -⟩ := takeField_ok htake
    rw [get?_erase_ne (by decide)] at hpath
    -- only a non-empty list gets past the path check
    cases pathValue with
    | list segs =>
      cases segs with
      | nil => cases h
      | cons s rest =>
        obtain ⟨segs, hsegs, h⟩ := bind_eq_ok h
        cases hsegs
        obtain ⟨path, hpaths, h⟩ := bind_eq_ok h
        cases h
        exact ⟨d, m, s :: rest, rfl, hlen, hm, rfl, hpath, hpaths⟩
    | bytes b => cases h
    | int n => cases h
    | dict d' => cases h
  | bytes b => cases h
  | int n => cases h
  | list xs => cases h

/-- An entry read from `info.files` has the size its `length` gives. -/
theorem len_of_readFileEntry {item : Value} {e : FileEntry} (h : readFileEntry item = .ok e) :
    e.len = entrySize item := by
  obtain ⟨d, m, segs, rfl, hlen, -, hle, -⟩ := readFileEntry_ok h
  simp [hle, entrySize, Value.get?, Value.asDict?, hlen]

/-- What reading `info.files` took: a list whose entries all read. -/
theorem readFileEntries_ok {f : Value} {es : List FileEntry} (h : readFileEntries f = .ok es) :
    ∃ items, f = .list items ∧ items.mapM readFileEntry = .ok es := by
  cases f with
  | list items =>
    cases items with
    | nil => cases h
    | cons x xs => exact ⟨x :: xs, rfl, h⟩
  | bytes b => cases h
  | int n => cases h
  | dict d => cases h

/-- The entries read from `info.files` have the sizes `fileSizes?` reads. -/
theorem sizes_of_readFileEntries {f : Value} {es : List FileEntry}
    (h : readFileEntries f = .ok es) :
    ∃ items, f = .list items ∧ es.map FileEntry.len = items.map entrySize := by
  obtain ⟨items, rfl, hmap⟩ := readFileEntries_ok h
  exact ⟨items, rfl, map_of_mapM_ok (fun _ _ _ => len_of_readFileEntry) hmap⟩

/-- The cut of `pieces` into digests, with one digest for each 20 bytes. -/
theorem ofBytes_ok {b : ByteArray} {p : HashList} (h : HashList.ofBytes b = .ok p) :
    b.size % digestLen = 0 ∧ p.length = b.size / digestLen := by
  unfold HashList.ofBytes at h
  split at h
  · cases h
    rename_i hdiv
    refine ⟨hdiv, ?_⟩
    simp only [HashList.length, length_chunks, Nat.sub_zero]
  · cases h

/-- A cut of `pieces` has no digests exactly when the byte string is empty. -/
theorem isEmpty_ofBytes {b : ByteArray} {p : HashList} (h : HashList.ofBytes b = .ok p) :
    p.isEmpty = true ↔ b.size = 0 := by
  obtain ⟨hdiv, hlen⟩ := ofBytes_ok h
  have hempty : p.isEmpty = true ↔ p.length = 0 := by
    simp [HashList.isEmpty, HashList.length]
  rw [hempty, hlen]
  simp only [digestLen] at hdiv ⊢
  omega

/-! ## The `info` dictionary -/

theorem agrees_ofBytes {i : Dict} {b : ByteArray} (hb : piecesBytes? i = some b) :
    Agrees (HashList.ofBytes b) (wholeDigestsRule i) := by
  simp only [wholeDigestsRule, hb, Option.bind_some, HashList.ofBytes]
  split <;> rfl

/-- A guard of a `do` block: it fails with `e` exactly when the check reports `e`. -/
theorem Agrees.ite {c : Prop} [Decidable c] {e : MetainfoError} {k : Unit → Except MetainfoError β}
    {o o' : Option MetainfoError} (ho : o = if c then some e else none)
    (hk : ¬c → Agrees (k ()) o') :
    Agrees (if c then throw e >>= k else k ()) (o.or o') := by
  subst ho
  by_cases hc : c
  · rw [if_pos hc, if_pos hc]
    rfl
  · rw [if_neg hc, if_neg hc, Option.none_or]
    exact hk hc

theorem validate_ok {i : Dict} {n s : Nat} (hn : pieceLength? i = some n)
    (h : Piece.validate n = .ok s) :
    s = n ∧ powerOfTwoRule i = none ∧ pieceRangeRule i = none := by
  unfold Piece.validate at h
  split at h
  · cases h
  rename_i hpow
  split at h
  · cases h
  rename_i hrange
  cases h
  refine ⟨rfl, ?_, ?_⟩
  · simp only [powerOfTwoRule, hn, Option.bind_some]
    rw [if_pos ((isPowerOfTwo_iff n).mp (by simpa using hpow))]
  · simp only [pieceRangeRule, hn, Option.bind_some]
    rw [if_pos (by omega)]

theorem validate_error {i : Dict} {n : Nat} {e : Piece.SizeError} (hn : pieceLength? i = some n)
    (h : Piece.validate n = .error e) (rest : Option MetainfoError) :
    (powerOfTwoRule i).or ((pieceRangeRule i).or rest) = some (.pieceSize e) := by
  unfold Piece.validate at h
  simp only [powerOfTwoRule, pieceRangeRule, hn, Option.bind_some]
  split at h
  · -- not a power of two
    rename_i hpow
    cases h
    rw [if_neg (fun hp => by simp [(isPowerOfTwo_iff n).mpr hp] at hpow)]
    rfl
  rename_i hpow
  split at h
  · rename_i hrange
    cases h
    rw [if_pos ((isPowerOfTwo_iff n).mp (by simpa using hpow)), if_neg (by omega)]
    rfl
  · cases h

/-- **The `info` dictionary.** Validating it fails with the error of the first of
`infoRules` it breaks. -/
theorem agrees_infoOfValue (i : Dict) :
    Agrees (Info.ofValue (.dict i)) (firstError infoRules i) := by
  simp only [infoRules, firstError_cons, firstError_nil]
  simp -zeta only [Info.ofValue]
  refine Agrees.bind (agrees_takeField rfl) ?_
  rintro ⟨nameValue, d1⟩ htake
  obtain ⟨hname, rfl⟩ := takeField_ok htake
  rw [under_of_get? hname]
  refine Agrees.bind (agrees_readSegment nameValue _) fun name _ => ?_
  refine Agrees.bind (agrees_takeField (get?_erase_ne (by decide))) ?_
  rintro ⟨plValue, d2⟩ htake
  obtain ⟨hpl, rfl⟩ := takeField_ok htake
  rw [get?_erase_ne (by decide)] at hpl
  rw [under_of_get? hpl]
  refine Agrees.bind (agrees_readLengthField plValue _) fun pl hread => ?_
  have hpl' : pieceLength? i = some pl := by
    obtain ⟨m, rfl, -, rfl⟩ := readLengthField_ok hread
    simp [pieceLength?, hpl]
  extract_lets jp
  split
  · rename_i s hval
    obtain ⟨rfl, hpow, hrange⟩ := validate_ok hpl' hval
    rw [hpow, hrange, Option.none_or, Option.none_or]
    simp -zeta only [jp, pure_bind]
    refine Agrees.bind (agrees_takeField (by rw [get?_erase_ne (by decide), get?_erase_ne (by decide)])) ?_
    rintro ⟨piecesValue, d3⟩ htake
    obtain ⟨hpieces, rfl⟩ := takeField_ok htake
    rw [get?_erase_ne (by decide), get?_erase_ne (by decide)] at hpieces
    rw [under_of_get? hpieces]
    cases piecesValue with
    | bytes b =>
      have hb : piecesBytes? i = some b := by simp [piecesBytes?, hpieces]
      rw [show piecesBytesRule (.bytes b) = none from rfl, Option.none_or]
      extract_lets lengthValue filesValue extra jp2
      refine Agrees.bind (agrees_ofBytes hb) fun p hp => ?_
      simp -zeta only [jp2]
      extract_lets tail layout
      refine Agrees.ite (by simp only [someDigestRule, hb, Option.bind_some, isEmpty_ofBytes hp])
        fun _ => ?_
      have htail : ∀ files : FileList, fileSizes? i = some (files.entries.map FileEntry.len) →
          Agrees (tail files) ((totalRule i).or ((pieceCountRule i).or none)) := by
        intro files hsizes
        simp only [tail, totalLen?_eq]
        by_cases hsum : (files.entries.map FileEntry.len).sum ≤ FileList.u64Max
        · have htotal : totalRule i = none := by simp [totalRule, hsizes, hsum]
          rw [if_pos hsum, htotal, Option.none_or]
          obtain ⟨-, hlen⟩ := ofBytes_ok hp
          refine Agrees.ite ?_ fun _ => agrees_pure _
          simp only [pieceCountRule, hsizes, hpl', hb, hlen, ite_not]
        · have htotal : totalRule i = some (.invalid "info.files" "total size overflows 64 bits") := by
            simp [totalRule, hsizes, hsum]
          rw [if_neg hsum, htotal]
          rfl
      simp -zeta only [layout, lengthValue, filesValue]
      rw [get?_erase_ne (by decide), get?_erase_ne (by decide), get?_erase_ne (by decide),
        get?_erase_ne (by decide), get?_erase_ne (by decide), get?_erase_ne (by decide)]
      rcases hl : Dict.get? i (key "length") with _ | l <;>
        rcases hf : Dict.get? i (key "files") with _ | f
      · rw [show layoutRule i = some (.missing "info.length or info.files") by
          simp [layoutRule, hl, hf]]
        rfl
      · have hlayout : layoutRule i = none := by simp [layoutRule, hl, hf]
        have hsizes : sizesRule i = filesRule f := by simp [sizesRule, hl, hf]
        rw [hlayout, hsizes, Option.none_or]
        refine Agrees.bind (agrees_readFileEntries f) fun entries hentries => htail _ ?_
        obtain ⟨items, rfl, hmap⟩ := sizes_of_readFileEntries hentries
        simp [fileSizes?, hl, hf, FileList.multi, hmap]
      · have hlayout : layoutRule i = none := by simp [layoutRule, hl, hf]
        have hsizes : sizesRule i = lengthRule "info.length" l := by simp [sizesRule, hl, hf]
        rw [hlayout, hsizes, Option.none_or]
        refine Agrees.bind (agrees_readLengthField l _) fun len hlen => htail _ ?_
        obtain ⟨m, rfl, -, rfl⟩ := readLengthField_ok hlen
        simp [fileSizes?, hl, hf, FileList.single]
      · rw [show layoutRule i = some (.invalid "info" "both 'length' and 'files' are present") by
          simp [layoutRule, hl, hf]]
        rfl
    | int n => rfl
    | list xs => rfl
    | dict d => rfl
  · rename_i err hval
    rw [validate_error hpl' hval]
    rfl

/-! ## Metainfo -/

/-- Rules that look into a part of the value, when there is one, report what the part's
rules report. -/
theorem firstError_map_bind {α β : Type} (rules : List (Check α)) (g : β → Option α) (x : β) :
    firstError (rules.map fun r y => (g y).bind r) x = (g x).bind (firstError rules) := by
  induction rules with
  | nil => cases g x <;> rfl
  | cons r rules ih =>
    rw [List.map_cons, firstError_cons, ih]
    cases g x with
    | none => rfl
    | some a => simp only [Option.bind_some, firstError_cons]

theorem agrees_ofValue (v : Value) : Agrees (Torrent.ofValue v) (firstError metainfoRules v) := by
  simp only [metainfoRules, List.cons_append, List.nil_append, firstError_cons,
    firstError_map_bind]
  cases v with
  | dict d =>
    simp only [dictRule, inDict_dict, Option.none_or, Torrent.ofValue]
    refine Agrees.bind (agrees_takeField rfl) ?_
    rintro ⟨infoValue, d1⟩ htake
    obtain ⟨hinfo, rfl⟩ := takeField_ok htake
    rw [under_of_get? hinfo]
    -- only an `info` dictionary is looked into by the rules of `info`
    cases infoValue with
    | dict i =>
      have hdict : infoDict? (.dict d) = some i := by
        simp [infoDict?, Value.asDict?, hinfo]
      rw [hdict, Option.bind_some, show dictRule "info" "a dictionary" (.dict i) = none from rfl,
        Option.none_or]
      have h := Agrees.bind (agrees_infoOfValue i) fun info _ => agrees_pure (⟨info, Dict.erase d (key "info")⟩ : Torrent)
      rwa [Option.or_none] at h
    | bytes b => rfl
    | int n => rfl
    | list xs => rfl
  | bytes b => rfl
  | int n => rfl
  | list xs => rfl

/-- **The metainfo grammar.** Validating a value fails exactly with the error of the
first of `metainfoRules` it breaks, and succeeds exactly when it breaks none of them. -/
theorem ofValue_follows_rules (v : Value) :
    (∀ e, Torrent.ofValue v = .error e ↔ firstError metainfoRules v = some e) ∧
    ((∃ t, Torrent.ofValue v = .ok t) ↔ ∀ r ∈ metainfoRules, r v = none) := by
  have h := agrees_ofValue v
  refine ⟨h.error_iff, ?_⟩
  rw [h.ok_iff, firstError_eq_none_iff]

end Metainfo
