import Metainfo.Bencode.Encode
import Metainfo.Bencode.Decode
import Metainfo.Piece.Hash
import Metainfo.Layout.FileList
import Metainfo.Text.Quoted

/-!
# Torrents

A torrent (metainfo) is a bencoded dictionary whose `info` entry describes the content:
its `name`, the `piece length`, the concatenated `pieces` digests, and either a
`length` (one file) or a list of `files`. Other keys, at the top and inside `info`,
are kept as they are.

`Torrent.ofValue` accepts exactly the values that follow these rules, checked in this
order, the first broken rule giving the error:

1. the value is a dictionary with an `info` dictionary;
2. `name` is a path segment: UTF-8, not empty, not `.` or `..`, without `/` or `\`;
3. `piece length` is a non-negative integer that the piece-size rules accept;
4. `pieces` is a byte string of whole 20-byte digests, at least one;
5. exactly one of `length` and `files`; a length is a non-negative integer, and each
   file is a dictionary with a `length` and a non-empty `path` of segments;
6. the total length fits in 64 bits and needs exactly as many pieces as there are
   digests.

`Torrent.toValue` writes a torrent back, the typed fields over the kept keys; sizes
above `2^63 - 1` are written as `2^63 - 1`.
-/

namespace Metainfo

open Bencode

/-- The `info` dictionary of a torrent. -/
structure Info where
  /-- the name of the file or directory -/
  name : String
  /-- the piece size -/
  pieceLength : Nat
  /-- the digests of the pieces -/
  pieces : HashList
  /-- the files; in the single layout the only entry is named after `name` -/
  files : FileList
  /-- the other keys of the dictionary -/
  extra : Dict
  deriving DecidableEq

/-- A torrent: its `info` and the other top-level keys. -/
structure Torrent where
  /-- the `info` dictionary -/
  info : Info
  /-- the other top-level keys (`announce`, `comment`, …) -/
  extra : Dict
  deriving DecidableEq

/-- The byte-string key of a text. -/
def key (s : String) : ByteArray := s.toUTF8

/-- Removes a required key from a dictionary. -/
def takeField (d : Dict) (k field : String) : Except MetainfoError (Value × Dict) :=
  match Dict.get? d (key k) with
  | some v => .ok (v, Dict.erase d (key k))
  | none => .error (.missing field)

/-- A length: a non-negative integer. -/
def readLengthField (v : Value) (field : String) : Except MetainfoError Nat :=
  match v with
  | .int n => if n < 0 then .error (.invalid field s!"{n} is negative") else .ok n.toNat
  | _ => .error (.wrongType field "an integer")

/-- A path segment: non-empty UTF-8 text other than `.` and `..`, without `/` or `\`. -/
def readSegment (v : Value) (field : String) : Except MetainfoError String :=
  match v.asStr? with
  | none => .error (.wrongType field "a UTF-8 string")
  | some s =>
    if s.isEmpty || s = "." || s = ".." || s.any (fun c => c = '/' || c = '\\') then
      .error (.invalid field s!"{Text.quote s} is not a valid path component")
    else .ok s

/-- One entry of the `files` list. -/
def readFileEntry (item : Value) : Except MetainfoError FileEntry := do
  let .dict d := item | throw (.wrongType "info.files" "a list of dictionaries")
  let (lenValue, d) ← takeField d "length" "info.files.length"
  let len ← readLengthField lenValue "info.files.length"
  let (pathValue, _) ← takeField d "path" "info.files.path"
  let segments ← match pathValue with
    | .list (s :: rest) => pure (s :: rest)
    | _ => throw (.wrongType "info.files.path" "a non-empty list of strings")
  let path ← segments.mapM (readSegment · "info.files.path")
  return ⟨path, len⟩

/-- The entries of a `files` list. -/
def readFileEntries (v : Value) : Except MetainfoError (List FileEntry) := do
  let .list items := v | throw (.wrongType "info.files" "a list")
  if items.isEmpty then throw (.invalid "info.files" "no files")
  items.mapM readFileEntry

namespace Info

/-- Validates an `info` dictionary. -/
def ofValue (v : Value) : Except MetainfoError Info := do
  let .dict d := v | throw (.wrongType "info" "a dictionary")
  let (nameValue, d) ← takeField d "name" "info.name"
  let name ← readSegment nameValue "info.name"
  let (plValue, d) ← takeField d "piece length" "info.piece length"
  let pieceLength ← readLengthField plValue "info.piece length"
  let pieceLength ← match Piece.validate pieceLength with
    | .ok s => pure s
    | .error e => throw (.pieceSize e)
  let (piecesValue, d) ← takeField d "pieces" "info.pieces"
  let pieces ← match piecesValue with
    | .bytes b => HashList.ofBytes b
    | _ => throw (.wrongType "info.pieces" "a byte string")
  if pieces.isEmpty then throw (.invalid "info.pieces" "no piece hashes")
  let lengthValue := Dict.get? d (key "length")
  let filesValue := Dict.get? d (key "files")
  let d := Dict.erase (Dict.erase d (key "length")) (key "files")
  let files ← match lengthValue, filesValue with
    | some l, none => do
      let len ← readLengthField l "info.length"
      pure (FileList.single name len)
    | none, some f => do
      let entries ← readFileEntries f
      pure (FileList.multi entries)
    | some _, some _ => throw (.invalid "info" "both 'length' and 'files' are present")
    | none, none => throw (.missing "info.length or info.files")
  let some total := files.totalLen?
    | throw (.invalid "info.files" "total size overflows 64 bits")
  let expected := Piece.count total pieceLength
  if expected ≠ pieces.length then
    throw (.invalid "info.pieces"
      s!"{pieces.length} hashes for {total} bytes of content ({expected} pieces)")
  return ⟨name, pieceLength, pieces, files, d⟩

/-- The total length, `2^64 - 1` when the sizes overflow. -/
def totalSize (i : Info) : Nat :=
  i.files.totalLen?.getD FileList.u64Max

/-- The `private` key holds the integer 1. -/
def isPrivate (i : Info) : Bool :=
  (Dict.get? i.extra (key "private")).bind Value.asInt? == some 1

/-- An integer value of a size, capped at `2^63 - 1`. -/
def sizeValue (n : Nat) : Value :=
  .int (min n 9223372036854775807 : Nat)

/-- The dictionary of one file entry. -/
def entryValue (e : FileEntry) : Value :=
  .dict [(key "length", sizeValue e.len), (key "path", .list (e.path.map Value.string))]

/-- The `info` dictionary: the kept keys with the typed fields written over them. -/
def toValue (i : Info) : Value :=
  let d := Dict.insert i.extra (key "name") (Value.string i.name)
  let d := Dict.insert d (key "piece length") (sizeValue i.pieceLength)
  let d := Dict.insert d (key "pieces") (.bytes i.pieces.toBytes)
  let d := match i.files.layout with
    | .single => Dict.insert d (key "length") (sizeValue i.totalSize)
    | .multi => Dict.insert d (key "files") (.list (i.files.entries.map entryValue))
  .dict d

end Info

namespace Torrent

/-- Validates a metainfo value. -/
def ofValue (v : Value) : Except MetainfoError Torrent := do
  let .dict d := v | throw (.wrongType "metainfo" "a dictionary")
  let (infoValue, d) ← takeField d "info" "info"
  let info ← Info.ofValue infoValue
  return ⟨info, d⟩

/-- Decodes and validates metainfo bytes. -/
def ofBytes (data : ByteArray) : Except MetainfoError Torrent :=
  match decode data with
  | .error e => .error (.decode e)
  | .ok v => ofValue v

/-- The metainfo value: the kept keys with `info` written over them. -/
def toValue (t : Torrent) : Value :=
  .dict (Dict.insert t.extra (key "info") t.info.toValue)

/-- The metainfo bytes. -/
def toBytes (t : Torrent) : ByteArray :=
  t.toValue.encode

/-- The info hash: the SHA-1 digest of the encoded `info` dictionary. -/
def infoHash (t : Torrent) : ByteArray :=
  Sha1.digest t.info.toValue.encode

/-- A top-level key holding UTF-8 text. -/
def extraStr? (t : Torrent) (k : String) : Option String :=
  (Dict.get? t.extra (key k)).bind Value.asStr?

/-- The `announce` URL. -/
def announce? (t : Torrent) : Option String := t.extraStr? "announce"

/-- The `comment`. -/
def comment? (t : Torrent) : Option String := t.extraStr? "comment"

/-- The `created by` text. -/
def createdBy? (t : Torrent) : Option String := t.extraStr? "created by"

/-- The `creation date`, seconds since the Unix epoch. -/
def creationDate? (t : Torrent) : Option Int :=
  (Dict.get? t.extra (key "creation date")).bind Value.asInt?

/-- The tracker URLs a torrent lists: the text entries of the tiers of `announce-list`
that are lists, or, only when that key holds no list, the `announce` URL. -/
def trackers (t : Torrent) : List String :=
  match Dict.get? t.extra (key "announce-list") with
  | some (.list tiers) =>
    tiers.flatMap fun tier =>
      match tier with
      | .list urls => urls.filterMap Value.asStr?
      | _ => []
  | _ => t.announce?.toList

end Torrent

end Metainfo
