import Metainfo.Layout.FileList
import Metainfo.Piece.Size
import Metainfo.Data.Search

/-!
# The content as one byte stream

The files of a torrent, laid end to end, form one stream of `total` bytes, which is
cut into pieces of `pieceSize` bytes (the last one possibly shorter). File `i` takes
the bytes from `start i` up to `stop i`, the sums of the lengths before it and up to
it.

* `Stream.new` refuses a zero piece size first, then a list whose total does not fit
  in 64 bits, then a list with nothing to hash; it then adds up the files' end offsets
  as 64-bit numbers, refusing a list as too large if one of them overflows;
* `Stream.spans offset len` is the exact decomposition of a byte range into per-file
  spans: for every file that overlaps the range with at least one byte, in file order,
  the overlap's offset within the file and its length. The scan starts at the first file
  ending past the range's start, found by halving over the files' end offsets, and stops
  at the first file starting at or past the range's end;
* `Stream.pieceRange i` is piece `i` with its spans;
* `Stream.piecesOfFile i` is the range of pieces that hold bytes of file `i`, empty
  for an empty file.
-/

namespace Metainfo

/-- Why a stream or a range of it cannot be formed. -/
inductive StreamError where
  /-- the file list is empty or holds no bytes -/
  | empty
  /-- the piece size is zero -/
  | zeroPieceSize
  /-- a piece index past the last piece -/
  | pieceOutOfBounds (index max : Nat)
  /-- a byte range that leaves the stream -/
  | rangeOutOfBounds (offset len total : Nat)
  /-- the total length does not fit in 64 bits -/
  | tooLarge
  deriving DecidableEq, Repr

namespace StreamError

/-- The constructor's name. -/
def kind : StreamError → String
  | .empty => "Empty"
  | .zeroPieceSize => "ZeroPieceSize"
  | .pieceOutOfBounds .. => "PieceOutOfBounds"
  | .rangeOutOfBounds .. => "RangeOutOfBounds"
  | .tooLarge => "TooLarge"

/-- The text of the error. -/
def message : StreamError → String
  | .empty => "nothing to hash: file list is empty or has zero total size"
  | .zeroPieceSize => "piece size must be greater than zero"
  | .pieceOutOfBounds i m => s!"piece index {i} is out of bounds (0 - {m})"
  | .rangeOutOfBounds o l t => s!"byte range {o}+{l} is outside the stream (size {t})"
  | .tooLarge => "total size of the file list overflows 64 bits"

end StreamError

/-- The total length of a file list that can be hashed. -/
def FileList.totalSize (f : FileList) : Except StreamError Nat :=
  match f.totalLen? with
  | none => .error .tooLarge
  | some 0 => .error .empty
  | some t => .ok t

/-- A part of one file inside a byte range of the stream. -/
structure Span where
  /-- the file's index -/
  file : Nat
  /-- where the part starts inside the file -/
  offset : Nat
  /-- how many bytes it has -/
  len : Nat
  deriving DecidableEq, Repr

/-- One piece of the stream: where it starts, how long it is, and its spans. -/
structure PieceRange where
  /-- the piece's index -/
  index : Nat
  /-- its first byte in the stream -/
  offset : Nat
  /-- its length -/
  len : Nat
  /-- the file parts it is made of, in file order -/
  spans : List Span
  deriving DecidableEq, Repr

/-- The indexes of the files a piece touches. -/
def PieceRange.files (r : PieceRange) : List Nat :=
  r.spans.map (·.file)

/-- A file list read as one stream of pieces stored under a content path. -/
structure Stream where
  /-- the files -/
  files : FileList
  /-- where the content lies -/
  content : String
  /-- the piece size, positive -/
  pieceSize : Nat
  /-- the total length, positive -/
  total : Nat

namespace Stream

/-- The end offset of every file, the running total starting at `offset` and each sum taken
as a 64-bit number; none as soon as a sum overflows. -/
def endOffsets : Nat → List FileEntry → Option (List Nat)
  | _, [] => some []
  | offset, e :: rest =>
    if offset + e.len ≤ FileList.u64Max then
      (endOffsets (offset + e.len) rest).map ((offset + e.len) :: ·)
    else none

/-- Builds the stream of a file list. -/
def new (files : FileList) (pieceSize : Nat) (content : String) : Except StreamError Stream :=
  if pieceSize = 0 then .error .zeroPieceSize
  else
    match files.totalSize with
    | .error e => .error e
    | .ok total =>
      match endOffsets 0 files.entries with
      | none => .error .tooLarge
      | some _ => .ok ⟨files, content, pieceSize, total⟩

/-- The number of pieces. -/
def pieceCount (s : Stream) : Nat :=
  Piece.count s.total s.pieceSize

/-- The stream offset where file `i` starts. -/
def start (s : Stream) (i : Nat) : Nat :=
  ((s.files.entries.take i).map (·.len)).sum

/-- The stream offset where file `i` stops. -/
def stop (s : Stream) (i : Nat) : Nat :=
  ((s.files.entries.take (i + 1)).map (·.len)).sum

/-- Every file with its start and stop offsets, in order. -/
def bounds (s : Stream) : List (Nat × Nat × Nat) :=
  go 0 0 s.files.entries
where
  /-- the files from index `i`, starting at offset `at_` -/
  go (i at_ : Nat) : List FileEntry → List (Nat × Nat × Nat)
    | [] => []
    | e :: rest => (i, at_, at_ + e.len) :: go (i + 1) (at_ + e.len) rest

/-- The stream offset where each file stops, in file order. -/
def ends (s : Stream) : Array Nat :=
  (s.bounds.map fun (_, _, b) => b).toArray

/-- The part of file `i`, which takes the stream bytes from `a` up to `b`, that lies
inside the bytes from `lo` up to `hi`, if it holds a byte. -/
def overlap (lo hi : Nat) : Nat × Nat × Nat → Option Span
  | (i, a, b) =>
    let from_ := max lo a
    let to_ := min hi b
    if from_ < to_ then some ⟨i, from_ - a, to_ - from_⟩ else none

/-- The overlaps of files in order with the bytes from `lo` up to `hi`, up to the first
file that starts at or past `hi`. -/
def overlapsUntil (lo hi : Nat) : List (Nat × Nat × Nat) → List Span
  | [] => []
  | (i, a, b) :: rest =>
    if hi ≤ a then [] else (overlap lo hi (i, a, b)).toList ++ overlapsUntil lo hi rest

/-- The parts of files inside the bytes from `lo` up to `hi`: one span for every file
that overlaps them with at least one byte. The files that end by `lo` are passed over at
once, by halving. -/
def spansIn (s : Stream) (lo hi : Nat) : List Span :=
  let first := partitionPoint (· ≤ lo) s.ends
  overlapsUntil lo hi (s.bounds.drop first)

/-- The spans of `len` bytes from `offset`, which must lie inside the stream (their
end is computed as a 64-bit sum). -/
def spans (s : Stream) (offset len : Nat) : Except StreamError (List Span) :=
  if offset + len > FileList.u64Max ∨ offset + len > s.total then
    .error (.rangeOutOfBounds offset len s.total)
  else .ok (s.spansIn offset (offset + len))

/-- The files touched by a byte range. -/
def filesAtByteRange (s : Stream) (offset len : Nat) : Except StreamError (List Nat) :=
  (s.spans offset len).map (·.map (·.file))

/-- Piece `index`, for an index below `pieceCount`. -/
def rangeAt (s : Stream) (index : Nat) : PieceRange :=
  let offset := index * s.pieceSize
  let len := min s.pieceSize (s.total - offset)
  ⟨index, offset, len, s.spansIn offset (offset + len)⟩

/-- Piece `index`, which must exist. -/
def pieceRange (s : Stream) (index : Nat) : Except StreamError PieceRange :=
  if index ≥ s.pieceCount then .error (.pieceOutOfBounds index (s.pieceCount - 1))
  else .ok (s.rangeAt index)

/-- The files a piece touches. -/
def filesAtPiece (s : Stream) (index : Nat) : Except StreamError (List Nat) :=
  (s.pieceRange index).map PieceRange.files

/-- The pieces holding bytes of file `i`, as a half-open range; empty at the piece of
its offset for an empty file, and `[0, 0)` past the last file. -/
def piecesOfFile (s : Stream) (i : Nat) : Nat × Nat :=
  match s.files.get? i with
  | none => (0, 0)
  | some e =>
    let first := s.start i / s.pieceSize
    if e.len = 0 then (first, first)
    else (first, (s.start i + e.len - 1) / s.pieceSize + 1)

/-- The stream offset of file `i`. -/
def fileOffset? (s : Stream) (i : Nat) : Option Nat :=
  (s.files.get? i).map fun _ => s.start i

/-- The stream bytes of file `i`, as a half-open range. -/
def byteRangeOfFile? (s : Stream) (i : Nat) : Option (Nat × Nat) :=
  (s.files.get? i).map fun _ => (s.start i, s.stop i)

/-- The file system path of file `i`. -/
def filePath (s : Stream) (i : Nat) : String :=
  s.files.resolve s.content i

/-- The file holding the byte at `pos`, with its index: the first file that ends past
`pos`, found by halving over the files' end offsets. -/
def fileAtPosition? (s : Stream) (pos : Nat) : Option (Nat × FileEntry) :=
  if pos ≥ s.total then none
  else
    let i := partitionPoint (· ≤ pos) s.ends
    (s.files.get? i).map fun e => (i, e)

end Stream

end Metainfo
