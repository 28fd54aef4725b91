import Metainfo.Cli.Console
import Metainfo.Torrent.Raw
import Metainfo.Torrent.Read
import Metainfo.Text.Date

/-!
# The `inspect` command

`inspect` prints what a torrent file says about itself: its name, comment, tool and
date when present, sizes, piece count, whether it is private, its info hash, its
trackers and up to twenty of its files.

* A file larger than the torrent size limit is refused before it is read.
* The info hash and the piece count come from the file's own bytes, so keys the
  torrent model does not keep still count.
* The trackers are those `Torrent.trackers` reads.
-/

namespace Metainfo
namespace Cli

/-- The lines that describe a torrent, given its info hash and piece count. -/
def inspectLines (t : Torrent) (hash : ByteArray) (pieceCount : Nat) : List String :=
  ["i  Torrent Metadata:", field "Name:" t.info.name] ++
  (t.comment?.map fun c => field "Comment:" c).toList ++
  (t.createdBy?.map fun c => field "Created By:" c).toList ++
  (t.creationDate?.map fun date => field "Date:" (Text.formatTimestamp date)).toList ++
  [field "Total Size:" (Text.humanBytes t.info.totalSize),
    field "Piece Size:" (Text.humanBytes t.info.pieceLength),
    field "Piece Count:" (toString pieceCount),
    field "Private:" (if t.info.isPrivate then "yes" else "no"),
    field "Info Hash:" (Bytes.toHex hash)] ++
  (match t.trackers with
    | [] => []
    | urls => ["", "t  Trackers:"] ++ urls.map ("  - " ++ ·)) ++
  ["", "f  Files:"] ++
  (t.info.files.entries.take 20).map (fun e => fileRow e.path e.len) ++
  (if t.info.files.length > 20 then [s!"  ... and {t.info.files.length - 20} more files"] else [])

/-- The `inspect` command. -/
def inspect (d : Disk) (path : String) : CommandM Unit := do
  let context := s!"Failed to read torrent file: {path}"
  let (_, size) ← orFail (d.metadata path) fun e => [context, e.message]
  if size > maxTorrentSize then
    throw [s!"{path} is too large to be a torrent file ({size} bytes)"]
  let data ← orFail (d.readFile path) fun e => [context, e.message]
  let t ← orFail (Torrent.ofBytes data) fun e =>
    ["Failed to parse torrent file. Is it a valid bencoded file?", e.message]
  let hash ← orFail (rawInfoHash data) fun e => [e.message]
  let pieces ← orFail (rawPieces data) fun e => [e.message]
  (inspectLines t hash (pieces.size / digestLen)).forM say

end Cli
end Metainfo
