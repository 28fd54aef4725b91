import Metainfo.Torrent.Basic
import Metainfo.Error

/-!
# Reading a torrent file

`Torrent.read` reads and validates a torrent file, refusing one larger than
`maxTorrentSize` bytes before reading it.
-/

namespace Metainfo

/-- The largest torrent file that is read. -/
def maxTorrentSize : Nat := 10000000

/-- Reads and validates the torrent file at a path. -/
def Torrent.read (d : Disk) (path : String) : Except Error Torrent := do
  let (_, size) ← (d.metadata path).mapError Error.io
  if size > maxTorrentSize then
    throw (.metainfo (.invalid "metainfo" s!"file is {size} bytes, the limit is {maxTorrentSize}"))
  let data ← (d.readFile path).mapError Error.io
  (Torrent.ofBytes data).mapError Error.metainfo

end Metainfo
