import Metainfo.Torrent.Error
import Metainfo.Layout.Stream
import Metainfo.Disk.Basic

/-!
# Errors of the library

The errors a library call can end with, each wrapping the error of the part that
failed: the codec, the metainfo rules, the piece-size rules, the stream addressing, a
digest list of the wrong length, or the operating system.
-/

namespace Metainfo

/-- The error of a library call. -/
inductive Error where
  /-- malformed bencode -/
  | decode (e : Bencode.DecodeError)
  /-- bencode that is not valid metainfo -/
  | metainfo (e : MetainfoError)
  /-- a piece size the rules refuse -/
  | pieceSize (e : Piece.SizeError)
  /-- a stream that cannot be formed or addressed -/
  | stream (e : StreamError)
  /-- a digest list without one digest per piece -/
  | hashCount (expected actual : Nat)
  /-- a failed file system call -/
  | io (e : OsError)
  deriving DecidableEq, Repr

namespace Error

/-- The name of the error, with the inner error's name after a dot. -/
def kind : Error → String
  | .decode e => "Decode." ++ e.kind
  | .metainfo e => "MetainfoError." ++ e.kind
  | .pieceSize e => "PieceSize." ++ e.kind
  | .stream e => "Stream." ++ e.kind
  | .hashCount .. => "HashCountMismatch"
  | .io _ => "Io"

/-- The text of the error. -/
def message : Error → String
  | .decode e => e.message
  | .metainfo e => e.message
  | .pieceSize e => e.message
  | .stream e => e.message
  | .hashCount e a => s!"expected {e} piece hashes, got {a}"
  | .io e => e.message

end Error

end Metainfo
