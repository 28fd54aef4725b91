import Metainfo.Bencode.Error
import Metainfo.Piece.Size

/-!
# Why a metainfo value is refused

`MetainfoError` names the first rule of the metainfo format that a value breaks:
undecodable bytes, a missing key, a key of the wrong type, an invalid value, or a
piece length that the piece-size rules refuse. Fields are named by their dotted path
in the metainfo (`info.piece length`, `info.files.path`).
-/

namespace Metainfo

/-- Why a value is not valid metainfo. -/
inductive MetainfoError where
  /-- the bytes are not bencode -/
  | decode (e : Bencode.DecodeError)
  /-- a required key is absent -/
  | missing (field : String)
  /-- a key holds the wrong kind of value -/
  | wrongType (field expected : String)
  /-- a key holds a value the format does not allow -/
  | invalid (field reason : String)
  /-- the piece length breaks the piece-size rules -/
  | pieceSize (e : Piece.SizeError)
  deriving DecidableEq, Repr

namespace MetainfoError

/-- The constructor's name, with the inner error's for a decode or piece-size error. -/
def kind : MetainfoError → String
  | .decode e => "Decode." ++ e.kind
  | .missing _ => "Missing"
  | .wrongType .. => "WrongType"
  | .invalid .. => "Invalid"
  | .pieceSize e => "PieceSize." ++ e.kind

/-- The text of the error; a decode or piece-size error shows its own text. -/
def message : MetainfoError → String
  | .decode e => e.message
  | .missing f => s!"missing {f}"
  | .wrongType f e => s!"{f} must be {e}"
  | .invalid f r => s!"invalid {f}: {r}"
  | .pieceSize e => e.message

end MetainfoError

end Metainfo
