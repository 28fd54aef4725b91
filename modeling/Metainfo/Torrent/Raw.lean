import Metainfo.Bencode.Locate
import Metainfo.Torrent.Basic

/-!
# Reading fields from metainfo bytes

Two fields can be read from encoded metainfo without building the torrent, straight
from the bytes the `info` dictionary occupies:

* `rawInfoHash` is the SHA-1 digest of the `info` value exactly as it is encoded in the
  input, which is the info hash even when the input is not in canonical form;
* `rawPieces` is the content of the `info.pieces` byte string.

Both validate the whole input as bencode first.
-/

namespace Metainfo

open Bencode

/-- The SHA-1 digest of the encoded `info` value. -/
def rawInfoHash (data : ByteArray) : Except MetainfoError ByteArray :=
  match locate data [key "info"] with
  | .error e => .error (.decode e)
  | .ok none => .error (.missing "info")
  | .ok (some (s, e)) => .ok (Sha1.digest (data.extract s e))

/-- The content of the encoded `info.pieces` byte string. -/
def rawPieces (data : ByteArray) : Except MetainfoError ByteArray :=
  match locate data [key "info", key "pieces"] with
  | .error e => .error (.decode e)
  | .ok none => .error (.missing "info.pieces")
  | .ok (some (s, e)) =>
    let raw := data.extract s e
    let startsWithDigit := match raw.toList with
      | b :: _ => Bytes.isDigit b
      | [] => false
    match Bytes.findFrom raw (Bencode.ascii ':') 0 with
    | some colon =>
      if startsWithDigit then .ok (raw.extract (colon + 1) raw.size)
      else .error (.wrongType "info.pieces" "a byte string")
    | none => .error (.wrongType "info.pieces" "a byte string")

end Metainfo
