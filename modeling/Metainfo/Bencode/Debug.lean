import Metainfo.Bencode.Value
import Metainfo.Text.Quoted
import Metainfo.Text.Utf8

/-!
# The diagnostic text of a value

`Value.debug` is the text diagnostics show for a bencode value:

* `Integer(n)`;
* `Bytes("…")` for a UTF-8 byte string of at most 50 bytes, quoted as in
  `Text.quote`, and `Bytes([n bytes])` for any other byte string;
* `List([a, b, …])`;
* `Dict({"k": v, …})`, where every key is read as text with invalid UTF-8 replaced,
  the entries are ordered by that text, and of two keys that read the same the one
  that comes later in byte order gives the value.
-/

namespace Metainfo
namespace Bencode

/-- Puts a key into a list ordered by key, replacing the value of an equal key. -/
def insertByText {α : Type} (k : String) (v : α) : List (String × α) → List (String × α)
  | [] => [(k, v)]
  | (k2, v2) :: rest =>
    if k < k2 then (k, v) :: (k2, v2) :: rest
    else if k = k2 then (k, v) :: rest
    else (k2, v2) :: insertByText k v rest

/-- The text of a byte string. -/
def bytesDebug (b : ByteArray) : String :=
  match String.fromUTF8? b with
  | some s => if b.size ≤ 50 then "Bytes(" ++ Text.quote s ++ ")" else s!"Bytes([{b.size} bytes])"
  | none => s!"Bytes([{b.size} bytes])"

mutual

/-- The diagnostic text of a value. -/
def Value.debug : Value → String
  | .int n => s!"Integer({n})"
  | .bytes b => bytesDebug b
  | .list xs => "List([" ++ ", ".intercalate (debugItems xs) ++ "])"
  | .dict es =>
    let readable := (debugEntries es).foldl (fun acc (k, d) => insertByText k d acc) []
    "Dict(\x7b" ++ ", ".intercalate (readable.map fun (k, d) => Text.quote k ++ ": " ++ d) ++ "\x7d)"

/-- The texts of list items. -/
def debugItems : List Value → List String
  | [] => []
  | x :: xs => x.debug :: debugItems xs

/-- The readable key and the text of every dictionary entry, in byte order. -/
def debugEntries : List (ByteArray × Value) → List (String × String)
  | [] => []
  | (k, v) :: rest => (Utf8.lossy k, v.debug) :: debugEntries rest

end

end Bencode
end Metainfo
