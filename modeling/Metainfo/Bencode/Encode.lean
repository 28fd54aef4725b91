import Metainfo.Bencode.Value

/-!
# Writing bencode

The canonical bencode form of a value:

* an integer `n` is `i`, its decimal digits with a leading `-` when negative, `e`;
* a byte string is its length in decimal, `:`, its bytes;
* a list is `l`, its items, `e`;
* a dictionary is `d`, then each key (as a byte string) followed by its value, in
  the order the entries are kept, then `e`.

`Value.encode` gives the bytes; the pieces `encodeItems` and `encodeEntries` are the
concatenations of the items and entries, which the lemmas below unfold.
-/

namespace Metainfo
namespace Bencode

/-- The bytes of a length prefix: the decimal digits of `n` and a colon. -/
def lengthPrefix (n : Nat) : ByteArray :=
  (toString n ++ ":").toUTF8

/-- The bytes of an integer: `i`, the decimal digits, `e`. -/
def intBytes (n : Int) : ByteArray :=
  ("i" ++ toString n ++ "e").toUTF8

mutual
/-- The canonical bencode form of a value. -/
def Value.encode : Value → ByteArray
  | .bytes b => lengthPrefix b.size ++ b
  | .int n => intBytes n
  | .list xs => ByteArray.mk #[108] ++ encodeItems xs ++ ByteArray.mk #[101]
  | .dict es => ByteArray.mk #[100] ++ encodeEntries es ++ ByteArray.mk #[101]

/-- The items of a list, one after another. -/
def encodeItems : List Value → ByteArray
  | [] => .empty
  | v :: vs => v.encode ++ encodeItems vs

/-- The entries of a dictionary, each key before its value. -/
def encodeEntries : List (ByteArray × Value) → ByteArray
  | [] => .empty
  | (k, v) :: es => lengthPrefix k.size ++ k ++ v.encode ++ encodeEntries es
end

/-- The depth of the deepest sub-value, the value itself at depth 0 and the items and
entry values of a container one deeper than the container. -/
def Value.depth : Value → Nat
  | .bytes _ => 0
  | .int _ => 0
  | .list xs => itemsDepth xs
  | .dict es => entriesDepth es
where
  /-- the deepest sub-value among the items, counted from their container -/
  itemsDepth : List Value → Nat
    | [] => 0
    | v :: vs => max (v.depth + 1) (itemsDepth vs)
  /-- the deepest sub-value among the entry values, counted from their container -/
  entriesDepth : List (ByteArray × Value) → Nat
    | [] => 0
    | (_, v) :: es => max (v.depth + 1) (entriesDepth es)

@[simp] theorem encode_bytes (b : ByteArray) :
    (Value.bytes b).encode = lengthPrefix b.size ++ b := by
  simp [Value.encode]

@[simp] theorem encode_int (n : Int) : (Value.int n).encode = intBytes n := by
  simp [Value.encode]

end Bencode
end Metainfo
