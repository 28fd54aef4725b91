import Metainfo.Bencode.Decode

/-!
# Locating a raw sub-value

`locate data path` follows a path of dictionary keys from the top value of `data` and
gives the byte range that the value found there takes in `data`, without building the
values on the way. The whole input is still read and checked, with the same errors
as `decode`:

* an empty path gives the range of the whole top value;
* a key that is missing, or a step into a value that is not a dictionary, gives
  `none`;
* bytes after the top value give `trailingData`.
-/

namespace Metainfo
namespace Bencode

/-- Reads the value at `pos` only to find where it ends. -/
def skipValue (data : ByteArray) (fuel depth pos : Nat) : Except DecodeError Nat :=
  match readValue data fuel depth pos with
  | .ok (_, p) => .ok p
  | .error e => .error e

mutual
/-- Follows `path` from the value at `pos`: the range found, if any, and the position
after the value. -/
def locateAt (data : ByteArray) :
    Nat → List ByteArray → Nat → Nat → Except DecodeError (Option (Nat × Nat) × Nat)
  | 0, _, _, pos => .error (.unexpectedEof pos)
  | fuel + 1, [], depth, pos =>
    match skipValue data fuel depth pos with
    | .ok p => .ok (some (pos, p), p)
    | .error e => .error e
  | fuel + 1, key :: rest, depth, pos =>
    match data[pos]? with
    | none => .error (.unexpectedEof pos)
    | some b =>
      if b ≠ ascii 'd' then
        match skipValue data fuel depth pos with
        | .ok p => .ok (none, p)
        | .error e => .error e
      else if depth > maxDepth then .error (.tooDeep maxDepth)
      else locateEntries data fuel key rest (depth + 1) (pos + 1) none none

/-- Walks dictionary entries at `pos` looking for `key`; `found` is what following
`rest` under it gave. -/
def locateEntries (data : ByteArray) :
    Nat → ByteArray → List ByteArray → Nat → Nat → Option ByteArray → Option (Nat × Nat) →
      Except DecodeError (Option (Nat × Nat) × Nat)
  | 0, _, _, _, pos, _, _ => .error (.unexpectedEof pos)
  | fuel + 1, key, rest, depth, pos, prev, found =>
    match data[pos]? with
    | none => .error (.unexpectedEof pos)
    | some b =>
      if b = ascii 'e' then .ok (found, pos + 1)
      else if !Bytes.isDigit b then .error (.nonStringKey pos)
      else
        match readBytes data pos with
        | .error e => .error e
        | .ok (k, afterKey) =>
          match checkKeyOrder prev k pos with
          | .error e => .error e
          | .ok () =>
            if k = key then
              match locateAt data fuel rest depth afterKey with
              | .error e => .error e
              | .ok (r, p) => locateEntries data fuel key rest depth p (some k) r
            else
              match skipValue data fuel depth afterKey with
              | .error e => .error e
              | .ok p => locateEntries data fuel key rest depth p (some k) found
end

/-- The byte range of the value reached by following `path` from the top value, or
`none` when a key is missing or a step meets a value that is not a dictionary. -/
def locate (data : ByteArray) (path : List ByteArray) :
    Except DecodeError (Option (Nat × Nat)) :=
  match locateAt data (fuelFor data + 1) path 0 0 with
  | .error e => .error e
  | .ok (r, p) => if p = data.size then .ok r else .error (.trailingData (data.size - p))

end Bencode
end Metainfo
