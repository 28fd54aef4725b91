import Metainfo.Bencode.Value
import Metainfo.Bencode.Error

/-!
# Reading bencode

The reader accepts exactly the canonical form that `Value.encode` writes, at most
`maxDepth` levels deep:

* an integer has at least one digit, no leading zero, no `-0`, and fits in 64 signed
  bits; its body runs to the first `e`;
* a byte-string length is decimal without a leading zero and runs to the first `:`;
  the bytes must all be present;
* dictionary keys are byte strings in strictly ascending order;
* a `-` where a value starts reads as a negative length.

The reader walks the input by position. `decodePrefix` reads one value from the
front and reports how many bytes it used; `decode` also requires that nothing
follows. The recursion is bounded by a fuel of two steps per input byte
(`fuelFor`): a container's opening byte costs two steps, one for the value and one
for its first item, and every other step consumes a byte of its own.
-/

namespace Metainfo
namespace Bencode

/-- The byte of an ASCII character. -/
def ascii (c : Char) : UInt8 :=
  c.toNat.toUInt8

/-- The error for a byte that cannot start a value: `-` is read as a negative
length. -/
def unexpected (b : UInt8) (pos : Nat) : DecodeError :=
  if b = ascii '-' then .invalidLength pos "negative length" else .unexpectedByte b pos

/-- Reads the integer whose `i` is at `at_`: the integer and the position after its
`e`. -/
def readInteger (data : ByteArray) (at_ : Nat) : Except DecodeError (Int × Nat) :=
  match Bytes.findFrom data (ascii 'e') (at_ + 1) with
  | none => .error (.unexpectedEof data.size)
  | some stop =>
    let digits := Bytes.slice data (at_ + 1) stop
    let negative := digits.head? = some (ascii '-')
    let body := if negative then digits.tail else digits
    let invalid := DecodeError.invalidInteger at_
    if body.isEmpty then .error (invalid "no digits")
    else if !body.all Bytes.isDigit then .error (invalid "non-digit character")
    else if body.head? = some (ascii '0') && body.length > 1 then .error (invalid "leading zero")
    else if body = [ascii '0'] && digits.length > 1 then .error (invalid "negative zero")
    else
      let magnitude : Int := Bytes.digitsValue body
      let n := if negative then -magnitude else magnitude
      if Value.inRange n then .ok (n, stop + 1) else .error (invalid "out of range")

/-- Reads the length prefix of the byte string at `at_`: the positions where its bytes
start and end. -/
def readLength (data : ByteArray) (at_ : Nat) : Except DecodeError (Nat × Nat) :=
  match Bytes.findFrom data (ascii ':') at_ with
  | none => .error (.unexpectedEof data.size)
  | some colon =>
    let digits := Bytes.slice data at_ colon
    let invalid := DecodeError.invalidLength at_
    if digits.isEmpty || !digits.all Bytes.isDigit then .error (invalid "non-digit character")
    else if digits.head? = some (ascii '0') && digits.length > 1 then .error (invalid "leading zero")
    else
      let len := Bytes.digitsValue digits
      if len ≥ 2 ^ 64 then .error (invalid "length too large")
      else if colon + 1 + len > data.size then .error (invalid "length overruns input")
      else .ok (colon + 1, colon + 1 + len)

/-- Reads the byte string at `at_`: its bytes and the position after them. -/
def readBytes (data : ByteArray) (at_ : Nat) : Except DecodeError (ByteArray × Nat) := do
  let (start, stop) ← readLength data at_
  return (data.extract start stop, stop)

/-- Checks a key against the key before it: keys must strictly ascend. -/
def checkKeyOrder (prev : Option ByteArray) (key : ByteArray) (at_ : Nat) :
    Except DecodeError Unit :=
  match prev with
  | none => .ok ()
  | some p =>
    match Bytes.compare p key with
    | .lt => .ok ()
    | .eq => .error (.duplicateKey at_)
    | .gt => .error (.unsortedKey at_)

mutual
/-- Reads the value at `pos`, at nesting depth `depth`: the value and the position
after it. -/
def readValue (data : ByteArray) : Nat → Nat → Nat → Except DecodeError (Value × Nat)
  | 0, _, pos => .error (.unexpectedEof pos)
  | fuel + 1, depth, pos =>
    if depth > maxDepth then .error (.tooDeep maxDepth)
    else
      match data[pos]? with
      | none => .error (.unexpectedEof pos)
      | some b =>
        if b = ascii 'i' then
          match readInteger data pos with
          | .ok (n, p) => .ok (.int n, p)
          | .error e => .error e
        else if Bytes.isDigit b then
          match readBytes data pos with
          | .ok (s, p) => .ok (.bytes s, p)
          | .error e => .error e
        else if b = ascii 'l' then readItems data fuel (depth + 1) (pos + 1) []
        else if b = ascii 'd' then readEntries data fuel (depth + 1) (pos + 1) none []
        else .error (unexpected b pos)

/-- Reads list items at `pos` up to the closing `e`; `acc` holds the items read so
far, last first. -/
def readItems (data : ByteArray) :
    Nat → Nat → Nat → List Value → Except DecodeError (Value × Nat)
  | 0, _, pos, _ => .error (.unexpectedEof pos)
  | fuel + 1, depth, pos, acc =>
    match data[pos]? with
    | none => .error (.unexpectedEof pos)
    | some b =>
      if b = ascii 'e' then .ok (.list acc.reverse, pos + 1)
      else
        match readValue data fuel depth pos with
        | .error e => .error e
        | .ok (v, p) => readItems data fuel depth p (v :: acc)

/-- Reads dictionary entries at `pos` up to the closing `e`; `prev` is the last key
read and `acc` the entries so far, last first. -/
def readEntries (data : ByteArray) :
    Nat → Nat → Nat → Option ByteArray → List (ByteArray × Value) →
      Except DecodeError (Value × Nat)
  | 0, _, pos, _, _ => .error (.unexpectedEof pos)
  | fuel + 1, depth, pos, prev, acc =>
    match data[pos]? with
    | none => .error (.unexpectedEof pos)
    | some b =>
      if b = ascii 'e' then .ok (.dict acc.reverse, pos + 1)
      else if !Bytes.isDigit b then .error (.nonStringKey pos)
      else
        match readBytes data pos with
        | .error e => .error e
        | .ok (key, afterKey) =>
          match checkKeyOrder prev key pos with
          | .error e => .error e
          | .ok () =>
            match readValue data fuel depth afterKey with
            | .error e => .error e
            | .ok (v, p) => readEntries data fuel depth p (some key) ((key, v) :: acc)
end

/-- Fuel enough to read anything from `data`: two steps per byte and one to spare. -/
def fuelFor (data : ByteArray) : Nat :=
  2 * data.size + 2

/-- Reads one value from the front of `data`: the value and the number of bytes it
takes. -/
def decodePrefix (data : ByteArray) : Except DecodeError (Value × Nat) :=
  readValue data (fuelFor data) 0 0

/-- Reads a value that takes all of `data`. -/
def decode (data : ByteArray) : Except DecodeError Value :=
  match decodePrefix data with
  | .error e => .error e
  | .ok (v, used) => if used = data.size then .ok v else .error (.trailingData (data.size - used))

end Bencode
end Metainfo
