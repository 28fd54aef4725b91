import Metainfo.Data.Bytes

/-!
# Why bencode input is refused

Each way the reader refuses its input is one constructor of `DecodeError`, carrying
the byte offset at which the fault was found. `DecodeError.message` is the one place
that words them; `DecodeError.kind` names the constructor.
-/

namespace Metainfo
namespace Bencode

/-- The deepest nesting the reader accepts: the top value is at depth 0. -/
def maxDepth : Nat := 64

/-- Why the reader refused a byte string. -/
inductive DecodeError where
  /-- the input ends where a byte is needed -/
  | unexpectedEof (at_ : Nat)
  /-- an integer is malformed -/
  | invalidInteger (at_ : Nat) (reason : String)
  /-- a byte-string length is malformed or too long -/
  | invalidLength (at_ : Nat) (reason : String)
  /-- a byte that cannot start a value -/
  | unexpectedByte (byte : UInt8) (at_ : Nat)
  /-- a dictionary key that is not a byte string -/
  | nonStringKey (at_ : Nat)
  /-- a dictionary key not after the one before it -/
  | unsortedKey (at_ : Nat)
  /-- a dictionary key equal to the one before it -/
  | duplicateKey (at_ : Nat)
  /-- bytes left after a complete value -/
  | trailingData (count : Nat)
  /-- a value nested deeper than the limit -/
  | tooDeep (limit : Nat)
  deriving DecidableEq, Repr

namespace DecodeError

/-- The constructor's name. -/
def kind : DecodeError → String
  | .unexpectedEof _ => "UnexpectedEof"
  | .invalidInteger .. => "InvalidInteger"
  | .invalidLength .. => "InvalidLength"
  | .unexpectedByte .. => "UnexpectedByte"
  | .nonStringKey _ => "NonStringKey"
  | .unsortedKey _ => "UnsortedKey"
  | .duplicateKey _ => "DuplicateKey"
  | .trailingData _ => "TrailingData"
  | .tooDeep _ => "TooDeep"

/-- The text of the error. A byte is shown as `0x` and two lowercase hex digits. -/
def message : DecodeError → String
  | .unexpectedEof p => s!"unexpected end of input at byte {p}"
  | .invalidInteger p r => s!"invalid integer at byte {p}: {r}"
  | .invalidLength p r => s!"invalid byte string length at byte {p}: {r}"
  | .unexpectedByte b p => s!"unexpected byte 0x{Bytes.byteHex b} at byte {p}"
  | .nonStringKey p => s!"dictionary key at byte {p} is not a byte string"
  | .unsortedKey p => s!"dictionary key at byte {p} is not in ascending order"
  | .duplicateKey p => s!"duplicate dictionary key at byte {p}"
  | .trailingData n => s!"{n} trailing bytes after value"
  | .tooDeep n => s!"nesting deeper than {n} levels"

end DecodeError

end Bencode
end Metainfo
