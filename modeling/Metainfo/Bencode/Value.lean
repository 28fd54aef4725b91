import Metainfo.Data.Bytes

/-!
# Bencode values

A bencoded value is a byte string, an integer, a list of values or a dictionary from
byte-string keys to values.

* Integers are kept as `Int`; the reader and the conversions below confine them to
  the signed 64-bit range (`Value.minInt`, `Value.maxInt`).
* A dictionary is its list of entries in ascending key order, each key once
  (`Bytes.compare`). `Dict.insert` keeps that shape: it puts a new key in its place
  and replaces the value of a key already present.
* Equality is decidable (`Value.decEq`), written out because the entries nest values
  inside pairs.
-/

namespace Metainfo
namespace Bencode

/-- A bencoded value. -/
inductive Value where
  /-- a byte string -/
  | bytes (b : ByteArray)
  /-- an integer, within the signed 64-bit range -/
  | int (n : Int)
  /-- a list of values -/
  | list (items : List Value)
  /-- a dictionary: entries in ascending key order, each key once -/
  | dict (entries : List (ByteArray × Value))

instance : Inhabited Value := ⟨.int 0⟩

mutual
/-- Decides equality of two values. -/
def Value.decEq : (a b : Value) → Decidable (a = b)
  | .bytes x, .bytes y =>
    if h : x = y then .isTrue (by rw [h]) else .isFalse (fun e => h (by cases e; rfl))
  | .int x, .int y =>
    if h : x = y then .isTrue (by rw [h]) else .isFalse (fun e => h (by cases e; rfl))
  | .list xs, .list ys =>
    match Value.decEqItems xs ys with
    | .isTrue h => .isTrue (by rw [h])
    | .isFalse h => .isFalse (fun e => h (by cases e; rfl))
  | .dict xs, .dict ys =>
    match Value.decEqEntries xs ys with
    | .isTrue h => .isTrue (by rw [h])
    | .isFalse h => .isFalse (fun e => h (by cases e; rfl))
  | .bytes _, .int _ | .bytes _, .list _ | .bytes _, .dict _
  | .int _, .bytes _ | .int _, .list _ | .int _, .dict _
  | .list _, .bytes _ | .list _, .int _ | .list _, .dict _
  | .dict _, .bytes _ | .dict _, .int _ | .dict _, .list _ => .isFalse (fun e => by cases e)

/-- Decides equality of two lists of values. -/
def Value.decEqItems : (xs ys : List Value) → Decidable (xs = ys)
  | [], [] => .isTrue rfl
  | [], _ :: _ => .isFalse (fun e => by cases e)
  | _ :: _, [] => .isFalse (fun e => by cases e)
  | x :: xs, y :: ys =>
    match Value.decEq x y, Value.decEqItems xs ys with
    | .isTrue h, .isTrue t => .isTrue (by rw [h, t])
    | .isFalse h, _ => .isFalse (fun e => h (by cases e; rfl))
    | _, .isFalse t => .isFalse (fun e => t (by cases e; rfl))

/-- Decides equality of two entry lists. -/
def Value.decEqEntries : (xs ys : List (ByteArray × Value)) → Decidable (xs = ys)
  | [], [] => .isTrue rfl
  | [], _ :: _ => .isFalse (fun e => by cases e)
  | _ :: _, [] => .isFalse (fun e => by cases e)
  | (k, x) :: xs, (k', y) :: ys =>
    if hk : k = k' then
      match Value.decEq x y, Value.decEqEntries xs ys with
      | .isTrue h, .isTrue t => .isTrue (by rw [hk, h, t])
      | .isFalse h, _ => .isFalse (fun e => h (by cases e; rfl))
      | _, .isFalse t => .isFalse (fun e => t (by cases e; rfl))
    else .isFalse (fun e => hk (by cases e; rfl))
end

instance : DecidableEq Value := Value.decEq

/-- The smallest integer a value holds, `-2^63`. -/
def Value.minInt : Int := -9223372036854775808

/-- The largest integer a value holds, `2^63 - 1`. -/
def Value.maxInt : Int := 9223372036854775807

/-- The integer lies in the signed 64-bit range. -/
def Value.inRange (n : Int) : Bool :=
  decide (Value.minInt ≤ n ∧ n ≤ Value.maxInt)

/-- Entries of a dictionary. -/
abbrev Dict := List (ByteArray × Value)

namespace Dict

/-- The value stored under a key. -/
def get? (d : Dict) (k : ByteArray) : Option Value :=
  match d with
  | [] => none
  | (k', v) :: rest => if k' = k then some v else get? rest k

/-- The dictionary with `k` bound to `v`: a new key goes to its place in key order,
a present key gets the new value. -/
def insert (d : Dict) (k : ByteArray) (v : Value) : Dict :=
  match d with
  | [] => [(k, v)]
  | (k', v') :: rest =>
    match Bytes.compare k k' with
    | .lt => (k, v) :: (k', v') :: rest
    | .eq => (k, v) :: rest
    | .gt => (k', v') :: insert rest k v

/-- The dictionary without the key. -/
def erase (d : Dict) (k : ByteArray) : Dict :=
  d.filter fun e => e.1 != k

/-- The value under a key together with the dictionary without it. -/
def take (d : Dict) (k : ByteArray) : Option Value × Dict :=
  (get? d k, erase d k)

/-- Builds a dictionary by inserting the pairs in order; a repeated key keeps the
last value. -/
def ofPairs (pairs : List (ByteArray × Value)) : Dict :=
  pairs.foldl (fun d p => insert d p.1 p.2) []

/-- The keys in order. -/
def keys (d : Dict) : List ByteArray :=
  d.map (·.1)

/-- Looking up a key just inserted finds its value. -/
theorem get?_insert_self (d : Dict) (k : ByteArray) (v : Value) :
    get? (insert d k v) k = some v := by
  induction d with
  | nil => simp [insert, get?]
  | cons e rest ih =>
    obtain ⟨k', v'⟩ := e
    unfold insert
    split
    · simp [get?]
    · simp [get?]
    · rename_i h
      have hne : k' ≠ k := by
        intro hk
        subst hk
        simp [Bytes.compare, Bytes.compareList_self] at h
      simp [get?, hne, ih]

end Dict

namespace Value

/-- The integer a value holds. -/
def asInt? : Value → Option Int
  | .int n => some n
  | _ => none

/-- The byte string a value holds. -/
def asBytes? : Value → Option ByteArray
  | .bytes b => some b
  | _ => none

/-- The text a byte string holds, when it is valid UTF-8. -/
def asStr? (v : Value) : Option String :=
  v.asBytes?.bind String.fromUTF8?

/-- The items of a list. -/
def asList? : Value → Option (List Value)
  | .list xs => some xs
  | _ => none

/-- The entries of a dictionary. -/
def asDict? : Value → Option Dict
  | .dict d => some d
  | _ => none

/-- The value under a key of a dictionary. -/
def get? (v : Value) (k : ByteArray) : Option Value :=
  v.asDict?.bind (Dict.get? · k)

/-- Binds a key in a dictionary; other values are left as they are, and the flag says
whether the value was a dictionary. -/
def insert (v : Value) (k : ByteArray) (x : Value) : Bool × Value :=
  match v with
  | .dict d => (true, .dict (Dict.insert d k x))
  | other => (false, other)

/-- A byte string holding the UTF-8 bytes of a text. -/
def string (s : String) : Value :=
  .bytes s.toUTF8

/-- The empty dictionary. -/
def emptyDict : Value :=
  .dict []

/-- The integer of an unsigned 64-bit number, refused above `2^63 - 1`. -/
def ofUInt64? (n : Nat) : Option Value :=
  if n ≤ 9223372036854775807 then some (.int n) else none

end Value

end Bencode
end Metainfo
