import Metainfo.Layout.Path

/-!
# File lists

The content of a torrent is a list of files laid end to end.

* In the **single** layout the list has one entry, named after the torrent, and the
  content path is that file itself.
* In the **multi** layout each entry has a path of segments below the content path.
* `FileList.totalLen?` adds the lengths with 64-bit overflow checking: it is `none`
  exactly when the sum exceeds `2^64 - 1`.
* `FileList.resolve content i` is the file system path of entry `i`: the content path
  joined with the entry's segments in the multi layout, the content path itself in the
  single layout or for an index past the end.
-/

namespace Metainfo

/-- One file of the content: its path segments and its length in bytes. -/
structure FileEntry where
  /-- path segments below the content path -/
  path : List String
  /-- length in bytes -/
  len : Nat
  deriving DecidableEq, Repr

/-- The entry's segments joined into a relative path. -/
def FileEntry.relative (e : FileEntry) : String :=
  Path.join "" e.path

/-- The two layouts of a torrent's content. -/
inductive Layout where
  /-- one file, named after the torrent -/
  | single
  /-- a directory of files -/
  | multi
  deriving DecidableEq, Repr

/-- The files of a torrent, in content order. -/
structure FileList where
  /-- the layout -/
  layout : Layout
  /-- the entries -/
  entries : List FileEntry
  deriving DecidableEq, Repr

namespace FileList

/-- One file named `name` of `len` bytes. -/
def single (name : String) (len : Nat) : FileList :=
  ⟨.single, [⟨[name], len⟩]⟩

/-- A directory of files. -/
def multi (entries : List FileEntry) : FileList :=
  ⟨.multi, entries⟩

/-- The number of entries. -/
def length (f : FileList) : Nat := f.entries.length

/-- Entry `i`. -/
def get? (f : FileList) (i : Nat) : Option FileEntry := f.entries[i]?

/-- The largest 64-bit unsigned number. -/
def u64Max : Nat := 18446744073709551615

/-- Adds lengths from `acc` on, failing as soon as a partial sum passes `u64Max`. -/
def sumChecked : Nat → List FileEntry → Option Nat
  | acc, [] => some acc
  | acc, e :: rest => if acc + e.len ≤ u64Max then sumChecked (acc + e.len) rest else none

/-- The total length, or `none` when it does not fit in 64 bits. -/
def totalLen? (f : FileList) : Option Nat :=
  sumChecked 0 f.entries

/-- The file system path of entry `i` under the content path. -/
def resolve (f : FileList) (content : String) (i : Nat) : String :=
  match f.layout, f.get? i with
  | .multi, some e => Path.push content e.relative
  | _, _ => content

end FileList

end Metainfo
