import Metainfo.Layout.Path
import Metainfo.Text.Utf8

/-!
# A disk as a value

The file system the program works on: a tree of directories, files and symbolic links
below one root directory, the working directory. The names in a directory are byte
strings, as the operating system keeps them, and need not be UTF-8. Paths are text with
`/` between components, each component naming the entry whose name is its UTF-8 bytes,
and are read from the root; an absolute path, or one that climbs above the root, names
nothing on this disk.

* A file is an **inode**: an entry of a table that only grows, so a file that is
  removed or replaced keeps its contents for whoever still holds it open. A file's
  contents are a `Blob`, bytes with a length; the bytes past the stored ones read as
  zero, which is how a file extended by setting its length looks.
* `Disk.resolve` walks a path the way the kernel does: empty components and `.` are
  skipped, `..` goes up, a link is replaced by its text (at most 40 of them per walk),
  a file in the middle of a path is an error, and a missing last component gives the
  place where it would be created.
* Calls fail with an `OsError`, whose text is what the operating system prints.
-/

namespace Metainfo

/-- Why a file system call failed. -/
inductive OsError where
  /-- a component of the path does not exist -/
  | notFound
  /-- the path already exists -/
  | alreadyExists
  /-- a directory where a file was needed -/
  | isDirectory
  /-- a file where a directory was needed -/
  | notDirectory
  /-- too many symbolic links on the way -/
  | tooManyLinks
  /-- a read stopped before the buffer was full -/
  | shortRead
  /-- a file read as text is not UTF-8 -/
  | invalidUtf8
  deriving DecidableEq, Repr

/-- The operating system's text of an error. -/
def OsError.message : OsError → String
  | .notFound => "No such file or directory (os error 2)"
  | .alreadyExists => "File exists (os error 17)"
  | .isDirectory => "Is a directory (os error 21)"
  | .notDirectory => "Not a directory (os error 20)"
  | .tooManyLinks => "Too many levels of symbolic links (os error 40)"
  | .shortRead => "failed to fill whole buffer"
  | .invalidUtf8 => "stream did not contain valid UTF-8"

/-- The contents of a file: `size` bytes, of which those past `data` are zero. -/
structure Blob where
  /-- the stored bytes -/
  data : ByteArray
  /-- the length of the file -/
  size : Nat

/-- The blob holding exactly some bytes. -/
def Blob.ofBytes (data : ByteArray) : Blob := ⟨data, data.size⟩

/-- Byte `i` of a blob. -/
def Blob.byte (b : Blob) (i : Nat) : UInt8 :=
  if h : i < b.data.size then b.data[i] else 0

/-- `len` bytes from `offset`, or a short read when the blob ends before. -/
def Blob.read (b : Blob) (offset len : Nat) : Except OsError ByteArray :=
  if offset + len ≤ b.size then
    if offset + len ≤ b.data.size then .ok (b.data.extract offset (offset + len))
    else .ok ⟨((List.range len).map fun i => b.byte (offset + i)).toArray⟩
  else .error .shortRead

/-- All bytes of a blob. -/
def Blob.bytes (b : Blob) : ByteArray :=
  match b.read 0 b.size with
  | .ok data => data
  | .error _ => b.data

/-- What a name in a directory stands for. -/
inductive Node where
  /-- a directory -/
  | dir
  /-- a file, by inode -/
  | file (inode : Nat)
  /-- a symbolic link with its text -/
  | link (target : String)
  deriving DecidableEq, Repr

/-- A place on the disk: the names from the root down, each a byte string. -/
abbrev Loc := List ByteArray

/-- A place as a path from the working directory, each name read as text with its invalid
parts replaced; the working directory itself is the empty path. -/
def Loc.path (loc : Loc) : String := "/".intercalate (loc.map Utf8.lossy)

/-- A disk: every node below the root by its place, and the inode table. -/
structure Disk where
  /-- the nodes, the root apart (it is always a directory) -/
  nodes : List (Loc × Node)
  /-- the contents of every file ever created, by inode -/
  blobs : List Blob

/-- What a path leads to. -/
inductive Target where
  /-- an existing node -/
  | node (loc : Loc) (n : Node)
  /-- nothing, at a place whose directory exists -/
  | absent (loc : Loc)

/-- How many links one walk may follow. -/
def maxLinks : Nat := 40

namespace Disk

/-- The empty disk: only the root directory. -/
def empty : Disk := ⟨[], []⟩

/-- The node at a place. -/
def lookup (d : Disk) (loc : Loc) : Option Node :=
  if loc.isEmpty then some .dir else (d.nodes.find? (·.1 == loc)).map (·.2)

/-- The contents of an inode. -/
def blob (d : Disk) (inode : Nat) : Blob :=
  d.blobs.getD inode ⟨ByteArray.empty, 0⟩

/-- Walks `comps` from the directory `dir`, with `hops` links still allowed; the last
component is followed when it is a link only if `follow` holds. -/
def walk (d : Disk) (follow : Bool) (hops : Nat) (dir : Loc) (comps : List String) :
    Except OsError Target :=
  match comps with
  | [] => .ok (.node dir .dir)
  | c :: rest =>
    if c = "" ∨ c = "." then d.walk follow hops dir rest
    else if c = ".." then
      if dir.isEmpty then .error .notFound else d.walk follow hops dir.dropLast rest
    else
      let loc := dir ++ [c.toUTF8]
      match d.lookup loc with
      | none => if rest.isEmpty then .ok (.absent loc) else .error .notFound
      | some .dir => d.walk follow hops loc rest
      | some (.file i) => if rest.isEmpty then .ok (.node loc (.file i)) else .error .notDirectory
      | some (.link t) =>
        if rest.isEmpty ∧ !follow then .ok (.node loc (.link t))
        else
          match hops with
          | 0 => .error .tooManyLinks
          | k + 1 =>
            if t.startsWith "/" then .error .notFound
            else d.walk follow k dir (Path.split t ++ rest)
termination_by (hops, comps.length)

/-- Where a path leads, following a link in the last place when `follow` holds. -/
def resolve (d : Disk) (path : String) (follow : Bool) : Except OsError Target :=
  if path.isEmpty ∨ path.startsWith "/" then .error .notFound
  else d.walk follow maxLinks [] (Path.split path)

/-- The kinds of nodes as their metadata reports them. -/
inductive Kind where
  /-- a regular file -/
  | file
  /-- a directory -/
  | dir
  /-- a symbolic link (only when links are not followed) -/
  | link
  deriving DecidableEq, Repr

/-- The metadata of what a path names: its kind and length. A directory's length is
that of one block, and a link's the length of its text. -/
def stat (d : Disk) (path : String) (follow : Bool) : Except OsError (Kind × Nat) :=
  match d.resolve path follow with
  | .error e => .error e
  | .ok (.absent _) => .error .notFound
  | .ok (.node _ .dir) => .ok (.dir, 4096)
  | .ok (.node _ (.file i)) => .ok (.file, (d.blob i).size)
  | .ok (.node _ (.link t)) => .ok (.link, t.utf8ByteSize)

/-- The metadata of the file a path leads to, following links. -/
def metadata (d : Disk) (path : String) : Except OsError (Kind × Nat) :=
  d.stat path true

/-- The metadata of a path itself, a link not followed. -/
def linkMetadata (d : Disk) (path : String) : Except OsError (Kind × Nat) :=
  d.stat path false

/-- Opens a file for reading: its inode. Opening a directory succeeds as well; reading
it then fails. -/
def openRead (d : Disk) (path : String) : Except OsError (Option Nat) :=
  match d.resolve path true with
  | .error e => .error e
  | .ok (.absent _) => .error .notFound
  | .ok (.node _ (.file i)) => .ok (some i)
  | .ok (.node _ _) => .ok none

/-- The whole contents of a file. -/
def readFile (d : Disk) (path : String) : Except OsError ByteArray :=
  match d.openRead path with
  | .error e => .error e
  | .ok none => .error .isDirectory
  | .ok (some i) => .ok (d.blob i).bytes

/-- The whole contents of a file, if it can be read. -/
def contents? (d : Disk) (path : String) : Option ByteArray :=
  (d.readFile path).toOption

/-- The whole contents of a file as text. -/
def readText (d : Disk) (path : String) : Except OsError String := do
  match String.fromUTF8? (← d.readFile path) with
  | some s => return s
  | none => throw .invalidUtf8

/-- The place a path leads to, which must exist. -/
def canonicalize (d : Disk) (path : String) : Except OsError Loc :=
  match d.resolve path true with
  | .error e => .error e
  | .ok (.absent _) => .error .notFound
  | .ok (.node loc _) => .ok loc

/-- The names in a directory, in the order they were made. -/
def children (d : Disk) (loc : Loc) : List ByteArray :=
  d.nodes.filterMap fun (l, _) =>
    if l.dropLast == loc ∧ l.length = loc.length + 1 then l.getLast? else none

/-- Puts a node at a place, replacing what was there. -/
def setNode (d : Disk) (loc : Loc) (n : Node) : Disk :=
  { d with nodes := (d.nodes.filter (·.1 != loc)) ++ [(loc, n)] }

/-- A new inode with some contents, put at a place. -/
def addFile (d : Disk) (loc : Loc) (b : Blob) : Disk :=
  { setNode d loc (.file d.blobs.length) with blobs := d.blobs ++ [b] }

/-- Replaces the contents of an inode. -/
def setBlob (d : Disk) (inode : Nat) (b : Blob) : Disk :=
  { d with blobs := d.blobs.set inode b }

/-- Writes a file, creating it or truncating it in place (keeping its inode); a link
is followed. -/
def writeBlob (d : Disk) (path : String) (b : Blob) : Except OsError Disk :=
  match d.resolve path true with
  | .error e => .error e
  | .ok (.absent loc) => .ok (d.addFile loc b)
  | .ok (.node _ (.file i)) => .ok (d.setBlob i b)
  | .ok (.node _ _) => .error .isDirectory

/-- Writes bytes to a file, creating it or truncating it in place. -/
def writeFile (d : Disk) (path : String) (data : ByteArray) : Except OsError Disk :=
  d.writeBlob path (Blob.ofBytes data)

/-- Creates a new file, failing when anything, a dangling link included, is there. -/
def createNew (d : Disk) (path : String) (data : ByteArray) : Except OsError Disk :=
  match d.resolve path false with
  | .error e => .error e
  | .ok (.absent loc) => .ok (d.addFile loc (Blob.ofBytes data))
  | .ok (.node _ _) => .error .alreadyExists

/-- Creates a directory and the missing ones above it. -/
def createDirAll (d : Disk) (path : String) : Except OsError Disk :=
  let comps := Path.split path
  (List.range comps.length).foldlM (fun d k =>
    let upTo := "/".intercalate (comps.take (k + 1))
    if upTo.isEmpty then .ok d
    else
      match d.resolve upTo true with
      | .error e => .error e
      | .ok (.absent loc) => .ok (d.setNode loc .dir)
      | .ok (.node _ .dir) => .ok d
      | .ok (.node _ _) => .error .alreadyExists) d

/-- Creates a symbolic link. -/
def symlink (d : Disk) (path target : String) : Except OsError Disk :=
  match d.resolve path false with
  | .error e => .error e
  | .ok (.absent loc) => .ok (d.setNode loc (.link target))
  | .ok (.node _ _) => .error .alreadyExists

/-- Removes a file or link, or a directory with everything below it. -/
def remove (d : Disk) (path : String) : Except OsError Disk :=
  match d.resolve path false with
  | .error e => .error e
  | .ok (.absent _) => .error .notFound
  | .ok (.node loc _) =>
    if loc.isEmpty then .error .isDirectory
    else .ok { d with nodes := d.nodes.filter fun (l, _) => !(loc.isPrefixOf l) }

/-- The files of `after` whose contents are not those at the same place in `before`,
as paths with their bytes. -/
def changedFiles (before after : Disk) : List (String × ByteArray) :=
  after.nodes.filterMap fun (loc, n) =>
    match n with
    | .file i =>
      let data := (after.blob i).bytes
      let same := match before.lookup loc with
        | some (.file j) => (before.blob j).bytes == data
        | _ => false
      if same then none else some (Loc.path loc, data)
    | _ => none

/-- The directory part of a path: every component but the last. -/
def parentPath (path : String) : String :=
  "/".intercalate (Path.split path).dropLast

end Disk

/-- A change to the disk, made with the directories above it created first. -/
inductive DiskChange where
  /-- write a file, truncating an existing one in place -/
  | write (path : String) (data : ByteArray)
  /-- create a directory -/
  | mkdir (path : String)
  /-- create or truncate a file and set its length -/
  | sparse (path : String) (len : Nat)
  /-- remove a file or a directory tree -/
  | remove (path : String)
  /-- create a symbolic link with the given text -/
  | symlink (path target : String)

namespace Disk

/-- Makes a change. -/
def change (d : Disk) : DiskChange → Except OsError Disk
  | .write p data => do (← d.createDirAll (parentPath p)).writeFile p data
  | .mkdir p => d.createDirAll p
  | .sparse p n => do (← d.createDirAll (parentPath p)).writeBlob p ⟨ByteArray.empty, n⟩
  | .remove p => d.remove p
  | .symlink p t => do (← d.createDirAll (parentPath p)).symlink p t

end Disk

end Metainfo
