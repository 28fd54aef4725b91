import Metainfo.Disk.Basic
import Metainfo.Layout.Stream

/-!
# Reading pieces from disk

A piece is read span by span from the files of the stream.

* A file is opened only after its metadata shows a file (links followed) of exactly
  the expected length; the `Reader` then keeps that one file open, by inode, and
  reads later spans of the same file through it without looking again, so a file
  replaced, removed or resized after opening still reads from the open inode.
* Every span of a piece is tried, also after one fails, so a failed read names every
  file of the piece that could not be read, in stream order.
* A span past the end of the open file fails as a short read.
-/

namespace Metainfo

/-- What is wrong with one file on disk. -/
inductive FileProblem where
  /-- the file does not exist -/
  | notFound
  /-- a directory stands where the file should be -/
  | isDirectory
  /-- a file stands where a directory should be -/
  | notDirectory
  /-- the file has another length -/
  | sizeMismatch (expected actual : Nat)
  /-- another failure of the operating system -/
  | io (e : OsError)
  deriving DecidableEq, Repr

namespace FileProblem

/-- The name of the problem. -/
def kind : FileProblem → String
  | .notFound => "NotFound"
  | .isDirectory => "IsDirectory"
  | .notDirectory => "NotDirectory"
  | .sizeMismatch .. => "SizeMismatch"
  | .io _ => "Io"

/-- The text of the problem. -/
def message : FileProblem → String
  | .notFound => "no such file"
  | .isDirectory => "is a directory, expected a file"
  | .notDirectory => "is a file, expected a directory"
  | .sizeMismatch e a => s!"size is {a} bytes, expected {e}"
  | .io e => e.message

/-- The problem an operating system error means; a missing directory on the way counts
as a missing file. -/
def ofOs : OsError → FileProblem
  | .notFound => .notFound
  | .isDirectory => .isDirectory
  | .notDirectory => .notFound
  | e => .io e

end FileProblem

/-- A problem with the file at a path. -/
structure FileError where
  /-- the path of the file -/
  path : String
  /-- what is wrong -/
  problem : FileProblem
  deriving DecidableEq, Repr

/-- `<path>: <problem>`. -/
def FileError.message (e : FileError) : String :=
  e.path ++ ": " ++ e.problem.message

/-- A file of a piece that could not be read. -/
structure SpanError where
  /-- the file's index -/
  file : Nat
  /-- what went wrong -/
  error : FileError
  deriving DecidableEq, Repr

/-- A piece that could not be read, with every file that failed. -/
structure PieceReadError where
  /-- the piece's index -/
  piece : Nat
  /-- the failed files, in stream order -/
  files : List SpanError
  deriving DecidableEq, Repr

/-- `failed to read piece <i>: <file errors joined by "; ">`. -/
def PieceReadError.message (e : PieceReadError) : String :=
  s!"failed to read piece {e.piece}: " ++ "; ".intercalate (e.files.map (·.error.message))

/-- The indexes of the failed files. -/
def PieceReadError.fileIndexes (e : PieceReadError) : List Nat :=
  e.files.map (·.file)

/-- The paths of the failed files. -/
def PieceReadError.paths (e : PieceReadError) : List String :=
  e.files.map (·.error.path)

/-- Opens a file after checking that it is a file of the expected length. -/
def openChecked (d : Disk) (path : String) (expected : Nat) : Except FileError Nat :=
  match d.metadata path with
  | .error e => .error ⟨path, FileProblem.ofOs e⟩
  | .ok (.dir, _) => .error ⟨path, .isDirectory⟩
  | .ok (_, size) =>
    if size ≠ expected then .error ⟨path, .sizeMismatch expected size⟩
    else
      match d.openRead path with
      | .ok (some inode) => .ok inode
      | .ok none => .error ⟨path, .isDirectory⟩
      | .error e => .error ⟨path, FileProblem.ofOs e⟩

/-- A piece reader: the file it holds open, as its index and inode. -/
structure Reader where
  /-- the open file -/
  held : Option (Nat × Nat)
  deriving DecidableEq, Repr

namespace Reader

/-- A reader with nothing open. -/
def fresh : Reader := ⟨none⟩

/-- The inode to read file `i` through: the open one, or the file opened now. -/
def inodeFor (r : Reader) (d : Disk) (s : Stream) (i : Nat) : Except FileError (Reader × Nat) :=
  match r.held with
  | some (j, inode) =>
    if j = i then .ok (r, inode)
    else (openChecked d (s.filePath i) ((s.files.get? i).map (·.len) |>.getD 0)).map
      fun inode => (⟨some (i, inode)⟩, inode)
  | none => (openChecked d (s.filePath i) ((s.files.get? i).map (·.len) |>.getD 0)).map
      fun inode => (⟨some (i, inode)⟩, inode)

/-- Reads one span. On a failed open the reader keeps what it held. -/
def readSpan (r : Reader) (d : Disk) (s : Stream) (span : Span) :
    Reader × Except FileError ByteArray :=
  match r.inodeFor d s span.file with
  | .error e => (r, .error e)
  | .ok (r, inode) =>
    (r, ((d.blob inode).read span.offset span.len).mapError
      fun e => ⟨s.filePath span.file, FileProblem.ofOs e⟩)

/-- Reads the spans in order, collecting the bytes and the failures. -/
def readSpans (d : Disk) (s : Stream) :
    Reader → List Span → ByteArray → List SpanError → Reader × ByteArray × List SpanError
  | r, [], buf, failed => (r, buf, failed.reverse)
  | r, span :: rest, buf, failed =>
    match r.readSpan d s span with
    | (r, .ok data) => readSpans d s r rest (buf ++ data) failed
    | (r, .error e) => readSpans d s r rest buf (⟨span.file, e⟩ :: failed)

/-- Reads a piece. -/
def read (r : Reader) (d : Disk) (s : Stream) (range : PieceRange) :
    Reader × Except PieceReadError ByteArray :=
  match readSpans d s r range.spans ByteArray.empty [] with
  | (r, buf, []) => (r, .ok buf)
  | (r, _, failed) => (r, .error ⟨range.index, failed⟩)

end Reader

end Metainfo
