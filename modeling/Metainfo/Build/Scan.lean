import Metainfo.Disk.Basic
import Metainfo.Layout.FileList

/-!
# Scanning a source path

`scanFiles` turns a source path into the file list of a new torrent.

* The source is resolved to its place on the disk, links followed; the torrent's name
  is the last name of that place read as text (the working directory's own name for the
  root).
* A file gives the single layout with the file's length.
* A directory is walked without following links: every entry that is not a directory
  is a file of the torrent, a link with the length of its text; hidden names, UTF-8
  names starting with `.`, are skipped, directories included, and so is the output file
  (only a file or a link is compared with it: a directory at the output path is walked
  as any other).
* The walk reports each file by its names below the source, as the disk keeps them, and
  its length; the scan reads each name as text with its invalid parts replaced
  (`Utf8.lossy`), so two names that are not UTF-8 can give one segment.
* The files are ordered by their segment lists, segments compared as byte strings, and
  files with the same segments keep the order of the walk; a directory without files is
  an error.

Errors are chains of messages, the outermost first.
-/

namespace Metainfo

/-- The files found under a source path. -/
structure Scan where
  /-- the torrent's name: the last name of the source's place -/
  name : String
  /-- the source's place, as a path from the working directory -/
  content : String
  /-- the files -/
  files : FileList
  deriving DecidableEq, Repr

/-- How a path is shown: the empty path is `.`. -/
def showPath (p : String) : String := if p.isEmpty then "." else p

/-- Segment lists in lexicographic order, segments compared as byte strings. -/
def cmpSegments : List String → List String → Ordering
  | [], [] => .eq
  | [], _ => .lt
  | _, [] => .gt
  | a :: as, b :: bs =>
    match compareOfLessAndEq a b with
    | .eq => cmpSegments as bs
    | o => o

/-- Files in the order of their segment lists, by a stable sort: files with the same
segments keep the order the walk found them in. -/
def sortEntries (entries : List FileEntry) : List FileEntry :=
  entries.mergeSort fun a b => cmpSegments a.path b.path != .gt

/-- A file as a walk reports it: its names below the walked directory, as the disk keeps
them, and the length its metadata gives. -/
structure WalkEntry where
  /-- the names from the walked directory down to the file -/
  rel : Loc
  /-- the file's length -/
  len : Nat
  deriving DecidableEq

/-- A walked file as a scan lists it: each name read as text, invalid parts replaced. -/
def WalkEntry.entry (w : WalkEntry) : FileEntry := ⟨w.rel.map Utf8.lossy, w.len⟩

/-- The name is hidden: it is UTF-8 text starting with `.`. A name that is not UTF-8 is
never hidden. -/
def isHidden (name : ByteArray) : Bool :=
  match String.fromUTF8? name with
  | some s => s.startsWith "."
  | none => false

namespace Disk

/-- What the walk reports for the name `name` in the directory `dir`, whose names
below the source are `rel`, given how it walks a subdirectory: nothing for a hidden name,
the subdirectory's files for a directory, and one file for a regular file or a link other
than the excluded place, a link with the length of its text. -/
def visit (d : Disk) (exclude : Option Loc) (walkDir : Loc → Loc → List WalkEntry)
    (dir rel : Loc) (name : ByteArray) : List WalkEntry :=
  let loc := dir ++ [name]
  if isHidden name then []
  else
    match d.lookup loc with
    | some .dir => walkDir loc (rel ++ [name])
    | some (.file i) => if exclude = some loc then [] else [⟨rel ++ [name], (d.blob i).size⟩]
    | some (.link t) => if exclude = some loc then [] else [⟨rel ++ [name], t.utf8ByteSize⟩]
    | none => []

/-- The files below the directory `dir`, with their names below `dir`, walking at most
`fuel` levels deep. -/
def collect (d : Disk) (exclude : Option Loc) : (fuel : Nat) → Loc → Loc → List WalkEntry
  | 0, _, _ => []
  | fuel + 1, dir, rel => (d.children dir).flatMap (d.visit exclude (d.collect exclude fuel) dir rel)

/-- The place of the output file, when its path leads to one: the walk leaves it out. -/
def outputPlace (d : Disk) (output : Option String) : Option Loc :=
  output.bind fun o => (d.canonicalize o).toOption

end Disk

/-- Scans a source path; `rootName` is the working directory's own name and `output`
the torrent file to leave out. -/
def scanFiles (d : Disk) (rootName source : String) (output : Option String) :
    Except (List String) Scan := do
  let loc ← (d.canonicalize source).mapError
    fun e => [s!"Failed to resolve source path: {source}", e.message]
  let name := (loc.getLast?.map Utf8.lossy).getD rootName
  let content := Loc.path loc
  match d.lookup loc with
  | some (.file i) => return ⟨name, content, FileList.single name (d.blob i).size⟩
  | _ =>
    let entries := (d.collect (d.outputPlace output) (d.nodes.length + 1) loc []).map WalkEntry.entry
    if entries.isEmpty then throw [s!"No files found in {showPath content}"]
    return ⟨name, content, FileList.multi (sortEntries entries)⟩

end Metainfo
