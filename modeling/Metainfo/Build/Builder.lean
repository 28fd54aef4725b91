import Metainfo.Build.Scan
import Metainfo.Content.Hashing
import Metainfo.Torrent.Basic

/-!
# Building a torrent

Building goes in three steps:

1. **plan**: scan the source, check that the total length fits in 64 bits and is
   positive, settle the name (an explicit name renames a single file too) and the
   piece size (an explicit exponent from 14 to 26 that the piece-size rules accept,
   or the size chosen for the total);
2. **hash** every piece; a piece that cannot be read fails the build, naming the
   first failed piece;
3. **assemble** the torrent: the `private` flag, the trackers, the comment, the tool
   that made it and the creation date, the one given or else the clock's (none when the
   clock reads before 1970).

Trackers are given as tiers, each one a comma-separated list; the parts are trimmed
of white space and empty parts and empty tiers are dropped. `announce` is the first
tracker, and `announce-list` is written only when there is more than one tracker.
-/

namespace Metainfo

/-- The choices of the person building a torrent. -/
structure BuildOptions where
  /-- the piece-size exponent -/
  pieceLength : Option Nat
  /-- mark the torrent private -/
  isPrivate : Bool
  /-- a comment -/
  comment : Option String
  /-- tracker tiers, each a comma-separated list -/
  announce : List String
  /-- write no creation date -/
  noDate : Bool
  /-- the creation date to write instead of the current time, in seconds since 1970 -/
  creationDate : Option Int64
  /-- the torrent's name instead of the source's -/
  name : Option String
  deriving DecidableEq, Repr

/-- No choices made. -/
def BuildOptions.none : BuildOptions := ⟨.none, false, .none, [], false, .none, .none⟩

/-- Everything settled before hashing. -/
structure BuildPlan where
  /-- the torrent's name -/
  name : String
  /-- where the content lies -/
  content : String
  /-- the files -/
  files : FileList
  /-- the piece size and count -/
  spec : Piece.Spec
  /-- the total length -/
  totalSize : Nat
  deriving DecidableEq, Repr

/-- The version of the tool. -/
def toolVersion : String := "0.3.1"

/-- The `created by` text. -/
def createdBy : String := "piecework " ++ toolVersion

/-- The piece spec for a total length: the exponent asked for, or the automatic one. -/
def specFor (opts : BuildOptions) (total : Nat) : Except (List String) Piece.Spec :=
  match opts.pieceLength with
  | none => .ok (Piece.Spec.forTotal total)
  | some exp =>
    match Piece.sizeOfExponent exp with
    | .error e => .error [e.message]
    | .ok size => (Piece.Spec.new size total).mapError fun e => [e.message]

/-- Scans the source and settles the name and the piece size. -/
def planBuild (d : Disk) (rootName source : String) (output : Option String)
    (opts : BuildOptions) : Except (List String) BuildPlan := do
  let scan ← scanFiles d rootName source output
  let some total := scan.files.totalLen?
    | throw [s!"Total size of {showPath scan.content} does not fit in 64 bits"]
  if total = 0 then throw [s!"Nothing to hash: all files in {showPath scan.content} are empty"]
  let name := opts.name.getD scan.name
  let files := match scan.files.layout with
    | .single => FileList.single name total
    | .multi => scan.files
  return ⟨name, scan.content, files, ← specFor opts total, total⟩

/-- White space as Unicode defines it. -/
def isWhiteSpace (c : Char) : Bool :=
  let n := c.toNat
  (0x9 ≤ n ∧ n ≤ 0xD) ∨ n = 0x20 ∨ n = 0x85 ∨ n = 0xA0 ∨ n = 0x1680 ∨
  (0x2000 ≤ n ∧ n ≤ 0x200A) ∨ n = 0x2028 ∨ n = 0x2029 ∨ n = 0x202F ∨ n = 0x205F ∨ n = 0x3000

/-- A text without the white space at both ends. -/
def trimWhiteSpace (s : String) : String :=
  String.ofList (((s.toList.dropWhile isWhiteSpace).reverse.dropWhile isWhiteSpace).reverse)

/-- The tracker tiers: each given tier split at commas, trimmed, empties dropped. -/
def trackerTiers (announce : List String) : List (List String) :=
  (announce.map fun tier =>
    ((tier.splitOn ",").map trimWhiteSpace).filter (!·.isEmpty)).filter (!·.isEmpty)

/-- The clock's reading, in seconds since 1970, as a creation date: none before 1970, and
the whole seconds taken as a signed 64-bit number. -/
def clockDate (now : Int) : Option Int64 :=
  if now < 0 then none else some (Int64.ofNat now.toNat)

/-- The top-level keys of a new torrent. -/
def extraKeys (opts : BuildOptions) (now : Int) : Bencode.Dict :=
  let tiers := trackerTiers opts.announce
  let d : Bencode.Dict := []
  let d := match tiers with
    | (first :: _) :: _ => Bencode.Dict.insert d (key "announce") (Bencode.Value.string first)
    | _ => d
  let d := if tiers.length > 1 ∨ (tiers.head?.map (·.length)).getD 0 > 1 then
      Bencode.Dict.insert d (key "announce-list")
        (.list (tiers.map fun t => .list (t.map Bencode.Value.string)))
    else d
  let d := match opts.comment with
    | some c => Bencode.Dict.insert d (key "comment") (Bencode.Value.string c)
    | none => d
  let d := Bencode.Dict.insert d (key "created by") (Bencode.Value.string createdBy)
  let date := if opts.noDate then none else opts.creationDate.or (clockDate now)
  match date with
  | some t => Bencode.Dict.insert d (key "creation date") (.int t.toInt)
  | none => d

/-- The torrent of a plan and its digests. -/
def assemble (plan : BuildPlan) (pieces : HashList) (opts : BuildOptions) (now : Int) : Torrent :=
  let infoExtra : Bencode.Dict :=
    if opts.isPrivate then [(key "private", .int 1)] else []
  ⟨⟨plan.name, plan.spec.size, pieces, plan.files, infoExtra⟩, extraKeys opts now⟩

/-- Hashes the content of a plan on `workers` workers, with progress reports every
`interval` milliseconds to nobody. -/
def hashPlan (d : Disk) (plan : BuildPlan) (workers interval : Nat) :
    Except (List String) HashList :=
  match Stream.new plan.files plan.spec.size plan.content with
  | .error e => .error [e.message]
  | .ok s =>
    match (hashPieces d s workers interval (fun (u : Unit) _ => (u, Flow.proceed)) ()).2 with
    | .complete l => .ok l
    | .cancelled k => .error [s!"Hashing cancelled after {k} pieces"]
    | .failed es =>
      let first := (es.head?.map PieceReadError.message).getD ""
      .error [s!"Failed to read source files ({first})", failureMessage es]

/-- Builds the torrent of a source path at time `now`. -/
def buildTorrent (d : Disk) (rootName source : String) (output : Option String)
    (opts : BuildOptions) (workers interval : Nat) (now : Int) : Except (List String) Torrent := do
  let plan ← planBuild d rootName source output opts
  let pieces ← hashPlan d plan workers interval
  return assemble plan pieces opts now

end Metainfo
