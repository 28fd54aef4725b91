import Metainfo.Cli.Args
import Metainfo.Cli.Console
import Metainfo.Build.Builder
import Metainfo.Settings.File
import Metainfo.Layout.Path

/-!
# The `create` command

`create` builds the torrent of a source path and writes it:

* the output is the path given, else `<name>.torrent`, the name being the one given,
  else the source's last name, else `output`;
* the piece-size exponent given wins over the settings' one, which wins over the
  automatic size;
* an existing output is refused unless forced;
* `--json` prints a summary of the new torrent on standard output, and the path of the
  output goes to standard error.

With `--dry-run` nothing is hashed or written: the plan is printed on standard error,
with up to twenty of its files when verbose.
-/

namespace Metainfo
namespace Cli

/-- Where the torrent is written. -/
def CreateArgs.outputPath (a : CreateArgs) : String :=
  a.output.getD ((a.name.getD ((Path.fileName a.source).getD "output")) ++ ".torrent")

/-- The build options: the piece-size exponent given, else the settings' one. -/
def CreateArgs.buildOptions (a : CreateArgs) (settings : Settings) : BuildOptions :=
  ⟨a.pieceLength.or settings.pieceLength, a.isPrivate, a.comment, a.announce, a.noDate, none,
    a.name⟩

/-- At most twenty file rows, then a line saying how many more there are. -/
def listFiles (files : List FileEntry) (more : Nat → String) : List String :=
  (files.take 20).map (fun e => fileRow e.path e.len) ++
    (if files.length > 20 then [more (files.length - 20)] else [])

/-- The lines of a dry run's plan. -/
def planLines (plan : BuildPlan) (verbose : Bool) : List String :=
  ["", "OK  Dry Run Results:",
    field "Name:" plan.name,
    field "Total Size:" (Text.humanBytes plan.totalSize),
    field "File Count:" (toString plan.files.length),
    field "Piece Length:" (Text.humanBytes plan.spec.size ++ s!" (2^{plan.spec.exponent})"),
    field "Piece Count:" (toString plan.spec.count)] ++
  if verbose then
    ["", "f  Files that would be included:"] ++
      listFiles plan.files.entries fun n => s!"  ... and {n} more"
  else []

/-- The summary of a new torrent as a JSON object, one field a line. -/
def summaryJson (t : Torrent) (output : String) : String :=
  let fields := [("name", jsonString t.info.name),
    ("info_hash", jsonString (Bytes.toHex t.infoHash)),
    ("total_size", toString t.info.totalSize),
    ("piece_length", toString t.info.pieceLength),
    ("pieces", toString t.info.pieces.length),
    ("files", toString t.info.files.length),
    ("output", jsonString output)]
  "\x7b\n" ++ ",\n".intercalate (fields.map fun f => "  " ++ jsonString f.1 ++ ": " ++ f.2) ++
    "\n\x7d"

/-- Writes the torrent file: only a new file, unless forced. -/
def writeTorrent (d : Disk) (t : Torrent) (output : String) (force : Bool) :
    Except (List String) Disk :=
  if force then
    (d.writeFile output t.toBytes).mapError fun e => ["Failed to create output file", e.message]
  else
    (d.createNew output t.toBytes).mapError fun e =>
      [s!"Failed to create output file (use -f to overwrite): {output}", e.message]

/-- The `create` command at time `now`; `rootName` is the working directory's own name.
It returns the disk with the torrent written. -/
def create (d : Disk) (rootName : String) (now : Int) (settings : Settings) (a : CreateArgs) :
    CommandM Disk := do
  let output := a.outputPath
  let opts := a.buildOptions settings
  if a.dryRun then
    warn "DRY-RUN  Dry run: scanning files..."
    let plan ← orFail (planBuild d rootName a.source (some output) opts) id
    (planLines plan a.verbose).forM warn
    return d
  else
    let workers := (a.threads.or settings.threads).getD 1
    let built := buildTorrent d rootName a.source (some output) opts workers settings.intervalMs now
    let t ← orFail built id
    let d ← orFail (writeTorrent d t output a.force) id
    if a.json then say (summaryJson t output)
    warn s!"Created: {output}"
    return d

end Cli
end Metainfo
