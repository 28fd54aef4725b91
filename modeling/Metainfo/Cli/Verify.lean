import Metainfo.Cli.Args
import Metainfo.Cli.Console
import Metainfo.Content.Verify
import Metainfo.Settings.File
import Metainfo.Torrent.Read

/-!
# The `verify` command

`verify` checks content on the disk against a torrent file. The content lies at the path
given, else at the torrent's name in the working directory. It prints the torrent's
name and the content path, then the report:

* the file problems, or that every file was found with its size;
* the corrupt pieces, if any, out of the pieces of the torrent;
* the pieces that could not be read;
* how many pieces were checked and how many skipped.

At most twenty entries of each list are printed, the rest counted. The command fails
when the report does.
-/

namespace Metainfo
namespace Cli

/-- At most twenty error lines, then how many more there are. -/
def errorLines (messages : List String) : List String :=
  (messages.take 20).map ("  ERR " ++ ·) ++
    (if messages.length > 20 then [s!"  ... and {messages.length - 20} more"] else [])

/-- The lines of a verification report. -/
def reportLines (r : Report) : List String :=
  (if r.fileErrors.isEmpty then ["OK All files found and sizes match."]
    else s!"WARN {r.fileErrors.length} file problem(s):" ::
      errorLines (r.fileErrors.map (·.error.message))) ++
  (if r.contentErrors.isEmpty then []
    else s!"WARN {r.contentErrors.length} pieces corrupt out of {r.total}" ::
      errorLines (r.contentErrors.map Mismatch.message)) ++
  (r.readErrors.take 20).map (fun e => "  ERR " ++ e.message) ++
  [s!"Checked {r.checked} of {r.total} pieces ({r.skipped} skipped)"]

/-- The `verify` command. -/
def verify (d : Disk) (settings : Settings) (a : VerifyArgs) : CommandM Unit := do
  let t ← orFail (Torrent.read d a.torrent) fun e =>
    [s!"Failed to read torrent file: {a.torrent}", e.message]
  let root := a.path.getD t.info.name
  say s!"Verifying torrent: {t.info.name}"
  say s!"Content path: {root}"
  let s ← orFail (Stream.new t.info.files t.info.pieceLength root) fun e => [e.message]
  let workers := (a.threads.or settings.threads).getD 1
  let run := verifyContent d s t.info.pieces workers settings.intervalMs
    (fun (u : Unit) _ => (u, Flow.proceed)) ()
  let (_, r) ← orFail run fun e => [e.message]
  (reportLines r).forM say
  match r.status with
  | .passed => say "\nOK Verification Successful!"
  | .failed =>
    say "\nERR Verification Failed!"
    throw ["Verification failed"]
  | .cancelled => throw ["Verification cancelled"]

end Cli
end Metainfo
