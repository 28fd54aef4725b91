import Metainfo.Cli.Run
import Std.Time.Format

/-!
# The command line

`main` runs one command line against the working directory, in three steps:

1. **load**: the working directory's tree is read into a `Disk` value, links followed,
   hidden entries apart; every path named on the command line is read too, hidden or
   not, and the settings file from the configuration directory is put where the
   commands look for it;
2. **run**: `Cli.runCommandLine` runs the command on that value at the current time;
3. **store**: every file whose contents the command changed is written back, what the
   command printed is printed, a failure is reported on standard error, and the exit
   code is the run's.

Paths outside the working directory are not on the disk, so a command naming one finds
nothing there. Help, version and argument errors are reported briefly.
-/

namespace Metainfo
namespace Cli

/-- How deep directory trees are read. -/
def loadDepth : Nat := 64

/-- The path is a plain relative path: not absolute, and never climbing with `..`. -/
def isLocalPath (p : String) : Bool :=
  !p.isEmpty && !Path.isAbsolute p && !(Path.components p).contains .parent

/-- Reads the file or directory tree at a relative path into the disk, links followed,
at most `fuel` levels deep; hidden entries inside a directory are left out, and so is
what cannot be read. -/
def loadPath : Nat → String → Disk → IO Disk
  | 0, _, d => pure d
  | fuel + 1, rel, d => do
    let full := (← IO.currentDir) / rel
    let some info ← (try some <$> full.metadata catch _ => pure none) | pure d
    match info.type with
    | .dir =>
      let d := (d.change (.mkdir rel)).toOption.getD d
      let entries ← try full.readDir catch _ => pure #[]
      entries.toList.foldlM (fun d e =>
        if isHidden e.fileName.toUTF8 then pure d
        else loadPath fuel (Path.push rel e.fileName) d) d
    | .file =>
      let some data ← (try some <$> IO.FS.readBinFile full catch _ => pure none) | pure d
      pure ((d.change (.write rel data)).toOption.getD d)
    | _ => pure d

/-- Puts the settings file of the configuration directory where the commands look for
it: a file with its bytes, a directory as a directory. -/
def loadSettings (d : Disk) : IO Disk := do
  let home := (← IO.getEnv "HOME").getD ""
  let dir := match ← IO.getEnv "XDG_CONFIG_HOME" with
    | some x => if x.startsWith "/" then x else home ++ "/.config"
    | none => home ++ "/.config"
  let path := dir ++ "/piecework/config.toml"
  if let some data ← (try some <$> IO.FS.readBinFile path catch _ => pure none) then
    pure ((d.change (.write settingsPath data)).toOption.getD d)
  else
    let some info ← (try some <$> ((← IO.currentDir) / path).metadata catch _ => pure none)
      | pure d
    if info.type == .dir then pure ((d.change (.mkdir settingsPath)).toOption.getD d)
    else pure d

/-- What the argument parser's outcomes print. -/
def stopText : ArgStop → String
  | .displayHelp =>
    "Usage: piecework [OPTIONS] <COMMAND>\n\nCommands:\n  create   Create a torrent file\n" ++
      "  verify   Verify content against a torrent file\n  inspect  Show a torrent file\n"
  | .displayVersion => "piecework " ++ toolVersion ++ "\n"
  | e => "error: " ++ e.kind ++ "\n\nFor more information, try '--help'.\n"

end Cli
end Metainfo

open Metainfo Metainfo.Cli in
/-- Runs one command line against the working directory. -/
def main (args : List String) : IO UInt32 := do
  let cwd ← IO.currentDir
  let d ← loadPath loadDepth "" Disk.empty
  let d ← (args.filter isLocalPath).foldlM (fun d p =>
    match d.metadata p with
    | .ok _ => pure d
    | .error _ => loadPath loadDepth p d) d
  let d ← loadSettings d
  let now := (← Std.Time.Timestamp.now).toSecondsSinceUnixEpoch.val
  let (after, exit) := runCommandLine d (cwd.fileName.getD "") now ("piecework" :: args)
  match exit with
  | .stopped e =>
    if e.exitCode = 0 then IO.print (stopText e) else IO.eprint (stopText e)
  | .ran console failure =>
    for (path, data) in Disk.changedFiles d after do
      IO.FS.writeBinFile (cwd / path) data
    IO.print console.stdout
    IO.eprint console.stderr
    if let some chain := failure then IO.eprintln (failureReport chain)
  return exit.code.toUInt32
