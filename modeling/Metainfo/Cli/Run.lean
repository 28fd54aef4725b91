import Metainfo.Cli.Create
import Metainfo.Cli.Verify
import Metainfo.Cli.Inspect

/-!
# Running a command line

A command line runs in four steps: a bare source path becomes a `create` command, the
arguments are parsed, the settings file is loaded, and the command runs. The disk is
the state it changes; only `create` writes, and only when it succeeds.

* A parser outcome (help, version or an error) stops the run before anything else.
* Otherwise the run ends with what the command printed and, when it failed, the chain
  of messages; a settings file that cannot be loaded fails every command.
-/

namespace Metainfo
namespace Cli

/-- Where the settings file lies, from the home directory. -/
def settingsPath : String := ".config/piecework/config.toml"

/-- How a command line ended. -/
inductive Exit where
  /-- the argument parser stopped the run -/
  | stopped (e : ArgStop)
  /-- the command ran, printed this, and failed with the chain when there is one -/
  | ran (console : Console) (failure : Option (List String))
  deriving DecidableEq, Repr

/-- The process's exit code. -/
def Exit.code : Exit → Nat
  | .stopped e => e.exitCode
  | .ran _ none => 0
  | .ran _ (some _) => 1

/-- Runs a parsed command with its settings. -/
def runCommand (d : Disk) (rootName : String) (now : Int) (settings : Settings) :
    Command → CommandM Disk
  | .create a => create d rootName now settings a
  | .verify a => do
    verify d settings a
    return d
  | .inspect path => do
    inspect d path
    return d

/-- Runs a command line, its first argument the program's name, at time `now`;
`rootName` is the working directory's own name. -/
def runCommandLine (d : Disk) (rootName : String) (now : Int) (args : List String) :
    Disk × Exit :=
  match parseCommandLine (withDefaultCommand args) with
  | .error e => (d, .stopped e)
  | .ok cmd =>
    let program : CommandM Disk := do
      let settings ← orFail (Settings.load d settingsPath) fun e =>
        "Failed to load settings" :: e.chain
      runCommand d rootName now settings cmd
    match program.run with
    | (.ok d', console) => (d', .ran console none)
    | (.error chain, console) => (d, .ran console (some chain))

/-- How a failure is reported: the outermost message, then its causes, numbered when
there are several. -/
def failureReport : List String → String
  | [] => "Error: "
  | [outer] => "Error: " ++ outer
  | [outer, cause] => "Error: " ++ outer ++ "\n\nCaused by:\n    " ++ cause
  | outer :: causes =>
    "Error: " ++ outer ++ "\n\nCaused by:" ++
      String.join (causes.zipIdx.map fun (c, n) => "\n" ++ padLeft (toString n) 5 ++ ": " ++ c)

end Cli
end Metainfo
