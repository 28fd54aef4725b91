import Metainfo.Data.Arith

/-!
# Command-line arguments

The program takes a subcommand, `create`, `verify` or `inspect`, and `create` is
assumed when the first argument is neither a flag nor a subcommand name
(`withDefaultCommand`). Arguments are read the way the usual argument parser for such
programs reads them:

* flags and options are long (`--name`, `--name=value`) or short, and short ones can
  be grouped (`-pd`); an option's value is the rest of its group (`-l18`, `-l=18`) or
  the next argument, which may not look like a flag;
* `--` ends the flags: what follows is positional;
* a value is checked only when the argument it belongs to is complete, that is when
  the next argument is recognised or the arguments end; so an unknown flag is reported
  before a bad value given earlier, and a flag where a value was expected leaves the
  option without a value;
* a flag or a single-valued option given twice is a conflict; `--announce` collects;
* `-h`/`--help` (and `-V`/`--version` before the subcommand) stop at once.

Failures are reported only as the kind of error, with the exit status that goes with
it: 0 for help and version, 2 for the rest.
-/

namespace Metainfo
namespace Cli

/-- How reading the arguments can end without a command. -/
inductive ArgStop where
  /-- help was asked for -/
  | displayHelp
  /-- the version was asked for -/
  | displayVersion
  /-- nothing was given, so help is shown -/
  | displayHelpOnMissing
  /-- a required argument is missing -/
  | missingRequiredArgument
  /-- an argument that is not known -/
  | unknownArgument
  /-- a value that is empty or missing -/
  | invalidValue
  /-- a subcommand that does not exist -/
  | invalidSubcommand
  /-- a value that does not parse -/
  | valueValidation
  /-- an argument given twice -/
  | argumentConflict
  /-- a value given to a flag -/
  | tooManyValues
  deriving DecidableEq, Repr

namespace ArgStop

/-- The name of the error kind. -/
def kind : ArgStop → String
  | .displayHelp => "DisplayHelp"
  | .displayVersion => "DisplayVersion"
  | .displayHelpOnMissing => "DisplayHelpOnMissingArgumentOrSubcommand"
  | .missingRequiredArgument => "MissingRequiredArgument"
  | .unknownArgument => "UnknownArgument"
  | .invalidValue => "InvalidValue"
  | .invalidSubcommand => "InvalidSubcommand"
  | .valueValidation => "ValueValidation"
  | .argumentConflict => "ArgumentConflict"
  | .tooManyValues => "TooManyValues"

/-- The exit status: 0 for help and version, 2 for errors. -/
def exitCode : ArgStop → Nat
  | .displayHelp | .displayVersion => 0
  | _ => 2

end ArgStop

/-- The names of the subcommands. -/
def subcommands : List String := ["create", "verify", "inspect", "help"]

/-- Inserts `create` when the first argument is neither a flag nor a subcommand. -/
def withDefaultCommand (args : List String) : List String :=
  match args with
  | prog :: first :: rest =>
    if !first.startsWith "-" ∧ first ∉ subcommands then prog :: "create" :: first :: rest
    else args
  | _ => args

/-- What an argument's values must be. -/
inductive ValueKind where
  /-- a non-empty path -/
  | path
  /-- any text -/
  | text
  /-- a 32-bit unsigned number -/
  | u32
  /-- a 64-bit unsigned number -/
  | usize
  deriving DecidableEq, Repr

/-- What an argument does. -/
inductive Action where
  /-- a flag, set by being present -/
  | flag
  /-- an option with one value -/
  | set (k : ValueKind)
  /-- an option whose values collect -/
  | append (k : ValueKind)
  /-- shows help -/
  | help
  /-- shows the version -/
  | version
  deriving DecidableEq, Repr

/-- One argument a command takes. -/
structure ArgSpec where
  /-- its name in the results -/
  id : String
  /-- the short flag -/
  short : Option Char
  /-- the long flag -/
  long : Option String
  /-- what it does -/
  action : Action
  deriving DecidableEq, Repr

/-- The argument takes a value. -/
def ArgSpec.takesValue (a : ArgSpec) : Bool :=
  match a.action with
  | .set _ | .append _ => true
  | _ => false

/-- A signed decimal as the standard number parser reads it: an optional sign, then
at least one digit. -/
def parseSigned (s : String) : Option Int :=
  let digits (cs : List Char) : Option Nat :=
    if cs.isEmpty ∨ !cs.all Char.isDigit then none
    else some (cs.foldl (fun n c => n * 10 + (c.toNat - '0'.toNat)) 0)
  match s.toList with
  | '+' :: cs => (digits cs).map Int.ofNat
  | '-' :: cs => (digits cs).map fun n => -(n : Int)
  | cs => (digits cs).map Int.ofNat

/-- An unsigned decimal: an optional `+`, then at least one digit. -/
def parseUnsigned (s : String) : Option Nat :=
  match s.toList with
  | '-' :: _ => none
  | _ => (parseSigned s).bind fun n => if n ≥ 0 then some n.toNat else none

/-- Checks a value. -/
def checkValue : ValueKind → String → Except ArgStop Unit
  | .path, v => if v.isEmpty then .error .invalidValue else .ok ()
  | .text, _ => .ok ()
  | .u32, v =>
    match parseSigned v with
    | some n => if 0 ≤ n ∧ n < 2 ^ 32 then .ok () else .error .valueValidation
    | none => .error .valueValidation
  | .usize, v =>
    match parseUnsigned v with
    | some n => if n < 2 ^ 64 then .ok () else .error .valueValidation
    | none => .error .valueValidation

/-- The arguments read so far, by name, with their values. -/
abbrev Found := List (String × List String)

/-- The state of reading one command's arguments. -/
structure ReadState where
  /-- the completed arguments -/
  found : Found
  /-- the argument still collecting values, with them -/
  pending : Option (ArgSpec × List String)
  /-- the pending option waits for its value in the next argument -/
  waiting : Bool
  /-- `--` was seen -/
  trailing : Bool
  /-- positional values taken -/
  positionals : Nat

/-- The start. -/
def ReadState.start : ReadState := ⟨[], none, false, false, 0⟩

/-- Completes an argument with its values. -/
def complete (st : ReadState) (a : ArgSpec) (vals : List String) : Except ArgStop ReadState := do
  match a.action with
  | .help => throw .displayHelp
  | .version => throw .displayVersion
  | .flag =>
    if (st.found.lookup a.id).isSome then throw .argumentConflict
    return { st with found := st.found ++ [(a.id, ["true"])] }
  | .set k =>
    if vals.isEmpty then throw .invalidValue
    if (st.found.lookup a.id).isSome then throw .argumentConflict
    vals.forM (checkValue k)
    return { st with found := st.found ++ [(a.id, vals)] }
  | .append k =>
    if vals.isEmpty then throw .invalidValue
    vals.forM (checkValue k)
    let before := (st.found.lookup a.id).getD []
    return { st with found := (st.found.filter (·.1 != a.id)) ++ [(a.id, before ++ vals)] }

/-- Completes the pending argument, if any. -/
def resolve (st : ReadState) : Except ArgStop ReadState :=
  match st.pending with
  | none => .ok st
  | some (a, vals) => complete { st with pending := none, waiting := false } a vals

/-- Reacts to a recognised argument: the pending one is completed first. -/
def react (st : ReadState) (a : ArgSpec) (vals : List String) : Except ArgStop ReadState := do
  let st ← resolve st
  complete st a vals

/-- Starts an option whose value is the next argument. -/
def await (st : ReadState) (a : ArgSpec) : Except ArgStop ReadState := do
  let st ← resolve st
  return { st with pending := some (a, []), waiting := true }

/-- Reads a group of short flags. -/
def readShort (specs : List ArgSpec) (st : ReadState) : List Char → Except ArgStop ReadState
  | [] => .ok st
  | c :: rest =>
    match specs.find? (·.short == some c) with
    | none => .error .unknownArgument
    | some a =>
      if a.takesValue then
        match rest with
        | [] => await st a
        | '=' :: v => react st a [String.ofList v]
        | v => react st a [String.ofList v]
      else do
        let st ← react st a []
        readShort specs st rest

/-- Reads a long flag with its attached value, if any. -/
def readLong (specs : List ArgSpec) (st : ReadState) (name : String) (value : Option String) :
    Except ArgStop ReadState :=
  match specs.find? (·.long == some name) with
  | none => .error .unknownArgument
  | some a =>
    if a.takesValue then
      match value with
      | some v => react st a [v]
      | none => await st a
    else
      match value with
      | some _ => .error .tooManyValues
      | none => react st a []

/-- A long flag: its name and the value after `=`. -/
def splitLong (arg : String) : String × Option String :=
  match (arg.drop 2).toString.splitOn "=" with
  | [name] => (name, none)
  | name :: rest => (name, some ("=".intercalate rest))
  | [] => ("", none)

/-- The kind of an argument as the parser sees it. -/
inductive Token where
  /-- `--` -/
  | escape
  /-- `--name` or `--name=value` -/
  | long (name : String) (value : Option String)
  /-- `-abc` -/
  | short (flags : List Char)
  /-- anything else, `-` included -/
  | plain
  deriving DecidableEq, Repr

/-- Classifies an argument. -/
def classify (arg : String) : Token :=
  if arg = "--" then .escape
  else if arg.startsWith "--" then
    let (n, v) := splitLong arg
    .long n v
  else if arg.startsWith "-" ∧ arg.length > 1 then .short (arg.toList.drop 1)
  else .plain

/-- Reads the arguments of a subcommand with one positional argument `pos`. -/
def readSub (specs : List ArgSpec) (pos : ArgSpec) : ReadState → List String → Except ArgStop Found
  | st, [] => do
    let st ← resolve st
    if (st.found.lookup pos.id).isNone then throw .missingRequiredArgument
    return st.found
  | st, arg :: rest => do
    let positional (st : ReadState) : Except ArgStop ReadState :=
      if st.positionals = 0 then do
        let st ← resolve st
        return { st with pending := some (pos, [arg]), positionals := 1 }
      else .error .unknownArgument
    let st ← if st.trailing then positional st
      else match classify arg with
        | .escape => pure { st with trailing := true }
        | .long n v => readLong specs st n v
        | .short cs => readShort specs st cs
        | .plain =>
          if st.waiting then
            match st.pending with
            | some (a, vals) => pure { st with pending := some (a, vals ++ [arg]), waiting := false }
            | none => positional st
          else positional st
    readSub specs pos st rest

/-- The `-h`/`--help` flag. -/
def helpSpec : ArgSpec := ⟨"help", some 'h', some "help", .help⟩

/-- The arguments of `create`. -/
def createSpecs : List ArgSpec :=
  [⟨"announce", some 'a', some "announce", .append .text⟩,
   ⟨"comment", some 'c', some "comment", .set .text⟩,
   ⟨"no_date", some 'd', some "no-date", .flag⟩,
   ⟨"force", some 'f', some "force", .flag⟩,
   ⟨"piece_length", some 'l', some "piece-length", .set .u32⟩,
   ⟨"name", some 'n', some "name", .set .text⟩,
   ⟨"output", some 'o', some "output", .set .path⟩,
   ⟨"private", some 'p', some "private", .flag⟩,
   ⟨"threads", some 't', some "threads", .set .usize⟩,
   ⟨"dry_run", none, some "dry-run", .flag⟩,
   ⟨"json", none, some "json", .flag⟩,
   ⟨"verbose", some 'v', some "verbose", .flag⟩,
   helpSpec]

/-- The arguments of `verify`. -/
def verifySpecs : List ArgSpec :=
  [⟨"path", none, some "path", .set .path⟩,
   ⟨"threads", some 't', some "threads", .set .usize⟩,
   ⟨"verbose", some 'v', some "verbose", .flag⟩,
   helpSpec]

/-- The arguments of `inspect`. -/
def inspectSpecs : List ArgSpec := [helpSpec]

/-- The arguments of `create`. -/
structure CreateArgs where
  /-- the file or directory -/
  source : String
  /-- tracker tiers -/
  announce : List String
  /-- a comment -/
  comment : Option String
  /-- write no creation date -/
  noDate : Bool
  /-- overwrite the output -/
  force : Bool
  /-- the piece-size exponent -/
  pieceLength : Option Nat
  /-- the torrent's name -/
  name : Option String
  /-- the output path -/
  output : Option String
  /-- mark the torrent private -/
  isPrivate : Bool
  /-- hashing workers -/
  threads : Option Nat
  /-- plan only -/
  dryRun : Bool
  /-- print a JSON summary -/
  json : Bool
  /-- say more -/
  verbose : Bool
  deriving DecidableEq, Repr

/-- The arguments of `verify`. -/
structure VerifyArgs where
  /-- the torrent file -/
  torrent : String
  /-- where the content lies -/
  path : Option String
  /-- hashing workers -/
  threads : Option Nat
  /-- say more -/
  verbose : Bool
  deriving DecidableEq, Repr

/-- A command to run. -/
inductive Command where
  /-- make a torrent -/
  | create (a : CreateArgs)
  /-- check content against a torrent -/
  | verify (a : VerifyArgs)
  /-- show a torrent -/
  | inspect (torrent : String)
  deriving DecidableEq, Repr

/-- The single value of an argument. -/
def Found.value (f : Found) (id : String) : Option String :=
  (f.lookup id).bind List.head?

/-- The argument was given. -/
def Found.flag (f : Found) (id : String) : Bool :=
  (f.lookup id).isSome

/-- The number value of an argument. -/
def Found.number (f : Found) (id : String) : Option Nat :=
  (f.value id).bind parseUnsigned

/-- Reads the arguments after the program name. -/
def readCommand : ReadState → List String → Except ArgStop Command
  | _, [] => .error .displayHelpOnMissing
  | st, arg :: rest =>
    if st.trailing then
      if arg ∈ subcommands then .error .unknownArgument else .error .invalidSubcommand
    else if arg = "create" then do
      let f ← readSub createSpecs ⟨"source", none, none, .set .path⟩ .start rest
      return .create ⟨(f.value "source").getD "", (f.lookup "announce").getD [], f.value "comment",
        f.flag "no_date", f.flag "force", f.number "piece_length", f.value "name", f.value "output",
        f.flag "private", f.number "threads", f.flag "dry_run", f.flag "json", f.flag "verbose"⟩
    else if arg = "verify" then do
      let f ← readSub verifySpecs ⟨"torrent", none, none, .set .path⟩ .start rest
      return .verify ⟨(f.value "torrent").getD "", f.value "path", f.number "threads", f.flag "verbose"⟩
    else if arg = "inspect" then do
      let f ← readSub inspectSpecs ⟨"torrent", none, none, .set .path⟩ .start rest
      return .inspect ((f.value "torrent").getD "")
    else if arg = "help" then
      match rest with
      | [] => .error .displayHelp
      | name :: more =>
        if name ∈ subcommands ∧ more.isEmpty then .error .displayHelp else .error .invalidSubcommand
    else
      match classify arg with
      | .escape => readCommand { st with trailing := true } rest
      | .long n v =>
        if n = "help" then (if v.isSome then .error .tooManyValues else .error .displayHelp)
        else if n = "version" then (if v.isSome then .error .tooManyValues else .error .displayVersion)
        else .error .unknownArgument
      | .short cs =>
        match cs.head? with
        | some 'h' => .error .displayHelp
        | some 'V' => .error .displayVersion
        | _ => .error .unknownArgument
      | .plain => .error .invalidSubcommand

/-- Reads a whole command line, the program name first. -/
def parseCommandLine (args : List String) : Except ArgStop Command :=
  readCommand .start (args.drop 1)

end Cli
end Metainfo
