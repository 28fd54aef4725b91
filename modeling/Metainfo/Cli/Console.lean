import Metainfo.Text.Human

/-!
# Commands and their console

A command runs in `CommandM`: it appends lines to standard output and standard error,
and it either finishes or fails with a chain of messages, the outermost first. What it
printed before failing stays printed.

The layout helpers are the ones every command uses:

* `padRight s w` and `padLeft s w` pad with spaces to `w` characters (characters, not
  bytes);
* `field label value` is a label in a column of fifteen, a space, and the value;
* `fileRow path len` is a listed file: its path in a column of forty and its size;
* `jsonString s` is `s` as a JSON string, escaping quotes, backslashes and control
  characters and nothing else.
-/

namespace Metainfo
namespace Cli

/-- What a command has printed. -/
structure Console where
  /-- standard output -/
  stdout : String
  /-- standard error -/
  stderr : String
  deriving DecidableEq, Repr

/-- A command: it prints, and fails with a chain of messages or returns. -/
abbrev CommandM := ExceptT (List String) (StateM Console)

/-- Prints a line on standard output. -/
def say (line : String) : CommandM Unit :=
  modify fun c => { c with stdout := c.stdout ++ line ++ "\n" }

/-- Prints a line on standard error. -/
def warn (line : String) : CommandM Unit :=
  modify fun c => { c with stderr := c.stderr ++ line ++ "\n" }

/-- The value of a result, or a failure with the chain its error gives. -/
def orFail {ε α : Type} (r : Except ε α) (chain : ε → List String) : CommandM α :=
  match r with
  | .ok a => pure a
  | .error e => throw (chain e)

/-- Runs a command on an empty console: how it ended and what it printed. -/
def CommandM.run {α : Type} (m : CommandM α) : Except (List String) α × Console :=
  (ExceptT.run m).run ⟨"", ""⟩

/-- Pads text with spaces to `width` characters. -/
def padRight (s : String) (width : Nat) : String :=
  s ++ String.ofList (List.replicate (width - s.length) ' ')

/-- Pads text on the left with spaces to `width` characters. -/
def padLeft (s : String) (width : Nat) : String :=
  String.ofList (List.replicate (width - s.length) ' ') ++ s

/-- A labelled line: the label in a column of fifteen. -/
def field (label value : String) : String :=
  padRight label 15 ++ " " ++ value

/-- A listed file: its path in a column of forty, then its size. -/
def fileRow (path : List String) (len : Nat) : String :=
  "  - " ++ padRight ("/".intercalate path) 40 ++ " " ++ Text.humanBytes len

/-- A hexadecimal digit, lower case. -/
def hexDigit (n : Nat) : Char :=
  if n < 10 then Char.ofNat ('0'.toNat + n) else Char.ofNat ('a'.toNat + n - 10)

/-- One character inside a JSON string. -/
def jsonChar (c : Char) : String :=
  match c with
  | '"' => "\\\""
  | '\\' => "\\\\"
  | '\n' => "\\n"
  | '\r' => "\\r"
  | '\t' => "\\t"
  | '\x08' => "\\b"
  | '\x0c' => "\\f"
  | c =>
    if c.toNat < 0x20 then
      "\\u00" ++ String.singleton (hexDigit (c.toNat / 16)) ++ String.singleton (hexDigit (c.toNat % 16))
    else String.singleton c

/-- Text as a JSON string. -/
def jsonString (s : String) : String :=
  "\"" ++ String.join (s.toList.map jsonChar) ++ "\""

end Cli
end Metainfo
