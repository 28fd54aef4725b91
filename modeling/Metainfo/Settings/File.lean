import Metainfo.Disk.Basic

/-!
# The settings file

The settings file is a TOML document with at most three keys, each an integer:
`threads` (a 64-bit count), `progress_interval_ms` (a 64-bit number of milliseconds)
and `piece_length` (a 32-bit piece-size exponent).

* A missing file means no settings; a file that cannot be read, or is not UTF-8,
  is an error that names the reason.
* Any other key, a value that is not an integer of its key's range, a key given
  twice, or text that is not TOML is a parse error. So a document that parses is a
  list of lines, each blank, a comment, or `key = integer` with an optional comment,
  and that is what `parseDocument` reads: bare or quoted keys, and integers in
  decimal (signed, no leading zeros) or `0x`, `0o`, `0b` form, with single
  underscores between digits. A byte-order mark may start the file, and lines may end
  in `\r\n`.
-/

namespace Metainfo

/-- The settings. -/
structure Settings where
  /-- the number of hashing workers -/
  threads : Option Nat
  /-- the least time between progress reports -/
  progressIntervalMs : Option Nat
  /-- the piece-size exponent for new torrents -/
  pieceLength : Option Nat
  deriving DecidableEq, Repr

/-- No settings. -/
def Settings.empty : Settings := ⟨none, none, none⟩

/-- The reporting interval when none is set, in milliseconds. -/
def defaultIntervalMs : Nat := 100

/-- The reporting interval in milliseconds. -/
def Settings.intervalMs (s : Settings) : Nat := s.progressIntervalMs.getD defaultIntervalMs

namespace Toml

/-- The value of a digit in base `b`. -/
def digitValue (b : Nat) (c : Char) : Option Nat :=
  let v :=
    if '0' ≤ c ∧ c ≤ '9' then some (c.toNat - '0'.toNat)
    else if 'a' ≤ c ∧ c ≤ 'f' then some (c.toNat - 'a'.toNat + 10)
    else if 'A' ≤ c ∧ c ≤ 'F' then some (c.toNat - 'A'.toNat + 10)
    else none
  v.filter (· < b)

/-- Reads digits of base `b` with single underscores between them, from `acc`. -/
def digitsFrom (b : Nat) : List Char → Nat → Bool → Option Nat
  | [], acc, afterUnderscore => if afterUnderscore then none else some acc
  | '_' :: rest, acc, afterUnderscore => if afterUnderscore then none else digitsFrom b rest acc true
  | c :: rest, acc, _ => (digitValue b c).bind fun v => digitsFrom b rest (acc * b + v) false

/-- A non-empty run of base-`b` digits with single underscores between them. -/
def digits (b : Nat) : List Char → Option Nat
  | [] => none
  | '_' :: _ => none
  | cs => digitsFrom b cs 0 false

/-- An unsigned decimal: `0`, or digits not starting with `0`. -/
def unsignedDecimal : List Char → Option Nat
  | ['0'] => some 0
  | '0' :: _ => none
  | cs => digits 10 cs

/-- An integer literal. -/
def integer : List Char → Option Int
  | '0' :: 'x' :: rest => (digits 16 rest).map Int.ofNat
  | '0' :: 'o' :: rest => (digits 8 rest).map Int.ofNat
  | '0' :: 'b' :: rest => (digits 2 rest).map Int.ofNat
  | '+' :: rest => (unsignedDecimal rest).map Int.ofNat
  | '-' :: rest => (unsignedDecimal rest).map fun n => -(n : Int)
  | cs => (unsignedDecimal cs).map Int.ofNat

/-- Space or tab. -/
def isBlank (c : Char) : Bool := c = ' ' ∨ c = '\t'

/-- A character allowed in a comment: anything but control characters, tab apart. -/
def commentChar (c : Char) : Bool :=
  c = '\t' ∨ (c.toNat ≥ 0x20 ∧ c.toNat ≠ 0x7F)

/-- A character of a bare key. -/
def bareKeyChar (c : Char) : Bool :=
  c.isAlphanum ∨ c = '_' ∨ c = '-'

/-- The character of a `\u` or `\U` escape. -/
def escapedScalar (hex : List Char) : Option Char :=
  (digitsFrom 16 hex 0 false).bind fun n =>
    if n < 0xD800 ∨ (0xDFFF < n ∧ n ≤ 0x10FFFF) then some (Char.ofNat n) else none

/-- The rest of a basic-string key after its opening quote: the key and what follows
the closing quote. -/
def basicKey (cs acc : List Char) : Option (String × List Char) :=
  match cs with
  | [] => none
  | '"' :: rest => some (String.ofList acc.reverse, rest)
  | '\\' :: c :: rest =>
    match c with
    | 'b' => basicKey rest ('\x08' :: acc)
    | 't' => basicKey rest ('\t' :: acc)
    | 'n' => basicKey rest ('\n' :: acc)
    | 'f' => basicKey rest ('\x0c' :: acc)
    | 'r' => basicKey rest ('\r' :: acc)
    | '"' => basicKey rest ('"' :: acc)
    | '\\' => basicKey rest ('\\' :: acc)
    | 'u' =>
      if rest.length < 4 then none
      else (escapedScalar (rest.take 4)).bind fun ch => basicKey (rest.drop 4) (ch :: acc)
    | 'U' =>
      if rest.length < 8 then none
      else (escapedScalar (rest.take 8)).bind fun ch => basicKey (rest.drop 8) (ch :: acc)
    | _ => none
  | c :: rest => if commentChar c then basicKey rest (c :: acc) else none
termination_by cs.length
decreasing_by all_goals simp only [List.length_cons, List.length_drop]; omega

/-- A key at the start of the text, and the text after it. -/
def readKey : List Char → Option (String × List Char)
  | '"' :: rest => basicKey rest []
  | '\'' :: rest =>
    let body := rest.takeWhile (· ≠ '\'')
    match rest.drop body.length with
    | '\'' :: after => if body.all commentChar then some (String.ofList body, after) else none
    | _ => none
  | cs =>
    let body := cs.takeWhile bareKeyChar
    if body.isEmpty then none else some (String.ofList body, cs.drop body.length)

/-- The end of a line: nothing, or a comment. -/
def lineEnd : List Char → Bool
  | [] => true
  | '#' :: rest => rest.all commentChar
  | _ => false

/-- One line: nothing, or a key with its integer. -/
def parseLine (line : List Char) : Option (Option (String × Int)) :=
  let l := line.dropWhile isBlank
  if lineEnd l then some none
  else do
    let (k, rest) ← readKey l
    match rest.dropWhile isBlank with
    | '=' :: rest =>
      let rest := rest.dropWhile isBlank
      let token := rest.takeWhile fun c => !isBlank c ∧ c ≠ '#'
      let n ← integer token
      if lineEnd ((rest.drop token.length).dropWhile isBlank) then some (some (k, n)) else none
    | _ => none

/-- Splits text into lines at `\n`, a `\r` right before it dropped; any other `\r` is
refused. -/
def lines (cs : List Char) : Option (List (List Char)) :=
  (cs.splitOn '\n').mapM fun l =>
    let l := if l.getLast? = some '\r' then l.dropLast else l
    if l.contains '\r' then none else some l

/-- The byte-order mark. -/
def byteOrderMark : Char := Char.ofNat 0xFEFF

/-- The keys and integers of a document. -/
def parseDocument (text : String) : Option (List (String × Int)) := do
  let cs := match text.toList with
    | c :: rest => if c = byteOrderMark then rest else c :: rest
    | [] => []
  let ls ← lines cs
  let parsed ← ls.mapM parseLine
  return parsed.filterMap id

end Toml

/-- Sets one key, refusing a second value or a value out of range. -/
def Settings.set (s : Settings) : String × Int → Option Settings
  | ("threads", n) =>
    if s.threads.isNone ∧ 0 ≤ n ∧ n < 2 ^ 64 then some { s with threads := some n.toNat } else none
  | ("progress_interval_ms", n) =>
    if s.progressIntervalMs.isNone ∧ 0 ≤ n ∧ n < 2 ^ 64 then
      some { s with progressIntervalMs := some n.toNat }
    else none
  | ("piece_length", n) =>
    if s.pieceLength.isNone ∧ 0 ≤ n ∧ n < 2 ^ 32 then some { s with pieceLength := some n.toNat }
    else none
  | _ => none

/-- The settings a document gives. -/
def Settings.parse (text : String) : Option Settings :=
  (Toml.parseDocument text).bind fun pairs => pairs.foldlM Settings.set Settings.empty

/-- Why the settings could not be loaded. -/
inductive SettingsError where
  /-- the file exists but cannot be read -/
  | read (path : String) (e : OsError)
  /-- the file is not a valid settings document -/
  | parse (path : String)
  deriving DecidableEq, Repr

namespace SettingsError

/-- The name of the error. -/
def kind : SettingsError → String
  | .read .. => "Read"
  | .parse _ => "Parse"

/-- The text of the error. -/
def message : SettingsError → String
  | .read p _ => s!"failed to read {p}"
  | .parse p => s!"invalid settings in {p}"

/-- The error with its causes, the outermost first. -/
def chain : SettingsError → List String
  | .read p e => [s!"failed to read {p}", e.message]
  | .parse p => [s!"invalid settings in {p}"]

end SettingsError

/-- Loads the settings file at a path; a missing file gives no settings. -/
def Settings.load (d : Disk) (path : String) : Except SettingsError Settings :=
  match d.readText path with
  | .error .notFound => .ok Settings.empty
  | .error e => .error (.read path e)
  | .ok text =>
    match Settings.parse text with
    | some s => .ok s
    | none => .error (.parse path)

end Metainfo
