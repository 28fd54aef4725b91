import Metainfo.Data.Arith

/-!
# Paths

A path is text with `/` between its components, relative to the working directory
unless it starts with `/`.

* `Path.split p` is the text between the `/`s of `p`, empty parts included;
* `Path.push p s` appends a component the way a path buffer does: an absolute `s`
  replaces `p`, and a `/` goes between them unless `p` is empty or already ends in
  one (so an empty `s` leaves a trailing `/`);
* `Path.join p segs` pushes the segments in order;
* `Path.components` splits a path as the file system reads it: empty components and
  `.` vanish (a leading `.` apart), and `..` stays;
* `Path.fileName` is the last component when it is a name, and nothing for a path
  ending in `..` or consisting only of `.` or `/`.
-/

namespace Metainfo
namespace Path

/-- The parts of a path between its `/`s, in order, empty ones included: one more part
than there are `/`s. -/
def split (p : String) : List String :=
  (p.toList.splitOn '/').map String.ofList

/-- Appends one component. -/
def push (p s : String) : String :=
  if s.startsWith "/" then s
  else if p.isEmpty || p.endsWith "/" then p ++ s
  else p ++ "/" ++ s

/-- Appends components in order. -/
def join (p : String) (segs : List String) : String :=
  segs.foldl push p

/-- A component of a path as the file system reads it. -/
inductive Component where
  /-- the leading `/` -/
  | root
  /-- a leading `.` -/
  | cur
  /-- `..` -/
  | parent
  /-- a name -/
  | name (s : String)
  deriving DecidableEq, Repr

/-- The components of a path. -/
def components (p : String) : List Component :=
  let parts := split p
  let rootPart := if p.startsWith "/" then [Component.root] else []
  let curPart := if !p.startsWith "/" && parts.head? = some "." then [Component.cur] else []
  let body := (if p.startsWith "/" || curPart ≠ [] then parts.drop 1 else parts).filterMap
    fun s => if s.isEmpty || s = "." then none else if s = ".." then some Component.parent
      else some (Component.name s)
  rootPart ++ curPart ++ body

/-- The last component when it is a name. -/
def fileName (p : String) : Option String :=
  match (components p).getLast? with
  | some (.name s) => some s
  | _ => none

/-- Components in order: the root, then `.`, then `..`, then names by their bytes. -/
def Component.cmp : Component → Component → Ordering
  | .root, .root => .eq
  | .root, _ => .lt
  | _, .root => .gt
  | .cur, .cur => .eq
  | .cur, _ => .lt
  | _, .cur => .gt
  | .parent, .parent => .eq
  | .parent, _ => .lt
  | _, .parent => .gt
  | .name a, .name b => compareOfLessAndEq a b

/-- Component lists in lexicographic order. -/
def cmpComponents : List Component → List Component → Ordering
  | [], [] => .eq
  | [], _ => .lt
  | _, [] => .gt
  | a :: as, b :: bs =>
    match a.cmp b with
    | .eq => cmpComponents as bs
    | o => o

/-- Paths ordered by their components, so `a/b` comes before `a-b` and `a//b` is `a/b`. -/
def cmp (p q : String) : Ordering :=
  cmpComponents (components p) (components q)

/-- The path is absolute. -/
def isAbsolute (p : String) : Bool :=
  p.startsWith "/"

end Path
end Metainfo
