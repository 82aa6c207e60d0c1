/-
Places in a source file, and the log of a compiler.

Offsets count bytes; positions count lines and bytes from one.  A line begins at the start of the
text and after each newline that is not its last byte, so the place after a final newline still
belongs to the line that the newline ends.

A comment may declare that what follows it comes from a given line of another file; positions after
such a comment are reported as it says.  The column is then known only if the comment gives one, and
only on the line of the comment.  What is said about a text while it is being read knows only the
comments that have been read by then.
-/
import KernelForge.Source.Glyph

namespace KernelForge

/-- A place in a source; only a line above zero is one, and column zero is none. -/
structure Position where
  file : String
  line : Int
  column : Int
deriving DecidableEq, Repr, Inhabited

namespace Position

/-- A place as it stands before a diagnostic. -/
def text (p : Position) : String :=
  let place :=
    if p.line ≤ 0 then p.file
    else
      (if p.file = "" then "" else p.file ++ ":") ++ toString p.line ++
        (if p.column = 0 then "" else ":" ++ toString p.column)
  if place = "" then "-" else place

end Position

/-- The byte offsets at which the lines of a text start. -/
abbrev LineStarts := List Nat

namespace LineStarts

/-- The starts of the lines after `offset`, each newline that something follows giving one. -/
def after (offset : Nat) : SourceText → LineStarts
  | [] => []
  | [_] => []
  | g :: h :: rest =>
    let next := offset + g.size
    if g = .char '\n' then next :: after next (h :: rest) else after next (h :: rest)

/-- The starts of the lines of a text; a text of no bytes has no lines. -/
def ofText (t : SourceText) : LineStarts :=
  if t.isEmpty then [] else 0 :: after 0 t

/-- The line and column of a byte offset. -/
def locate (starts : LineStarts) (offset : Nat) : Nat × Nat :=
  let before := starts.takeWhile (· ≤ offset)
  match before.getLast? with
  | some start => (before.length, offset - start + 1)
  | none => (0, 0)

end LineStarts

/-- One complaint about a source. -/
inductive Diagnostic where
  | located (position : Position) (text : String)
  | general (text : String)
deriving DecidableEq, Repr, Inhabited

namespace Diagnostic

def message : Diagnostic → String
  | located p text => p.text ++ ": error: " ++ text
  | general text => text

/-- The log of a compiler: one complaint a line. -/
def log (ds : List Diagnostic) : String :=
  String.join (ds.map fun d => d.message ++ "\n")

end Diagnostic
/-! ### Places that comments redirect -/

namespace Source

/-- What a comment says about the place of the text from `offset` on. -/
structure Redirect where
  offset : Nat
  /-- The file, when it is not the one in force. -/
  file? : Option String
  line : Int
  /-- The column, zero when it is not given. -/
  column : Int
  /-- How far the text has been read when this is known. -/
  setAt : Nat
deriving DecidableEq, Repr, Inhabited

/-- What is needed to report places in a file. -/
structure Map where
  file : String
  starts : LineStarts
  redirects : List Redirect := []
deriving Repr, Inhabited

namespace Map

/-- The map of a file that nothing redirects.  Every file has a first line, also an empty one. -/
def ofText (file : String) (t : SourceText) : Map :=
  { file, starts := 0 :: LineStarts.after 0 t }

/-- The map that is known when the text has been read up to an offset. -/
def knownAt (m : Map) (offset : Nat) : Map :=
  { m with redirects := m.redirects.filter fun r => r.setAt < offset }

/-- The last redirection at or before an offset, with the file that is then in force. -/
def inForce (m : Map) (offset : Nat) : String × Option Redirect :=
  (m.redirects.takeWhile fun r => r.offset ≤ offset).foldl
    (fun (file, _) r => (r.file?.getD file, some r)) (m.file, none)

/-- The position of a byte offset. -/
def position (m : Map) (offset : Nat) : Position :=
  let (line, column) := m.starts.locate offset
  match m.inForce offset with
  | (file, none) => { file, line, column }
  | (file, some r) =>
    let distance := line - (m.starts.locate r.offset).1
    { file
      line := r.line + distance
      column :=
        if r.column = 0 then 0
        else if distance = 0 then r.column + (offset - r.offset)
        else column }

/-- A complaint about a place. -/
def complain (m : Map) (offset : Nat) (text : String) : Diagnostic :=
  .located (m.position offset) text

end Map

/-- Brings a file path to its shortest form. -/
def cleanPath (path : String) : String :=
  let rooted := path.startsWith "/"
  let parts := path.splitOn "/"
  let kept := parts.foldl (fun acc part =>
    if part = "" || part = "." then acc
    else if part = ".." then
      match acc with
      | last :: rest => if last = ".." then part :: acc else rest
      | [] => if rooted then [] else [part]
    else part :: acc) []
  let body := "/".intercalate kept.reverse
  if rooted then "/" ++ body else if body = "" then "." else body

end Source
end KernelForge
