/-
The tokens of YAML, what may be wrong with a text, and steps through it.

Blocks have no brackets of their own: where the indentation changes, tokens are put in that
open and close them.

A step passes some characters and gives what it has found, or says what is wrong.  Before it
looks at characters it asks for them, because the window shows no more than has been asked
for.  Comments are passed here too: one that ends a line, and the lines of comments after it.
-/
import KernelForge.Yaml.Reader

namespace KernelForge.Yaml

/-- The ways of writing a scalar. -/
inductive ScalarStyle where
  | plain
  | quoted
deriving DecidableEq, Repr, Inhabited

inductive TokenKind where
  | streamStart
  | streamEnd
  | version (major minor : Nat)
  /-- A directive that gives a handle the start of the tags it stands for. -/
  | tagDirective (handle start : String)
  | documentStart
  | documentEnd
  | blockSequenceStart
  | blockMappingStart
  | blockEnd
  | flowSequenceStart
  | flowSequenceEnd
  | flowMappingStart
  | flowMappingEnd
  | blockEntry
  | flowEntry
  | key
  | value
  | reference (name : String)
  | anchor (name : String)
  | tag (handle suffix : String)
  | scalar (text : String) (style : ScalarStyle)
deriving DecidableEq, Repr, Inhabited

/-- A token, with the marks of its two ends. -/
structure Token where
  kind : TokenKind
  start : Mark
  stop : Mark
deriving DecidableEq, Repr, Inhabited

/-- What is wrong with a text. -/
inductive DocumentError where
  /-- Characters that are no token, seen from a context that starts at the first mark. -/
  | scan (context place : Mark) (problem : String)
  /-- Tokens that do not fit together. -/
  | parse (context place : Mark) (problem : String)
  /-- Something that has no place. -/
  | general (problem : String)
deriving DecidableEq, Repr, Inhabited

namespace DocumentError

/-- The line that a message names: the context comes first, and line zero counts as none. -/
def lineOf (context place : Mark) : Nat :=
  if context.line ≠ 0 then context.line else place.line

/-- A line number before a message, unless it is zero. -/
def withLine (line : Nat) (problem : String) : String :=
  if line = 0 then "yaml: " ++ problem else s!"yaml: line {line}: " ++ problem

/-- The message.  A line is counted from one when characters are at fault, but as it is when
tokens are. -/
def message : DocumentError → String
  | scan context place problem =>
    let line := lineOf context place
    withLine (if line = 0 then 0 else line + 1) problem
  | parse context place problem => withLine (lineOf context place) problem
  | general problem => "yaml: " ++ problem

end DocumentError
end KernelForge.Yaml

namespace KernelForge.Yaml

/-- A step through a text. -/
abbrev Step := StateT Reader (Except DocumentError)

namespace Step

def mark : Step Mark := (·.mark) <$> get

/-- The text that is left. -/
def ahead : Step (List Char) := (·.rest) <$> get

/-- The next character. -/
def peek? : Step (Option Char) := (·.rest.head?) <$> get

/-- Tests the next character. -/
def sees (p : Char → Bool) : Step Bool := (·.rest.head?.any p) <$> get

/-- Asks for `n` characters. -/
def need (n : Nat) : Step Unit := do
  match (← get).need? n with
  | some r => set r
  | none => throw (.general "control characters are not allowed")

/-- Passes `n` characters of a line. -/
def skip (n : Nat) : Step Unit := modify (·.advance n)

/-- Passes a line break, and gives it as it is kept. -/
def skipBreak : Step (List Char) := do
  need 2
  modifyGet Reader.passBreak

/-- Says what is wrong here, in a context that starts at a mark. -/
def complain {α : Type} (context : Mark) (problem : String) : Step α := do
  throw (.scan context (← mark) problem)

def atDocumentMark : Step Bool := (·.atDocumentMark) <$> get

/-- Passes characters as long as a test holds of them, `fuel` at most. -/
def passWhileUpTo (p : Char → Bool) : Nat → Step (List Char)
  | 0 => return []
  | fuel + 1 => do
    need 1
    match ← peek? with
    | some c =>
      if p c then
        skip 1
        return c :: (← passWhileUpTo p fuel)
      else return []
    | none => return []

/-- Passes the longest run of characters of a line that a test holds of. -/
def passWhile (p : Char → Bool) : Step (List Char) := do
  passWhileUpTo p (((← ahead).takeWhile p).length + 1)

def passBlanks : Step Unit := do
  let _ ← passWhile isBlank

/-- Passes the rest of a line. -/
def passLine : Step Unit := do
  let _ ← passWhile fun c => !isBreak c

/-! ### Comments -/

/-- How many characters ahead comments are looked for. -/
def commentReach : Nat := 512

/-- How many characters stand before a hash, when a test holds of all of them.  The search
starts at the `n`th character. -/
def hashAfter? (p : Char → Bool) (n : Nat) : Nat → Step (Option Nat)
  | 0 => return none
  | fuel + 1 => do
    need (n + 1)
    match (← ahead).drop n with
    | c :: _ =>
      if p c then hashAfter? p (n + 1) fuel
      else return if c = '#' then some n else none
    | [] => return none

/-- Passes a comment that follows on the same line. -/
def passLineComment : Step Unit := do
  if (← get).broken then return
  if let some _ ← hashAfter? isBlank 0 commentReach then passLine

/-- Passes blanks and line breaks up to an index. -/
def passTo (index : Nat) : Nat → Step Unit
  | 0 => return
  | fuel + 1 => do
    need 1
    if (← mark).index < index then
      if ← sees isBreak then
        let _ ← skipBreak
      else skip 1
      passTo index fuel

/-- Passes a comment, and the lines after it that are comments.  What ends the last of them
stays. -/
def passComments : Nat → Step Unit
  | 0 => return
  | fuel + 1 => do
    passLine
    let isSpace := fun c => isBlank c || c = '\n' || c = '\r'
    if ← sees isSpace then
      if let some n ← hashAfter? isSpace 1 (commentReach - 1) then
        passTo ((← mark).index + n) n
        passComments fuel

/-- Passes blanks and a comment up to the end of a line, and the end. -/
def passLineEnd (start : Mark) : Step Unit := do
  passBlanks
  if ← sees (· = '#') then passLine
  if Reader.isLineEnd (← ahead) then
    if ← sees isBreak then
      let _ ← skipBreak
  else complain start "did not find expected comment or line break"

/-- Passes white space and comments up to the next token.  Tabs may be passed in flow
collections, and where no key may start; a line that ends lets a key start outside them.  Where
the window starts with a byte order mark, the first character of a line is passed. -/
def passSpace (flow : Bool) : Nat → Bool → Step Bool
  | 0, keyAllowed => return keyAllowed
  | fuel + 1, keyAllowed => do
    need 1
    if (← mark).column = 0 && (← get).marked then skip 1
    let tabs := flow || !keyAllowed
    let _ ← passWhile fun c => c = ' ' || (tabs && c = '\t')
    if ← sees (· = '#') then passComments ((← ahead).length + 1)
    if ← sees isBreak then
      let _ ← skipBreak
      passSpace flow fuel (keyAllowed || !flow)
    else return keyAllowed

end Step
end KernelForge.Yaml
