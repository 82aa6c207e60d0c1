/-
The scalars of YAML: plain ones, quoted ones and blocks.

A scalar that goes over several lines is folded: one line break counts as a blank, and of
several the first is dropped.  In a block the indentation is cut off, and only the folding
kind joins its lines.
-/
import KernelForge.Yaml.Step

namespace KernelForge.Yaml

/-- White space between two words of a scalar. -/
structure Gap where
  /-- The blanks before any line break. -/
  blanks : List Char := []
  /-- The first line break. -/
  lead : List Char := []
  /-- The other line breaks. -/
  trail : List Char := []
  /-- Tells whether a line has ended. -/
  broken : Bool := false
deriving Repr, Inhabited

namespace Gap

/-- What a gap becomes in the text of a scalar. -/
def text (g : Gap) : List Char :=
  if g.broken then
    if g.lead.head? = some '\n' then if g.trail.isEmpty then [' '] else g.trail
    else g.lead ++ g.trail
  else g.blanks

/-- Passes white space.  After a line break no tab may stand before column `indent`; the scalar
starts at `start`. -/
def pass (fuel : Nat) (start : Mark) (indent : Int) (g : Gap) : Step Gap :=
  match fuel with
  | 0 => return g
  | fuel + 1 => do
    Step.need 1
    match ← Step.peek? with
    | none => return g
    | some c =>
      if isBlank c then
        if g.broken && c = '\t' && ((← Step.mark).column : Int) < indent then
          Step.complain start "found a tab character that violates indentation"
        else
          Step.skip 1
          pass fuel start indent (if g.broken then g else { g with blanks := g.blanks ++ [c] })
      else if isBreak c then
        let b ← Step.skipBreak
        pass fuel start indent
          (if g.broken then { g with trail := g.trail ++ b }
            else { g with blanks := [], lead := b, broken := true })
      else return g

end Gap

/-! ### Plain scalars -/

/-- Tests whether a character ends a part of a plain scalar, given those after it. -/
def endsPlain (flow : Bool) (c : Char) (rest : List Char) : Bool :=
  isBlank c || isBreak c || (c = ':' && Reader.isGap rest) ||
    (flow && ",?[]\x7b\x7d".toList.contains c)

/-- The longest part of a plain scalar without white space. -/
def plainRun (fuel : Nat) (flow : Bool) : Step (List Char) :=
  match fuel with
  | 0 => return []
  | fuel + 1 => do
    match ← Step.ahead with
    | [] => return []
    | c :: rest =>
      if endsPlain flow c rest then return []
      else
        Step.skip 1
        Step.need 2
        return c :: (← plainRun fuel flow)

/-- A plain scalar: its text, where it ends, and the white space that has been passed after it. -/
structure PlainScalar where
  text : List Char := []
  stop : Mark
  gap : Gap

/-- Reads a plain scalar, or the rest of one that ends at `stop` so far and has a gap after that.
Its lines are indented to at least column `indent`. -/
def scanPlain (fuel : Nat) (flow : Bool) (start : Mark) (indent : Int) (stop : Mark) (gap : Gap) :
    Step PlainScalar :=
  match fuel with
  | 0 => return { stop, gap }
  | fuel + 1 => do
    Step.need 4
    if (← Step.atDocumentMark) || (← Step.sees (· = '#')) then return { stop, gap }
    let run ← plainRun fuel flow
    let here ← Step.mark
    let (text, stop, gap) := if run.isEmpty then ([], stop, gap) else (gap.text ++ run, here, {})
    if !(← Step.sees fun c => isBlank c || isBreak c) then return { text, stop, gap }
    let gap ← gap.pass fuel start indent
    if !flow && ((← Step.mark).column : Int) < indent then return { text, stop, gap }
    let more ← scanPlain fuel flow start indent stop gap
    return { more with text := text ++ more.text }

/-! ### Quoted scalars -/

/-- The characters that a single letter after a backslash stands for. -/
def escapes : List (Char × Char) :=
  [('0', '\x00'), ('a', '\x07'), ('b', '\x08'), ('t', '\t'), ('\t', '\t'), ('n', '\n'),
    ('v', '\x0b'), ('f', '\x0c'), ('r', '\r'), ('e', '\x1b'), (' ', ' '), ('"', '"'),
    ('\'', '\''), ('\\', '\\'), ('N', '\u0085'), ('_', '\u00a0'), ('L', '\u2028'), ('P', '\u2029')]

/-- The number of digits after a letter that announces the code of a character. -/
def codeLength? : Char → Option Nat
  | 'x' => some 2
  | 'u' => some 4
  | 'U' => some 8
  | _ => none

def hexValue? (c : Char) : Option Nat :=
  if c.isDigit then some (c.toNat - '0'.toNat)
  else if 'a' ≤ c && c ≤ 'f' then some (c.toNat - 'a'.toNat + 10)
  else if 'A' ≤ c && c ≤ 'F' then some (c.toNat - 'A'.toNat + 10)
  else none

/-- The number that some digits spell; nothing unless all are digits. -/
def codeOf? (cs : List Char) : Option Nat :=
  cs.foldl (fun n c => do return 16 * (← n) + (← hexValue? c)) (some 0)

/-- Reads the code of a character. -/
def scanCode (start : Mark) (length : Nat) : Step Char := do
  Step.need length
  let digits := (← Step.ahead).take length
  match if digits.length = length then codeOf? digits else none with
  | none => Step.complain start "did not find expected hexdecimal number"
  | some n =>
    if n.isValidChar then
      Step.skip length
      return Char.ofNat n
    else Step.complain start "found invalid Unicode character escape code"

/-- Reads a backslash and what follows it. -/
def scanEscape (start : Mark) : Step Char := do
  match (← Step.ahead).drop 1 with
  | c :: _ =>
    match escapes.lookup c, codeLength? c with
    | some x, _ =>
      Step.skip 2
      return x
    | none, some n =>
      Step.skip 2
      scanCode start n
    | none, none => Step.complain start "found unknown escape character"
  | [] => Step.complain start "found unknown escape character"

/-- Reads a quoted scalar up to white space or its end.  The truth value tells whether an
escaped line break came last. -/
def quotedRun (fuel : Nat) (single : Bool) (start : Mark) : Step (List Char × Bool) :=
  match fuel with
  | 0 => return ([], false)
  | fuel + 1 => do
    let more := fun (c : Char) => do
      Step.need 2
      let (text, escaped) ← quotedRun fuel single start
      return (c :: text, escaped)
    match ← Step.ahead with
    | [] => return ([], false)
    | c :: rest =>
      if isBlank c || isBreak c then return ([], false)
      else if single && c = '\'' then
        if rest.head? = some '\'' then
          Step.skip 2
          more c
        else return ([], false)
      else if !single && c = '"' then return ([], false)
      else if !single && c = '\\' then
        if rest.head?.any isBreak then
          Step.need 3
          Step.skip 1
          let _ ← Step.skipBreak
          return ([], true)
        else more (← scanEscape start)
      else
        Step.skip 1
        more c

/-- Reads a quoted scalar after its first quote. -/
def scanQuoted (fuel : Nat) (single : Bool) (start : Mark) : Step (List Char) :=
  match fuel with
  | 0 => return []
  | fuel + 1 => do
    Step.need 4
    if ← Step.atDocumentMark then Step.complain start "found unexpected document indicator"
    if (← Step.ahead).isEmpty then Step.complain start "found unexpected end of stream"
    let (run, escaped) ← quotedRun fuel single start
    Step.need 1
    if ← Step.sees (· = if single then '\'' else '"') then
      Step.skip 1
      return run
    let gap ← Gap.pass fuel start 0 { broken := escaped }
    return run ++ gap.text ++ (← scanQuoted fuel single start)

/-! ### Blocks -/

/-- What is done with the line breaks at the end of a block. -/
inductive Chomp where
  | strip
  | clip
  | keep
deriving DecidableEq, Repr

/-- Reads the sign that says what is done with the line breaks at the end. -/
def scanChomp? : Step (Option Chomp) := do
  Step.need 1
  match ← Step.peek? with
  | some '+' =>
    Step.skip 1
    return some .keep
  | some '-' =>
    Step.skip 1
    return some .strip
  | _ => return none

/-- Reads the digit that says how far a block is indented; there may be none. -/
def scanIncrement (start : Mark) : Step Nat := do
  Step.need 1
  match ← Step.peek? with
  | some c =>
    if c = '0' then Step.complain start "found an indentation indicator equal to 0"
    else if c.isDigit then
      Step.skip 1
      return c.toNat - '0'.toNat
    else return 0
  | none => return 0

/-- Reads what follows the indicator of a block. -/
def scanBlockHead (start : Mark) : Step (Chomp × Nat) := do
  match ← scanChomp? with
  | some c => return (c, ← scanIncrement start)
  | none =>
    let n ← scanIncrement start
    if n = 0 then return (.clip, 0)
    return ((← scanChomp?).getD .clip, n)

/-- Passes the blanks before column `indent`, or all of them when it is zero. -/
def passIndent (indent : Nat) : Step Unit := do
  let r ← get
  let spaces := if indent = 0 then r.rest.length + 1 else indent - r.mark.column
  let _ ← Step.passWhileUpTo (· = ' ') spaces
  Step.need 1

/-- Passes indentation and empty lines: the line breaks, and the deepest column.  The
indentation is not known yet when `indent` is zero. -/
def passEmptyLines (fuel : Nat) (start : Mark) (indent deepest : Nat) (breaks : List Char) :
    Step (List Char × Nat) :=
  match fuel with
  | 0 => return (breaks, deepest)
  | fuel + 1 => do
    passIndent indent
    let column := (← Step.mark).column
    let deepest := max deepest column
    if (indent = 0 || column < indent) && (← Step.sees (· = '\t')) then
      Step.complain start "found a tab character where an indentation space is expected"
    else if ← Step.sees isBreak then
      let b ← Step.skipBreak
      passEmptyLines fuel start indent deepest (breaks ++ b)
    else return (breaks, deepest)

/-- A block as far as it has been read. -/
structure BlockText where
  text : List Char := []
  /-- The line break after the last line. -/
  lead : List Char := []
  /-- The line breaks of the empty lines after it. -/
  trail : List Char := []
  /-- Tells whether the last line starts with a blank. -/
  blankLine : Bool := false

/-- Reads the lines of a block. -/
def scanBlockLines (fuel : Nat) (literal : Bool) (start : Mark) (indent : Nat) (b : BlockText) :
    Step BlockText :=
  match fuel with
  | 0 => return b
  | fuel + 1 => do
    if (← Step.mark).column ≠ indent || (← Step.ahead).isEmpty then return b
    let blank ← Step.sees isBlank
    let folds := !literal && !b.blankLine && !blank && b.lead.head? = some '\n'
    let joint := if folds then (if b.trail.isEmpty then [' '] else []) else b.lead
    let line ← Step.passWhile fun c => !isBreak c
    let lead ← Step.skipBreak
    let (trail, _) ← passEmptyLines ((← Step.ahead).length + 1) start indent 0 []
    scanBlockLines fuel literal start indent ⟨b.text ++ joint ++ b.trail ++ line, lead, trail, blank⟩

/-- Reads a block after its indicator; `outer` is the indentation around it. -/
def scanBlock (literal : Bool) (start : Mark) (outer : Int) : Step (List Char) := do
  let (chomp, increment) ← scanBlockHead start
  Step.passLineEnd start
  let known := if increment = 0 then 0 else (max outer 0).toNat + increment
  let (trail, deepest) ← passEmptyLines ((← Step.ahead).length + 1) start known 0 []
  let indent := if known = 0 then max deepest (max (outer + 1) 1).toNat else known
  let b ← scanBlockLines ((← Step.ahead).length + 1) literal start indent { trail }
  return b.text ++ (if chomp = .strip then [] else b.lead) ++ (if chomp = .keep then b.trail else [])

end KernelForge.Yaml
