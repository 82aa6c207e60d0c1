/-
YAML text and the place in it.

A reader is the text that is left and the mark of where it starts.  Lines and columns count
from zero.  A line break is a line feed, a carriage return, both of them in this order, or one
of the three line separators outside ASCII.

The text is not seen at once but through a window, which grows by blocks of bytes when more
characters are asked for than it holds.  A character that may not stand in a text is found
when its block is reached, so what is wrong before that block is told first.  When the window
grows, what has been passed leaves it, and it is noted whether it then starts with a byte order
mark.
-/

namespace KernelForge.Yaml

/-- A place in a text. -/
structure Mark where
  index : Nat := 0
  line : Nat := 0
  column : Nat := 0
deriving DecidableEq, Repr, Inhabited

/-- The number of bytes of a block. -/
def blockSize : Nat := 512

def byteOrderMark : Char := '\ufeff'

/-- What is left of a text. -/
structure Reader where
  rest : List Char
  mark : Mark := {}
  /-- How many characters the window holds; the end of the text counts as one of them, as often
  as it is asked for. -/
  ready : Nat := 0
  /-- The number of bytes that the next block may have. -/
  room : Nat := blockSize
  /-- Tells whether the window started with a byte order mark when it grew. -/
  marked : Bool := false
  /-- Tells whether a line has ended since the last character that is no blank. -/
  broken : Bool := false
deriving Repr, Inhabited

/-- A blank or a tab. -/
def isBlank (c : Char) : Bool := c = ' ' || c = '\t'

def isBreak (c : Char) : Bool :=
  c = '\n' || c = '\r' || c = '\u0085' || c = '\u2028' || c = '\u2029'

/-- The characters of anchors and of the handles of tags. -/
def isWordChar (c : Char) : Bool := c.isAlphanum || c = '_' || c = '-'

/-- The characters that may stand in a text. -/
def isAllowed (c : Char) : Bool :=
  let n := c.toNat
  n = 9 || n = 10 || n = 13 || (32 ≤ n && n ≤ 126) || n = 0x85 || (0xa0 ≤ n && n ≤ 0xfffd)
    || 0x10000 ≤ n

/-- A line break as it is kept: separators outside ASCII for paragraphs and lines stay. -/
def keptBreak (c : Char) : Char := if c = '\u2028' || c = '\u2029' then c else '\n'

/-- The longest start of a text that fits into some bytes. -/
def blockOf (room : Nat) : List Char → List Char
  | [] => []
  | c :: cs => if c.utf8Size ≤ room then c :: blockOf (room - c.utf8Size) cs else []

namespace Reader

/-- A reader at the start of a text.  A byte order mark there is passed over, but it takes room
in the first block. -/
def ofText : List Char → Reader
  | [] => { rest := [] }
  | c :: cs =>
    if c = byteOrderMark then { rest := cs, room := blockSize - c.utf8Size } else { rest := c :: cs }

/-- Adds blocks to the window until it holds `n` characters; nothing if one of them has a
character that may not stand in a text.  Each block adds a character, so `n` steps are enough. -/
def grow? (n : Nat) : Nat → Reader → Option Reader
  | 0, r => some r
  | steps + 1, r =>
    if n ≤ r.ready then some r
    else
      match r.rest.drop r.ready with
      | [] => some { r with ready := r.ready + 1 }
      | cs =>
        let block := blockOf r.room cs
        if block.all isAllowed then
          grow? n steps { r with ready := r.ready + block.length, room := blockSize }
        else none

/-- Makes sure that the window holds `n` characters. -/
def need? (n : Nat) (r : Reader) : Option Reader :=
  if n ≤ r.ready then some r
  else grow? n n { r with marked := r.rest.head? = some byteOrderMark }

/-- Tests whether a list starts with a blank, a line break or nothing. -/
def isGap : List Char → Bool
  | [] => true
  | c :: _ => isBlank c || isBreak c

/-- Tests whether a list starts with a line break or nothing. -/
def isLineEnd : List Char → Bool
  | [] => true
  | c :: _ => isBreak c

/-- Passes `n` characters of a line. -/
def advance (n : Nat) (r : Reader) : Reader :=
  let passed := r.rest.take n
  { r with
    rest := r.rest.drop n
    mark := { r.mark with index := r.mark.index + n, column := r.mark.column + n }
    ready := r.ready - n
    broken := r.broken && passed.length = n && passed.all isBlank }

/-- Passes a line break, and gives it as it is kept. -/
def passBreak (r : Reader) : List Char × Reader :=
  let pass := fun (n : Nat) (c : Char) (rest : List Char) =>
    ([keptBreak c],
      { r with
        rest
        mark := ⟨r.mark.index + n, r.mark.line + 1, 0⟩
        ready := r.ready - n
        broken := true })
  match r.rest with
  | '\r' :: '\n' :: rest => pass 2 '\n' rest
  | c :: rest => if isBreak c then pass 1 c rest else ([], r)
  | [] => ([], r)

/-- Tests for three dashes or three dots that start a line and stand alone. -/
def atDocumentMark (r : Reader) : Bool :=
  r.mark.column = 0 &&
    match r.rest with
    | '-' :: '-' :: '-' :: rest => isGap rest
    | '.' :: '.' :: '.' :: rest => isGap rest
    | _ => false

end Reader
end KernelForge.Yaml
