/-
The scanner of YAML.

A scalar may turn out to be a key only when the colon after it is seen, so tokens wait in a
queue until that is settled, and the tokens that open a mapping are put in before them.  A key
must end on its line and within 1024 characters.
-/
import KernelForge.Source.Glyph
import KernelForge.Yaml.Scalar

namespace KernelForge.Yaml

/-- A place where a key may have started. -/
structure PossibleKey where
  possible : Bool := false
  /-- Tells whether there must be a key. -/
  required : Bool := false
  /-- The number of the token that starts it. -/
  token : Nat := 0
  /-- Tells whether that token waits for the key to be settled. -/
  awaited : Bool := false
  mark : Mark := {}
deriving Repr, Inhabited

/-- The state of the scanner. -/
structure Scanner where
  reader : Reader
  started : Bool := false
  /-- The tokens that wait. -/
  queue : List Token := []
  /-- The number of tokens that have been taken. -/
  taken : Nat := 0
  /-- The number of flow collections that are open. -/
  flow : Nat := 0
  keyAllowed : Bool := false
  /-- The possible keys, one for each open flow collection; the innermost comes first. -/
  keys : List PossibleKey := [{}]
  /-- The column of the current block, and those around it. -/
  indent : Int := -1
  indents : List Int := []
deriving Repr, Inhabited

namespace Scanner

abbrev Result := Except DocumentError Scanner

def mark (s : Scanner) : Mark := s.reader.mark

/-- Takes a step through the text. -/
def take {α : Type} (s : Scanner) (step : Step α) : Except DocumentError (α × Scanner) := do
  let (a, reader) ← step.run s.reader
  return (a, { s with reader })

/-- Appends a token that starts at a mark and ends where the reader is. -/
def push (s : Scanner) (kind : TokenKind) (start : Mark) : Scanner :=
  { s with queue := s.queue ++ [⟨kind, start, s.mark⟩] }

/-- Puts a token without extent before the token with a given number, or last if that one has
been taken. -/
def pushBefore (s : Scanner) (number : Nat) (kind : TokenKind) (mark : Mark) : Scanner :=
  let i := if number < s.taken then s.queue.length else number - s.taken
  { s with queue := s.queue.take i ++ [⟨kind, mark, mark⟩] ++ s.queue.drop i }

def complain (s : Scanner) (context : Mark) (problem : String) : Result :=
  .error (.scan context s.mark problem)

/-! ### Possible keys -/

def currentKey (s : Scanner) : PossibleKey := s.keys.headD {}

/-- The number that the next token will have. -/
def nextNumber (s : Scanner) : Nat := s.taken + s.queue.length

def setKey (s : Scanner) (k : PossibleKey) : Scanner := { s with keys := k :: s.keys.drop 1 }

def missingKey : String := "could not find expected ':'"

/-- Gives the current possible key up. -/
def dropKey (s : Scanner) : Result :=
  let k := s.currentKey
  if k.possible then
    if k.required then s.complain k.mark missingKey
    else .ok (s.setKey { k with possible := false })
  else .ok s

/-- Notes that a key may start here. -/
def noteKey (s : Scanner) : Result :=
  if !s.keyAllowed then .ok s
  else
    let k : PossibleKey :=
      { possible := true
        required := s.flow = 0 && s.indent = s.mark.column
        token := s.nextNumber
        awaited := true
        mark := s.mark }
    (·.setKey k) <$> s.dropKey

/-- Tests whether a possible key may still become one. -/
def keyIsValid (s : Scanner) (k : PossibleKey) : Except DocumentError Bool :=
  if !k.possible then .ok false
  else if k.mark.line < s.mark.line || k.mark.index + 1024 < s.mark.index then
    if k.required then .error (.scan k.mark s.mark missingKey) else .ok false
  else .ok true

/-! ### Indentation -/

/-- How deep blocks, and flow collections, may be nested. -/
def maxDepth : Nat := 10000

def tooDeep : String := s!"exceeded max depth of {maxDepth}"

/-- Opens a block at a column, unless one is open there; its token comes before the token with
a given number, or last. -/
def openBlock (s : Scanner) (column : Nat) (number? : Option Nat) (kind : TokenKind)
    (mark : Mark) : Result :=
  if s.flow > 0 || (column : Int) ≤ s.indent then .ok s
  else
    let s := { s with indents := s.indent :: s.indents, indent := column }
    if maxDepth < s.indents.length then s.complain s.currentKey.mark tooDeep
    else .ok (s.pushBefore (number?.getD s.nextNumber) kind mark)

/-- Closes the blocks to the right of a column; `indents` are the columns around the current
block. -/
def closeBlocks (column : Int) (mark : Mark) (s : Scanner) : List Int → Scanner
  | [] => s
  | outer :: indents =>
    if s.indent ≤ column then s
    else
      let queue := s.queue ++ [⟨.blockEnd, mark, mark⟩]
      closeBlocks column mark { s with queue, indent := outer, indents } indents

/-- Closes the blocks to the right of a column, at a given mark; in a flow collection there are
none. -/
def unroll (s : Scanner) (column : Int) (mark : Mark) : Scanner :=
  if s.flow > 0 then s else closeBlocks column mark s s.indents

/-! ### Tokens -/

/-- Appends a token of `length` characters. -/
def pushIndicator (s : Scanner) (kind : TokenKind) (length : Nat) : Scanner :=
  let start := s.mark
  { s with reader := s.reader.advance length }.push kind start

/-- The end of the text starts a new line. -/
def endLine (s : Scanner) : Scanner :=
  let m := s.mark
  if m.column = 0 then s
  else { s with reader := { s.reader with mark := { m with line := m.line + 1, column := 0 } } }

def fetchEnd (s : Scanner) : Result := do
  let s := s.endLine
  let s ← (s.unroll (-1) s.mark).dropKey
  let s := { s with keyAllowed := false }
  return s.push .streamEnd s.mark

def fetchDocumentMark (s : Scanner) (kind : TokenKind) : Result := do
  let s ← (s.unroll (-1) s.mark).dropKey
  return { s with keyAllowed := false }.pushIndicator kind 3

def fetchFlowStart (s : Scanner) (kind : TokenKind) : Result := do
  let s ← s.noteKey
  let k : PossibleKey := { token := s.nextNumber, mark := s.mark }
  let s := { s with keys := k :: s.keys, flow := s.flow + 1 }
  if maxDepth < s.flow then s.complain s.mark tooDeep
  else return { s with keyAllowed := true }.pushIndicator kind 1

/-- Leaves a flow collection.  Nothing waits any longer for a key that starts with the same token
as the last one inside: an empty collection is given out before it is known to be a key. -/
def leaveFlow (s : Scanner) : Scanner :=
  let token := s.currentKey.token
  let keys := match s.keys.drop 1 with
    | k :: ks => { k with awaited := k.awaited && k.token ≠ token } :: ks
    | [] => []
  { s with flow := s.flow - 1, keys }

def fetchFlowEnd (s : Scanner) (kind : TokenKind) : Result := do
  let s ← s.dropKey
  let s := if s.flow = 0 then s else s.leaveFlow
  return { s with keyAllowed := false }.pushIndicator kind 1

def fetchFlowEntry (s : Scanner) : Result := do
  let s ← s.dropKey
  return { s with keyAllowed := true }.pushIndicator .flowEntry 1

def fetchBlockEntry (s : Scanner) : Result := do
  if s.flow = 0 && !s.keyAllowed then
    s.complain s.mark "block sequence entries are not allowed in this context"
  else
    let s ← (← s.openBlock s.mark.column none .blockSequenceStart s.mark).dropKey
    return { s with keyAllowed := true }.pushIndicator .blockEntry 1

def fetchKey (s : Scanner) : Result := do
  if s.flow = 0 && !s.keyAllowed then
    s.complain s.mark "mapping keys are not allowed in this context"
  else
    let s ← (← s.openBlock s.mark.column none .blockMappingStart s.mark).dropKey
    return { s with keyAllowed := s.flow = 0 }.pushIndicator .key 1

def fetchValue (s : Scanner) : Result := do
  let k := s.currentKey
  if ← s.keyIsValid k then
    let s := s.pushBefore k.token .key k.mark
    let s ← s.openBlock k.mark.column (some k.token) .blockMappingStart k.mark
    let s := s.setKey { k with possible := false }
    return { s with keyAllowed := false }.pushIndicator .value 1
  else
    let s := s.setKey { k with possible := false }
    if s.flow = 0 && !s.keyAllowed then
      s.complain s.mark "mapping values are not allowed in this context"
    else
      let s ← s.openBlock s.mark.column none .blockMappingStart s.mark
      return { s with keyAllowed := s.flow = 0 }.pushIndicator .value 1

/-- Reads the name of an anchor or an alias. -/
def scanAnchor : Step String := do
  let start ← Step.mark
  Step.skip 1
  let name ← Step.passWhile isWordChar
  let rest ← Step.ahead
  let ends := Reader.isGap rest || rest.head?.any fun c => "?:,]\x7d%@\x60".toList.contains c
  if name.isEmpty || !ends then
    Step.complain start "did not find expected alphabetic or numeric character"
  else return String.ofList name

/-- Appends the token that a step finds, which may start a key. -/
def fetchKeyed (s : Scanner) (step : Step TokenKind) : Result := do
  let s ← s.noteKey
  let start := s.mark
  let (kind, s) ← s.take step
  return { s with keyAllowed := false }.push kind start

def fetchPlain (s : Scanner) : Result := do
  let s ← s.noteKey
  let start := s.mark
  let fuel := s.reader.rest.length + 1
  let (p, s) ← s.take (scanPlain fuel (s.flow > 0) start (s.indent + 1) start {})
  return { s with
    keyAllowed := p.gap.broken
    queue := s.queue ++ [⟨.scalar (String.ofList p.text) .plain, start, p.stop⟩] }

/-- Reads a quoted scalar. -/
def quotedToken (single : Bool) : Step TokenKind := do
  let start ← Step.mark
  Step.skip 1
  let text ← scanQuoted ((← Step.ahead).length + 1) single start
  return .scalar (String.ofList text) .quoted

def fetchBlockScalar (s : Scanner) (literal : Bool) : Result := do
  let s ← s.dropKey
  let start := s.mark
  let outer := s.indent
  let (text, s) ← s.take (do Step.skip 1; scanBlock literal start outer)
  return { s with keyAllowed := true }.push (.scalar (String.ofList text) .quoted) start

/-! ### Tags and directives -/

/-- The characters of the names of tags. -/
def isTagChar (c : Char) : Bool := isWordChar c || ";/?:@&=+$,.!~*'()[]".toList.contains c

/-- The number that two digits after a percent sign spell. -/
def escapedByte? : List Char → Option UInt8
  | '%' :: a :: b :: _ => (codeOf? [a, b]).map UInt8.ofNat
  | _ => none

/-- The number of bytes of a character that starts with a given byte. -/
def sequenceLength (b : UInt8) : Nat :=
  if b &&& 0x80 = 0 then 1
  else if b &&& 0xe0 = 0xc0 then 2
  else if b &&& 0xf0 = 0xe0 then 3
  else if b &&& 0xf8 = 0xf0 then 4
  else 0

/-- Reads the bytes of one character, each after a percent sign; of the first byte it is not yet
known how many follow. -/
def scanTagEscape (context : Mark) (left? : Option Nat) (fuel : Nat) : Step (List UInt8) :=
  match fuel with
  | 0 => return []
  | fuel + 1 => do
    if left? = some 0 then return []
    Step.need 3
    match escapedByte? (← Step.ahead), left? with
    | none, _ => Step.complain context "did not find URI escaped octet"
    | some b, none =>
      if sequenceLength b = 0 then
        Step.complain context "found an incorrect leading UTF-8 octet"
      else
        Step.skip 3
        return b :: (← scanTagEscape context (some (sequenceLength b - 1)) fuel)
    | some b, some left =>
      if b &&& 0xc0 = 0x80 then
        Step.skip 3
        return b :: (← scanTagEscape context (some (left - 1)) fuel)
      else Step.complain context "found an incorrect trailing UTF-8 octet"

/-- Reads the name of a tag, as bytes. -/
def scanTagName (fuel : Nat) (context : Mark) : Step (List UInt8) :=
  match fuel with
  | 0 => return []
  | fuel + 1 => do
    Step.need 1
    match ← Step.peek? with
    | none => return []
    | some c =>
      if c = '%' then
        let bytes ← scanTagEscape context none 5
        return bytes ++ (← scanTagName fuel context)
      else if isTagChar c then
        Step.skip 1
        return String.utf8EncodeChar c ++ (← scanTagName fuel context)
      else return []

/-- Reads the name of a tag after what has been read of it, which may be nothing only if
`started`. -/
def scanTagUri (context : Mark) (started : Bool) (head : List Char) : Step String := do
  let before ← Step.mark
  let bytes ← scanTagName ((← Step.ahead).length + 1) context
  if !started && (← Step.mark) = before then
    Step.complain context "did not find expected tag URI"
  else return SourceText.shown (.ofBytes ((String.ofList head).toUTF8.toList ++ bytes))

/-- Reads an exclamation mark, the word after it, and another exclamation mark if there is
one. -/
def scanHandle (context : Mark) (directive : Bool) : Step (List Char) := do
  Step.need 1
  if !(← Step.sees (· = '!')) then Step.complain context "did not find expected '!'"
  Step.skip 1
  let word ← Step.passWhile isWordChar
  if ← Step.sees (· = '!') then
    Step.skip 1
    return '!' :: word ++ ['!']
  else if directive && !word.isEmpty then Step.complain context "did not find expected '!'"
  else return '!' :: word

/-- Asks for white space or the end after a tag. -/
def tagEnd (context : Mark) : Step Unit := do
  Step.need 1
  if !Reader.isGap (← Step.ahead) then
    Step.complain context "did not find expected whitespace or line break"

/-- Reads the handle and the rest of a tag. -/
def scanTag : Step TokenKind := do
  let start ← Step.mark
  Step.need 2
  if ((← Step.ahead).drop 1).head? = some '<' then
    Step.skip 2
    let name ← scanTagUri start false []
    if !(← Step.sees (· = '>')) then Step.complain start "did not find the expected '>'"
    Step.skip 1
    tagEnd start
    return .tag "" name
  else
    let handle ← scanHandle start false
    if handle.length > 1 && handle.getLast? = some '!' then
      let name ← scanTagUri start false []
      tagEnd start
      return .tag (String.ofList handle) name
    else
      let name ← scanTagUri start true (handle.drop 1)
      tagEnd start
      return if name = "" then .tag "" "!" else .tag "!" name

/-- Reads a number of a version, which has one or two digits. -/
def scanVersionNumber (start : Mark) : Step Nat := do
  let digits ← Step.passWhileUpTo Char.isDigit 2
  Step.need 1
  if digits.length = 2 && (← Step.sees Char.isDigit) then
    Step.complain start "found extremely long version number"
  else if digits.isEmpty then Step.complain start "did not find expected version number"
  else return digits.foldl (fun n c => 10 * n + (c.toNat - '0'.toNat)) 0

def scanVersion (start : Mark) : Step TokenKind := do
  Step.passBlanks
  let major ← scanVersionNumber start
  if !(← Step.sees (· = '.')) then
    Step.complain start "did not find expected digit or '.' character"
  Step.skip 1
  return .version major (← scanVersionNumber start)

def scanTagDirective (start : Mark) : Step TokenKind := do
  Step.passBlanks
  let handle ← scanHandle start true
  Step.need 1
  if !(← Step.sees isBlank) then Step.complain start "did not find expected whitespace"
  Step.passBlanks
  let name ← scanTagUri start false []
  tagEnd start
  return .tagDirective (String.ofList handle) name

/-- Reads a directive, and tells where it ends. -/
def scanDirective : Step (TokenKind × Mark) := do
  let start ← Step.mark
  Step.skip 1
  let name := String.ofList (← Step.passWhile isWordChar)
  if name = "" then Step.complain start "could not find expected directive name"
  if !Reader.isGap (← Step.ahead) then
    Step.complain start "found unexpected non-alphabetical character"
  let kind ←
    if name = "YAML" then scanVersion start
    else if name = "TAG" then scanTagDirective start
    else Step.complain start "found unknown directive name"
  let stop ← Step.mark
  Step.passLineEnd start
  return (kind, stop)

def fetchDirective (s : Scanner) : Result := do
  let s ← (s.unroll (-1) s.mark).dropKey
  let start := s.mark
  let ((kind, stop), s) ← s.take scanDirective
  return { s with keyAllowed := false, queue := s.queue ++ [⟨kind, start, stop⟩] }

/-! ### The next token -/

/-- Tests whether a plain scalar may start here. -/
def startsPlain (flow : Bool) : List Char → Bool
  | [] => false
  | c :: cs =>
    if isBlank c || isBreak c then false
    else if c = '-' then !cs.head?.any isBlank
    else if c = '?' || c = ':' then !flow && !Reader.isGap cs
    else !",[]\x7b\x7d#&*!|>'\"%@\x60".toList.contains c

/-- Tests for a sign that stands for itself when white space follows it, or in a flow
collection. -/
def isSign (flow : Bool) (rest : List Char) : Bool := flow || Reader.isGap rest

/-- Appends the token that starts with a character, with those that it brings about. -/
def fetchToken (s : Scanner) (c : Char) (cs : List Char) : Result :=
  let flow := s.flow > 0
  if c = '[' then s.fetchFlowStart .flowSequenceStart
  else if c = '\x7b' then s.fetchFlowStart .flowMappingStart
  else if c = ']' then s.fetchFlowEnd .flowSequenceEnd
  else if c = '\x7d' then s.fetchFlowEnd .flowMappingEnd
  else if c = ',' then s.fetchFlowEntry
  else if c = '-' && Reader.isGap cs then s.fetchBlockEntry
  else if c = '?' && isSign flow cs then s.fetchKey
  else if c = ':' && isSign flow cs then s.fetchValue
  else if c = '*' then s.fetchKeyed (.reference <$> scanAnchor)
  else if c = '&' then s.fetchKeyed (.anchor <$> scanAnchor)
  else if c = '!' then s.fetchKeyed scanTag
  else if c = '|' && !flow then s.fetchBlockScalar true
  else if c = '>' && !flow then s.fetchBlockScalar false
  else if c = '\'' then s.fetchKeyed (quotedToken true)
  else if c = '"' then s.fetchKeyed (quotedToken false)
  else if startsPlain flow (c :: cs) then s.fetchPlain
  else s.complain s.mark "found character that cannot start any token"

/-- Passes a comment after a token; one after the mark of an entry belongs to what follows. -/
def passComment (s : Scanner) : Result :=
  if (s.queue.getLast?.map (·.kind)) = some .blockEntry then .ok s
  else (·.2) <$> s.take Step.passLineComment

/-- Appends the next token to the queue, with those that it brings about. -/
def fetch (s : Scanner) : Result := do
  let (_, s) ← s.take (Step.need 1)
  if !s.started then
    let s := { s with started := true, keyAllowed := true }
    return s.push .streamStart s.mark
  let before := s.mark
  let (keyAllowed, s) ← s.take (Step.passSpace (s.flow > 0) (s.reader.rest.length + 1) s.keyAllowed)
  let s := { s with keyAllowed }.unroll s.mark.column before
  let (_, s) ← s.take (Step.need 4)
  match s.reader.rest with
  | [] => s.fetchEnd
  | c :: cs =>
    if s.mark.column = 0 && c = '%' then s.fetchDirective
    else if s.reader.atDocumentMark then
      s.fetchDocumentMark (if c = '-' then .documentStart else .documentEnd)
    else (← s.fetchToken c cs).passComment

/-- Tests whether the first token in the queue is settled: two more follow it, and it starts no
possible key. -/
def isSettled (s : Scanner) : Except DocumentError Bool :=
  if s.queue.length < 3 then .ok false
  else
    match s.keys.find? fun k => k.possible && k.awaited && k.token = s.taken with
    | none => .ok true
    | some k => (!·) <$> s.keyIsValid k

/-- Fetches tokens until the first one is settled. -/
def settle (fuel : Nat) (s : Scanner) : Result :=
  match fuel with
  | 0 => .ok s
  | fuel + 1 => do
    if ← s.isSettled then return s
    settle fuel (← s.fetch)

/-- The next token, which stays in the queue. -/
def peek (s : Scanner) : Except DocumentError (Token × Scanner) := do
  let s ← s.settle (2 * s.reader.rest.length + 8)
  return (s.queue.headD default, s)

/-- Takes the next token from the queue. -/
def skip (s : Scanner) : Scanner := { s with queue := s.queue.drop 1, taken := s.taken + 1 }

/-- The scanner for a text. -/
def ofText (text : List Char) : Scanner := { reader := .ofText text }

end Scanner
end KernelForge.Yaml
