/-
What stands between two marks in source text: characters, strings and comments.

Quotations have no meaning in kernels, but they are tokens, and an escape sequence in them
must be well formed.  A quotation that is not closed ends at the end of its line, a raw
string at the end of the text.

A comment runs to the end of its line or to the closing mark.  One that starts with `line ` and
ends with a line number says where the text after it comes from; a comment to the end of the
line does so only when it starts the line.  The numbers are words of the machine: the upper
half of the words are negative numbers, and these are never too large.
-/
import KernelForge.Source.Place
import KernelForge.Token.Number

namespace KernelForge.Token

/-- Some glyphs of the text that were read, and what was wrong with them. -/
structure Read where
  /-- How many glyphs were taken. -/
  taken : Nat
  complaints : List Complaint
deriving Repr, Inhabited

/-- The value of a digit of any base up to sixteen. -/
def digitValue? (c : Char) : Option Nat :=
  if c.isDigit then some (c.toNat - '0'.toNat)
  else if 'a' ≤ c && c ≤ 'f' then some (c.toNat - 'a'.toNat + 10)
  else if 'A' ≤ c && c ≤ 'F' then some (c.toNat - 'A'.toNat + 10)
  else none

def isDigitBelow (base : Nat) (c : Char) : Bool := (digitValue? c).any (· < base)

/-- Reads the digits of an escape sequence, which started at `start`; `lead` characters of it
come before the digits. -/
def escapeDigits (start lead count base limit : Nat) (t : SourceText) : Read :=
  let ds := SourceText.charsWhile (isDigitBelow base) (t.take count)
  let here := start + lead + ds.length
  if ds.length < count then
    let error := match t.drop ds.length with
      | [] => ScanError.unterminatedEscape
      | g :: _ => .escapeChar g.shown
    ⟨lead + ds.length, [⟨here, here, error⟩]⟩
  else
    let code := ds.foldl (fun n c => base * n + (digitValue? c).getD 0) 0
    if limit < code || (0xd800 ≤ code && code < 0xe000) then
      ⟨lead + ds.length, [⟨here, start, .escapeCode⟩]⟩
    else ⟨lead + ds.length, []⟩

/-- Reads what follows a backslash; `start` is its offset. -/
def escapeSequence (quote : Char) (start : Nat) (t : SourceText) : Read :=
  match t with
  | [] => ⟨0, [⟨start, start, .unterminatedEscape⟩]⟩
  | .stray _ :: _ => ⟨0, [⟨start, start, .unknownEscape⟩]⟩
  | .char c :: rest =>
    if c = quote || "abfnrtv\\".contains c then ⟨1, []⟩
    else if isDigitBelow 8 c then escapeDigits start 0 3 8 255 t
    else if c = 'x' then escapeDigits start 1 2 16 255 rest
    else if c = 'u' then escapeDigits start 1 4 16 0x10ffff rest
    else if c = 'U' then escapeDigits start 1 8 16 0x10ffff rest
    else ⟨0, [⟨start, start, .unknownEscape⟩]⟩

/-- The inside of a quotation as it was read. -/
structure Inside where
  taken : Nat
  /-- The offset after what was taken. -/
  finish : Nat
  /-- How many glyphs the quotation holds, an escape sequence counted as one. -/
  count : Nat
  closed : Bool
  complaints : List Complaint
deriving Repr, Inhabited

/-- Reads up to the closing quote or the end of the line. -/
def inside (quote : Char) (offset : Nat) (t : SourceText) : Inside :=
  match t with
  | [] => ⟨0, offset, 0, false, []⟩
  | g :: rest =>
    let next := offset + g.size
    if g = .char '\n' then ⟨0, offset, 0, false, []⟩
    else if g = .char quote then ⟨1, next, 0, true, []⟩
    else
      let escape := if g = .char '\\' then escapeSequence quote next rest else ⟨0, []⟩
      let more := inside quote (next + SourceText.size (rest.take escape.taken))
        (rest.drop escape.taken)
      { more with
        taken := 1 + escape.taken + more.taken
        count := 1 + more.count
        complaints := escape.complaints ++ more.complaints }
termination_by t.length
decreasing_by simp only [List.length_drop, List.length_cons]; omega

/-- Reads a string; its opening quote at `offset` is not part of `t`. -/
def readString (offset : Nat) (t : SourceText) : Read :=
  let body := inside '"' (offset + 1) t
  ⟨1 + body.taken, body.complaints ++
    if body.closed then [] else [⟨body.finish, offset, .unterminatedString⟩]⟩

/-- Reads a character; its opening quote at `offset` is not part of `t`. -/
def readChar (quote : Char) (offset : Nat) (t : SourceText) : Read :=
  let body := inside quote (offset + 1) t
  let verdict :=
    if !body.complaints.isEmpty then []
    else if !body.closed then [⟨body.finish, offset, .unterminatedChar⟩]
    else if body.count ≠ 1 then [⟨body.finish, offset, .badChar⟩]
    else []
  ⟨1 + body.taken, body.complaints ++ verdict⟩

/-- Reads a raw string; its opening quote at `offset` is not part of `t`. -/
def readRaw (quote : Char) (offset : Nat) (t : SourceText) : Read :=
  let body : SourceText := t.takeWhile (· ≠ .char quote)
  if body.length < t.length then ⟨2 + body.length, []⟩
  else ⟨1 + body.length, [⟨offset + 1 + body.size, offset, .unterminatedRaw⟩]⟩

end KernelForge.Token

namespace KernelForge.Token

open KernelForge.Source (Redirect cleanPath)

/-- The number of glyphs of the shortest start of a text that holds the mark which closes a
comment. -/
def blockLength? : SourceText → Option Nat
  | .char '*' :: .char '/' :: _ => some 2
  | _ :: rest => (blockLength? rest).map (· + 1)
  | [] => none

/-- The text after the last colon as a number: the index of that text, and the number when its
digits fit a machine word. -/
def trailingNumber? (t : SourceText) : Option (Nat × Option Int) :=
  let tail : SourceText := (t.reverse.takeWhile (· ≠ .char ':')).reverse
  if tail.length = t.length then none
  else
    let digits := tail.charsWhile Char.isDigit
    let number :=
      if digits.isEmpty || digits.length < tail.length then none
      else
        let n := digits.foldl (fun n c => 10 * n + (c.toNat - '0'.toNat)) 0
        if n < 0x10000000000000000 then some (Int.bmod n 0x10000000000000000) else none
    some (t.length - tail.length, number)

/-- The largest line or column that a comment may give. -/
def maxPlace : Int := 0x40000000

/-- Tests whether a comment may give a line or column. -/
def isPlace (n : Int) : Bool := n ≠ 0 && n ≤ maxPlace

/-- What a comment says about the place of the text at `next`.  `base` is the offset of the
text `t` in it that follows `line `, and `readTo` the offset up to which has been read. -/
def redirect (base next readTo : Nat) (t : SourceText) : List Complaint × Option Redirect :=
  let complain := fun (t : SourceText) (i : Nat) (e : String → ScanError) =>
    ([Complaint.mk readTo (base + SourceText.size (t.take i)) (e (SourceText.shown (t.drop i)))],
      none)
  match trailingNumber? t with
  | none => ([], none)
  | some (i, none) => complain t i .lineNumber
  | some (i, some n) =>
    let front := t.take (i - 1)
    match trailingNumber? front with
    | some (j, some line) =>
      if !isPlace n then complain t i .columnNumber
      else if !isPlace line then complain front j .lineNumber
      else
        let file := SourceText.shown (front.take (j - 1))
        ([], some ⟨next, if file = "" then none else some (cleanPath file), line, n, readTo⟩)
    | _ =>
      if !isPlace n then complain t i .lineNumber
      else
        let file := SourceText.shown front
        ([], some ⟨next, some (if file = "" then "" else cleanPath file), n, 0, readTo⟩)

/-- A comment as it was read. -/
structure Comment where
  /-- How many glyphs it takes, its opening mark included. -/
  taken : Nat
  complaints : List Complaint
  redirect? : Option Redirect
deriving Repr, Inhabited

/-- The text after `line ` at the start of a comment's text. -/
def afterLine? : SourceText → Option SourceText
  | .char 'l' :: .char 'i' :: .char 'n' :: .char 'e' :: .char ' ' :: rest => some rest
  | _ => none

/-- Reads a comment to the end of the line; `t` is what follows its opening mark. -/
def lineComment (offset lineStart : Nat) (t : SourceText) : Comment :=
  let body : SourceText := t.takeWhile (· ≠ .char '\n')
  let finish := offset + 2 + body.size
  let next := if body.length < t.length then finish + 1 else finish
  let text := if body.getLast? = some (.char '\r') then body.dropLast else body
  let (complaints, redirect?) :=
    match if offset = lineStart then afterLine? text else none with
    | some rest => redirect (offset + 7) next finish rest
    | none => ([], none)
  ⟨2 + body.length, complaints, redirect?⟩

/-- Reads a comment to its closing mark; `t` is what follows its opening mark. -/
def blockComment (offset : Nat) (t : SourceText) : Comment :=
  match blockLength? t with
  | none => ⟨2 + t.length, [⟨offset + 2 + t.size, offset, .unterminatedComment⟩], none⟩
  | some n =>
    let finish := offset + 2 + SourceText.size (t.take n)
    let (complaints, redirect?) :=
      match afterLine? (t.take (n - 2)) with
      | some rest => redirect (offset + 7) finish finish rest
      | none => ([], none)
    ⟨2 + n, complaints, redirect?⟩

end KernelForge.Token
