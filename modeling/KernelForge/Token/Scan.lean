/-
From source text to lexemes.

Lines whose first visible character is a hash are directives: they are blanked before the
text is read, and only pragmas are allowed among them.  Then the text is read from left to
right, the longest token first.  Four runs of operator characters that read as one operator
stand for two, and a name right after a number is its suffix when it is one.
-/
import KernelForge.Token.Enclosed

namespace KernelForge

/-- A pragma and the offset of its hash. -/
structure Pragma where
  offset : Nat
  text : SourceText
deriving DecidableEq, Repr, Inhabited

namespace Token

open KernelForge.Source (Redirect)

/-! ### Directives -/

/-- The lines of a text, each with the newline that ends it. -/
def linesOf : SourceText → List SourceText
  | [] => []
  | g :: rest =>
    if g = .char '\n' then [g] :: linesOf rest
    else
      match linesOf rest with
      | [] => [[g]]
      | l :: ls => (g :: l) :: ls

/-- A text without its directives, and the directives in it. -/
structure Stripped where
  text : SourceText := []
  pragmas : List Pragma := []
  /-- The directives that are not pragmas. -/
  refused : List Pragma := []
deriving Repr, Inhabited

/-- Spaces in place of the bytes of a line, the newline kept. -/
def blanked (line : SourceText) : SourceText :=
  line.flatMap fun g => if g = .char '\n' then [g] else List.replicate g.size (.char ' ')

/-- The first word of a directive, without the hash. -/
def directiveWord (directive : SourceText) : SourceText :=
  ((directive.drop 1).dropWhile (·.sat Text.isBlank)).takeWhile fun g => !g.sat Text.isBlank

/-- Blanks the directives among some lines, the first of which starts at `offset`. -/
def stripLines (offset : Nat) : List SourceText → Stripped
  | [] => {}
  | line :: lines =>
    let rest := stripLines (offset + line.size) lines
    let trimmed := line.trimmed
    match trimmed with
    | .char '#' :: _ =>
      let hash := offset + SourceText.size (line.takeWhile (· ≠ .char '#'))
      let directive : Pragma := ⟨hash, trimmed⟩
      let text := blanked line ++ rest.text
      if directiveWord trimmed = SourceText.ofString "pragma" then
        { rest with text, pragmas := directive :: rest.pragmas }
      else { rest with text, refused := directive :: rest.refused }
    | _ => { rest with text := line ++ rest.text }

/-- Blanks the directives of a text. -/
def stripDirectives (t : SourceText) : Stripped := stripLines 0 (linesOf t)

/-! ### Tokens -/

/-- What was read of a text. -/
structure Scanned where
  lexemes : List Lexeme := []
  complaints : List Complaint := []
  redirects : List Redirect := []
  /-- The offset of the end of the text. -/
  finish : Nat := 0
deriving Repr, Inhabited

/-- The operators with the longest spelling first. -/
def operatorsByLength : List Operator :=
  Operator.all.mergeSort fun a b => b.spelling.length ≤ a.spelling.length

/-- The longest operator at the start of a text. -/
def operatorAt? (t : SourceText) : Option Operator :=
  let cs := SourceText.charsWhile (fun _ => true) (t.take 3)
  operatorsByLength.find? fun o => o.spelling.toList.isPrefixOf cs

/-- The operators that stand for two. -/
def halves? : Operator → Option (Operator × Operator)
  | .arrow => some (.lss, .sub)
  | .define => some (.colon, .assign)
  | .andNot => some (.and, .xor)
  | .andNotAssign => some (.and, .xorAssign)
  | _ => none

/-- The lexemes of an operator. -/
def operatorLexemes (offset : Nat) (o : Operator) : List Lexeme :=
  match halves? o with
  | some (a, b) => [⟨offset, .op a⟩, ⟨offset + 1, .op b⟩]
  | none => [⟨offset, .op o⟩]

def byteOrderMark : Char := '\ufeff'

/-- The complaint about a character that starts no token. -/
def strayComplaints (offset next : Nat) (c : Char) : List Complaint :=
  if c = byteOrderMark then []
  else if c = '\u201c' || c = '\u201d' then [⟨next, offset, .curlyQuote c⟩]
  else [⟨next, offset, .strayChar c⟩]

/-- One piece of the text: the glyphs that it takes, and what it gives. -/
structure Piece where
  taken : Nat
  lexemes : List Lexeme := []
  complaints : List Complaint := []
  redirect? : Option Redirect := none
deriving Repr, Inhabited

/-- The word of some letters: reserved, or a name. -/
def word (text : String) : Token :=
  match Keyword.ofSpelling? text with
  | some k => .keyword k
  | none => .name text

def singleQuote : Char := Char.ofNat 39
def backQuote : Char := Char.ofNat 96

/-- A quotation as a piece of the text. -/
def quotationPiece (offset : Nat) (t : SourceText) (kind : String → Token) (r : Read) : Piece :=
  { taken := r.taken
    lexemes := [⟨offset, kind (SourceText.shown (t.take r.taken))⟩]
    complaints := r.complaints }

/-- A character that starts no token, as a piece of the text. -/
def strayPiece (offset : Nat) (g : Glyph) : Piece :=
  { taken := 1
    lexemes := [⟨offset, .stray g.shown⟩]
    complaints := strayComplaints offset (offset + g.size) g.shown }

/-- The piece at the start of a text; `lineStart` is where its line starts. -/
def piece (offset lineStart : Nat) (c : Char) (rest : SourceText) : Piece :=
  let t : SourceText := .char c :: rest
  if c = ' ' || c = '\t' || c = '\n' || c = '\r' then { taken := 1 }
  else if Text.isLetter c then
    let text := t.charsWhile Text.isNameChar
    { taken := text.length, lexemes := [⟨offset, word (String.ofList text)⟩] }
  else if c.isDigit || (c = '.' && (rest.head?.any (·.sat Char.isDigit))) then
    let parts := NumberParts.ofText (t.charsWhile NumberParts.isNumberChar)
    { taken := parts.chars.length
      lexemes := [⟨offset, parts.token⟩]
      complaints := parts.complaints offset }
  else if c = '"' then quotationPiece offset t .string (readString offset rest)
  else if c = singleQuote then quotationPiece offset t .char (readChar singleQuote offset rest)
  else if c = backQuote then
    quotationPiece offset t (fun t => .string (String.ofList (t.toList.filter (· ≠ '\r'))))
      (readRaw backQuote offset rest)
  else if c = '/' && rest.head? = some (.char '/') then
    let r := lineComment offset lineStart rest.tail
    { taken := r.taken, complaints := r.complaints, redirect? := r.redirect? }
  else if c = '/' && rest.head? = some (.char '*') then
    let r := blockComment offset rest.tail
    { taken := r.taken, complaints := r.complaints, redirect? := r.redirect? }
  else
    match operatorAt? t with
    | some o => { taken := o.spelling.length, lexemes := operatorLexemes offset o }
    | none => strayPiece offset (.char c)

/-- Where the line starts after some text has been read. -/
def lineStartAfter (offset lineStart : Nat) : SourceText → Nat
  | [] => lineStart
  | g :: rest =>
    let next := offset + g.size
    lineStartAfter next (if g = .char '\n' then next else lineStart) rest

/-- Reads a text piece by piece. -/
def scanFrom (offset lineStart : Nat) (t : SourceText) : Scanned :=
  match t with
  | [] => { finish := offset }
  | g :: rest =>
    let p := match g with
      | .char c => piece offset lineStart c rest
      | .stray _ => strayPiece offset g
    let more := p.taken - 1
    let read : SourceText := g :: rest.take more
    let after := scanFrom (offset + read.size) (lineStartAfter offset lineStart read)
      (rest.drop more)
    { lexemes := p.lexemes ++ after.lexemes
      complaints := p.complaints ++ after.complaints
      redirects := p.redirect?.toList ++ after.redirects
      finish := after.finish }
termination_by t.length
decreasing_by simp only [List.length_drop, List.length_cons]; omega

/-- What is wrong with a glyph as soon as it is read. -/
def readError? (offset : Nat) : Glyph → Option ScanError
  | .stray _ => some .encoding
  | .char c =>
    if c.toNat = 0 then some .nul
    else if c = byteOrderMark && offset ≠ 0 then some .byteOrderMark
    else none

/-- Complaints about single glyphs, raised when they are read. -/
def readComplaints (offset : Nat) : SourceText → List Complaint
  | [] => []
  | g :: rest =>
    (readError? offset g).toList.map (⟨offset, offset, ·⟩) ++ readComplaints (offset + g.size) rest

/-- The suffixes of whole numbers. -/
def isIntSuffix (s : String) : Bool := ["u", "l", "ul", "lu"].contains (s.map Char.toLower)

/-- The suffix of numbers with a fraction. -/
def isFloatSuffix (s : String) : Bool := s.map Char.toLower = "f"

/-- The number that a suffix makes of another one. -/
def withSuffix? : Token → Token → Option Token
  | .int n, .name s => if isIntSuffix s then some (.int (n ++ s)) else none
  | .float n, .name s => if isFloatSuffix s then some (.float (n ++ s)) else none
  | _, _ => none

/-- Joins numbers and the suffixes right after them. -/
def joinSuffixes : List Lexeme → List Lexeme
  | a :: b :: rest =>
    match if a.offset + a.token.text.utf8ByteSize = b.offset then withSuffix? a.token b.token
      else none with
    | some t => ⟨a.offset, t⟩ :: joinSuffixes rest
    | none => a :: joinSuffixes (b :: rest)
  | ls => ls

/-- Reads a text without directives.  A byte order mark may start it. -/
def scanText (t : SourceText) : Scanned :=
  let scanned :=
    match t with
    | .char c :: rest => if c = byteOrderMark then scanFrom c.utf8Size 0 rest else scanFrom 0 0 t
    | _ => scanFrom 0 0 t
  { scanned with
    lexemes := joinSuffixes scanned.lexemes
    complaints :=
      ((readComplaints 0 t ++ scanned.complaints).mergeSort fun a b => a.raisedAt ≤ b.raisedAt)
    redirects := scanned.redirects.filter fun r => r.offset < scanned.finish }

/-- Tests whether a text starts with the mark of sixteen-bit units; such a text is not read. -/
def isWide (t : SourceText) : Bool :=
  [Glyph.stray 0xff, .stray 0xfe].isPrefixOf t || [Glyph.stray 0xfe, .stray 0xff].isPrefixOf t

/-- Refuses a text of sixteen-bit units. -/
def refuseWide (t : SourceText) : Scanned :=
  { complaints := [⟨0, 0, .wideEncoding⟩, ⟨1, 0, .strayChar Glyph.replacement⟩], finish := t.size }

end Token

/-- A source that has been scanned. -/
structure TokenStream where
  lexemes : List Lexeme
  /-- The offset of the end of the source. -/
  finish : Nat
  pragmas : List Pragma
  map : Source.Map
  diagnostics : List Diagnostic
deriving Repr, Inhabited

/-- Scans a source.  Directives are objected to before its lines are known, so they are
reported as if all of them stood on the first line. -/
def TokenStream.ofText (file : String) (t : SourceText) : TokenStream :=
  let stripped := Token.stripDirectives t
  let scanned :=
    if Token.isWide stripped.text then Token.refuseWide stripped.text
    else Token.scanText stripped.text
  let map := { Source.Map.ofText file stripped.text with redirects := scanned.redirects }
  let refused := stripped.refused.map fun d =>
    Diagnostic.located ⟨file, 1, d.offset + 1⟩
      ("preprocessor directive " ++ d.text.quoted ++ " not supported")
  let complaints := (scanned.complaints.filter fun c => !c.error.isIgnored).map fun c =>
    (map.knownAt c.raisedAt).complain c.offset c.error.message
  { lexemes := scanned.lexemes
    finish := scanned.finish
    pragmas := stripped.pragmas
    map
    diagnostics := refused ++ complaints }

end KernelForge
