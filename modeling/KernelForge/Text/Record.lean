/-
A record of fields that commas divide.

A field that starts with a quote ends with the next quote that is not doubled, and may hold
commas and line breaks; a doubled quote in it stands for one.  A record ends with its line.
-/

namespace KernelForge.Text

/-- What is wrong with a record. -/
inductive RecordError where
  /-- There is nothing but empty lines. -/
  | empty
  /-- A quote in a field that does not start with one; the record starts in line `start`. -/
  | bareQuote (start line column : Nat)
  /-- A quoted field that does not end well. -/
  | badQuote (start line column : Nat)
deriving DecidableEq, Repr, Inhabited

/-- A place in a record, as messages name it. -/
def placeText (start line column : Nat) : String :=
  (if start = line then "" else s!"record on line {start}; ") ++
    s!"parse error on line {line}, column {column}: "

def RecordError.message : RecordError → String
  | empty => "EOF"
  | bareQuote start line column => placeText start line column ++ "bare \" in non-quoted field"
  | badQuote start line column =>
    placeText start line column ++ "extraneous or missing \" in quoted-field"

namespace Record

/-- A carriage return before a line break or at the end is no part of a line. -/
def normalize : List Char → List Char
  | '\r' :: '\n' :: cs => '\n' :: normalize cs
  | ['\r'] => []
  | c :: cs => c :: normalize cs
  | [] => []

/-- The number of columns that a character takes: one for each of its bytes. -/
def width (c : Char) : Nat := c.utf8Size

/-- Where the reader is. -/
inductive Mode where
  /-- Before a field. -/
  | start
  /-- In a field without quotes; its characters in reverse. -/
  | bare (field : List Char)
  | quoted (field : List Char)
  /-- After a quote in a quoted field. -/
  | closing (field : List Char)

/-- Reads the fields of a record.  `first` is the line that the record starts in. -/
def fields (first line column : Nat) (mode : Mode) :
    List Char → Except RecordError (List String)
  | [] =>
    match mode with
    | .start => .ok [""]
    | .bare f => .ok [String.ofList f.reverse]
    | .closing f => .ok [String.ofList f.reverse]
    | .quoted _ => .error (.badQuote first line column)
  | c :: cs =>
    match mode with
    | .start =>
      if c = '"' then fields first line (column + 1) (.quoted []) cs
      else if c = ',' then ("" :: ·) <$> fields first line (column + 1) .start cs
      else if c = '\n' then .ok [""]
      else fields first line (column + width c) (.bare [c]) cs
    | .bare f =>
      if c = '"' then .error (.bareQuote first line column)
      else if c = ',' then
        (String.ofList f.reverse :: ·) <$> fields first line (column + 1) .start cs
      else if c = '\n' then .ok [String.ofList f.reverse]
      else fields first line (column + width c) (.bare (c :: f)) cs
    | .quoted f =>
      if c = '"' then fields first line (column + 1) (.closing f) cs
      else if c = '\n' then
        if cs.isEmpty then fields first line (column + 1) (.quoted (c :: f)) cs
        else fields first (line + 1) 1 (.quoted (c :: f)) cs
      else fields first line (column + width c) (.quoted (c :: f)) cs
    | .closing f =>
      if c = '"' then fields first line (column + 1) (.quoted (c :: f)) cs
      else if c = ',' then
        (String.ofList f.reverse :: ·) <$> fields first line (column + 1) .start cs
      else if c = '\n' then .ok [String.ofList f.reverse]
      else .error (.badQuote first line (column - 1))

/-- The number of empty lines at the start, and what follows them. -/
def skipEmpty : List Char → Nat × List Char
  | '\n' :: cs =>
    let (n, rest) := skipEmpty cs
    (n + 1, rest)
  | cs => (0, cs)

/-- Reads the first record of a text; empty lines before it are passed over. -/
def parse (text : String) : Except RecordError (List String) :=
  match skipEmpty (normalize text.toList) with
  | (_, []) => .error .empty
  | (n, cs) => fields (n + 1) (n + 1) 1 .start cs

end Record
end KernelForge.Text
