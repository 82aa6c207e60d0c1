/-
The words of kernel source, and what the scanner objects to.

A lexeme is a token with the byte offset at which it starts.  Numbers keep their text, suffix
included, because their type is read from it.

A complaint is about an offset, but it is raised when the scanner has read up to some other
offset, and complaints are listed in the order in which they are raised.  A character that
may not stand in a source is objected to as soon as it is read, before anything is said about
the token that it follows.
-/
import KernelForge.Operator
import KernelForge.Text.Quoted

namespace KernelForge

/-- The reserved words. -/
inductive Keyword where
  | brk
  | case
  | const
  | cont
  | default
  | els
  | loop
  | goto
  | cond
  | ret
  | struct
  | switch
deriving DecidableEq, Repr, Inhabited

namespace Keyword

def spelling : Keyword → String
  | brk => "break"
  | case => "case"
  | const => "const"
  | cont => "continue"
  | default => "default"
  | els => "else"
  | loop => "for"
  | goto => "goto"
  | cond => "if"
  | ret => "return"
  | struct => "struct"
  | switch => "switch"

def all : List Keyword :=
  [brk, case, const, cont, default, els, loop, goto, cond, ret, struct, switch]

def ofSpelling? (word : String) : Option Keyword := all.find? fun k => k.spelling = word

end Keyword

/-- A token. -/
inductive Token where
  | name (text : String)
  | int (text : String)
  | float (text : String)
  | imaginary (text : String)
  | char (text : String)
  | string (text : String)
  | keyword (k : Keyword)
  | op (o : Operator)
  /-- The question mark, and characters that mean nothing. -/
  | stray (c : Char)
deriving DecidableEq, Repr, Inhabited

namespace Token

/-- The text of a token. -/
def text : Token → String
  | name t | int t | float t | imaginary t | char t | string t => t
  | keyword k => k.spelling
  | op o => o.spelling
  | stray c => String.ofList [c]

/-- The question mark of the conditional operator. -/
def question : Token := stray '?'

end Token

/-- A token and the byte offset at which it starts. -/
structure Lexeme where
  offset : Nat
  token : Token
deriving DecidableEq, Repr, Inhabited

end KernelForge

namespace KernelForge

/-- The written base of a number. -/
inductive Radix where
  | decimal
  | zeroOctal
  | octal
  | binary
  | hexadecimal
deriving DecidableEq, Repr, Inhabited

namespace Radix

/-- What a number of the base is called. -/
def literalName : Radix → String
  | decimal => "decimal literal"
  | zeroOctal | octal => "octal literal"
  | binary => "binary literal"
  | hexadecimal => "hexadecimal literal"

/-- The base in which the digits are read. -/
def base : Radix → Nat
  | decimal => 10
  | zeroOctal | octal => 8
  | binary => 2
  | hexadecimal => 16

end Radix

/-- What is wrong with the text. -/
inductive ScanError where
  | nul
  | encoding
  | wideEncoding
  | byteOrderMark
  | strayChar (c : Char)
  | curlyQuote (c : Char)
  | radixPoint (r : Radix)
  | noDigits (r : Radix)
  | decimalExponent (c : Char)
  | hexExponent (c : Char)
  | exponentDigits
  | hexNeedsExponent
  | digit (c : Char) (r : Radix)
  | separator
  | unterminatedString
  | unterminatedChar
  | unterminatedRaw
  | unterminatedComment
  | badChar
  | unknownEscape
  | unterminatedEscape
  | escapeChar (c : Char)
  | escapeCode
  | lineNumber (text : String)
  | columnNumber (text : String)
deriving DecidableEq, Repr, Inhabited

namespace ScanError

def message : ScanError → String
  | nul => "illegal character NUL"
  | encoding => "illegal UTF-8 encoding"
  | wideEncoding => "illegal UTF-8 encoding (got UTF-16)"
  | byteOrderMark => "illegal byte order mark"
  | strayChar c => "illegal character " ++ Text.charCode c
  | curlyQuote c =>
    "curly quotation mark " ++ Text.quotedChar c ++ " (use neutral " ++ Text.quotedChar '"' ++ ")"
  | radixPoint r => "invalid radix point in " ++ r.literalName
  | noDigits r => r.literalName ++ " has no digits"
  | decimalExponent c => Text.quotedChar c ++ " exponent requires decimal mantissa"
  | hexExponent c => Text.quotedChar c ++ " exponent requires hexadecimal mantissa"
  | exponentDigits => "exponent has no digits"
  | hexNeedsExponent => "hexadecimal mantissa requires a 'p' exponent"
  | digit c r => "invalid digit " ++ Text.quotedChar c ++ " in " ++ r.literalName
  | separator => "'_' must separate successive digits"
  | unterminatedString => "string literal not terminated"
  | unterminatedChar => "rune literal not terminated"
  | unterminatedRaw => "raw string literal not terminated"
  | unterminatedComment => "comment not terminated"
  | badChar => "illegal rune literal"
  | unknownEscape => "unknown escape sequence"
  | unterminatedEscape => "escape sequence not terminated"
  | escapeChar c => "illegal character " ++ Text.charCode c ++ " in escape sequence"
  | escapeCode => "escape sequence is invalid Unicode code point"
  | lineNumber text => "invalid line number: " ++ text
  | columnNumber text => "invalid column number: " ++ text

/-- The question mark belongs to the conditional operator, so nothing is said that names it by
its code. -/
def isIgnored (e : ScanError) : Bool := e.message.contains "U+003F"

end ScanError

/-- Something that is wrong at an offset, and how far the scanner had read when it said so. -/
structure Complaint where
  raisedAt : Nat
  offset : Nat
  error : ScanError
deriving DecidableEq, Repr, Inhabited

end KernelForge
