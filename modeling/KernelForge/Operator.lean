/-
The operators and punctuation of source text.

Every operator that the scanner knows is listed here with its spelling, those included that
no expression may contain: a rejected operator is named in the complaint.
-/

namespace KernelForge

/-- An operator or a piece of punctuation. -/
inductive Operator where
  | add | sub | mul | quo | rem
  | and | or | xor | shl | shr | andNot
  | addAssign | subAssign | mulAssign | quoAssign | remAssign
  | andAssign | orAssign | xorAssign | shlAssign | shrAssign | andNotAssign
  | land | lor | arrow | inc | dec
  | eql | lss | gtr | assign | not
  | neq | leq | geq | define | ellipsis
  | lparen | lbrack | lbrace | comma | period
  | rparen | rbrack | rbrace | semicolon | colon
  | tilde
deriving DecidableEq, Repr, Inhabited

namespace Operator

def spelling : Operator → String
  | add => "+"
  | sub => "-"
  | mul => "*"
  | quo => "/"
  | rem => "%"
  | and => "&"
  | or => "|"
  | xor => "^"
  | shl => "<<"
  | shr => ">>"
  | andNot => "&^"
  | addAssign => "+="
  | subAssign => "-="
  | mulAssign => "*="
  | quoAssign => "/="
  | remAssign => "%="
  | andAssign => "&="
  | orAssign => "|="
  | xorAssign => "^="
  | shlAssign => "<<="
  | shrAssign => ">>="
  | andNotAssign => "&^="
  | land => "&&"
  | lor => "||"
  | arrow => "<-"
  | inc => "++"
  | dec => "--"
  | eql => "=="
  | lss => "<"
  | gtr => ">"
  | assign => "="
  | not => "!"
  | neq => "!="
  | leq => "<="
  | geq => ">="
  | define => ":="
  | ellipsis => "..."
  | lparen => "("
  | lbrack => "["
  | lbrace => "\x7b"
  | comma => ","
  | period => "."
  | rparen => ")"
  | rbrack => "]"
  | rbrace => "\x7d"
  | semicolon => ";"
  | colon => ":"
  | tilde => "~"

instance : ToString Operator := ⟨spelling⟩

def all : List Operator :=
  [add, sub, mul, quo, rem, and, or, xor, shl, shr, andNot, addAssign, subAssign, mulAssign,
    quoAssign, remAssign, andAssign, orAssign, xorAssign, shlAssign, shrAssign, andNotAssign,
    land, lor, arrow, inc, dec, eql, lss, gtr, assign, not, neq, leq, geq, define, ellipsis,
    lparen, lbrack, lbrace, comma, period, rparen, rbrack, rbrace, semicolon, colon, tilde]

/-- The operator with a given spelling. -/
def ofSpelling? (text : String) : Option Operator := all.find? fun o => o.spelling = text

/-- The operators that compare their operands. -/
def isComparison : Operator → Bool
  | eql | neq | lss | leq | gtr | geq => true
  | _ => false

/-- The operators that join truth values. -/
def isLogical : Operator → Bool
  | land | lor => true
  | _ => false

end Operator
end KernelForge
