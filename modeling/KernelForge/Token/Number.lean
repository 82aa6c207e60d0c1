/-
Numbers in source text.

A number may have a base, a fraction, an exponent and underscores between its digits.  The
scanner takes as much text as can belong to one and says afterwards what is wrong with it, so
a malformed number is still one token.
-/
import KernelForge.Source.Place
import KernelForge.Token.Basic

namespace KernelForge.Token

def isHexDigit (c : Char) : Bool :=
  c.isDigit || ('a' ≤ c && c ≤ 'f') || ('A' ≤ c && c ≤ 'F')

/-- The characters taken as digits: underscores, and the digits of base ten or sixteen. -/
def isDigitOf (r : Radix) (c : Char) : Bool :=
  c = '_' || (if r = .hexadecimal then isHexDigit c else c.isDigit)

/-- The base that the start of a number announces, and the characters that announce it. -/
def radixOf : List Char → Radix × Nat
  | '0' :: 'x' :: _ | '0' :: 'X' :: _ => (.hexadecimal, 2)
  | '0' :: 'o' :: _ | '0' :: 'O' :: _ => (.octal, 2)
  | '0' :: 'b' :: _ | '0' :: 'B' :: _ => (.binary, 2)
  | '0' :: _ => (.zeroOctal, 1)
  | _ => (.decimal, 0)

/-- Where an underscore does not stand between digits.  The state says what came before: a
digit, an underscore or something else. -/
def badSeparatorFrom (hex : Bool) (i : Nat) (before : Option Bool) : List Char → Option Nat
  | [] => if before = some false then some (i - 1) else none
  | c :: cs =>
    if c = '_' then
      if before = some true then badSeparatorFrom hex (i + 1) (some false) cs else some i
    else if c.isDigit || (hex && isHexDigit c) then badSeparatorFrom hex (i + 1) (some true) cs
    else if before = some false then some (i - 1)
    else badSeparatorFrom hex (i + 1) none cs

/-- The index of the first misplaced underscore of a number; a base counts as a digit. -/
def badSeparator? (number : List Char) : Option Nat :=
  match radixOf number with
  | (.hexadecimal, n) => badSeparatorFrom true n (some true) (number.drop n)
  | (.octal, n) | (.binary, n) => badSeparatorFrom false n (some true) (number.drop n)
  | _ => badSeparatorFrom false 0 none number

/-- The index of the first digit that the base does not have. -/
def badDigit? (r : Radix) (digits : List Char) : Option Nat :=
  if r = .hexadecimal then none
  else digits.findIdx? fun c => c ≠ '_' && '0'.toNat + r.base ≤ c.toNat

/-- The parts into which the text of a number falls. -/
structure NumberParts where
  radix : Radix
  /-- What announces the base. -/
  lead : List Char
  whole : List Char
  point : List Char
  fraction : List Char
  /-- The letter of the exponent, and its sign. -/
  mark : List Char
  exponent : List Char
  /-- The letter of imaginary numbers. -/
  unit : List Char
deriving Repr

namespace NumberParts

/-- The characters of which numbers consist. -/
def isNumberChar (c : Char) : Bool := c.isAlphanum || "._+-".contains c

/-- Takes the number at the start of a text apart. -/
def ofText (cs : List Char) : NumberParts :=
  let (radix, n) := radixOf cs
  let lead := cs.take n
  let cs := cs.drop n
  let whole := cs.takeWhile (isDigitOf radix)
  let cs := cs.dropWhile (isDigitOf radix)
  let (point, cs) := match cs with
    | '.' :: cs => (['.'], cs)
    | cs => ([], cs)
  let fraction := if point.isEmpty then [] else cs.takeWhile (isDigitOf radix)
  let cs := cs.drop fraction.length
  let (mark, cs) := match cs with
    | c :: '+' :: cs' => if "eEpP".contains c then ([c, '+'], cs') else ([], cs)
    | c :: '-' :: cs' => if "eEpP".contains c then ([c, '-'], cs') else ([], cs)
    | c :: cs' => if "eEpP".contains c then ([c], cs') else ([], cs)
    | [] => ([], [])
  let exponent := if mark.isEmpty then [] else cs.takeWhile (isDigitOf .decimal)
  let cs := cs.drop exponent.length
  let unit := match cs with
    | 'i' :: _ => ['i']
    | _ => []
  { radix, lead, whole, point, fraction, mark, exponent, unit }

def chars (p : NumberParts) : List Char :=
  p.lead ++ p.whole ++ p.point ++ p.fraction ++ p.mark ++ p.exponent ++ p.unit

def token (p : NumberParts) : Token :=
  let text := String.ofList p.chars
  if !p.unit.isEmpty then .imaginary text
  else if p.point.isEmpty && p.mark.isEmpty then .int text
  else .float text

/-- What is wrong with a number that starts at an offset. -/
def complaints (p : NumberParts) (offset : Nat) : List Complaint :=
  let afterLead := offset + p.lead.length
  let afterWhole := afterLead + p.whole.length
  let afterFraction := afterWhole + p.point.length + p.fraction.length
  let finish := offset + p.chars.length
  let afterExponent := finish - p.unit.length
  let hasDigit := p.radix = .zeroOctal || (p.whole ++ p.fraction).any (· ≠ '_')
  let raise := fun (at_ offset : Nat) (e : ScanError) => [Complaint.mk at_ offset e]
  (if !p.point.isEmpty && (p.radix = .octal || p.radix = .binary) then
      raise afterWhole afterWhole (.radixPoint p.radix) else []) ++
  (if hasDigit then [] else raise afterFraction afterFraction (.noDigits p.radix)) ++
  (match p.mark with
    | c :: _ =>
      (if c = 'e' || c = 'E' then
        if p.radix = .decimal || p.radix = .zeroOctal then []
        else raise afterFraction afterFraction (.decimalExponent c)
      else if p.radix = .hexadecimal then []
      else raise afterFraction afterFraction (.hexExponent c)) ++
      (if p.exponent.any (· ≠ '_') then [] else raise afterExponent afterExponent .exponentDigits)
    | [] =>
      if p.radix = .hexadecimal && !p.point.isEmpty then
        raise afterFraction afterFraction .hexNeedsExponent else []) ++
  (match p.token, badDigit? p.radix p.whole with
    | .int _, some i => raise finish (afterLead + i) (.digit (p.whole.getD i '0') p.radix)
    | _, _ => []) ++
  (match if p.chars.contains '_' then badSeparator? p.chars else none with
    | some i => raise finish (offset + i) .separator
    | none => [])

end NumberParts
end KernelForge.Token
