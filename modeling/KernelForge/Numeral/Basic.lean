/-
What may go wrong with the text of a number, where underscores may stand in it, and integers whose
base is announced by their first characters.

`0x`, `0o` and `0b` announce a base, and so does a leading zero; underscores may separate
digits.  A number that is too large is out of range even if what follows is no digit.
-/
import KernelForge.Text.Quoted

namespace KernelForge

/-- How reading a number fails. -/
inductive NumeralFailure where
  /-- The text is no number. -/
  | malformed
  /-- The number is too large or too small for its type. -/
  | outOfRange
deriving DecidableEq, Repr, Inhabited

/-- A number that could not be read: the reader that was asked, the text, and the reason. -/
structure NumeralError where
  reader : String
  text : String
  failure : NumeralFailure
deriving DecidableEq, Repr, Inhabited

namespace NumeralError

def message (e : NumeralError) : String :=
  "strconv." ++ e.reader ++ ": parsing " ++ Text.quoted e.text ++ ": " ++
    match e.failure with
    | .malformed => "invalid syntax"
    | .outOfRange => "value out of range"

end NumeralError

namespace Numeral

/-- The value of a digit, letters counting on from ten. -/
def digitValue? (c : Char) : Option Nat :=
  if c.isDigit then some (c.toNat - '0'.toNat)
  else if 'a' ≤ c && c ≤ 'z' then some (c.toNat - 'a'.toNat + 10)
  else if 'A' ≤ c && c ≤ 'Z' then some (c.toNat - 'A'.toNat + 10)
  else none

/-- What stands before a character of a number. -/
inductive Before where
  | start
  | digit
  | underscore
  | other
deriving DecidableEq, Repr

/-- Underscores stand between digits only. -/
def separatesFrom (hex : Bool) (before : Before) : List Char → Bool
  | [] => before ≠ .underscore
  | c :: cs =>
    if c.isDigit || (hex && (digitValue? c).any (· < 16)) then separatesFrom hex .digit cs
    else if c = '_' then before = .digit && separatesFrom hex .underscore cs
    else before ≠ .underscore && separatesFrom hex .other cs

/-- Tests that the underscores of a number stand between digits, what announces its base
counting as one. -/
def separates (cs : List Char) : Bool :=
  let cs := match cs with
    | '-' :: rest | '+' :: rest => rest
    | cs => cs
  match cs with
  | '0' :: c :: rest =>
    if c = 'x' || c = 'X' then separatesFrom true .digit rest
    else if "bBoO".contains c then separatesFrom false .digit rest
    else separatesFrom false .start cs
  | cs => separatesFrom false .start cs

end Numeral
/-! ### Integers -/

namespace Numeral

/-- The base that a number announces, and its digits. -/
def baseOf (cs : List Char) : Nat × List Char :=
  match cs with
  | '0' :: c :: d :: rest =>
    if c = 'x' || c = 'X' then (16, d :: rest)
    else if c = 'o' || c = 'O' then (8, d :: rest)
    else if c = 'b' || c = 'B' then (2, d :: rest)
    else (8, c :: d :: rest)
  | '0' :: rest => (8, rest)
  | cs => (10, cs)

/-- Reads digits up to a limit, passing underscores over when they are allowed. -/
def digitsFrom (base limit : Nat) (underscores : Bool) (value : Nat) :
    List Char → Except NumeralFailure Nat
  | [] => .ok value
  | c :: cs =>
    if underscores && c = '_' then digitsFrom base limit underscores value cs
    else
      match digitValue? c with
      | none => .error .malformed
      | some d =>
        if base ≤ d then .error .malformed
        else if limit < value * base + d then .error .outOfRange
        else digitsFrom base limit underscores (value * base + d) cs

/-- Reads a number of at most `bits` bits in the base that it announces. -/
def natural (bits : Nat) (cs : List Char) : Except NumeralFailure Nat :=
  if cs.isEmpty then .error .malformed
  else
    let (base, digits) := baseOf cs
    match digitsFrom base (Nat.pow 2 bits - 1) true 0 digits with
    | .error e => .error e
    | .ok n => if cs.contains '_' && !separates cs then .error .malformed else .ok n

/-- Reads a number of at most `bits` bits in base ten, without underscores. -/
def decimalNatural (bits : Nat) (cs : List Char) : Except NumeralFailure Nat :=
  if cs.isEmpty then .error .malformed else digitsFrom 10 (Nat.pow 2 bits - 1) false 0 cs

/-- The digits of a number and its suffix, which says how long it is and whether it is unsigned. -/
def splitSuffix (cs : List Char) : List Char × List Char :=
  let isSuffix := fun c : Char => c = 'u' || c = 'l'
  ((cs.reverse.dropWhile isSuffix).reverse, (cs.reverse.takeWhile isSuffix).reverse)

/-- Puts a sign before a reader of naturals; the result fits in `bits` bits with sign. -/
def signed (bits : Nat) (read : List Char → Except NumeralFailure Nat) (cs : List Char) :
    Except NumeralFailure Int :=
  let (negative, rest) := match cs with
    | '-' :: rest => (true, rest)
    | '+' :: rest => (false, rest)
    | cs => (false, cs)
  match read rest with
  | .error e => .error e
  | .ok n =>
    if negative then if Nat.pow 2 (bits - 1) < n then .error .outOfRange else .ok (-(n : Int))
    else if Nat.pow 2 (bits - 1) ≤ n then .error .outOfRange
    else .ok n

/-- Reads a signed number of at most `bits` bits in the base that it announces. -/
def integer (bits : Nat) (cs : List Char) : Except NumeralFailure Int :=
  signed bits (natural 64) cs

/-- Reads a number of at most `bits` bits in base sixteen, without underscores. -/
def hexNatural (bits : Nat) (cs : List Char) : Except NumeralFailure Nat :=
  if cs.isEmpty then .error .malformed else digitsFrom 16 (Nat.pow 2 bits - 1) false 0 cs

end Numeral
end KernelForge
