/-
What plain scalars stand for.

A scalar that is not quoted may be nothing, a truth value, a number or a date, by the form of
its text.  Underscores in numbers are passed over.
-/
import KernelForge.Numeral.Basic
import KernelForge.Numeral.Real

namespace KernelForge.Yaml

/-- What the tags that everyone knows start with. -/
def longTagHead : String := "tag:yaml.org,2002:"

def nullTag : String := "!!null"
def boolTag : String := "!!bool"
def strTag : String := "!!str"
def intTag : String := "!!int"
def floatTag : String := "!!float"
def dateTag : String := "!!timestamp"
def seqTag : String := "!!seq"
def mapTag : String := "!!map"
def binaryTag : String := "!!binary"
def mergeTag : String := "!!merge"

/-- A tag in its short form. -/
def shortTag (tag : String) : String :=
  if longTagHead.toList.isPrefixOf tag.toList then
    "!!" ++ String.ofList (tag.toList.drop longTagHead.length)
  else tag

/-- What a scalar stands for. -/
inductive Resolved where
  | null
  | bool (b : Bool)
  | int (i : Int)
  | float (x : Binary64)
  | date
  | merge
  | text (s : String)
deriving Repr, Inhabited

/-- The tag of what a scalar stands for. -/
def Resolved.tag : Resolved → String
  | null => nullTag
  | bool _ => boolTag
  | int _ => intTag
  | float _ => floatTag
  | date => dateTag
  | merge => mergeTag
  | text _ => strTag

/-! ### Dates -/

def digitsValue (cs : List Char) : Nat :=
  cs.foldl (fun n c => 10 * n + (c.toNat - '0'.toNat)) 0

/-- Reads one digit, or two where there are two. -/
def oneOrTwo? : List Char → Option (Nat × List Char)
  | a :: b :: cs =>
    if !a.isDigit then none
    else if b.isDigit then some (digitsValue [a, b], cs)
    else some (digitsValue [a], b :: cs)
  | [a] => if a.isDigit then some (digitsValue [a], []) else none
  | [] => none

def isLeap (year : Nat) : Bool := year % 4 = 0 && (year % 100 ≠ 0 || year % 400 = 0)

def daysIn (year month : Nat) : Nat :=
  if month = 2 then if isLeap year then 29 else 28
  else if [4, 6, 9, 11].contains month then 30
  else 31

/-- Passes a character. -/
def passChar? (c : Char) : List Char → Option (List Char)
  | d :: cs => if c = d then some cs else none
  | [] => none

/-- Reads a date; the year has four digits. -/
def dateRest? (cs : List Char) : Option (List Char) := do
  let (year, cs) := (cs.take 4, cs.drop 4)
  if year.length ≠ 4 || !year.all Char.isDigit then none
  let (month, cs) ← oneOrTwo? (← passChar? '-' cs)
  let (day, cs) ← oneOrTwo? (← passChar? '-' cs)
  if 1 ≤ month && month ≤ 12 && 1 ≤ day && day ≤ daysIn (digitsValue year) month then some cs
  else none

/-- Reads a time of the day, whose seconds may have a fraction. -/
def timeRest? (cs : List Char) : Option (List Char) := do
  let (hour, cs) ← oneOrTwo? cs
  let (minute, cs) ← oneOrTwo? (← passChar? ':' cs)
  let (second, cs) ← oneOrTwo? (← passChar? ':' cs)
  if 24 ≤ hour || 60 ≤ minute || 60 ≤ second then none
  match cs with
  | c :: d :: rest =>
    if (c = '.' || c = ',') && d.isDigit then some (rest.dropWhile Char.isDigit) else some cs
  | cs => some cs

/-- Tests for a time zone. -/
def isZone : List Char → Bool
  | ['Z'] => true
  | [s, a, b, ':', c, d] =>
    (s = '+' || s = '-') && [a, b, c, d].all Char.isDigit &&
      digitsValue [a, b] ≤ 24 && digitsValue [c, d] < 60
  | _ => false

/-- Tests for a date, alone or with a time. -/
def isDate (cs : List Char) : Bool :=
  match dateRest? cs with
  | none => false
  | some [] => true
  | some (c :: cs) =>
    match timeRest? cs with
    | none => false
    | some rest => if c = ' ' then rest.isEmpty else (c = 'T' || c = 't') && isZone rest

/-! ### Numbers -/

/-- Reads digits of a base, which must not be more than a number. -/
def digitsIn? (base most : Nat) (cs : List Char) : Option Nat :=
  if cs.isEmpty then none
  else (Numeral.digitsFrom base most false 0 cs).toOption

/-- Reads a number in a base.  It may have a sign, and must then fit in 63 bits; without one, in
64. -/
def inBase? (base : Nat) : List Char → Option Int
  | '+' :: cs => (digitsIn? base 0x7fffffffffffffff cs).map (↑·)
  | '-' :: cs => (digitsIn? base 0x8000000000000000 cs).map fun n => -(n : Int)
  | cs => (digitsIn? base 0xffffffffffffffff cs).map (↑·)

/-- Tests for the form of a decimal number, with a fraction and an exponent if need be. -/
def isDecimalForm (cs : List Char) : Bool :=
  let unsigned := match cs with
    | '-' :: r => r
    | '+' :: r => r
    | cs => cs
  let whole := unsigned.takeWhile Char.isDigit
  let (fraction, rest) := match unsigned.dropWhile Char.isDigit with
    | '.' :: r => (r.takeWhile Char.isDigit, r.dropWhile Char.isDigit)
    | r => ([], r)
  (!whole.isEmpty || !fraction.isEmpty) &&
    match rest with
    | [] => true
    | e :: r =>
      let digits := match r with
        | '-' :: r => r
        | '+' :: r => r
        | r => r
      (e = 'e' || e = 'E') && !digits.isEmpty && digits.all Char.isDigit

/-- A real number that can be represented. -/
def real? (cs : List Char) : Option Binary64 :=
  match Numeral.real cs with
  | .ok x => if x.overflow then none else some x.value
  | .error _ => none

/-- The number that a text stands for. -/
def number? (cs : List Char) : Option Resolved :=
  let plain := cs.filter (· ≠ '_')
  match Numeral.integer 64 plain with
  | .ok i => some (.int i)
  | .error _ =>
    match Numeral.natural 64 plain with
    | .ok n => some (.int n)
    | .error _ =>
      match if isDecimalForm plain then real? plain else none with
      | some x => some (.float x)
      | none =>
        match plain with
        | '0' :: 'b' :: r => .int <$> inBase? 2 r
        | '-' :: '0' :: 'b' :: r => .int <$> inBase? 2 ('-' :: r)
        | '0' :: 'o' :: r => .int <$> inBase? 8 r
        | '-' :: '0' :: 'o' :: r => .int <$> inBase? 8 ('-' :: r)
        | _ => none

/-- The words that stand for something else than themselves. -/
def word? (s : String) : Option Resolved :=
  if ["", "~", "null", "Null", "NULL"].contains s then some .null
  else if ["true", "True", "TRUE"].contains s then some (.bool true)
  else if ["false", "False", "FALSE"].contains s then some (.bool false)
  else if [".nan", ".NaN", ".NAN"].contains s then some (.float ⟨0x7ff8000000000001⟩)
  else if [".inf", ".Inf", ".INF", "+.inf", "+.Inf", "+.INF"].contains s then
    some (.float (Binary64.ofParts false Binary64.format.infinity))
  else if ["-.inf", "-.Inf", "-.INF"].contains s then
    some (.float (Binary64.ofParts true Binary64.format.infinity))
  else none

/-- What a scalar that is not quoted stands for.  Dates are looked for only if `dates`. -/
def resolveWith (dates : Bool) (s : String) : Resolved :=
  match word? s with
  | some r => r
  | none =>
    match s.toList with
    | [] => .null
    | c :: cs =>
      if c = '.' then
        match real? (c :: cs) with
        | some x => .float x
        | none => .text s
      else if c.isDigit || c = '+' || c = '-' then
        if dates && isDate (c :: cs) then .date else (number? (c :: cs)).getD (.text s)
      else .text s

def resolvePlain (s : String) : Resolved := resolveWith true s

/-- Tests whether texts may be read as what a tag says. -/
def isResolvable (tag : String) : Bool :=
  ["", strTag, boolTag, intTag, floatTag, nullTag, dateTag].contains tag

end KernelForge.Yaml
