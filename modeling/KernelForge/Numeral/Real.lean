/-
Reading real numbers.

A number is decimal, with an exponent of ten, or hexadecimal, with an exponent of two that
must be present.  Its value is an exact fraction, which is rounded once.
-/
import KernelForge.Binary.Basic
import KernelForge.Numeral.Basic

namespace KernelForge.Numeral

/-- A real number as it is written: `digits` without the point, of which `fraction` stand
after it, to be scaled by `exponent`. -/
structure RealParts where
  negative : Bool
  hex : Bool
  digits : Nat
  fraction : Nat
  exponent : Int
deriving Repr

/-- The digits of a number so far. -/
structure Mantissa where
  digits : Nat := 0
  count : Nat := 0
  fraction : Nat := 0
  point : Bool := false
deriving Repr

/-- Reads digits, underscores and at most one point. -/
def mantissa (base : Nat) (m : Mantissa) : List Char → Mantissa × List Char
  | [] => (m, [])
  | c :: cs =>
    if c = '_' then mantissa base m cs
    else if c = '.' then
      if m.point then (m, c :: cs) else mantissa base { m with point := true } cs
    else
      match digitValue? c with
      | some d =>
        if d < base then
          mantissa base { m with
            digits := base * m.digits + d
            count := m.count + 1
            fraction := if m.point then m.fraction + 1 else m.fraction } cs
        else (m, c :: cs)
      | none => (m, c :: cs)

/-- Reads an exponent, which starts with a digit; exponents beyond any number are cut off. -/
def exponent? (cs : List Char) : Option (Int × List Char) :=
  let (negative, cs) := match cs with
    | '-' :: rest => (true, rest)
    | '+' :: rest => (false, rest)
    | cs => (false, cs)
  match cs with
  | c :: _ =>
    if c.isDigit then
      let isPart := fun (c : Char) => c.isDigit || c = '_'
      let e := (cs.takeWhile isPart).foldl
        (fun e c => if c = '_' || 10000 ≤ e then e else 10 * e + (c.toNat - '0'.toNat)) 0
      some (if negative then -(e : Int) else e, cs.dropWhile isPart)
    else none
  | [] => none

/-- Takes the text of a real number apart. -/
def realParts? (text : List Char) : Option RealParts :=
  let (negative, cs) := match text with
    | '-' :: rest => (true, rest)
    | '+' :: rest => (false, rest)
    | cs => (false, cs)
  let (hex, cs) := match cs with
    | '0' :: x :: c :: rest => if x = 'x' || x = 'X' then (true, c :: rest) else (false, cs)
    | cs => (false, cs)
  let (m, cs) := mantissa (if hex then 16 else 10) {} cs
  if m.count = 0 then none
  else
    let finish := fun (e : Int) (rest : List Char) =>
      if !rest.isEmpty then none
      else if text.contains '_' && !separates text then none
      else some { negative, hex, digits := m.digits, fraction := m.fraction, exponent := e }
    match cs with
    | c :: rest =>
      if (if hex then c = 'p' || c = 'P' else c = 'e' || c = 'E') then
        match exponent? rest with
        | some (e, rest) => finish e rest
        | none => none
      else none
    | [] => if hex then none else finish 0 []

/-- The value of a number as a fraction. -/
def RealParts.ratio (p : RealParts) : Nat × Nat :=
  let base := if p.hex then 2 else 10
  let e := p.exponent - (if p.hex then 4 * p.fraction else p.fraction : Nat)
  if 0 ≤ e then (p.digits * Nat.pow base e.toNat, 1) else (p.digits, Nat.pow base (-e).toNat)

/-- A real number that was read, and whether it had to be replaced by infinity. -/
structure ReadReal where
  value : Binary64
  overflow : Bool
deriving Repr

/-- The words for what is no finite number. -/
def special? (cs : List Char) : Option Binary64 :=
  let (negative, signed, rest) := match cs with
    | '-' :: rest => (true, true, rest)
    | '+' :: rest => (false, true, rest)
    | cs => (false, false, cs)
  let word := String.ofList (rest.map Char.toLower)
  if word = "inf" || word = "infinity" then
    some (Binary64.ofParts negative Binary64.format.infinity)
  else if word = "nan" && !signed then some ⟨0x7ff8000000000001⟩
  else none

/-- Reads a real number as the double precision number nearest to it. -/
def real (cs : List Char) : Except NumeralFailure ReadReal :=
  match special? cs with
  | some x => .ok ⟨x, false⟩
  | none =>
    match realParts? cs with
    | none => .error .malformed
    | some p =>
      let (num, den) := p.ratio
      let bits := Binary64.format.round num den
      .ok ⟨Binary64.ofParts p.negative bits, bits = Binary64.format.infinity⟩

end KernelForge.Numeral
