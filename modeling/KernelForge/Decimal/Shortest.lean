/-
The shortest decimal that reads back as a given binary number, and how it is written.

The reals that round to a finite magnitude form an interval around it, its ends included
exactly when the significand is even.  For one, two, three, … digits the two neighbours of
the magnitude on that decimal grid are tested in exact arithmetic, and the first grid with
a hit wins; of two hits the nearer is taken, and the even one when both are as near.

In general notation a number is written positionally when the exponent of its leading digit is
at least -4 and less than 6; otherwise with an exponent, which has a sign and at least two
digits.  Infinities are `+Inf` and `-Inf`.
-/
import KernelForge.Binary.Basic

namespace KernelForge.Decimal

open KernelForge.Binary

/-- The number `digits * 10 ^ exponent`. -/
structure Scaled where
  digits : Nat
  exponent : Int
deriving DecidableEq, Repr

/-- The number of decimal digits of a natural number, none for zero. -/
def digitCount (n : Nat) : Nat :=
  if n = 0 then 0 else (Nat.toDigits 10 n).length

/-- The exponent of the leading decimal digit of a positive fraction. -/
def leadingExponent (num den : Nat) : Int :=
  if den ≤ num then (digitCount (num / den) : Int) - 1
  else -(digitCount ((den - 1) / num) : Int)

/-- The fraction `num / den` divided by `10 ^ k`. -/
def unscale (num den : Nat) (k : Int) : Nat × Nat :=
  if 0 ≤ k then (num, den * Nat.pow 10 k.toNat) else (num * Nat.pow 10 (-k).toNat, den)

/-- The reals that round to a magnitude: the magnitude, the ends of the interval around it,
and whether the ends belong to it, all over one denominator. -/
structure Interval where
  value : Nat
  low : Nat
  high : Nat
  den : Nat
  closed : Bool
deriving Repr

/-- The interval of the finite magnitude with the given bits. -/
def interval (f : Format) (bits : Nat) : Interval :=
  let p := f.unpack bits
  let m := p.significand
  -- the neighbour below is nearer at the start of a binade
  let below := if bits % f.hidden = 0 ∧ f.hidden < bits then 1 else 2
  let (unit, den) := Format.scale 1 1 (p.exponent - 2)
  { value := 4 * m * unit
    low := (4 * m - below) * unit
    high := (4 * m + 2) * unit
    den := den
    closed := m % 2 = 0 }

/-- Tests whether `digits * 10 ^ k` lies in an interval. -/
def Interval.holds (i : Interval) (digits : Nat) (k : Int) : Bool :=
  -- compare digits * 10 ^ k * den with the ends
  let (lhs, mul) := if 0 ≤ k then (digits * Nat.pow 10 k.toNat * i.den, 1)
    else (digits * i.den, Nat.pow 10 (-k).toNat)
  if i.closed then i.low * mul ≤ lhs && lhs ≤ i.high * mul
  else i.low * mul < lhs && lhs < i.high * mul

/-- The grid point with `10 ^ k` as its unit that stands for the interval, when one of the
two neighbours of the value lies in it. -/
def Interval.onGrid? (i : Interval) (k : Int) : Option Nat :=
  let (n, d) := unscale i.value i.den k
  let q := n / d
  let r := n % d
  match i.holds q k, i.holds (q + 1) k with
  | true, true =>
    if 2 * r < d then some q else if d < 2 * r then some (q + 1)
    else if q % 2 = 0 then some q else some (q + 1)
  | true, false => some q
  | false, true => some (q + 1)
  | false, false => none

/-- Drops the trailing zeros of the digits, at most `fuel` of them. -/
def Scaled.trim : Nat → Scaled → Scaled
  | 0, s => s
  | fuel + 1, s =>
    if s.digits ≠ 0 ∧ s.digits % 10 = 0 then trim fuel ⟨s.digits / 10, s.exponent + 1⟩ else s

/-- Tries grids with ever smaller units. -/
def Interval.search (i : Interval) : Nat → Int → Scaled
  | 0, k => ⟨(i.onGrid? k).getD 0, k⟩
  | fuel + 1, k =>
    match i.onGrid? k with
    | some d => ⟨d, k⟩
    | none => i.search fuel (k - 1)

/-- The shortest decimal that rounds to the finite magnitude with the given bits. -/
def shortest (f : Format) (bits : Nat) : Scaled :=
  if bits = 0 then ⟨0, 0⟩
  else
    let i := interval f bits
    Scaled.trim 20 (i.search 20 (leadingExponent i.value i.den))

end KernelForge.Decimal

namespace KernelForge.Decimal

/-- An exponent is written with its sign and at least two digits. -/
def exponentText (e : Int) : String :=
  let digits := toString e.natAbs
  (if e < 0 then "e-" else "e+") ++ (if e.natAbs < 10 then "0" ++ digits else digits)

/-- The digits of a number with the point after the first `point` of them. -/
def positional (digits : List Char) (point : Int) : String :=
  if point ≤ 0 then
    "0." ++ String.ofList (List.replicate (-point).toNat '0' ++ digits)
  else
    let n := point.toNat
    if digits.length ≤ n then
      String.ofList (digits ++ List.replicate (n - digits.length) '0')
    else
      String.ofList (digits.take n) ++ "." ++ String.ofList (digits.drop n)

/-- A decimal in general notation. -/
def Scaled.general (s : Scaled) : String :=
  if s.digits = 0 then "0"
  else
    let digits := Nat.toDigits 10 s.digits
    let lead : Int := s.exponent + digits.length - 1
    if lead < -4 || 6 ≤ lead then
      match digits with
      | [d] => String.ofList [d] ++ exponentText lead
      | d :: ds => String.ofList (d :: '.' :: ds) ++ exponentText lead
      | [] => "0"
    else positional digits (lead + 1)

/-- The shortest text of a number with the given sign and magnitude. -/
def generalText (f : Binary.Format) (negative : Bool) (magnitude : Nat) : String :=
  if f.infinity < magnitude then "NaN"
  else if magnitude = f.infinity then (if negative then "-Inf" else "+Inf")
  else (if negative then "-" else "") ++ (shortest f magnitude).general

end KernelForge.Decimal

namespace KernelForge

/-- The shortest text that reads back as the number. -/
def Binary32.text (x : Binary32) : String :=
  Decimal.generalText Binary32.format x.isNegative x.magnitude

@[inherit_doc Binary32.text]
def Binary64.text (x : Binary64) : String :=
  Decimal.generalText Binary64.format x.isNegative x.magnitude

end KernelForge
