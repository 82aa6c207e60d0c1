/-
Powers of double precision numbers.

The exponent is split into an integer and a fraction of at most a half.  The fraction goes
through the logarithm, and the integer part is done by repeated squaring of a significand in
`[1/2, 1)` whose binary exponent is kept apart, so that powers of small integers are exact.
-/
import KernelForge.Binary.Basic

namespace KernelForge.Binary64

def zero : Binary64 := ⟨0⟩
def one : Binary64 := ofInt 1
def half : Binary64 := ofFloat 0.5
def infinity (negative : Bool) : Binary64 := ofParts negative format.infinity
def nan : Binary64 := ⟨0x7ff8000000000001⟩

/-- A number that is its own integer part. -/
def isInteger (x : Binary64) : Bool := x.isFinite && (x.integral .floor).eq x

/-- An odd integer.  All large numbers are even. -/
def isOddInteger (x : Binary64) : Bool :=
  x.isInteger && (x.truncate?.getD 0) % 2 ≠ 0

/-- A significand in `[1/2, 1)` and an exponent of two whose product is the number. -/
def split (x : Binary64) : Binary64 × Int :=
  if x.magnitude = 0 || !x.isFinite then (x, 0)
  else
    let p := format.unpack x.magnitude
    let e : Int := p.significand.log2 + 1
    (ofParts x.isNegative (format.pack ⟨p.significand, -e⟩), p.exponent + e)

/-- A number multiplied by a power of two. -/
def scaleBy (x : Binary64) (e : Int) : Binary64 :=
  if x.magnitude = 0 || !x.isFinite then x
  else
    let p := format.unpack x.magnitude
    -- beyond these bounds the result is zero or infinite already
    let e := max (-5000) (min 5000 e)
    ofParts x.isNegative (format.pack ⟨p.significand, p.exponent + e⟩)

/-- Repeated squaring: the significand and exponent so far, those of the current square, and
the bits of the exponent that are left. -/
def powerLoop : Nat → Nat → Binary64 → Int → Binary64 → Int → Binary64 × Int
  | 0, _, a, ae, _, _ => (a, ae)
  | fuel + 1, i, a, ae, x, xe =>
    if i = 0 then (a, ae)
    else if xe < -4096 || 4096 < xe then (a, ae + xe)
    else
      let (a, ae) := if i % 2 = 1 then (a.mul x, ae + xe) else (a, ae)
      let x := x.mul x
      let xe := xe * 2
      let (x, xe) := if x.lt half then (x.add x, xe - 1) else (x, xe)
      powerLoop fuel (i / 2) a ae x xe

/-- Powers where neither operand is special. -/
def powerFinite (x y : Binary64) : Binary64 :=
  let magnitude := y.abs
  let whole := magnitude.truncate?.getD 0
  let fraction := magnitude.sub (ofInt whole)
  if fraction.magnitude ≠ 0 && x.lt zero then nan
  else if 0x8000000000000000 ≤ whole then
    -- the exponent is so large that the result is 1, 0 or infinite
    if x.eq (ofInt (-1)) then one
    else if (x.abs.lt one) == (zero.lt y) then zero
    else infinity false
  else
    let (whole, fraction) :=
      if half.lt fraction then (whole + 1, fraction.sub one) else (whole, fraction)
    let start :=
      if fraction.magnitude ≠ 0 then ofFloat (fraction.mul (ofFloat x.toFloat.log)).toFloat.exp
      else one
    let (x1, xe) := x.split
    let (a, ae) := powerLoop 64 whole.toNat start 0 x1 xe
    let (a, ae) := if y.lt zero then (one.div a, -ae) else (a, ae)
    a.scaleBy ae

/-- `x` to the power `y`. -/
def power (x y : Binary64) : Binary64 :=
  if y.magnitude = 0 || x.eq one then one
  else if y.eq one then x
  else if x.isNaN || y.isNaN then nan
  else if x.magnitude = 0 then
    if y.isNegative then
      if x.isNegative && y.isOddInteger then infinity true else infinity false
    else if x.isNegative && y.isOddInteger then x
    else zero
  else if !y.isFinite then
    if x.eq (ofInt (-1)) then one
    else if (x.abs.lt one) == !y.isNegative then zero
    else infinity false
  else if !x.isFinite then
    if x.isNegative then
      if y.isNegative then (if y.isOddInteger then zero.neg else zero)
      else if y.isOddInteger then infinity true
      else infinity false
    else if y.isNegative then zero
    else infinity false
  else if y.eq half then x.sqrt
  else if y.eq half.neg then one.div x.sqrt
  else powerFinite x y

end KernelForge.Binary64
