/-
Binary floating-point formats, and single and double precision numbers held as their bits.

A format is fixed by its number of significant bits and by the exponent of its least unit.
The bits of a magnitude (the sign left out) are a number that grows with the magnitude, so
that the neighbour of a magnitude is the next number.  `round` finds the bits nearest to a
fraction of natural numbers, ties to even, and every conversion in the library (reading
decimals, narrowing, converting integers) is that one function.

A number is its bit pattern: two numbers are equal in the library when their bits are, so
that nothing is lost by a number that is stored and read back, whatever it is.  Arithmetic
and comparison are those of the machine; conversions between formats and integers are exact
rounding of the parts.
-/

namespace KernelForge.Binary

/-- A binary floating-point format. -/
structure Format where
  /-- The significant bits, the leading one included. -/
  precision : Nat
  /-- The bits of the exponent field. -/
  exponentBits : Nat
deriving DecidableEq, Repr

/-- The format with 24 significant bits in 32. -/
def single : Format := ⟨24, 8⟩

/-- The format with 53 significant bits in 64. -/
def double : Format := ⟨53, 11⟩

namespace Format

/-- The numbers that the fraction field can hold. -/
def hidden (f : Format) : Nat := Nat.pow 2 (f.precision - 1)

/-- The bits of infinity; larger bits are not numbers. -/
def infinity (f : Format) : Nat := (Nat.pow 2 f.exponentBits - 1) * f.hidden

/-- The sign bit. -/
def signBit (f : Format) : Nat := Nat.pow 2 f.exponentBits * f.hidden

/-- The exponent of the least unit of the format. -/
def minExponent (f : Format) : Int :=
  -(Nat.pow 2 (f.exponentBits - 1) + (f.precision : Nat) - 3 : Int)

/-- The finite magnitude with the given bits is `significand * 2 ^ exponent`. -/
structure Parts where
  significand : Nat
  exponent : Int
deriving DecidableEq, Repr

/-- Takes the bits of a finite magnitude apart. -/
def unpack (f : Format) (bits : Nat) : Parts :=
  if bits < f.hidden then ⟨bits, f.minExponent⟩
  else ⟨f.hidden + bits % f.hidden, f.minExponent + (bits / f.hidden : Nat) - 1⟩

/-- The quotient nearest to `num / den`, a tie going to the even one. -/
def divideNearest (num den : Nat) : Nat :=
  let q := num / den
  let r := num % den
  if 2 * r < den then q
  else if den < 2 * r then q + 1
  else if q % 2 = 0 then q else q + 1

/-- The fraction `num / den` multiplied by `2 ^ e`. -/
def scale (num den : Nat) (e : Int) : Nat × Nat :=
  if 0 ≤ e then (num * Nat.pow 2 e.toNat, den) else (num, den * Nat.pow 2 (-e).toNat)

/-- The exponent of the leading binary digit of a positive fraction. -/
def leadingExponent (num den : Nat) : Int :=
  let guess : Int := (num.log2 : Int) - den.log2
  let (n, d) := scale num den (-guess)
  if d ≤ n then guess else guess - 1

/-- The bits of the magnitude nearest to `num / den`, ties to even.  What is too large for
the format is infinity. -/
def round (f : Format) (num den : Nat) : Nat :=
  if num = 0 then 0
  else
    let unit := max f.minExponent (leadingExponent num den - (f.precision - 1 : Nat))
    let (n, d) := scale num den (-unit)
    min f.infinity ((unit - f.minExponent).toNat * f.hidden + divideNearest n d)

/-- The bits of the magnitude nearest to `significand * 2 ^ exponent`. -/
def pack (f : Format) (p : Parts) : Nat :=
  let (n, d) := scale p.significand 1 p.exponent
  f.round n d

/-- How a number with a fraction is brought to an integer. -/
inductive Toward where
  | floor
  | ceiling
  /-- To the nearest integer, a half away from zero. -/
  | nearest
deriving DecidableEq, Repr

/-- The integer magnitude that a finite magnitude is brought to. -/
def toInteger (toward : Toward) (negative : Bool) (p : Parts) : Nat :=
  if 0 ≤ p.exponent then p.significand * Nat.pow 2 p.exponent.toNat
  else
    let unit := Nat.pow 2 (-p.exponent).toNat
    let q := p.significand / unit
    let r := p.significand % unit
    match toward with
    | .floor => if negative && r ≠ 0 then q + 1 else q
    | .ceiling => if !negative && r ≠ 0 then q + 1 else q
    | .nearest => if unit ≤ 2 * r then q + 1 else q

/-- Brings the magnitude with the given bits to an integer of the same format.  Infinities
and what is not a number stay as they are. -/
def integral (f : Format) (toward : Toward) (negative : Bool) (bits : Nat) : Nat :=
  if f.infinity ≤ bits then bits
  else f.round (toInteger toward negative (f.unpack bits)) 1

/-- The integer part of the magnitude with the given bits, when it is finite. -/
def truncate? (f : Format) (bits : Nat) : Option Nat :=
  if f.infinity ≤ bits then none
  else some (toInteger .floor false (f.unpack bits))

/-- Moves the bits of a magnitude to another format. -/
def convert (src dst : Format) (bits : Nat) : Nat :=
  if bits < src.infinity then dst.pack (src.unpack bits)
  else if bits = src.infinity then dst.infinity
  else dst.infinity + dst.hidden / 2

end Format
end KernelForge.Binary

namespace KernelForge

/-- A single precision number. -/
structure Binary32 where
  bits : UInt32
deriving DecidableEq, Repr, Inhabited

/-- A double precision number. -/
structure Binary64 where
  bits : UInt64
deriving DecidableEq, Repr, Inhabited

namespace Binary32

def format : Binary.Format := Binary.single

def isNegative (x : Binary32) : Bool := format.signBit ≤ x.bits.toNat

/-- The bits without the sign. -/
def magnitude (x : Binary32) : Nat := x.bits.toNat % format.signBit

def ofParts (negative : Bool) (magnitude : Nat) : Binary32 :=
  ⟨UInt32.ofNat ((if negative then format.signBit else 0) + magnitude)⟩

def isNaN (x : Binary32) : Bool := format.infinity < x.magnitude

def isFinite (x : Binary32) : Bool := x.magnitude < format.infinity

/-- The number nearest to an integer. -/
def ofInt (i : Int) : Binary32 := ofParts (i < 0) (format.round i.natAbs 1)

/-- The integer part of a finite number. -/
def truncate? (x : Binary32) : Option Int :=
  (format.truncate? x.magnitude).map fun n => if x.isNegative then -(n : Int) else n

/-- Brings a number to an integer, the sign kept also for zero. -/
def integral (toward : Binary.Format.Toward) (x : Binary32) : Binary32 :=
  ofParts x.isNegative (format.integral toward x.isNegative x.magnitude)

def toFloat (x : Binary32) : Float32 := Float32.ofBits x.bits
def ofFloat (x : Float32) : Binary32 := ⟨x.toBits⟩

def add (x y : Binary32) : Binary32 := ofFloat (x.toFloat + y.toFloat)
def sub (x y : Binary32) : Binary32 := ofFloat (x.toFloat - y.toFloat)
def mul (x y : Binary32) : Binary32 := ofFloat (x.toFloat * y.toFloat)
def div (x y : Binary32) : Binary32 := ofFloat (x.toFloat / y.toFloat)
def neg (x : Binary32) : Binary32 := ofParts (!x.isNegative) x.magnitude
def abs (x : Binary32) : Binary32 := ofParts false x.magnitude
def eq (x y : Binary32) : Bool := x.toFloat == y.toFloat
def lt (x y : Binary32) : Bool := decide (x.toFloat < y.toFloat)
def le (x y : Binary32) : Bool := decide (x.toFloat ≤ y.toFloat)

end Binary32

namespace Binary64

def format : Binary.Format := Binary.double

def isNegative (x : Binary64) : Bool := format.signBit ≤ x.bits.toNat

/-- The bits without the sign. -/
def magnitude (x : Binary64) : Nat := x.bits.toNat % format.signBit

def ofParts (negative : Bool) (magnitude : Nat) : Binary64 :=
  ⟨UInt64.ofNat ((if negative then format.signBit else 0) + magnitude)⟩

def isNaN (x : Binary64) : Bool := format.infinity < x.magnitude

def isFinite (x : Binary64) : Bool := x.magnitude < format.infinity

/-- The number nearest to an integer. -/
def ofInt (i : Int) : Binary64 := ofParts (i < 0) (format.round i.natAbs 1)

/-- The integer part of a finite number. -/
def truncate? (x : Binary64) : Option Int :=
  (format.truncate? x.magnitude).map fun n => if x.isNegative then -(n : Int) else n

/-- Brings a number to an integer, the sign kept also for zero. -/
def integral (toward : Binary.Format.Toward) (x : Binary64) : Binary64 :=
  ofParts x.isNegative (format.integral toward x.isNegative x.magnitude)

def toFloat (x : Binary64) : Float := Float.ofBits x.bits
def ofFloat (x : Float) : Binary64 := ⟨x.toBits⟩

def add (x y : Binary64) : Binary64 := ofFloat (x.toFloat + y.toFloat)
def sub (x y : Binary64) : Binary64 := ofFloat (x.toFloat - y.toFloat)
def mul (x y : Binary64) : Binary64 := ofFloat (x.toFloat * y.toFloat)
def div (x y : Binary64) : Binary64 := ofFloat (x.toFloat / y.toFloat)
def neg (x : Binary64) : Binary64 := ofParts (!x.isNegative) x.magnitude
def abs (x : Binary64) : Binary64 := ofParts false x.magnitude
def sqrt (x : Binary64) : Binary64 := ofFloat x.toFloat.sqrt
def eq (x y : Binary64) : Bool := x.toFloat == y.toFloat
def lt (x y : Binary64) : Bool := decide (x.toFloat < y.toFloat)
def le (x y : Binary64) : Bool := decide (x.toFloat ≤ y.toFloat)

/-- The single precision number nearest to a double precision one. -/
def narrow (x : Binary64) : Binary32 :=
  Binary32.ofParts x.isNegative (format.convert Binary32.format x.magnitude)

/-- The integer part as a signed word; the least word stands for what has none. -/
def toInt64 (x : Binary64) : Int64 :=
  match x.truncate? with
  | some i => Int64.ofInt i
  | none => Int64.minValue

/-- The integer part as an unsigned word. -/
def toUInt64 (x : Binary64) : UInt64 :=
  match x.truncate? with
  | some i => (Int64.ofInt i).toUInt64
  | none => Int64.minValue.toUInt64

end Binary64

/-- A single precision number is also a double precision one. -/
def Binary32.widen (x : Binary32) : Binary64 :=
  Binary64.ofParts x.isNegative (Binary32.format.convert Binary64.format x.magnitude)

end KernelForge
