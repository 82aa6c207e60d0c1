/-
The numbers that are written in kernel source.

A whole number has the first of the types `int`, `uint`, `long`, `ulong` that its suffix and
its base allow and that can hold it; a decimal number becomes unsigned only when it says so or
when no signed type holds it.  A number with a fraction is of double precision only where
double precision is enabled and the number does not ask for less.
-/
import KernelForge.Code.Basic
import KernelForge.Lanes.Basic
import KernelForge.Numeral.Basic
import KernelForge.Numeral.Real

namespace KernelForge

/-- A scalar and its value. -/
structure Constant where
  type : Scalar
  elem : Elem
  cell : elem.Cell

namespace Constant

def ofInt (i : Int) : Constant := ⟨.int, .int32, BitVec.ofInt 32 i⟩
def ofUInt (i : Int) : Constant := ⟨.uint, .uint32, BitVec.ofInt 32 i⟩
def ofLong (i : Int) : Constant := ⟨.long, .int64, BitVec.ofInt 64 i⟩
def ofULong (i : Int) : Constant := ⟨.ulong, .uint64, BitVec.ofInt 64 i⟩
def ofFloat (x : Binary32) : Constant := ⟨.float, .float32, x⟩
def ofDouble (x : Binary64) : Constant := ⟨.double, .float64, x⟩

/-- The constants that have a name. -/
def named? : String → Option Constant
  | "true" => some (ofInt 1)
  | "false" => some (ofInt 0)
  | "INFINITY" => some (ofFloat ⟨0x7f800000⟩)
  | "NAN" => some (ofFloat ⟨0x7fc00000⟩)
  | "MAXFLOAT" => some (ofFloat ⟨0x7f7fffff⟩)
  | _ => none

/-- The type of a whole number, given its suffix and whether it is decimal. -/
def ofNatural (unsigned long decimal : Bool) (n : Nat) : Constant :=
  if !long && !unsigned && n < 0x80000000 then ofInt n
  else if !long && (unsigned || !decimal) && n < 0x100000000 then ofUInt n
  else if !unsigned && n < 0x8000000000000000 then ofLong n
  else ofULong n

/-- A number is decimal unless it starts with a zero that more digits follow. -/
def isDecimal (digits : List Char) : Bool :=
  match digits with
  | ['0'] => true
  | '0' :: _ => false
  | _ => true

/-- Reads a number, where double precision may be enabled. -/
def ofText (fp64 : Bool) (kind : Code.NumberKind) (text : String) :
    Except NumeralError Constant :=
  let cs := text.toList.map Char.toLower
  match kind with
  | .float =>
    let suffixed := cs.getLast? = some 'f'
    let single := suffixed && cs.take 2 ≠ ['0', 'x']
    let digits := if suffixed then cs.dropLast else cs
    match Numeral.real digits with
    | .error failure => .error ⟨"ParseFloat", String.ofList digits, failure⟩
    | .ok x => .ok (if single || !fp64 then ofFloat x.value.narrow else ofDouble x.value)
  | .int =>
    let (digits, suffix) := Numeral.splitSuffix cs
    match Numeral.natural 64 digits with
    | .error failure => .error ⟨"ParseUint", String.ofList digits, failure⟩
    | .ok n => .ok (ofNatural (suffix.contains 'u') (suffix.contains 'l') (isDecimal digits) n)

end Constant
end KernelForge
