/-
The numbers that the device computes with.

A cell is one number of an element type: a truth value, a word of 32 or 64 bits read with or
without sign, or a floating-point number.  Words are bit vectors, so that sums, products and
shifts wrap by themselves, and the sign only matters where a word is compared, divided,
shifted to the right, converted or printed.
-/
import KernelForge.Binary.Power
import KernelForge.Decimal.Shortest
import KernelForge.Scalar

namespace KernelForge

/-- The names of data types, some of which the device cannot compute with. -/
inductive DataType where
  | invalid
  | bool
  | int32
  | int64
  | uint32
  | uint64
  | bfloat16
  | float32
  | float64
deriving DecidableEq, Repr, Inhabited

namespace DataType

def all : List DataType :=
  [invalid, bool, int32, int64, uint32, uint64, bfloat16, float32, float64]

def name : DataType → String
  | invalid => "invalid"
  | bool => "bool"
  | int32 => "int32"
  | int64 => "int64"
  | uint32 => "uint32"
  | uint64 => "uint64"
  | bfloat16 => "bfloat16"
  | float32 => "float32"
  | float64 => "float64"

instance : ToString DataType := ⟨name⟩

def ofName? (word : String) : Option DataType := all.find? fun d => d.name = word

/-- The bytes of one number. -/
def size : DataType → Nat
  | invalid => 0
  | bool => 1
  | bfloat16 => 2
  | int32 | uint32 | float32 => 4
  | int64 | uint64 | float64 => 8

/-- The scalar type that a data type holds, when there is one. -/
def scalar? : DataType → Option Scalar
  | bool => some .bool
  | int32 => some .int
  | int64 => some .long
  | uint32 => some .uint
  | uint64 => some .ulong
  | float32 => some .float
  | float64 => some .double
  | invalid | bfloat16 => none

end DataType

/-- The data type of a scalar; the narrow integers have none. -/
def Scalar.dataType : Scalar → DataType
  | .bool => .bool
  | .int => .int32
  | .uint => .uint32
  | .long => .int64
  | .ulong => .uint64
  | .float => .float32
  | .double => .float64
  | .char | .uchar | .short | .ushort => .invalid

/-- The widths of words. -/
inductive WordWidth where
  | w32
  | w64
deriving DecidableEq, Repr, Inhabited

/-- The bits of a word. -/
abbrev WordWidth.bits : WordWidth → Nat
  | w32 => 32
  | w64 => 64

/-- The element types that the device computes with. -/
inductive Elem where
  | bool
  | word (width : WordWidth) (signed : Bool)
  | float32
  | float64
deriving DecidableEq, Repr, Inhabited

namespace Elem

abbrev int32 : Elem := word .w32 true
abbrev uint32 : Elem := word .w32 false
abbrev int64 : Elem := word .w64 true
abbrev uint64 : Elem := word .w64 false

def dataType : Elem → DataType
  | bool => .bool
  | word .w32 true => .int32
  | word .w32 false => .uint32
  | word .w64 true => .int64
  | word .w64 false => .uint64
  | float32 => .float32
  | float64 => .float64

def ofDataType? : DataType → Option Elem
  | .bool => some bool
  | .int32 => some int32
  | .uint32 => some uint32
  | .int64 => some int64
  | .uint64 => some uint64
  | .float32 => some float32
  | .float64 => some float64
  | .invalid | .bfloat16 => none

def name (e : Elem) : String := e.dataType.name

/-- The bytes of a cell. -/
def size (e : Elem) : Nat := e.dataType.size

/-- One number of an element type.  A truth value is a byte, as in memory. -/
abbrev Cell : Elem → Type
  | bool => UInt8
  | word w _ => BitVec w.bits
  | float32 => Binary32
  | float64 => Binary64

end Elem

/-- The operations that single and double precision numbers share. -/
class Real (α : Type) where
  add : α → α → α
  sub : α → α → α
  mul : α → α → α
  div : α → α → α
  neg : α → α
  eq : α → α → Bool
  lt : α → α → Bool
  le : α → α → Bool
  isNegative : α → Bool
  widen : α → Binary64
  ofDouble : Binary64 → α
  ofInt : Int → α

instance : Real Binary32 where
  add := Binary32.add
  sub := Binary32.sub
  mul := Binary32.mul
  div := Binary32.div
  neg := Binary32.neg
  eq := Binary32.eq
  lt := Binary32.lt
  le := Binary32.le
  isNegative := Binary32.isNegative
  widen := Binary32.widen
  ofDouble := Binary64.narrow
  ofInt := Binary32.ofInt

instance : Real Binary64 where
  add := Binary64.add
  sub := Binary64.sub
  mul := Binary64.mul
  div := Binary64.div
  neg := Binary64.neg
  eq := Binary64.eq
  lt := Binary64.lt
  le := Binary64.le
  isNegative := Binary64.isNegative
  widen := id
  ofDouble := id
  ofInt := Binary64.ofInt

namespace Real

variable {α : Type} [Real α]

def isNaN (x : α) : Bool := !eq x x

def zero : α := ofInt 0

/-- The lesser of two numbers; what is not a number wins, and `-0` is below `0`. -/
def least (x y : α) : α :=
  if isNaN x then x
  else if isNaN y then y
  else if lt x y then x
  else if lt y x then y
  else if isNegative x then x else y

/-- The greater of two numbers; what is not a number wins, and `0` is above `-0`. -/
def greatest (x y : α) : α :=
  if isNaN x then x
  else if isNaN y then y
  else if lt x y then y
  else if lt y x then x
  else if isNegative x then y else x

/-- The lesser of two numbers, what is not a number being passed over. -/
def leastNumber (x y : α) : α :=
  if isNaN x then y else if isNaN y then x else least x y

/-- The greater of two numbers, what is not a number being passed over. -/
def greatestNumber (x y : α) : α :=
  if isNaN x then y else if isNaN y then x else greatest x y

/-- A function of double precision numbers, computed there and rounded back. -/
def viaDouble (f : Binary64 → Binary64) (x : α) : α := ofDouble (f (widen x))

end Real

namespace Truth

/-- The truth value that a byte stands for: every byte but zero is true. -/
def value (b : UInt8) : Bool := b != 0

def not (b : UInt8) : UInt8 := (!value b).toUInt8

@[simp] theorem value_toUInt8 (b : Bool) : value b.toUInt8 = b := by
  cases b <;> rfl

end Truth

namespace Word

variable {w : Nat}

/-- The integer that a word stands for. -/
def value (signed : Bool) (x : BitVec w) : Int := if signed then x.toInt else x.toNat

def less (signed : Bool) (x y : BitVec w) : Bool := if signed then x.slt y else x.ult y

def atMost (signed : Bool) (x y : BitVec w) : Bool := if signed then x.sle y else x.ule y

/-- The quotient toward zero. -/
def quotient (signed : Bool) (x y : BitVec w) : BitVec w := if signed then x.sdiv y else x.udiv y

/-- The remainder, with the sign of the dividend. -/
def remainder (signed : Bool) (x y : BitVec w) : BitVec w := if signed then x.srem y else x.umod y

/-- Of a shift count only the low bits are used. -/
def shiftCount (y : BitVec w) : Nat := y.toNat % w

def shiftLeft (x y : BitVec w) : BitVec w := x <<< shiftCount y

def shiftRight (signed : Bool) (x y : BitVec w) : BitVec w :=
  if signed then x.sshiftRight (shiftCount y) else x >>> shiftCount y

/-- The absolute value; the least signed word is its own. -/
def magnitude (signed : Bool) (x : BitVec w) : BitVec w :=
  if signed && x.slt 0 then -x else x

def least (signed : Bool) (x y : BitVec w) : BitVec w := if less signed y x then y else x

def greatest (signed : Bool) (x y : BitVec w) : BitVec w := if less signed x y then y else x

/-- The word of the integer part of a number; a pattern of its own for what has none. -/
def ofReal (x : Binary64) : BitVec w :=
  match x.truncate? with
  | some i => BitVec.ofInt w i
  | none => BitVec.ofInt w (-Nat.pow 2 (w - 1))

end Word

namespace Elem

/-- The cell that holds zero. -/
def zero : (e : Elem) → e.Cell
  | bool => 0
  | word _ _ => 0
  | float32 => ⟨0⟩
  | float64 => ⟨0⟩

/-- A cell as it is printed. -/
def text : (e : Elem) → e.Cell → String
  | bool, b => if Truth.value b then "true" else "false"
  | word _ signed, x => toString (Word.value signed x)
  | float32, x => x.text
  | float64, x => x.text

/-- The bits of a cell as a number. -/
def bits : (e : Elem) → e.Cell → Nat
  | bool, b => b.toNat
  | word _ _, x => x.toNat
  | float32, x => x.bits.toNat
  | float64, x => x.bits.toNat

/-- The cell with given bits. -/
def ofBits : (e : Elem) → Nat → e.Cell
  | bool, n => UInt8.ofNat n
  | word w _, n => BitVec.ofNat w.bits n
  | float32, n => ⟨UInt32.ofNat n⟩
  | float64, n => ⟨UInt64.ofNat n⟩

/-- The cell that holds an integer, wrapped or rounded to the element type. -/
def ofInt : (e : Elem) → Int → e.Cell
  | bool, i => (i != 0).toUInt8
  | word w _, i => BitVec.ofInt w.bits i
  | float32, i => .ofInt i
  | float64, i => .ofInt i

/-- The cell that holds a real number, cut to its integer part for words. -/
def ofReal : (e : Elem) → Binary64 → e.Cell
  | bool, x => (!x.eq ⟨0⟩).toUInt8
  | word _ _, x => Word.ofReal x
  | float32, x => x.narrow
  | float64, x => x

/-- Converts a cell to another element type. -/
def convert (src dst : Elem) (x : src.Cell) : dst.Cell :=
  match src, x with
  | bool, b =>
    match dst with
    | bool => b
    | dst => ofInt dst (if Truth.value b then 1 else 0)
  | word _ signed, x => ofInt dst (Word.value signed x)
  | float32, x => ofReal dst x.widen
  | float64, x => ofReal dst x

end Elem
end KernelForge
