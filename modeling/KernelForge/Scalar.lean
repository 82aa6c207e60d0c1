/-
The scalar types of the kernel language.

There are eleven of them, and they are declared here in the order of their promotion
rank: `bool` is the narrowest and `double` the widest.  Everything a type rule asks of a
scalar (is it an integer, is it signed, how many bytes does it take) is a total function
of the constructor, so every such question is settled by case analysis.
-/

namespace KernelForge

/-- A numerical or boolean type of the kernel language, narrowest first. -/
inductive Scalar where
  | bool
  | char
  | uchar
  | short
  | ushort
  | int
  | uint
  | long
  | ulong
  | float
  | double
deriving DecidableEq, Repr, Inhabited

namespace Scalar

/-- Every scalar type, in the order of promotion. -/
def all : List Scalar :=
  [bool, char, uchar, short, ushort, int, uint, long, ulong, float, double]

/-- The spelling of a scalar type in kernel source. -/
def name : Scalar → String
  | bool => "bool"
  | char => "char"
  | uchar => "uchar"
  | short => "short"
  | ushort => "ushort"
  | int => "int"
  | uint => "uint"
  | long => "long"
  | ulong => "ulong"
  | float => "float"
  | double => "double"

/-- The place of a scalar in the order of promotion. -/
def rank : Scalar → Nat
  | bool => 0
  | char => 1
  | uchar => 2
  | short => 3
  | ushort => 4
  | int => 5
  | uint => 6
  | long => 7
  | ulong => 8
  | float => 9
  | double => 10

def isBool : Scalar → Bool
  | bool => true
  | _ => false

def isInteger : Scalar → Bool
  | char | uchar | short | ushort | int | uint | long | ulong => true
  | _ => false

/-- Integers narrower than `int`, which are promoted to `int` as operands. -/
def isNarrow : Scalar → Bool
  | char | uchar | short | ushort => true
  | _ => false

def isSigned : Scalar → Bool
  | char | short | int | long => true
  | _ => false

def isFloat : Scalar → Bool
  | float | double => true
  | _ => false

/-- The bytes that a scalar takes in memory. -/
def size : Scalar → Nat
  | bool | char | uchar => 1
  | short | ushort => 2
  | int | uint | float => 4
  | long | ulong | double => 8

theorem size_pos (s : Scalar) : 0 < s.size := by
  cases s <;> decide

end Scalar
end KernelForge
