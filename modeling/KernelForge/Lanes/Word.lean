/-
Floating-point numbers and cells as exact words.

A number is written as the hexadecimal digits of its bits, so that nothing is lost; all values
that are not numbers are written alike.
-/
import KernelForge.Binary.Basic
import KernelForge.Lanes.Basic
import KernelForge.Text.Encoded

namespace KernelForge

/-- The word for a value that is not a number. -/
def nanWord : String := "nan"

namespace Binary32

def word (x : Binary32) : String :=
  if x.isNaN then nanWord else Text.hexOfNat 8 x.bits.toNat

def ofWord (w : String) : Binary32 :=
  if w = nanWord then ⟨0x7fc00000⟩ else ⟨UInt32.ofNat (Text.natOfHex w)⟩

end Binary32

namespace Binary64

def word (x : Binary64) : String :=
  if x.isNaN then nanWord else Text.hexOfNat 16 x.bits.toNat

def ofWord (w : String) : Binary64 :=
  if w = nanWord then ⟨0x7ff8000000000001⟩ else ⟨UInt64.ofNat (Text.natOfHex w)⟩

end Binary64
end KernelForge

namespace KernelForge.Elem

/-- The exact word of a cell. -/
def wordOf : (e : Elem) → e.Cell → String
  | .float32, x => Binary32.word x
  | .float64, x => Binary64.word x
  | e, x => e.text x

/-- The cell that a word stands for. -/
def cellOf? : (e : Elem) → String → Option e.Cell
  | .bool, w => some (w == "true").toUInt8
  | .word width _, w => w.toInt?.map (BitVec.ofInt width.bits)
  | .float32, w => some (Binary32.ofWord w)
  | .float64, w => some (Binary64.ofWord w)

end KernelForge.Elem
