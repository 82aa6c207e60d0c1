/-
How values are laid out in device memory.

Scalars are aligned to their size and vectors to their whole size.  The fields of a tuple
follow one another, each moved up to its own alignment, and the size of the tuple is
rounded up to the largest alignment in it, so that the elements of an array are aligned
when the first of them is.
-/
import KernelForge.Ty.Basic

namespace KernelForge

/-- The bytes of a device pointer. -/
def pointerSize : Nat := 8

/-- The least multiple of `align` that is at least `offset`. -/
def alignUp (offset align : Nat) : Nat :=
  if align ≤ 1 then offset else (offset + align - 1) / align * align

namespace Ty

mutual

/-- The alignment of a type in bytes. -/
def align : Ty → Nat
  | void => 1
  | scalar s => s.size
  | vector s w => s.size * w.lanes
  | tuple fs => alignAll fs
  | pointer _ _ _ => pointerSize

/-- The largest alignment of some fields. -/
def alignAll : List Ty → Nat
  | [] => 1
  | t :: ts => max t.align (alignAll ts)

end

mutual

/-- The bytes that a value of a type takes, the padding at the end of a tuple included. -/
def size : Ty → Nat
  | void => 0
  | scalar s => s.size
  | vector s w => s.size * w.lanes
  | tuple fs => alignUp (fieldsEnd 0 fs) (alignAll fs)
  | pointer _ _ _ => pointerSize

/-- Where the last of some fields ends when the space before them ends at `offset`. -/
def fieldsEnd (offset : Nat) : List Ty → Nat
  | [] => offset
  | t :: ts => fieldsEnd (alignUp offset t.align + t.size) ts

end

/-- The offset of each field when the space before them ends at `offset`. -/
def offsetsFrom (offset : Nat) : List Ty → List Nat
  | [] => []
  | t :: ts => alignUp offset t.align :: offsetsFrom (alignUp offset t.align + t.size) ts

/-- The offset in bytes of each field of a tuple. -/
def fieldOffsets (fields : List Ty) : List Nat :=
  offsetsFrom 0 fields

end Ty
end KernelForge
