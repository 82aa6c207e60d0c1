/-
Outlines of host values.

Truth values and integers are words as usual, and floating-point numbers are the words of their
bits.  Which value an outline stands for depends on the host type; one that is absent stands
for the value that a variable starts with.
-/
import KernelForge.Host.Basic
import KernelForge.Lanes.Word
import KernelForge.Outline

namespace KernelForge

namespace HostValue

mutual

def outline : HostValue → Outline
  | bool b => .word (if b then "true" else "false")
  | int i => .word (toString i.toInt)
  | uint u => .word (toString u.toNat)
  | float32 x => .word x.word
  | float64 x => .word x.word
  | list vs => .list (outlines vs)
  | text s => .word s
  | other => .absent

def outlines : List HostValue → List Outline
  | [] => []
  | v :: vs => v.outline :: outlines vs

end

end HostValue

namespace HostTy

mutual

/-- The value of a host type that an outline stands for. -/
def read? (h : HostTy) (o : Outline) : Option HostValue :=
  match h, o with
  | h, .absent => some h.zero
  | bool, .word w => some (.bool (w = "true"))
  | int _, .word w => w.toInt?.map fun i => .int (Int64.ofInt i)
  | uint _, .word w => w.toNat?.map fun n => .uint (UInt64.ofNat n)
  | float32, .word w => some (.float32 (.ofWord w))
  | float64, .word w => some (.float64 (.ofWord w))
  | string, .word w => some (.text w)
  | array _ t, .list os => (os.mapM (read? t)).map .list
  | slice t, .list os => (os.mapM (read? t)).map .list
  | struct fs, .list os => (readFields? fs os).map .list
  | complex64, _ => some .other
  | pointer _, _ => some .other
  | _, _ => none

/-- The values of the fields of a structure. -/
def readFields? (fs : List (Bool × HostTy)) (os : List Outline) : Option (List HostValue) :=
  match fs, os with
  | f :: fs, o :: os => do
    let v ← readField? f o
    let vs ← readFields? fs os
    return v :: vs
  | _, _ => some []

def readField? (f : Bool × HostTy) (o : Outline) : Option HostValue :=
  match f with
  | (_, t) => read? t o

end

end HostTy
end KernelForge
