/-
The values of a running kernel.

A scalar or a vector is held in registers: narrow integers have no registers of their own and
live in 32-bit ones, where every operation brings them back into their range.  A structure is
the list of its fields, and a pointer names a memory and a byte offset in it.  A function that
returns nothing gives the value `nothing`.
-/
import KernelForge.Lanes.Arithmetic
import KernelForge.Ty.Layout

namespace KernelForge

/-- The element type of the register that holds a scalar. -/
def Scalar.register : Scalar → Elem
  | .bool => .bool
  | .char | .short | .int => .int32
  | .uchar | .ushort | .uint => .uint32
  | .long => .int64
  | .ulong => .uint64
  | .float => .float32
  | .double => .float64

/-- A pointer: a memory, none for the null pointer, and a byte offset that wraps. -/
structure Pointer where
  memory? : Option Nat
  offset : BitVec 64
deriving DecidableEq, Repr, Inhabited

/-- A value of a running kernel. -/
inductive Value where
  | nothing
  | lanes (e : Elem) (x : Lanes e)
  | record (fields : List Value)
  | pointer (p : Pointer)
deriving Inhabited

/-- What a running kernel may object to. -/
inductive ExecError where
  | lane (cause : LaneError)
  | outOfBounds (t : Ty) (offset : Int) (size : Nat)
  | nullPointer
  | loadPointer
  | notStored (t : Ty)
  | storeRecord (t : Ty)
  | storeNothing
  | storePointer
  | stackOverflow (fn : String) (limit : Nat)
  | noResult (fn : String)
deriving Repr

namespace ExecError

def message : ExecError → String
  | lane cause => cause.message
  | outOfBounds t offset size =>
    s!"out of bounds access to {t} at byte offset {offset}: buffer has {size} bytes"
  | nullPointer => "null pointer dereference"
  | loadPointer => "cannot load pointers from memory"
  | notStored t => s!"type {t} is not stored in an array"
  | storeRecord t => s!"cannot store a struct as {t}"
  | storeNothing => "cannot store <nil> in memory"
  | storePointer => "cannot store program.pointer in memory"
  | stackOverflow fn limit => s!"call stack overflow calling {fn}: more than {limit} nested calls"
  | noResult fn => s!"function {fn} reached its end without returning a value"

end ExecError

namespace Value

/-- An atom with a truth value. -/
def ofBool (b : Bool) : Value := lanes .bool (.atom b.toUInt8)

/-- An atom of an element type that holds an integer. -/
def ofInt (e : Elem) (i : Int) : Value := lanes e (.atom (e.ofInt i))

/-- The bits of a narrow scalar; none for the others, which fill their registers. -/
def narrowBits? (t : Ty) : Option Nat :=
  match t.element? with
  | some s => if s.isNarrow then some (8 * s.size) else none
  | none => none

/-- Brings a register back into the range of a type. -/
def wrapTo (t : Ty) {e : Elem} (x : Lanes e) : Except LaneError (Lanes e) :=
  match narrowBits? t with
  | some bits => x.wrap bits
  | none => .ok x

/-- Converts each lane to a scalar type. -/
def castTo (s : Scalar) {e : Elem} (x : Lanes e) : Except LaneError (Lanes s.register) :=
  wrapTo (.scalar s) (x.cast s.register)

/-- The lanes of a vector with given indices: an atom for one, a row for several. -/
def selectLanes {e : Elem} (x : Lanes e) : List Nat → Except LaneError (Lanes e)
  | [i] => x.lane (i : Nat)
  | is => do Lanes.concat is.length (← is.mapM fun (i : Nat) => x.lane i)

/-- Puts the lanes of a value, or the value itself when it is for one lane, into a vector. -/
def setLanes {e : Elem} (x : Lanes e) (is : List Nat) (y : Lanes e) :
    Except LaneError (Lanes e) :=
  match is with
  | [i] => x.setLane (i : Nat) y
  | is => is.zipIdx.foldlM (fun x (i, j) => do x.setLane (i : Nat) (← y.lane (j : Nat))) x

mutual

/-- The value of a variable that is declared without one. -/
def zero : Ty → Except ExecError Value
  | .void => .error (.notStored .void)
  | .scalar s => .ok (lanes s.register (Lanes.zeros s.register none))
  | .vector s w => .ok (lanes s.register (Lanes.zeros s.register (some w.lanes)))
  | .tuple ts =>
    match zeros ts with
    | .error e => .error e
    | .ok vs => .ok (record vs)
  | .pointer _ _ _ => .ok (pointer ⟨none, 0⟩)

def zeros : List Ty → Except ExecError (List Value)
  | [] => .ok []
  | t :: ts =>
    match zero t with
    | .error e => .error e
    | .ok v =>
      match zeros ts with
      | .error e => .error e
      | .ok vs => .ok (v :: vs)

end

end Value
end KernelForge
