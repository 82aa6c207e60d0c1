/-
Scalars and vectors as the device holds them.

A value of the device is an atom, one cell, or a row of cells.  Operations act lane by lane:
an atom meets a row by standing in every lane, and two rows must have the same length.
-/
import KernelForge.Bytes
import KernelForge.Lanes.Cell
import KernelForge.Operator

namespace KernelForge

/-- An atom or a row of cells of one element type. -/
inductive Lanes (e : Elem) where
  | atom (cell : e.Cell)
  | row (cells : List e.Cell)

/-- What a value looks like from outside: its data type, and the length of a row. -/
structure Shape where
  dtype : DataType
  row? : Option Nat := none
deriving DecidableEq, Repr, Inhabited

namespace Shape

def text (s : Shape) : String :=
  match s.row? with
  | none => s.dtype.name
  | some n => "[" ++ toString n ++ "]" ++ s.dtype.name

instance : ToString Shape := ⟨text⟩

/-- The number of cells. -/
def count (s : Shape) : Nat := s.row?.getD 1

def byteSize (s : Shape) : Nat := s.count * s.dtype.size

end Shape

/-- Why an operation on lanes has no result. -/
inductive LaneError where
  | divisionByZero
  | rawSize (got want : Nat)
  | rawType (d : DataType)
  | noFactory (d : DataType)
  | zeroType (d : DataType)
  | wrapBits (bits : Int)
  | wrapType (e : Elem)
  | notAtomic (s : Shape)
  | laneRange (i : Int) (s : Shape)
  | setLane (s x : Shape)
  | concatType (x : Shape) (e : Elem)
  | concatCount (want got : Nat)
  | elementwise (x y : Shape)
  | boolOperator (op : Operator)
  | operator (op : Operator) (e : Elem)
  | castTo (d : DataType)
  | boolFunction (name : String)
  | function (name : String) (e : Elem)
  | argumentCount (got want : Nat)
  | shapes (x y : Shape)
deriving DecidableEq, Repr

namespace LaneError

def message : LaneError → String
  | divisionByZero => "integer division by zero"
  | rawSize got want => s!"buffer size is {got} but shape specify a buffer size of {want}"
  | rawType d => s!"cannot create an array from raw data: {d} not supported"
  | noFactory d => s!"no factory for {d}"
  | zeroType d => s!"cannot create an array of data type {d}: not supported"
  | wrapBits bits => s!"cannot wrap 32-bit integers to {bits} bits"
  | wrapType e => "cannot wrap an array of " ++ e.name
  | notAtomic s => s!"{s} not atomic"
  | laneRange i s => s!"lane {i} out of range for {s}"
  | setLane s x => s!"cannot set a lane of {s} with {x}"
  | concatType x e => s!"cannot concatenate {x} with arrays of " ++ e.name
  | concatCount want got => s!"cannot build an array of {want} elements from {got} values"
  | elementwise x y => s!"cannot apply an element-wise operation between {x} and {y}"
  | boolOperator op => s!"operator {op} not supported for booleans"
  | operator op e => s!"operator {op} not supported for " ++ e.name
  | castTo d => s!"cast to {d} not supported"
  | boolFunction name => s!"function {name} not supported for booleans"
  | function name e => s!"function {name} not supported for " ++ e.name
  | argumentCount got want => s!"got {got} argument(s) but want {want}"
  | shapes x y => s!"mismatched shapes {x} and {y}"

end LaneError

namespace Lanes

variable {e r : Elem}

instance : Inhabited (Lanes e) := ⟨.atom e.zero⟩

instance : DecidableEq e.Cell :=
  match e with
  | .bool => inferInstanceAs (DecidableEq UInt8)
  | .word w _ => inferInstanceAs (DecidableEq (BitVec w.bits))
  | .float32 => inferInstanceAs (DecidableEq Binary32)
  | .float64 => inferInstanceAs (DecidableEq Binary64)

deriving instance DecidableEq for Lanes

/-- The cells of a value, in their order. -/
def cells : Lanes e → List e.Cell
  | atom c => [c]
  | row cs => cs

def shape : Lanes e → Shape
  | atom _ => { dtype := e.dataType }
  | row cs => { dtype := e.dataType, row? := some cs.length }

/-- A value as it is printed. -/
def text : Lanes e → String
  | atom c => e.text c
  | row cs => "[" ++ " ".intercalate (cs.map e.text) ++ "]"

/-- The bytes of a value, cell after cell. -/
def bytes (x : Lanes e) : List UInt8 :=
  x.cells.flatMap fun c => Bytes.ofNat e.size (e.bits c)

/-- Zeros of a given shape. -/
def zeros (e : Elem) : Option Nat → Lanes e
  | none => atom e.zero
  | some n => row (List.replicate n e.zero)

/-- The cells that `n` groups of bytes hold. -/
def cellsOfBytes (e : Elem) : Nat → List UInt8 → List e.Cell
  | 0, _ => []
  | n + 1, bs => e.ofBits (Bytes.toNat (bs.take e.size)) :: cellsOfBytes e n (bs.drop e.size)

/-- The value whose bytes are given. -/
def ofBytes (e : Elem) (row? : Option Nat) (bs : List UInt8) : Lanes e :=
  match row? with
  | none => atom (e.ofBits (Bytes.toNat (bs.take e.size)))
  | some n => row (cellsOfBytes e n bs)

/-- Applies a function to each cell. -/
def map (f : e.Cell → r.Cell) : Lanes e → Lanes r
  | atom c => atom (f c)
  | row cs => row (cs.map f)

/-- Joins two values lane by lane. -/
def zip (f : e.Cell → e.Cell → Except LaneError r.Cell) (x y : Lanes e) :
    Except LaneError (Lanes r) :=
  match x, y with
  | atom a, atom b => (f a b).map atom
  | atom a, row bs => (bs.mapM fun b => f a b).map row
  | row as, atom b => (as.mapM fun a => f a b).map row
  | row as, row bs =>
    if as.length = bs.length then ((as.zip bs).mapM fun (a, b) => f a b).map row
    else .error (.elementwise x.shape y.shape)

/-- The only cell of an atom. -/
def toAtom : Lanes e → Except LaneError e.Cell
  | atom c => .ok c
  | row cs => .error (.notAtomic (shape (row cs)))

/-- The lane with a given index, as an atom. -/
def lane (x : Lanes e) (i : Int) : Except LaneError (Lanes e) :=
  if i < 0 then .error (.laneRange i x.shape)
  else
    match x.cells[i.toNat]? with
    | some c => .ok (atom c)
    | none => .error (.laneRange i x.shape)

/-- A copy of a value in which one lane is replaced by an atom. -/
def setLane (x : Lanes e) (i : Int) (y : Lanes e) : Except LaneError (Lanes e) :=
  if i < 0 ∨ (x.cells.length : Int) ≤ i then .error (.laneRange i x.shape)
  else
    match y with
    | row _ => .error (.setLane x.shape y.shape)
    | atom c =>
      match x with
      | atom _ => .ok (atom c)
      | row cs => .ok (row (cs.set i.toNat c))

/-- A row of `n` cells made of the cells of some values, a single one being repeated. -/
def concat (n : Nat) (xs : List (Lanes e)) : Except LaneError (Lanes e) :=
  let cs := xs.flatMap cells
  let cs :=
    match cs with
    | [c] => c :: List.replicate (n - 1) c
    | cs => cs
  if cs.length = n then .ok (row cs) else .error (.concatCount n cs.length)

/-- Converts each cell to another element type. -/
def cast (r : Elem) (x : Lanes e) : Lanes r := x.map (e.convert r)

/-- The truth of an atom. -/
def truth (x : Lanes e) : Except LaneError Bool := (x.cast .bool).toAtom.map Truth.value

/-- Reduces 32-bit words to their low bits, which are extended to a word again. -/
def wrap (bits : Int) (x : Lanes e) : Except LaneError (Lanes e) :=
  if bits ≤ 0 ∨ 32 ≤ bits then .error (.wrapBits bits)
  else
    match e, x with
    | .word .w32 signed, x =>
      .ok (x.map (e := .word .w32 signed) (r := .word .w32 signed) fun c =>
        if signed then (c.truncate bits.toNat).signExtend 32 else (c.truncate bits.toNat).setWidth 32)
    | e, _ => .error (.wrapType e)

end Lanes
end KernelForge
