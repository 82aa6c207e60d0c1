/-
The kernels of the sequence algorithms.

Each is a draft that is made from positions and formulas alone: which kernel is run does not
depend on what the sequences hold.
-/
import KernelForge.Sequence.Cursor

namespace KernelForge.Sequence

/-- Adds an argument that holds a number of elements, as an unsigned 32-bit integer. -/
def addCount (d : Draft) (name : String) (count : Int) : String × Draft :=
  let (name, d) := d.fresh name
  let bytes := (Bytes.ofNat 4 (count % 0x100000000).toNat).toArray
  let (_, d) :=
    (d.inject (.scalar .uint)).pushArg { name, type := .scalar .uint, value? := some bytes }
  (name, d)

/-- Declares the number of the work item. -/
def globalIndex (d : Draft) : String × Draft :=
  let (i, d) := d.fresh "_i"
  let (decl, d) := d.decl (.scalar .uint) i
  (i, d.line ("const " ++ decl ++ " = get_global_id(0);"))

/-- Opens a block under a condition. -/
def openBlock (d : Draft) (head : String) : Draft := (d.line (head ++ " \x7b")).indent

def closeBlock (d : Draft) : Draft := d.dedent.line "\x7d"

/-- A kernel that does the same for every index below a count. -/
def elementwise (name : String) (count : Int)
    (body : Draft → String → Except FormulaError Draft) : Except FormulaError Draft :=
  let (size, d) := addCount (Draft.ofName name) "count" count
  let (i, d) := globalIndex d
  match body (openBlock d ("if (" ++ i ++ " < " ++ size ++ ")")) i with
  | .ok d => .ok (closeBlock d)
  | .error e => .error e

/-- Writes a formula into a draft. -/
def lowerInto (d : Draft) (f : Formula) (bs : List Binding) :
    Except FormulaError (String × Draft) :=
  match (f.lower bs).run d with
  | (.ok value, d) => .ok (value, d)
  | (.error e, _) => .error e

/-- Stores a formula of each element of one sequence in another. -/
def transform (count : Int) (first result : Cursor) (assign : Formula) :
    Except FormulaError Draft :=
  elementwise "transform" count fun d i => do
    let (x, d) := first.bind d i true
    let (y, d) := result.bind d i false
    let (_, d) ← lowerInto d assign [x, y]
    return d

/-- Computes a formula of each element of a sequence, for its assignments. -/
def forEach (count : Int) (first : Cursor) (f : Formula) : Except FormulaError Draft :=
  elementwise "for_each" count fun d i => do
    let (x, d) := first.bind d i false
    let (_, d) ← lowerInto d f [x]
    return d

/-- Puts the least index at which a formula is true into a buffer that holds the count. -/
def findIf (out : Nat) (count : Int) (first : Cursor) (pred : Formula) :
    Except FormulaError Draft := do
  let ((out, _), d) := (Draft.ofName "find_if").register out (.scalar .uint) false
  let (size, d) := addCount d "count" count
  let (i, d) := globalIndex d
  let d := openBlock d ("if (" ++ i ++ " < " ++ size ++ ")")
  let (x, d) := first.bind d i true
  let (found, d) ← lowerInto d pred [x]
  let d := openBlock d ("if (" ++ found ++ ")")
  let d := d.line ("atomic_min(" ++ out ++ ", " ++ i ++ ");")
  return closeBlock (closeBlock d)

/-- The comparison that makes an element the extremum. -/
inductive Sign where
  | less
  | greater
deriving DecidableEq, Repr, Inhabited

def Sign.text : Sign → String
  | less => "<"
  | greater => ">"

/-- Puts the index of the first extremum into a buffer; one work item looks at all elements. -/
def extremum (out : Nat) (count : Int) (first : Cursor) (elem : Scalar) (sign : Sign) : Draft :=
  let t := Ty.scalar elem
  let ((out, _), d) := (Draft.ofName "serial_find_extrema").register out (.scalar .uint) false
  let (size, d) := addCount d "size" count
  let (value, d) := d.fresh "value"
  let (valueIndex, d) := d.fresh "value_index"
  let (i, d) := d.fresh "i"
  let (candidate, d) := d.fresh "candidate"
  let (decl, d) := d.decl t value
  let (x, d) := first.bind d "0" true
  let d := d.line (decl ++ " = " ++ x.expr ++ ";")
  let (decl, d) := d.decl (.scalar .uint) valueIndex
  let d := d.line (decl ++ " = 0;")
  let d := openBlock d
    ("for (uint " ++ i ++ " = 1; " ++ i ++ " < " ++ size ++ "; " ++ i ++ "++)")
  let (decl, d) := d.decl t candidate
  let (x, d) := first.bind d i true
  let d := d.line (decl ++ " = " ++ x.expr ++ ";")
  let d := openBlock d ("if (" ++ candidate ++ " " ++ sign.text ++ " " ++ value ++ ")")
  let d := d.line (value ++ " = " ++ candidate ++ ";")
  let d := d.line (valueIndex ++ " = " ++ i ++ ";")
  let d := closeBlock (closeBlock d)
  d.line ("*" ++ out ++ " = " ++ valueIndex ++ ";")

end KernelForge.Sequence
