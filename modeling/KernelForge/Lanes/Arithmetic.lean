/-
The operators and functions of the device, lane by lane.

Integers wrap and fail only when they are divided by zero; floating-point numbers never
fail.  The functions of single precision numbers are computed in double precision and
rounded, except that a dot product is summed in the type of its operands.
-/
import KernelForge.Lanes.Basic

namespace KernelForge.Lanes

/-- An operator between two cells: it yields a cell of the same type, or a truth value. -/
inductive CellOp (e : Elem) where
  | arith (f : e.Cell → e.Cell → Except LaneError e.Cell)
  | test (f : e.Cell → e.Cell → Bool)

/-! ### Operators -/

/-- Operators between truth values. -/
def boolOp? : Operator → Option (CellOp .bool)
  | .eql => some (.test fun x y => Truth.value x == Truth.value y)
  | .neq => some (.test fun x y => Truth.value x != Truth.value y)
  | .land => some (.test fun x y => Truth.value x && Truth.value y)
  | .lor => some (.test fun x y => Truth.value x || Truth.value y)
  | _ => none

/-- Operators between words. -/
def wordOp? (w : WordWidth) (signed : Bool) : Operator → Option (CellOp (.word w signed))
  | .add => some (.arith fun x y => .ok (x + y))
  | .sub => some (.arith fun x y => .ok (x - y))
  | .mul => some (.arith fun x y => .ok (x * y))
  | .quo => some (.arith fun x y =>
    if y = 0 then .error .divisionByZero else .ok (Word.quotient signed x y))
  | .rem => some (.arith fun x y =>
    if y = 0 then .error .divisionByZero else .ok (Word.remainder signed x y))
  | .shl => some (.arith fun x y => .ok (Word.shiftLeft x y))
  | .shr => some (.arith fun x y => .ok (Word.shiftRight signed x y))
  | .and => some (.arith fun x y => .ok (x &&& y))
  | .or => some (.arith fun x y => .ok (x ||| y))
  | .xor => some (.arith fun x y => .ok (x ^^^ y))
  | .eql => some (.test fun x y => x == y)
  | .neq => some (.test fun x y => x != y)
  | .lss => some (.test fun x y => Word.less signed x y)
  | .leq => some (.test fun x y => Word.atMost signed x y)
  | .gtr => some (.test fun x y => Word.less signed y x)
  | .geq => some (.test fun x y => Word.atMost signed y x)
  | _ => none

/-- Operators between floating-point numbers, for either precision. -/
def realOp? (e : Elem) [Real e.Cell] : Operator → Option (CellOp e)
  | .add => some (.arith fun x y => .ok (Real.add x y))
  | .sub => some (.arith fun x y => .ok (Real.sub x y))
  | .mul => some (.arith fun x y => .ok (Real.mul x y))
  | .quo => some (.arith fun x y => .ok (Real.div x y))
  | .eql => some (.test fun x y => Real.eq x y)
  | .neq => some (.test fun x y => !Real.eq x y)
  | .lss => some (.test fun x y => Real.lt x y)
  | .leq => some (.test fun x y => Real.le x y)
  | .gtr => some (.test fun x y => Real.lt y x)
  | .geq => some (.test fun x y => Real.le y x)
  | _ => none

def cellOp? : (e : Elem) → Operator → Option (CellOp e)
  | .bool, op => boolOp? op
  | .word w signed, op => wordOp? w signed op
  | .float32, op => realOp? .float32 op
  | .float64, op => realOp? .float64 op

/-- The complaint about an operator that an element type does not have. -/
def unsupported (e : Elem) (op : Operator) : LaneError :=
  match e with
  | .bool => .boolOperator op
  | e => .operator op e

/-- The result of an operator, of the type of the operands or made of truth values. -/
inductive Outcome (e : Elem) where
  | same (x : Lanes e)
  | truths (x : Lanes .bool)

variable {e : Elem}

/-- Applies a binary operator lane by lane. -/
def binary (op : Operator) (x y : Lanes e) : Except LaneError (Outcome e) :=
  match cellOp? e op with
  | none => .error (unsupported e op)
  | some (.arith f) => (zip f x y).map .same
  | some (.test f) => (zip (r := .bool) (fun a b => .ok (f a b).toUInt8) x y).map .truths

/-- The function of a unary operator; the complement of bits is written `^`. -/
def cellUnary? : (e : Elem) → Operator → Option (e.Cell → e.Cell)
  | .bool, .not => some Truth.not
  | .word _ _, .sub => some fun x => -x
  | .word _ _, .add => some id
  | .word _ _, .xor => some fun x => ~~~x
  | .float32, .sub => some Real.neg
  | .float32, .add => some id
  | .float64, .sub => some Real.neg
  | .float64, .add => some id
  | _, _ => none

/-- Applies a unary operator lane by lane. -/
def unary (op : Operator) (x : Lanes e) : Except LaneError (Lanes e) :=
  match cellUnary? e op with
  | none => .error (unsupported e op)
  | some f => .ok (x.map f)

/-! ### Functions -/

/-- A function of the device on cells. -/
inductive CellFn (e : Elem) where
  | one (f : e.Cell → e.Cell)
  | two (f : e.Cell → e.Cell → e.Cell)
  | clamp (lower upper : e.Cell → e.Cell → e.Cell)
  | dot (f : List e.Cell → List e.Cell → e.Cell)
  | length (f : List e.Cell → List e.Cell → e.Cell)

/-- The functions of one double precision number. -/
def doubleFn? : String → Option (Binary64 → Binary64)
  | "abs" | "fabs" => some Binary64.abs
  | "sqrt" => some Binary64.sqrt
  | "rsqrt" => some fun x => Binary64.one.div x.sqrt
  | "exp" => some fun x => .ofFloat x.toFloat.exp
  | "log" => some fun x => .ofFloat x.toFloat.log
  | "sin" => some fun x => .ofFloat x.toFloat.sin
  | "cos" => some fun x => .ofFloat x.toFloat.cos
  | "tan" => some fun x => .ofFloat x.toFloat.tan
  | "floor" => some (Binary64.integral .floor)
  | "ceil" => some (Binary64.integral .ceiling)
  | "round" => some (Binary64.integral .nearest)
  | _ => none

/-- The sum of the products of two lists of numbers. -/
def dotProduct {α : Type} [Real α] (xs ys : List α) : α :=
  (xs.zip ys).foldl (fun sum (x, y) => Real.add sum (Real.mul x y)) Real.zero

/-- The functions of floating-point numbers. -/
def realFn? (e : Elem) [Real e.Cell] (name : String) : Option (CellFn e) :=
  match doubleFn? name with
  | some f => some (.one (Real.viaDouble f))
  | none =>
    match name with
    | "pow" => some (.two fun x y => Real.ofDouble ((Real.widen x).power (Real.widen y)))
    | "fmin" | "min" => some (.two Real.leastNumber)
    | "fmax" | "max" => some (.two Real.greatestNumber)
    | "clamp" => some (.clamp Real.greatest Real.least)
    | "dot" => some (.dot dotProduct)
    | "length" => some (.length fun x y => Real.ofDouble (Real.widen (dotProduct x y)).sqrt)
    | _ => none

/-- The functions of words. -/
def wordFn? (w : WordWidth) (signed : Bool) : String → Option (CellFn (.word w signed))
  | "abs" => some (.one (Word.magnitude signed))
  | "min" => some (.two (Word.least signed))
  | "max" => some (.two (Word.greatest signed))
  | "clamp" => some (.clamp (Word.greatest signed) (Word.least signed))
  | _ => none

def cellFn? : (e : Elem) → String → Option (CellFn e)
  | .bool, _ => none
  | .word w signed, name => wordFn? w signed name
  | .float32, name => realFn? .float32 name
  | .float64, name => realFn? .float64 name

/-- The complaint about a function that an element type does not have. -/
def unknownFunction (e : Elem) (name : String) : LaneError :=
  match e with
  | .bool => .boolFunction name
  | e => .function name e

/-- Applies a function of two cells lane by lane. -/
def zipTotal (f : e.Cell → e.Cell → e.Cell) (x y : Lanes e) : Except LaneError (Lanes e) :=
  zip (fun a b => .ok (f a b)) x y

/-- Applies a function of the device to its arguments. -/
def apply (fn : CellFn e) (xs : List (Lanes e)) : Except LaneError (Lanes e) :=
  match fn with
  | .one f =>
    match xs with
    | [x] => .ok (x.map f)
    | _ => .error (.argumentCount xs.length 1)
  | .two f =>
    match xs with
    | [x, y] => zipTotal f x y
    | _ => .error (.argumentCount xs.length 2)
  | .clamp lower upper =>
    match xs with
    | [x, lo, hi] => do zipTotal upper (← zipTotal lower x lo) hi
    | _ => .error (.argumentCount xs.length 3)
  | .dot f =>
    match xs with
    | [] => .error (.argumentCount 0 2)
    | x :: rest =>
      match rest.find? fun y => y.shape.count ≠ x.shape.count with
      | some y => .error (.shapes x.shape y.shape)
      | none => .ok (atom (f x.cells (rest.head?.getD x).cells))
  | .length f =>
    match xs with
    | [] => .error (.argumentCount 0 1)
    | x :: _ => .ok (atom (f x.cells x.cells))

/-- Applies the function with a given name. -/
def math (name : String) (xs : List (Lanes e)) : Except LaneError (Lanes e) :=
  match cellFn? e name with
  | none => .error (unknownFunction e name)
  | some fn => apply fn xs

/-! ### Values whose element types are only known when they arrive -/

/-- A value with its element type. -/
abbrev Any := Σ e, Lanes e

/-- The value of a shape whose bytes are given. -/
def ofRaw (s : Shape) (bs : List UInt8) : Except LaneError Any :=
  if bs.length ≠ s.byteSize then .error (.rawSize bs.length s.byteSize)
  else
    match Elem.ofDataType? s.dtype with
    | some e => .ok ⟨e, ofBytes e s.row? bs⟩
    | none => .error (.rawType s.dtype)

/-- Converts a value to a data type. -/
def castTo (x : Lanes e) (d : DataType) : Except LaneError Any :=
  match Elem.ofDataType? d with
  | some r => .ok ⟨r, x.cast r⟩
  | none => .error (.castTo d)

/-- Replaces a lane by a value of any element type; only an atom of the same type will do. -/
def setAnyLane {f : Elem} (x : Lanes e) (i : Int) (y : Lanes f) : Except LaneError (Lanes e) :=
  if h : f = e then x.setLane i (h ▸ y)
  else if i < 0 ∨ (x.cells.length : Int) ≤ i then .error (.laneRange i x.shape)
  else .error (.setLane x.shape y.shape)

/-- Applies an operator to values of any element types.  No operator joins cells of different
types, so then the answer is missing unless the operator or the lengths are refused first. -/
def binaryAny {f : Elem} (op : Operator) (x : Lanes e) (y : Lanes f) :
    Option (Except LaneError (Outcome e)) :=
  if h : f = e then some (x.binary op (h ▸ y))
  else
    match cellOp? e op with
    | none => some (.error (unsupported e op))
    | some _ =>
      match x, y with
      | row as, row bs =>
        if as.length = bs.length then none else some (.error (.elementwise x.shape y.shape))
      | _, _ => none

/-- Joins values of any element types into a row; they must all be of the wanted one. -/
def concatAny (e : Elem) (n : Nat) (xs : List Any) : Except LaneError (Lanes e) := do
  let ys ← xs.mapM fun ⟨f, x⟩ =>
    if h : f = e then .ok (h ▸ x) else .error (.concatType x.shape e)
  concat n ys

end KernelForge.Lanes
