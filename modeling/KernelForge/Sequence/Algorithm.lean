/-
Algorithms on sequences.

An algorithm checks its range and its formula, makes a kernel, compiles it through the cache of
the context and runs it.  A search writes its answer into a buffer of its own, which is
released whatever happens.
-/
import KernelForge.Device.Transfer
import KernelForge.Sequence.Kernel

namespace KernelForge.Sequence

open Machine

def ofFormula {α : Type} : Except FormulaError α → Act α
  | .ok a => return a
  | .error e => throw e.fault

/-- Compiles a draft and runs it over a range, or as one work item for no range. -/
def runDraft (d : Draft) (ctx? : Option Nat) (q : Nat) (count : Int) (o : CompileOptions) :
    Act Unit := do
  match ctx? with
  | none =>
    throw (.ofKind .argumentType ("kernel " ++ d.name ++ ": iterators are not bound to a context"))
  | some ctx =>
    let k ← compile ctx d o
    let _ ← if count = 0 then runTask q k else runRange q k 0 count

/-- Stores `f` of each element of a range from `result` on, and gives the position after the
last one stored. -/
def runTransform (first last result : Cursor) (f : Formula) (q : Nat) (o : CompileOptions) :
    Act Cursor := do
  let count ← Act.ofExcept (first.count last)
  let assign := Formula.set (.arg 1) f
  let _ ← ofFormula (assign.infer [first.ty, result.ty])
  if count = 0 then return result
  let d ← ofFormula (transform count first result assign)
  runDraft d first.ctx? q count o
  return result.advance count

/-- Computes `f` of each element of a range. -/
def runForEach (first last : Cursor) (f : Formula) (q : Nat) (o : CompileOptions) : Act Cursor := do
  let count ← Act.ofExcept (first.count last)
  let _ ← ofFormula (f.infer [first.ty])
  if count = 0 then return last
  let d ← ofFormula (forEach count first f)
  runDraft d first.ctx? q count o
  return last

/-- Does something with a new buffer for an index, and releases the buffer. -/
def withIndex {α : Type} (ctx? : Option Nat) (act : TypedBuffer → Act α) : Act α := do
  let index ← newScalar (ctx?.getD 0) (.uint .w32)
  releasing index (act index)

/-- Reads an index. -/
def readIndex (q : Nat) (index : TypedBuffer) : Act Int := do
  match ← readScalar q (.uint .w32) index 0 with
  | .uint u => return u.toNat
  | _ => return 0

/-- The first position of a range where a formula is true, or its end. -/
def runFindIf (first last : Cursor) (pred : Formula) (q : Nat) (o : CompileOptions) :
    Act Cursor := do
  let count ← Act.ofExcept (first.count last)
  let t ← ofFormula (pred.infer [first.ty])
  if t.kind ≠ "scalar" then
    throw (.ofKind .typeMismatch s!"predicate {pred} of type {t} is not a scalar")
  if count = 0 then return last
  withIndex first.ctx? fun index => do
    let _ ← writeSlice q (.uint .w32) index 0 [.uint (UInt64.ofNat (count % 0x100000000).toNat)]
    let d ← ofFormula (findIf index.buffer count first pred)
    runDraft d first.ctx? q count o
    let found ← readIndex q index
    return first.advance found

/-- The first position of a range whose element equals a value. -/
def runFind (first last : Cursor) (value : Formula) (q : Nat) (o : CompileOptions) : Act Cursor :=
  runFindIf first last (.binary .eql (.arg 0) value) q o

/-- The first position of a sorted range whose element is not less than a value. -/
def runLowerBound (first last : Cursor) (value : Formula) (q : Nat) (o : CompileOptions) :
    Act Cursor :=
  runFindIf first last (.binary .geq (.arg 0) value) q o

/-- The scalar type of elements that can be compared. -/
def comparable (c : Cursor) : Act Scalar :=
  match c.ty with
  | .scalar s =>
    if s.isBool then
      throw (.ofKind .typeMismatch ("cannot compare elements of type " ++ c.ty.name))
    else return s
  | t => throw (.ofKind .typeMismatch ("cannot compare elements of type " ++ t.name))

/-- The position of the first least or greatest element of a range. -/
def runExtremum (first last : Cursor) (sign : Sign) (q : Nat) (o : CompileOptions) :
    Act Cursor := do
  let count ← Act.ofExcept (first.count last)
  let elem ← comparable first
  if count = 0 then return last
  withIndex first.ctx? fun index => do
    runDraft (extremum index.buffer count first elem sign) first.ctx? q 0 o
    let found ← readIndex q index
    return first.advance found

/-- The comparison that a character stands for. -/
def signOf (c : Char) : Act Sign :=
  match c with
  | '<' => return .less
  | '>' => return .greater
  | c => Act.fail ("invalid extremum comparison " ++ Text.quotedChar c)

end KernelForge.Sequence
