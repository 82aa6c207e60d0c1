/-
Checked kernels.

After a source has been checked, its expressions are terms in which every conversion is
written out, variables are numbered slots, and fields and lanes are indices.  A place is what
can be assigned to.  Terms and places say exactly what is evaluated and in which order:
operands from left to right, a pointer before its index.
-/
import KernelForge.Operator
import KernelForge.Builtin
import KernelForge.Program.Value
import KernelForge.Source.Glyph

namespace KernelForge

/-- The functions that ask which item of the work is being done. -/
inductive WorkItemFn where
  | globalId
  | globalSize
  | globalOffset
  | localId
  | localSize
  | groupId
  | numGroups
deriving DecidableEq, Repr, Inhabited

/-- The functions that change a memory in one step. -/
inductive AtomicFn where
  | add
  | sub
  | xchg
  | min
  | max
  | and
  | or
  | xor
  | inc
  | dec
  | cmpxchg
deriving DecidableEq, Repr, Inhabited

mutual

/-- A checked expression. -/
inductive Term where
  | const (e : Elem) (x : Lanes e)
  | var (slot : Nat)
  /-- The value at the place that is being updated. -/
  | current
  /-- Converts each lane to a scalar type. -/
  | cast (s : Scalar) (x : Term)
  /-- A vector of a scalar type made of the lanes of some values, one being repeated. -/
  | concat (s : Scalar) (n : Nat) (xs : List Term)
  /-- A unary operator, its result brought into the range of a type. -/
  | unary (op : Operator) (t : Ty) (x : Term)
  /-- A binary operator, its result brought into the range of a type. -/
  | binary (op : Operator) (t : Ty) (x y : Term)
  | and (x y : Term)
  | or (x y : Term)
  | cond (test x y : Term)
  /-- A pointer moved by a number of strides. -/
  | advance (stride : Int) (ptr n : Term)
  | record (xs : List Term)
  | load (p : Place)
  | address (p : Place)
  | field (i : Nat) (x : Term)
  | lanes (is : List Nat) (x : Term)
  /-- Evaluates for the effects only. -/
  | discard (x : Term)
  | workItem (fn : WorkItemFn) (dim : Term)
  | atomic (fn : AtomicFn) (s : Scalar) (ptr : Term) (args : List Term)
  /-- A function of the device, its result brought into the range of a type. -/
  | math (fn : Builtin) (t : Ty) (args : List Term)
  | call (fn : String) (args : List Term)

/-- What can be assigned to. -/
inductive Place where
  | var (slot : Nat)
  /-- An element of what a pointer points to. -/
  | deref (elem : Ty) (ptr index : Term)
  | field (p : Place) (fields : List Ty) (i : Nat)
  | lanes (p : Place) (is : List Nat)

end

instance : Inhabited Term := ⟨.current⟩
instance : Inhabited Place := ⟨.var 0⟩

/-- A checked statement. -/
inductive Action where
  | skip
  | eval (x : Term)
  /-- Sets a new variable; without a value it is zero. -/
  | declare (slot : Nat) (t : Ty) (init : Option Term)
  | assign (p : Place) (x : Term)
  /-- Replaces the value at a place by one computed from it. -/
  | update (p : Place) (next : Term)
  | seq (first second : Action)
  | branch (test : Term) (yes no : Action)
  | loop (test : Option Term) (post body : Action)
  | ret (result : Option Term)
  | brk
  | cont
deriving Inhabited

/-- A checked function. -/
structure CheckedFn where
  name : String
  isKernel : Bool
  result : Ty
  params : List (String × Ty)
  slots : Nat
  body : Action
deriving Inhabited

/-- A checked source. -/
structure Program where
  source : SourceText
  fp64 : Bool
  funcs : List CheckedFn
deriving Inhabited

namespace Program

/-- The kernels of a program, in the order of the source. -/
def kernels (p : Program) : List CheckedFn := p.funcs.filter (·.isKernel)

/-- The kernel with a given name. -/
def kernel? (p : Program) (name : String) : Option CheckedFn :=
  p.kernels.find? fun f => f.name = name

/-- The function with a given name. -/
def func? (p : Program) (name : String) : Option CheckedFn :=
  p.funcs.find? fun f => f.name = name

end Program
end KernelForge
