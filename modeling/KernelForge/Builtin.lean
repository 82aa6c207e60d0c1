/-
The mathematical functions of the kernel language and their signatures.

A signature says, for the types of the arguments of a call, to which types the arguments
are converted and which type the call has.  The same signatures type expression trees and
device code, so both sides convert operands alike.
-/
import KernelForge.Ty.Basic

namespace KernelForge

/-- A mathematical function of the kernel language. -/
inductive Builtin where
  | abs | fabs | sqrt | rsqrt | exp | log | sin | cos | tan | floor | ceil | round
  | pow | fmin | fmax | min | max
  | clamp | dot | length
deriving DecidableEq, Repr

/-- Why a call of a mathematical function has no type. -/
inductive SignatureError where
  | arity (fn : String) (want got : Nat)
  | notNumeric (fn : String) (arg : Ty)
  | notFloating (fn : String) (arg : Ty)
  | incompatible (fn : String) (x y : Ty)
  | clampBound (bound x : Ty)
  | dotOperands (x y : Ty)
deriving DecidableEq, Repr

namespace SignatureError

def message : SignatureError → String
  | arity fn want got =>
    s!"{fn} expects {want} argument(s) but got {got}: wrong number of arguments"
  | notNumeric fn arg => s!"{fn}: invalid argument of type {arg}: numerical type required"
  | notFloating fn arg => s!"{fn}: invalid argument of type {arg}: floating point type required"
  | incompatible fn x y => s!"{fn}: incompatible argument types {x} and {y}"
  | clampBound bound x => s!"clamp: cannot use argument of type {bound} to clamp a value of type {x}"
  | dotOperands x y =>
    s!"dot: arguments of type {x} and {y} have different widths or element types"

def isArity : SignatureError → Bool
  | arity .. => true
  | _ => false

end SignatureError

namespace Builtin

/-- Every function, in the order of the names. -/
def all : List Builtin :=
  [abs, ceil, clamp, cos, dot, exp, fabs, floor, fmax, fmin, length, log, max, min, pow, round,
    rsqrt, sin, sqrt, tan]

def name : Builtin → String
  | abs => "abs"
  | fabs => "fabs"
  | sqrt => "sqrt"
  | rsqrt => "rsqrt"
  | exp => "exp"
  | log => "log"
  | sin => "sin"
  | cos => "cos"
  | tan => "tan"
  | floor => "floor"
  | ceil => "ceil"
  | round => "round"
  | pow => "pow"
  | fmin => "fmin"
  | fmax => "fmax"
  | min => "min"
  | max => "max"
  | clamp => "clamp"
  | dot => "dot"
  | length => "length"

/-- The function with a given name. -/
def ofName? (word : String) : Option Builtin :=
  all.find? fun f => f.name = word

/-- The number of arguments that a function takes. -/
def arity : Builtin → Nat
  | pow | fmin | fmax | min | max | dot => 2
  | clamp => 3
  | _ => 1

/-- The type that each argument is converted to, and the type of the call. -/
structure Signature where
  params : List Ty
  result : Ty
deriving DecidableEq, Repr

def requireNumeric (fn : String) (t : Ty) : Except SignatureError Unit :=
  if t.isNumeric then .ok () else .error (.notNumeric fn t)

def requireFloating (fn : String) (t : Ty) : Except SignatureError Scalar :=
  match t.element? with
  | some s => if s.isFloat then .ok s else .error (.notFloating fn t)
  | none => .error (.notFloating fn t)

/-- The type that a bound of `clamp` is converted to: that of the value, or its element. -/
def clampBound? (bound x : Ty) : Option Ty :=
  if bound = x then some x
  else
    match x.element?, bound with
    | some e, .scalar s => if s.promotesTo e then some (.scalar e) else none
    | _, _ => none

/-- A function of one argument whose result has the type of the argument. -/
def preserving (check : Ty → Except SignatureError Unit) (x : Ty) :
    Except SignatureError Signature := do
  check x
  return ⟨[x], x⟩

/-- A function of two arguments that are converted to their common type. -/
def promoting (fn : String) (check : Ty → Except SignatureError Unit) (x y : Ty) :
    Except SignatureError Signature :=
  match Ty.broadcast? x y with
  | none => .error (.incompatible fn x y)
  | some t => do
    check t
    return ⟨[t, t], t⟩

/-- The signature of a call, given the types of its arguments. -/
def signature (f : Builtin) (args : List Ty) : Except SignatureError Signature :=
  let floating := fun t => (requireFloating f.name t).map fun _ => ()
  match f, args with
  | abs, [x] => preserving (requireNumeric f.name) x
  | fabs, [x] | sqrt, [x] | rsqrt, [x] | exp, [x] | log, [x] | sin, [x] | cos, [x] | tan, [x]
  | floor, [x] | ceil, [x] | round, [x] => preserving floating x
  | pow, [x, y] | fmin, [x, y] | fmax, [x, y] => promoting f.name floating x y
  | min, [x, y] | max, [x, y] => promoting f.name (requireNumeric f.name) x y
  | clamp, [x, lo, hi] => do
    requireNumeric f.name x
    match clampBound? lo x with
    | none => throw (.clampBound lo x)
    | some l =>
      match clampBound? hi x with
      | none => throw (.clampBound hi x)
      | some h => return ⟨[x, l, h], x⟩
  | dot, [x, y] => do
    let e ← requireFloating f.name x
    if x = y then return ⟨[x, y], .scalar e⟩ else throw (.dotOperands x y)
  | length, [x] => do
    let e ← requireFloating f.name x
    return ⟨[x], .scalar e⟩
  | _, _ => .error (.arity f.name f.arity args.length)

end Builtin
end KernelForge
