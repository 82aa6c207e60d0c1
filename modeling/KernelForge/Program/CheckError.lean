/-
What the checker objects to, and how it says so.
-/
import KernelForge.Builtin
import KernelForge.Code.Basic
import KernelForge.Numeral.Basic
import KernelForge.Source.Glyph

namespace KernelForge

/-- An objection of the checker. -/
inductive CheckError where
  -- types
  | unknownType (name : String)
  | doubleDisabled
  | voidPointer
  | badBehavior (word : SourceText)
  | pointerField
  | duplicateMember (name : String)
  | typedefTwice (name : String)
  -- functions
  | redefinition (name : String)
  | redefinesBuiltin (name : String)
  | kernelResult (name : String)
  | voidParam (name : String)
  | localParam (name : String)
  | privateParam (name : String)
  -- statements
  | outsideLoop (word : String)
  | voidVariable
  | uninitialized (name : String)
  | notAssignable
  | readOnly
  | resultMissing (fn : String)
  | resultUnexpected (fn : String)
  -- expressions
  | undeclared (name : String)
  | badNumber (text : String) (cause : NumeralError)
  | noConversion (src dst : Ty)
  | badCast (src dst : Ty)
  | condition (t : Ty)
  | unaryOperand (t : Ty)
  | binaryOperands (x y : Ty)
  | integerOperands (x y : Ty)
  | vectorComparison
  | logicalOperand (t : Ty)
  | condOperands (x y : Ty)
  | vectorPart (part vec : Ty)
  | laneCount (vec : Ty) (lanes : Nat)
  | structLiteral (name : String)
  | fieldCount (t : Ty) (want got : Nat)
  | subscript
  | notPointer (t : Ty)
  | noAddress (form : String)
  | noMember (name : String) (t : Ty)
  | badComponent (name : String) (t : Ty)
  | componentLanes (name : String) (lanes : Nat)
  | noMembers (t : Ty)
  -- calls
  | notFunction (name : String)
  | argCount (fn : String) (want got : Nat)
  | atomicArg (fn : String) (t : Ty)
  | atomicPointer (fn : String) (t : Ty)
  | callsKernel (fn : String)
  | notOnDevice (fn : String)
  | undeclaredFn (name : String)
  | signature (cause : SignatureError)
deriving DecidableEq, Repr

namespace CheckError

/-- A type between quotes. -/
def describe (t : Ty) : String := "'" ++ t.name ++ "'"

open Text in
def message : CheckError → String
  | unknownType name => "unknown type name " ++ quoted name
  | doubleDisabled => "use of type 'double' requires cl_khr_fp64 extension to be enabled"
  | voidPointer => "void pointers not supported"
  | badBehavior word => "invalid extension behavior " ++ word.quoted
  | pointerField => "pointer fields not supported"
  | duplicateMember name => "duplicate member " ++ quoted name
  | typedefTwice name => "typedef redefinition " ++ quoted name
  | redefinition name => "redefinition of " ++ quoted name
  | redefinesBuiltin name => "redefinition of builtin function " ++ quoted name
  | kernelResult name => s!"kernel {name} must return void"
  | voidParam name => s!"parameter {name} cannot be void"
  | localParam name => s!"__local kernel argument {name} not supported by the host device"
  | privateParam name =>
    s!"kernel pointer argument {name} must point to __global or __constant memory"
  | outsideLoop word => s!"'{word}' statement not in loop statement"
  | voidVariable => "variable has incomplete type 'void'"
  | uninitialized name => "constant " ++ quoted name ++ " must be initialized"
  | notAssignable => "expression is not assignable"
  | readOnly => "cannot assign to a read-only location"
  | resultMissing fn => "non-void function " ++ quoted fn ++ " should return a value"
  | resultUnexpected fn => "void function " ++ quoted fn ++ " should not return a value"
  | undeclared name => "use of undeclared identifier " ++ quoted name
  | badNumber text cause => s!"invalid literal {text}: " ++ cause.message
  | noConversion src dst => "cannot convert " ++ describe src ++ " to " ++ describe dst
  | badCast src dst => "invalid cast from " ++ describe src ++ " to " ++ describe dst
  | condition t => "condition of type " ++ describe t ++ " is not a scalar"
  | unaryOperand t => "invalid argument type " ++ describe t ++ " to unary expression"
  | binaryOperands x y =>
    "invalid operands to binary expression (" ++ describe x ++ " and " ++ describe y ++ ")"
  | integerOperands x y =>
    "invalid operands to binary expression (" ++ describe x ++ " and " ++ describe y ++
      "): integer types required"
  | vectorComparison => "vector comparisons not supported by the host device"
  | logicalOperand t => "invalid operand of type " ++ describe t ++ " to logical operator"
  | condOperands x y =>
    "incompatible operand types (" ++ describe x ++ " and " ++ describe y ++ ")"
  | vectorPart part vec => "cannot use " ++ describe part ++ " to build a " ++ describe vec
  | laneCount vec lanes => describe vec ++ s!" built with {lanes} lane(s)"
  | structLiteral name => s!"compound literals of type {name} not supported"
  | fieldCount t want got => describe t ++ s!" has {want} field(s) but got {got} value(s)"
  | subscript => "array subscript is not an integer"
  | notPointer t => "subscripted value of type " ++ describe t ++ " is not a pointer"
  | noAddress form => s!"cannot take the address of {form}: only memory locations are supported"
  | noMember name t => "no member named " ++ quoted name ++ " in " ++ describe t
  | badComponent name t => "invalid vector component " ++ quoted name ++ " for " ++ describe t
  | componentLanes name lanes =>
    "vector component " ++ quoted name ++ s!" of {lanes} lanes not supported"
  | noMembers t =>
    "member reference base type " ++ describe t ++ " is not a structure or a vector"
  | notFunction name => "called object " ++ quoted name ++ " is not a function"
  | argCount fn want got => s!"{fn} expects {want} argument(s) but got {got}"
  | atomicArg fn t => s!"{fn}: first argument of type " ++ describe t ++ " is not a pointer"
  | atomicPointer fn t => s!"{fn}: invalid pointer of type " ++ describe t
  | callsKernel fn => s!"cannot call kernel {fn} from a kernel"
  | notOnDevice fn => s!"{fn} not supported by the host device"
  | undeclaredFn name => "implicit declaration of function " ++ quoted name
  | signature cause => cause.message

end CheckError
end KernelForge
