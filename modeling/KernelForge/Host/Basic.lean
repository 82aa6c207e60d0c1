/-
The types and values of the host program, and the kernel types that stand for them.

The host has machine integers of fixed width and native ones (64 bits wide on the host, but
`int` and `uint` on the device), arrays, slices, pointers and structures.  A field of a
structure may be hidden, and then no kernel sees it.  Arrays of numbers are vectors,
structures with at least two visible fields are tuples, and everything else that is not a
number has no kernel type.
-/
import KernelForge.Binary.Basic
import KernelForge.Ty.Basic

namespace KernelForge

/-- The width of a host integer. -/
inductive IntWidth where
  | native
  | w8
  | w16
  | w32
  | w64
deriving DecidableEq, Repr, Inhabited

namespace IntWidth

/-- What follows `int` or `uint` in the name of a host integer type. -/
def suffix : IntWidth → String
  | native => ""
  | w8 => "8"
  | w16 => "16"
  | w32 => "32"
  | w64 => "64"

/-- The bits that a host integer has on the host. -/
def bits : IntWidth → Nat
  | native => 64
  | w8 => 8
  | w16 => 16
  | w32 => 32
  | w64 => 64

end IntWidth

/-- A type of the host program. -/
inductive HostTy where
  | bool
  | int (width : IntWidth)
  | uint (width : IntWidth)
  | float32
  | float64
  | string
  | complex64
  | array (length : Nat) (elem : HostTy)
  | slice (elem : HostTy)
  | pointer (elem : HostTy)
  /-- A structure; of each field, whether it is hidden, and its type. -/
  | struct (fields : List (Bool × HostTy))
deriving Repr, Inhabited

/-- A value of the host program. -/
inductive HostValue where
  | bool (b : Bool)
  | int (i : Int64)
  | uint (u : UInt64)
  | float32 (x : Binary32)
  | float64 (x : Binary64)
  /-- The elements of an array, or the fields of a structure, hidden ones included. -/
  | list (items : List HostValue)
  | text (s : String)
  /-- Any other value, none of which a kernel can hold. -/
  | other
deriving Repr, Inhabited

namespace HostTy

mutual

/-- The name of a host type. -/
def name : HostTy → String
  | bool => "bool"
  | int w => "int" ++ w.suffix
  | uint w => "uint" ++ w.suffix
  | float32 => "float32"
  | float64 => "float64"
  | string => "string"
  | complex64 => "complex64"
  | array n t => "[" ++ toString n ++ "]" ++ t.name
  | slice t => "[]" ++ t.name
  | pointer t => "*" ++ t.name
  | struct [] => "struct \x7b\x7d"
  | struct (f :: fs) => "struct \x7b " ++ "; ".intercalate (fieldTexts 0 (f :: fs)) ++ " \x7d"

/-- The fields of a structure with their names; the first of them is field `i`. -/
def fieldTexts (i : Nat) : List (Bool × HostTy) → List String
  | [] => []
  | f :: fs => fieldText i f :: fieldTexts (i + 1) fs

def fieldText (i : Nat) : Bool × HostTy → String
  | (hidden, t) => (if hidden then "f" else "F") ++ toString i ++ " " ++ t.name

end

instance : ToString HostTy := ⟨name⟩

/-- The types of the fields that a kernel sees. -/
def visible (fields : List (Bool × HostTy)) : List HostTy :=
  (fields.filter fun f => !f.1).map Prod.snd

/-- The values of the fields that a kernel sees. -/
def visibleValues (fields : List (Bool × HostTy)) (values : List HostValue) : List HostValue :=
  ((fields.zip values).filter fun f => !f.1.1).map Prod.snd

mutual

/-- The value that a variable has before anything is stored in it. -/
def zero : HostTy → HostValue
  | bool => .bool false
  | int _ => .int 0
  | uint _ => .uint 0
  | float32 => .float32 ⟨0⟩
  | float64 => .float64 ⟨0⟩
  | array n t => .list (List.replicate n t.zero)
  | struct fs => .list (zeros fs)
  | string => .text ""
  | slice _ => .list []
  | complex64 | pointer _ => .other

def zeros : List (Bool × HostTy) → List HostValue
  | [] => []
  | f :: fs => zeroField f :: zeros fs

def zeroField : Bool × HostTy → HostValue
  | (_, t) => t.zero

end

end HostTy

namespace HostTy

/-- The host types that are not built from others. -/
def basic : List HostTy :=
  [bool, int .native, int .w8, int .w16, int .w32, int .w64, uint .native, uint .w8, uint .w16,
    uint .w32, uint .w64, float32, float64, string, complex64]

/-- The basic host type with a given name. -/
def ofName? (s : String) : Option HostTy := basic.find? fun t => t.name = s

/-- The host type of exactly the values of a scalar type. -/
def ofScalar : Scalar → HostTy
  | .bool => bool
  | .char => int .w8
  | .uchar => uint .w8
  | .short => int .w16
  | .ushort => uint .w16
  | .int => int .w32
  | .uint => uint .w32
  | .long => int .w64
  | .ulong => uint .w64
  | .float => float32
  | .double => float64

mutual

/-- A host type whose values are those of a kernel type; strings stand for what has none. -/
def ofTy : Ty → HostTy
  | .scalar s => ofScalar s
  | .vector s w => array w.lanes (ofScalar s)
  | .tuple ts => struct (fieldsOf ts)
  | _ => string

def fieldsOf : List Ty → List (Bool × HostTy)
  | [] => []
  | t :: ts => (false, ofTy t) :: fieldsOf ts

end

end HostTy

/-- Why a host type has no kernel type. -/
inductive HostTypeError where
  | none (t : HostTy)
  | nilValue
  | elementNotScalar (t : HostTy) (elem : Ty)
  | invalidVector (t : HostTy) (elem : Scalar) (lanes : Nat)
  | tooFewFields (t : HostTy)
deriving Repr

def HostTypeError.message : HostTypeError → String
  | none t => s!"Go type {t} has no kernel equivalent"
  | nilValue => "nil has no kernel type"
  | elementNotScalar t elem => s!"cannot use {t} as a vector: element type {elem} is not a scalar"
  | invalidVector t elem lanes =>
    "cannot use " ++ t.name ++ " as a vector: invalid vector " ++ elem.name ++ toString lanes
  | tooFewFields t => s!"cannot use {t} as a tuple: a tuple requires at least two exported fields"

namespace HostTy

mutual

/-- The kernel type that stands for a host type. -/
def kernelTy : HostTy → Except HostTypeError Ty
  | bool => .ok (.scalar .bool)
  | int .w8 => .ok (.scalar .char)
  | int .w16 => .ok (.scalar .short)
  | int .w32 | int .native => .ok (.scalar .int)
  | int .w64 => .ok (.scalar .long)
  | uint .w8 => .ok (.scalar .uchar)
  | uint .w16 => .ok (.scalar .ushort)
  | uint .w32 | uint .native => .ok (.scalar .uint)
  | uint .w64 => .ok (.scalar .ulong)
  | float32 => .ok (.scalar .float)
  | float64 => .ok (.scalar .double)
  | array n t =>
    match t.kernelTy with
    | .error e => .error e
    | .ok (.scalar s) =>
      match Ty.vectorOf? s n with
      | some v => .ok v
      | none => .error (.invalidVector (array n t) s n)
    | .ok elem => .error (.elementNotScalar (array n t) elem)
  | struct fs =>
    if (visible fs).length < 2 then .error (.tooFewFields (struct fs))
    else
      match fieldTys fs with
      | .error e => .error e
      | .ok ts => .ok (.tuple ts)
  | string => .error (.none string)
  | complex64 => .error (.none complex64)
  | slice t => .error (.none (slice t))
  | pointer t => .error (.none (pointer t))

/-- The kernel types of the visible fields. -/
def fieldTys : List (Bool × HostTy) → Except HostTypeError (List Ty)
  | [] => .ok []
  | f :: fs =>
    match fieldTy f with
    | .error e => .error e
    | .ok t? =>
      match fieldTys fs with
      | .error e => .error e
      | .ok ts => .ok (t?.toList ++ ts)

/-- The kernel type of a field, none for a hidden one. -/
def fieldTy : Bool × HostTy → Except HostTypeError (Option Ty)
  | (true, _) => .ok none
  | (false, t) =>
    match t.kernelTy with
    | .error e => .error e
    | .ok t => .ok (some t)

end

/-- The kernel type of a host value, given its type; the absent value has none. -/
def kernelTyOf : Option HostTy → Except HostTypeError Ty
  | none => .error .nilValue
  | some t => t.kernelTy

end HostTy
end KernelForge
