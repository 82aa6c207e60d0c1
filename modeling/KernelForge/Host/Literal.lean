/-
Host values as literals of kernel source.

A literal carries the suffix of its type, and a negative one stands in parentheses, so that
it can be an operand anywhere.  Narrow integers have no suffix and are written as a cast.
-/
import KernelForge.Decimal.Shortest
import KernelForge.Host.Basic

namespace KernelForge

/-- Why a host value has no literal. -/
inductive LiteralError where
  | type (cause : HostTypeError)
  | overflow (value : String) (s : Scalar)
  | format (h : HostTy) (t : Ty)
  | formatFields (h : HostTy) (t : Ty) (got want : Nat)
  | formatType (t : Ty)
deriving Repr

def LiteralError.message : LiteralError → String
  | type cause => cause.message
  | overflow value s => "constant " ++ value ++ " overflows " ++ s.name
  | format h t => s!"cannot format {h} as {t}"
  | formatFields h t got want => s!"cannot format {h} as {t}: got {got} fields but want {want}"
  | formatType t => s!"cannot format a literal of type {t}"

namespace Literal

/-- What follows the digits of a literal of a scalar type. -/
def suffix : Scalar → String
  | .uint => "u"
  | .long => "l"
  | .ulong => "ul"
  | .float => "f"
  | _ => ""

/-- Puts a literal in parentheses when it starts with a minus. -/
def parenthesize (text : String) : String :=
  if text.startsWith "-" then "(" ++ text ++ ")" else text

/-- A literal of a narrow type is a cast. -/
def narrow (s : Scalar) (text : String) : String :=
  "(" ++ s.name ++ ")" ++ parenthesize text

def boolean (b : Bool) : String := if b then "true" else "false"

/-- The literal of a floating-point type. -/
def real (s : Scalar) (x : Binary64) : String :=
  if x.isNaN then "NAN"
  else if !x.isFinite then (if x.isNegative then "(-INFINITY)" else "INFINITY")
  else
    let digits := if s = .float then x.narrow.text else x.text
    let digits := if digits.any fun c => c = '.' || c = 'e' then digits else digits ++ ".0"
    parenthesize (digits ++ suffix s)

/-- The value of a signed scalar that an integer is reduced to. -/
def wrapSigned (s : Scalar) (i : Int) : Int := Int.bmod i (Nat.pow 256 s.size)

/-- The value of an unsigned scalar that an integer is reduced to. -/
def wrapUnsigned (s : Scalar) (i : Int) : Int := i % Nat.pow 256 s.size

/-- An integer as a literal of a scalar type, reduced to the range of an integer type. -/
def integer (s : Scalar) (i : Int) : String :=
  match s with
  | .bool => boolean (i ≠ 0)
  | .float | .double => real s (.ofInt i)
  | .char | .short => narrow s (toString (wrapSigned s i))
  | .uchar | .ushort => narrow s (toString (wrapUnsigned s i))
  | .int | .long => parenthesize (toString (wrapSigned s i) ++ suffix s)
  | .uint | .ulong => toString (wrapUnsigned s i) ++ suffix s

/-- A signed word as a literal. -/
def ofInt (s : Scalar) (i : Int64) : String := integer s i.toInt

/-- An unsigned word as a literal. -/
def ofUInt (s : Scalar) (u : UInt64) : String := integer s u.toNat

/-- A real number as a literal; an integer type takes its integer part. -/
def ofReal (s : Scalar) (x : Binary64) : String :=
  if s.isFloat then real s x
  else if s.isSigned then ofInt s x.toInt64
  else if s.isBool then boolean (!x.eq ⟨0⟩)
  else ofUInt s x.toUInt64

def fitsInt (i : Int64) : Bool := -0x80000000 ≤ i.toInt && i.toInt < 0x80000000

def fitsUInt (u : UInt64) : Bool := u.toNat < 0x100000000

/-- A host value as a literal of a scalar type. -/
def scalar (s : Scalar) (h : HostTy) (v : HostValue) : Except LiteralError String :=
  match h, v with
  | .bool, .bool b => if s.isBool then .ok (boolean b) else .error (.format h (.scalar s))
  | .int w, .int i =>
    if w = .native && s = .int && !fitsInt i then .error (.overflow (toString i) s)
    else .ok (ofInt s i)
  | .uint w, .uint u =>
    if w = .native && s = .uint && !fitsUInt u then .error (.overflow (toString u) s)
    else .ok (ofUInt s u)
  | _, .float32 x => .ok (ofReal s x.widen)
  | _, .float64 x => .ok (ofReal s x)
  | _, _ => .error (.format h (.scalar s))

mutual

/-- A host value as a literal of a kernel type. -/
def format (t : Ty) (h : HostTy) (v : HostValue) : Except LiteralError String :=
  match t with
  | .scalar s => scalar s h v
  | .vector s w =>
    match h, v with
    | .array n elem, .list vs =>
      if n = w.lanes then
        match vs.mapM (scalar s elem) with
        | .error e => .error e
        | .ok texts => .ok ("(" ++ t.name ++ ")(" ++ ", ".intercalate texts ++ ")")
      else .error (.format h t)
    | _, _ => .error (.format h t)
  | .tuple ts =>
    match h, v with
    | .struct fs, .list vs =>
      let hs := HostTy.visible fs
      if hs.length = ts.length then
        match formatFields ts (hs.zip (HostTy.visibleValues fs vs)) with
        | .error e => .error e
        | .ok texts => .ok ("(" ++ t.name ++ ")\x7b" ++ ", ".intercalate texts ++ "\x7d")
      else .error (.formatFields h t hs.length ts.length)
    | _, _ => .error (.format h t)
  | t => .error (.formatType t)

/-- The literals of the fields of a tuple. -/
def formatFields (ts : List Ty) (fields : List (HostTy × HostValue)) :
    Except LiteralError (List String) :=
  match ts, fields with
  | t :: ts, (h, v) :: rest =>
    match format t h v with
    | .error e => .error e
    | .ok text =>
      match formatFields ts rest with
      | .error e => .error e
      | .ok texts => .ok (text :: texts)
  | _, _ => .ok []

end

/-- The type of a host value as a literal, and its text.  A native integer outside the range
of the device integer is a long literal. -/
def ofHost (h? : Option HostTy) (v : HostValue) : Except LiteralError (Ty × String) :=
  match HostTy.kernelTyOf h? with
  | .error e => .error (.type e)
  | .ok t =>
    let h := h?.getD .bool
    let t :=
      match h, v with
      | .int .native, .int i => if fitsInt i then t else .scalar .long
      | .uint .native, .uint u => if fitsUInt u then t else .scalar .ulong
      | _, _ => t
    match format t h v with
    | .error e => .error e
    | .ok text => .ok (t, text)

end Literal
end KernelForge
