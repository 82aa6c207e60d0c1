/-
Host values in device memory.

A host value is written in the layout of a kernel type: scalars little-endian at the offset
of their field or lane, and nothing else is touched, so padding keeps what it held.  A
number is converted to the scalar that it is written as, and reading converts back to the
number type of the host.
-/
import KernelForge.Bytes
import KernelForge.Host.Basic
import KernelForge.Ty.Layout

namespace KernelForge

/-- Why a host value cannot be written to memory or read from it. -/
inductive HostMemoryError where
  | encodeSpace (t : Ty) (have_ need : Nat)
  | encode (h : HostTy) (t : Ty)
  | encodeFields (h : HostTy) (t : Ty) (got want : Nat)
  | encodeType (t : Ty)
  | decodeSpace (t : Ty) (have_ need : Nat)
  | decode (t : Ty) (h : HostTy)
  | decodeFields (t : Ty) (h : HostTy) (got want : Nat)
  | decodeType (t : Ty)
  | decodeSlice (bytes : Nat) (t : Ty) (size : Nat)
deriving Repr

def HostMemoryError.message : HostMemoryError → String
  | encodeSpace t got need => s!"cannot encode {t} in {got} bytes: {need} bytes required"
  | encode h t => s!"cannot encode {h} as {t}"
  | encodeFields h t got want => s!"cannot encode {h} as {t}: got {got} fields but want {want}"
  | encodeType t => s!"cannot encode values of type {t}"
  | decodeSpace t got need => s!"cannot decode {t} from {got} bytes: {need} bytes required"
  | decode t h => s!"cannot decode {t} into {h}"
  | decodeFields t h got want => s!"cannot decode {t} into {h}: got {got} fields but want {want}"
  | decodeType t => s!"cannot decode values of type {t}"
  | decodeSlice bytes t size =>
    s!"cannot decode {bytes} bytes as elements of {t} ({size} bytes)"

namespace Host

/-! ### Scalars -/

/-- The bytes of a number as a scalar, given its integer part and the number itself. -/
def scalarBytes (s : Scalar) (bits : UInt64) (x : Binary64) : List UInt8 :=
  match s with
  | .bool => [if bits ≠ 0 then 1 else 0]
  | .char | .uchar => Bytes.ofNat 1 bits.toNat
  | .short | .ushort => Bytes.ofNat 2 bits.toNat
  | .int | .uint => Bytes.ofNat 4 bits.toNat
  | .long | .ulong => Bytes.ofNat 8 bits.toNat
  | .float => Bytes.ofNat 4 x.narrow.bits.toNat
  | .double => Bytes.ofNat 8 x.bits.toNat

/-- The bytes of a host value as a scalar. -/
def encodeScalar (s : Scalar) (h : HostTy) (v : HostValue) : Except HostMemoryError (List UInt8) :=
  match v with
  | .bool b => if s.isBool then .ok [if b then 1 else 0] else .error (.encode h (.scalar s))
  | .int i => .ok (scalarBytes s i.toUInt64 (.ofInt i.toInt))
  | .uint u => .ok (scalarBytes s u (.ofInt u.toNat))
  | .float32 x => .ok (scalarBytes s x.widen.toInt64.toUInt64 x.widen)
  | .float64 x => .ok (scalarBytes s x.toInt64.toUInt64 x)
  | _ => .error (.encode h (.scalar s))

/-- A number read from memory: as a signed word, an unsigned word and a double. -/
structure Number where
  signed : Int64
  unsigned : UInt64
  real : Binary64
deriving Repr

def Number.ofInt (i : Int) : Number :=
  ⟨Int64.ofInt i, (Int64.ofInt i).toUInt64, .ofInt i⟩

def Number.ofReal (x : Binary64) : Number := ⟨x.toInt64, x.toUInt64, x⟩

/-- The number that the low `8 * bytes` bits of `n` spell in two's complement. -/
def signedOf (bytes n : Nat) : Int := Int.bmod n (Nat.pow 256 bytes)

/-- The number that the bytes of a scalar stand for. -/
def Number.ofBytes (s : Scalar) (src : List UInt8) : Number :=
  let n := Bytes.toNat (src.take s.size)
  match s with
  | .bool | .uchar | .ushort | .uint | .ulong => .ofInt n
  | .char | .short | .int | .long => .ofInt (signedOf s.size n)
  | .float => .ofReal (Binary32.mk (UInt32.ofNat n)).widen
  | .double => .ofReal ⟨UInt64.ofNat n⟩

/-- The value of a host type that holds a number. -/
def Number.toHost? (x : Number) : HostTy → Option HostValue
  | .bool => some (.bool (x.unsigned ≠ 0))
  | .int w => some (.int (Int64.ofInt (Int.bmod x.signed.toInt (Nat.pow 2 w.bits))))
  | .uint w => some (.uint (UInt64.ofNat (x.unsigned.toNat % Nat.pow 2 w.bits)))
  | .float32 => some (.float32 x.real.narrow)
  | .float64 => some (.float64 x.real)
  | _ => none

/-- Reads a scalar into a value of a host type. -/
def decodeScalar (s : Scalar) (src : List UInt8) (h : HostTy) : Except HostMemoryError HostValue :=
  match (Number.ofBytes s src).toHost? h with
  | some v => .ok v
  | none => .error (.decode (.scalar s) h)

/-! ### Writing -/

/-- Writes the lanes of a vector one after the other. -/
def encodeLanes (s : Scalar) (h : HostTy) (dst : Bytes) (offset : Nat) :
    List HostValue → Except HostMemoryError Bytes
  | [] => .ok dst
  | v :: vs =>
    match encodeScalar s h v with
    | .error e => .error e
    | .ok bs => encodeLanes s h (Bytes.write dst offset bs) (offset + s.size) vs

mutual

/-- Writes a host value at an offset, in the layout of a kernel type. -/
def encodeAt (t : Ty) (h : HostTy) (v : HostValue) (dst : Bytes) (offset : Nat) :
    Except HostMemoryError Bytes :=
  if dst.size - offset < t.size then .error (.encodeSpace t (dst.size - offset) t.size)
  else
    match t with
    | .scalar s =>
      match encodeScalar s h v with
      | .error e => .error e
      | .ok bs => .ok (Bytes.write dst offset bs)
    | .vector s w =>
      match h, v with
      | .array n elem, .list vs =>
        if n = w.lanes then encodeLanes s elem dst offset vs else .error (.encode h t)
      | _, _ => .error (.encode h t)
    | .tuple ts =>
      match h, v with
      | .struct fs, .list vs =>
        let hs := HostTy.visible fs
        if hs.length = ts.length then
          encodeFields ts (hs.zip (HostTy.visibleValues fs vs)) dst offset 0
        else .error (.encodeFields h t hs.length ts.length)
      | _, _ => .error (.encode h t)
    | t => .error (.encodeType t)

/-- Writes the fields of a tuple that starts at `base`; those before end at `used`. -/
def encodeFields (ts : List Ty) (fields : List (HostTy × HostValue)) (dst : Bytes)
    (base used : Nat) : Except HostMemoryError Bytes :=
  match ts, fields with
  | t :: ts, (h, v) :: rest =>
    let at_ := alignUp used t.align
    match encodeAt t h v dst (base + at_) with
    | .error e => .error e
    | .ok dst => encodeFields ts rest dst base (at_ + t.size)
  | _, _ => .ok dst

end

/-- Writes a host value at the start of a block. -/
def encode (t : Ty) (h : HostTy) (v : HostValue) (dst : Bytes) : Except HostMemoryError Bytes :=
  encodeAt t h v dst 0

/-- Writes host values one after the other into a new block. -/
def encodeAll (t : Ty) (h : HostTy) (vs : List HostValue) : Except HostMemoryError Bytes :=
  vs.zipIdx.foldlM (fun dst (v, i) => encodeAt t h v dst (i * t.size))
    (Array.replicate (t.size * vs.length) 0)

/-! ### Reading -/

/-- Reads the lanes of a vector. -/
def decodeLanes (s : Scalar) (src : Bytes) (offset : Nat) (h : HostTy) :
    Nat → Except HostMemoryError (List HostValue)
  | 0 => .ok []
  | n + 1 =>
    match decodeScalar s (Bytes.slice src offset s.size) h with
    | .error e => .error e
    | .ok v =>
      match decodeLanes s src (offset + s.size) h n with
      | .error e => .error e
      | .ok vs => .ok (v :: vs)

/-- The fields of a structure after its visible ones got new values. -/
def refill : List (Bool × HostTy) → List HostValue → List HostValue
  | [], _ => []
  | (true, t) :: fs, vs => t.zero :: refill fs vs
  | (false, _) :: fs, v :: vs => v :: refill fs vs
  | (false, t) :: fs, [] => t.zero :: refill fs []

mutual

/-- Reads a value of a kernel type at an offset into a host type. -/
def decodeAt (t : Ty) (src : Bytes) (offset : Nat) (h : HostTy) :
    Except HostMemoryError HostValue :=
  if src.size - offset < t.size then .error (.decodeSpace t (src.size - offset) t.size)
  else
    match t with
    | .scalar s => decodeScalar s (Bytes.slice src offset s.size) h
    | .vector s w =>
      match h with
      | .array n elem =>
        if n = w.lanes then
          match decodeLanes s src offset elem n with
          | .error e => .error e
          | .ok vs => .ok (.list vs)
        else .error (.decode t h)
      | _ => .error (.decode t h)
    | .tuple ts =>
      match h with
      | .struct fs =>
        let hs := HostTy.visible fs
        if hs.length = ts.length then
          match decodeFields ts src offset 0 hs with
          | .error e => .error e
          | .ok vs => .ok (.list (refill fs vs))
        else .error (.decodeFields t h hs.length ts.length)
      | _ => .error (.decode t h)
    | t => .error (.decodeType t)

/-- Reads the fields of a tuple that starts at `base`; those before end at `used`. -/
def decodeFields (ts : List Ty) (src : Bytes) (base used : Nat) (hs : List HostTy) :
    Except HostMemoryError (List HostValue) :=
  match ts, hs with
  | t :: ts, h :: hs =>
    let at_ := alignUp used t.align
    match decodeAt t src (base + at_) h with
    | .error e => .error e
    | .ok v =>
      match decodeFields ts src base (at_ + t.size) hs with
      | .error e => .error e
      | .ok vs => .ok (v :: vs)
  | _, _ => .ok []

end

/-- Reads a value of a kernel type at the start of a block. -/
def decode (t : Ty) (src : Bytes) (h : HostTy) : Except HostMemoryError HostValue :=
  decodeAt t src 0 h

/-- Reads a whole block as values of a kernel type. -/
def decodeAll (t : Ty) (src : Bytes) (h : HostTy) : Except HostMemoryError (List HostValue) :=
  if t.size = 0 ∨ src.size % t.size ≠ 0 then .error (.decodeSlice src.size t t.size)
  else (List.range (src.size / t.size)).mapM fun i => decodeAt t src (i * t.size) h

end Host
end KernelForge
