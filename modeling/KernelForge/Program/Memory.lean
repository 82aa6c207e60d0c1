/-
Device memory.

A memory is a block of bytes.  Values are read from it and written to it in the layout of
their type, little-endian, and narrow integers take only the bytes that they have.  An access
is checked against the size of the memory on machine integers, which wrap: the end of an
access may wrap around, and then the check lets it pass although no such bytes exist.
-/
import KernelForge.Bytes
import KernelForge.Program.Value

namespace KernelForge

/-- Why the machine itself stops. -/
inductive Crash where
  /-- A value is not of the kind that its type promises. -/
  | mismatch
  /-- An access passed its check, but no memory has such bytes. -/
  | overrun
deriving DecidableEq, Repr

/-- The outcome of running something. -/
inductive Outcome (ε α : Type) where
  | ok (a : α)
  | failed (e : ε)
  | crashed (cause : Crash)
  /-- A loop ran longer than it was allowed to. -/
  | exhausted
deriving Repr

namespace Value

/-! ### Bytes of values -/

/-- The lanes of a scalar type that bytes hold. -/
def lanesOfBytes (s : Scalar) (row? : Option Nat) (bs : List UInt8) : Lanes s.register :=
  let cell := fun (bs : List UInt8) =>
    let n := Bytes.toNat (bs.take s.size)
    if s.isNarrow then s.register.ofInt (if s.isSigned then Int.bmod n (Nat.pow 256 s.size) else n)
    else s.register.ofBits n
  match row? with
  | none => .atom (cell bs)
  | some n => .row ((List.range n).map fun i => cell (bs.drop (i * s.size)))

mutual

/-- The value of a type that bytes hold, from an offset on. -/
def decodeAt (t : Ty) (bs : List UInt8) : Except ExecError Value :=
  match t with
  | .void => .error (.notStored .void)
  | .scalar s => .ok (.lanes s.register (lanesOfBytes s none bs))
  | .vector s w => .ok (.lanes s.register (lanesOfBytes s (some w.lanes) bs))
  | .tuple ts =>
    match decodeFields ts bs 0 with
    | .error e => .error e
    | .ok vs => .ok (.record vs)
  | .pointer _ _ _ => .error .loadPointer

/-- The fields of a structure; those before end at `used`. -/
def decodeFields (ts : List Ty) (bs : List UInt8) (used : Nat) :
    Except ExecError (List Value) :=
  match ts with
  | [] => .ok []
  | t :: ts =>
    let start := alignUp used t.align
    match decodeAt t ((bs.drop start).take t.size) with
    | .error e => .error e
    | .ok v =>
      match decodeFields ts bs (start + t.size) with
      | .error e => .error e
      | .ok vs => .ok (v :: vs)

end

/-- The value of a type that bytes hold. -/
def decode (t : Ty) (bs : List UInt8) : Except ExecError Value := decodeAt t bs

/-- The bytes of lanes as a type; only the low bytes of narrow ones are kept. -/
def bytesOfLanes (t : Ty) {e : Elem} (x : Lanes e) : List UInt8 :=
  match t.element? with
  | some s =>
    if s.isNarrow then x.cells.flatMap fun c => Bytes.ofNat s.size (e.bits c) else x.bytes
  | none => x.bytes

mutual

/-- Writes a value of a type into a block from an offset on.  What was written before an error
stays. -/
def encodeAt (t : Ty) (v : Value) (dst : Bytes) (offset : Nat) : Bytes × Outcome ExecError Unit :=
  match v, t with
  | .nothing, _ => (dst, .failed .storeNothing)
  | .pointer _, _ => (dst, .failed .storePointer)
  | .lanes _ x, t => (Bytes.write dst offset ((bytesOfLanes t x).take t.size), .ok ())
  | .record vs, .tuple ts => encodeFields ts vs dst offset 0
  | .record _, t => (dst, .failed (.storeRecord t))

/-- Writes the fields of a structure that starts at `base`; those before end at `used`. -/
def encodeFields (ts : List Ty) (vs : List Value) (dst : Bytes) (base used : Nat) :
    Bytes × Outcome ExecError Unit :=
  match ts, vs with
  | [], _ => (dst, .ok ())
  | _ :: _, [] => (dst, .crashed .mismatch)
  | t :: ts, v :: vs =>
    let start := alignUp used t.align
    match encodeAt t v dst (base + start) with
    | (dst, .ok ()) => encodeFields ts vs dst base (start + t.size)
    | r => r

end

end Value

/-- The memories that a running kernel can reach. -/
abbrev Store := Array Bytes

namespace Store

/-- Where an access lies: at these bytes, outside, or where no memory can be. -/
inductive Access where
  | inside (offset : Nat)
  | outside
  | wrapped
deriving DecidableEq, Repr

/-- Checks an access to `size` bytes at an offset of a memory of `total` bytes. -/
def access (total : Nat) (offset : BitVec 64) (size : Nat) : Access :=
  let finish := offset + BitVec.ofNat 64 size
  if offset.toInt < 0 ∨ (total : Int) < finish.toInt then .outside
  else if finish.toInt < offset.toInt then .wrapped
  else .inside offset.toNat

/-- Reads a value from a memory. -/
def load (st : Store) (memory : Nat) (offset : BitVec 64) (t : Ty) : Outcome ExecError Value :=
  let block := st.getD memory #[]
  match access block.size offset t.size with
  | .outside => .failed (.outOfBounds t offset.toInt block.size)
  | .wrapped => .crashed .overrun
  | .inside start =>
    match Value.decode t (Bytes.slice block start t.size) with
    | .ok v => .ok v
    | .error e => .failed e

/-- Writes a value to a memory. -/
def store (st : Store) (memory : Nat) (offset : BitVec 64) (t : Ty) (v : Value) :
    Store × Outcome ExecError Unit :=
  let block := st.getD memory #[]
  match access block.size offset t.size with
  | .outside => (st, .failed (.outOfBounds t offset.toInt block.size))
  | .wrapped => (st, .crashed .overrun)
  | .inside start =>
    let st := st.setIfInBounds memory #[]
    let (block, outcome) := Value.encodeAt t v block start
    (st.setIfInBounds memory block, outcome)

end Store
end KernelForge
