/-
Host values in buffers.

Elements are written and read with exactly the host type that has the type of the elements.  A
read waits for the commands before it; when one of them has failed the queue is finished, so
that the fault is not told again.
-/
import KernelForge.Device.Compile

namespace KernelForge.Machine

/-- The type of elements of a host type. -/
def elemOf (h : HostTy) : Except Fault Ty :=
  match h.kernelTy with
  | .ok t => .ok t
  | .error e => .error (.plain e.message)

/-- Objects to a host type that does not have the type of the elements. -/
def requireElem (h : HostTy) (b : TypedBuffer) : Act Unit :=
  match h.kernelTy with
  | .error e => throw (.kinded .argumentType (.plain e.message))
  | .ok t =>
    if t = b.elem then return
    else
      throw (.ofKind .argumentType
        ("cannot access a buffer of " ++ b.elem.name ++ " with Go type " ++ h.name ++ " (" ++
          t.name ++ ")"))

/-- Waits for a read; after a fault the queue is finished. -/
def waitRead (q event : Nat) : Act (List UInt8) :=
  tryCatch (wait event) fun f => do
    tryCatch (finish q) fun _ => return
    throw f

/-- The host values of elements. -/
def decodeElems (b : TypedBuffer) (h : HostTy) (bytes : List UInt8) : Act (List HostValue) :=
  match Host.decodeAll b.elem bytes.toArray h with
  | .ok vs => return vs
  | .error e => Act.fail e.message

/-- Reads an element. -/
def readScalar (q : Nat) (h : HostTy) (b : TypedBuffer) (index : Int) : Act HostValue := do
  requireElem h b
  let size := b.elem.size
  if index < 0 ∨ (b.length : Int) ≤ index then
    throw (.ofKind .indexRange
      (s!"index {index} out of range of a buffer of " ++ toString b.length ++ " elements"))
  let event ← enqueueRead q b.buffer (wrap64 (index * size)) size
  let bytes ← waitRead q event
  let vs ← decodeElems b h bytes
  return vs.headD h.zero

/-- The fault of a range of elements outside a buffer. -/
def rangeFault (b : TypedBuffer) (index finish : Int) : Fault :=
  .ofKind .indexRange
    (s!"range [{index}:{finish}] out of range of a buffer of " ++ toString b.length ++ " elements")

/-- The bytes that the host can allocate at once. -/
def maxAllocation : Int := 0x1000000000000

/-- Room on the host for bytes that are read.  The host crashes when it is asked for more than it has,
or for a size that has wrapped below zero. -/
def allocate (size : Int) : Act Nat :=
  if size < 0 ∨ maxAllocation < size then Act.fail "the host has crashed" else return size.toNat

/-- Reads `n` elements. -/
def readSlice (q : Nat) (h : HostTy) (b : TypedBuffer) (index n : Int) : Act (List HostValue) := do
  requireElem h b
  if n = 0 then return []
  let finish := wrap64 (index + n)
  if index < 0 ∨ n < 0 ∨ (b.length : Int) < finish then throw (rangeFault b index finish)
  let size := b.elem.size
  let room ← allocate (wrap64 (n * size))
  let event ← enqueueRead q b.buffer (wrap64 (index * size)) room
  let bytes ← waitRead q event
  decodeElems b h bytes

/-- Writes elements, and gives the number of the event. -/
def writeSlice (q : Nat) (h : HostTy) (b : TypedBuffer) (index : Int) (vs : List HostValue) :
    Act Nat := do
  requireElem h b
  let finish := wrap64 (index + vs.length)
  if index < 0 ∨ (b.length : Int) < finish then throw (rangeFault b index finish)
  match Host.encodeAll b.elem h vs with
  | .error e => Act.fail e.message
  | .ok bytes => enqueueWrite q b.buffer (wrap64 (index * b.elem.size)) bytes.toList

/-- Attaches a type to the elements of a buffer. -/
def typed (buf : Nat) (elem : Ty) : Act TypedBuffer := do
  let b := (← get).buffers.getD buf default
  let ctx? := match b.origin with
    | .context ctx => some ctx
    | .elsewhere _ => none
  return { buffer := buf, bytes := b.size, elem, ctx? }

/-- A new buffer for `n` elements of a host type.  It has room for at least one. -/
def makeVector (ctx : Nat) (h : HostTy) (n : Int) : Act TypedBuffer := do
  let elem ← Act.ofExcept (elemOf h)
  if n < 0 then Act.fail s!"cannot allocate a vector of {n} elements"
  let buf ← newBuffer ctx (wrap64 (max n 1 * elem.size))
  let b ← typed buf elem
  return { b with own? := some n.toNat }

/-- A new buffer with host values. -/
def newVector (ctx q : Nat) (h : HostTy) (vs : List HostValue) : Act TypedBuffer := do
  let b ← makeVector ctx h vs.length
  let _ ← writeSlice q h b 0 vs
  return b

/-- A new buffer for one element of a host type. -/
def newScalar (ctx : Nat) (h : HostTy) : Act TypedBuffer := do
  let elem ← Act.ofExcept (elemOf h)
  let buf ← newBuffer ctx elem.size
  typed buf elem

/-- Does something, and then releases a buffer, whatever happens. -/
def releasing {α : Type} (b : TypedBuffer) (act : Act α) : Act α := do
  let result : Except Fault α ← tryCatch (do return .ok (← act)) fun f => return .error f
  let released : Option Fault ←
    tryCatch (do releaseBuffer b.buffer; return none) fun f => return some f
  match result with
  | .ok a =>
    match released with
    | none => return a
    | some f => throw f
  | .error f => throw ((Fault.join? (f :: released.toList)).getD f)

end KernelForge.Machine
