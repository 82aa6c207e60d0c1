/-
Drafts as kernels.

A draft is compiled through the cache of its context, so the same text is built once.  The
arguments that are known are bound; the others are bound to the compiled kernel later, each to
a value of exactly its type.
-/
import KernelForge.Device.Machine
import KernelForge.Draft.Basic

namespace KernelForge

/-- How a draft is compiled. -/
structure CompileOptions where
  options : List String := []
  /-- The cache to use instead of the one that is registered for the context. -/
  cache? : Option Nat := none
deriving Repr, Inhabited

/-- A kernel made from a draft. -/
structure CompiledKernel where
  kernel : Nat
  name : String
  args : List DraftArg
deriving Inhabited

namespace CompiledKernel

def arg? (k : CompiledKernel) (slot : Int) : Option DraftArg :=
  if slot < 0 then none else k.args[slot.toNat]?

end CompiledKernel

/-- A buffer that holds elements of a type. -/
structure TypedBuffer where
  buffer : Nat
  /-- The bytes of the buffer. -/
  bytes : Nat
  elem : Ty
  /-- The number of elements, when it is not what the buffer can hold. -/
  own? : Option Nat := none
  ctx? : Option Nat := none
deriving Repr, Inhabited

namespace TypedBuffer

/-- The number of elements. -/
def length (b : TypedBuffer) : Nat :=
  match b.own? with
  | some n => n
  | none => if b.elem.size = 0 then 0 else b.bytes / b.elem.size

end TypedBuffer

/-- What can be bound to an argument. -/
inductive BoundValue where
  | typed (b : TypedBuffer)
  | raw (buffer : Nat)
  | host (type : Option HostTy) (value : HostValue)
deriving Inhabited

namespace Machine

/-- What the trace says of a kernel. -/
def traceText (name : String) (options source : String) : String :=
  "// kernel " ++ name ++ (if options = "" then "" else " built with " ++ options) ++ "\n" ++
    source ++ "\n"

/-- Binds the known arguments of a kernel, the first of them being number `slot`. -/
def bindPresets (kernel : Nat) (name : String) (slot : Nat) : List DraftArg → Act Unit
  | [] => return
  | a :: as => do
    Act.within ("cannot bind argument " ++ a.name ++ " of kernel " ++ name) do
      match a.buffer?, a.value? with
      | some b, _ => setArgBuffer kernel slot b
      | none, some v => setArg kernel slot v.toList
      | none, none => return
    bindPresets kernel name (slot + 1) as

/-- Compiles the source of a draft for a context. -/
def compileSource (ctx : Nat) (d : Draft) (source : String) (o : CompileOptions) :
    Act CompiledKernel := do
  let cache ← match o.cache? with
    | some c => pure c
    | none => cacheOf ctx none none
  let prog ← getOrBuild cache source (" ".intercalate o.options)
  let kernel ← newKernel prog d.name
  let args := d.part.args
  let params := ((← get).programs.getD prog default).program.kernel? d.name |>.map (·.params.length)
  if params ≠ some args.length then
    Act.fail ("kernel " ++ d.name ++ " has " ++ toString (params.getD 0) ++ " parameters but " ++
      toString args.length ++ " arguments have been registered")
  bindPresets kernel d.name 0 args
  return { kernel, name := d.name, args }

/-- Compiles a draft for a context, and adds its source to the trace first. -/
def compile (ctx : Nat) (d : Draft) (o : CompileOptions) : Act CompiledKernel := do
  let (source, d) := d.source
  modify fun m => { m with trace := m.trace ++ traceText d.name (" ".intercalate o.options) source }
  compileSource ctx d source o

/-- Binds an argument of a compiled kernel.  Values are never converted. -/
def bind (k : CompiledKernel) (slot : Int) (v : BoundValue) : Act Unit := do
  match k.arg? slot with
  | none =>
    throw (.ofKind .argumentType ("kernel " ++ k.name ++ s!" has no argument in slot {slot}"))
  | some a =>
    match v with
    | .typed b =>
      if !a.isBuffer then
        throw (.ofKind .argumentType
          ("cannot bind a buffer to argument " ++ a.name ++ " of type " ++ a.type.name))
      if b.elem ≠ a.elem then
        throw (.ofKind .argumentType
          ("cannot bind a buffer of " ++ b.elem.name ++ " to argument " ++ a.name ++ " of type " ++
            a.type.name))
      setArgBuffer k.kernel slot b.buffer
    | .raw _ =>
      throw (.ofKind .argumentType
        ("cannot bind a buffer with no element type to argument " ++ a.name ++
          ": use dispatch.Typed"))
    | .host h? v =>
      match HostTy.kernelTyOf h?, h? with
      | .error e, _ => throw (.kinded .argumentType (.plain e.message))
      | .ok _, none => return
      | .ok t, some h =>
        if a.isBuffer || t ≠ a.type then
          throw (.ofKind .argumentType
            ("cannot bind a value of type " ++ t.name ++ " (Go type " ++ h.name ++
              ") to argument " ++ a.name ++ " of type " ++ a.type.name))
        match Host.encode t h v (Array.replicate t.size 0) with
        | .error e => Act.fail e.message
        | .ok bytes => setArg k.kernel slot bytes.toList

/-- Runs a compiled kernel as one work item. -/
def runTask (q : Nat) (k : CompiledKernel) : Act Nat :=
  Act.within ("cannot enqueue kernel " ++ k.name) (enqueueTask q k.kernel)

/-- Runs a compiled kernel over a range of work items. -/
def runRange (q : Nat) (k : CompiledKernel) (offset extent : Int) : Act Nat :=
  Act.within ("cannot enqueue kernel " ++ k.name ++ s!" on {extent} work-items")
    (enqueueRange q k.kernel offset extent)

end Machine
end KernelForge
