/-
The machine: contexts with their buffers, queues, programs and caches.

Everything that has been made keeps its number for good.  A buffer has the number of its
memory.  Buffers and kernels that come from elsewhere have numbers too, but the machine refuses
to use them.
-/
import KernelForge.Collection.Maps
import KernelForge.Device.Options
import KernelForge.Device.ProgramCache
import KernelForge.Device.Queue
import KernelForge.Program.Build

namespace KernelForge

/-- What is done when a context is closed. -/
inductive CloseHook where
  /-- Notes a label. -/
  | note (label : String)
  /-- Empties the registered cache of the context and forgets it. -/
  | dropCache
deriving DecidableEq, Repr, Inhabited

/-- A context, known in messages by its id. -/
structure Context where
  id : String
  closed : Bool := false
  hooks : List CloseHook := []
  queues : List Nat := []
deriving Repr, Inhabited

/-- Where a buffer or a kernel comes from. -/
inductive Origin where
  | context (ctx : Nat)
  /-- From elsewhere; the kind says what it is. -/
  | elsewhere (kind : String)
deriving DecidableEq, Repr, Inhabited

/-- A region of memory. -/
structure Buffer where
  origin : Origin
  size : Nat
  released : Bool := false
deriving Repr, Inhabited

/-- A program that has been built for a context. -/
structure BuiltProgram where
  ctx : Nat
  program : Program
  options : String
deriving Inhabited

/-- A kernel with the arguments that have been set. -/
structure Kernel where
  program : Nat
  fn : CheckedFn
  args : List (Option KernelArg)
deriving Inhabited

/-- A cache of a context, which a store may back. -/
structure ContextCache where
  ctx : Nat
  store? : Option Nat := none
  cache : ProgramCache := {}
deriving Inhabited

/-- The state of the machine. -/
structure Machine where
  memories : Store := #[]
  /-- The workers that run the kernels. -/
  crew : Crew := .alone
  contexts : Array Context := #[]
  buffers : Array Buffer := #[]
  /-- Each queue, with its context. -/
  queues : Array (Nat × Queue) := #[]
  /-- How the commands ended, by the numbers of their events. -/
  events : Array Completion := #[]
  programs : Array BuiltProgram := #[]
  /-- The kernels; one from elsewhere has only a kind. -/
  kernels : Array (Except String Kernel) := #[]
  caches : Array ContextCache := #[]
  /-- The cache that is registered for a context. -/
  registry : Registry Nat Nat := {}
  stores : Array BinaryStore := #[]
  /-- The labels of the hooks that have been called. -/
  notes : List String := []
  /-- The source of every kernel that was to be compiled, each under a line that names it. -/
  trace : String := ""
deriving Inhabited

/-- An action of the machine.  What it did before it failed is done. -/
abbrev Act := ExceptT Fault (StateM Machine)

namespace Act

variable {α : Type}

def fail (text : String) : Act α := throw (.plain text)

def ofExcept : Except Fault α → Act α
  | .ok a => pure a
  | .error f => throw f

/-- Puts the faults of an action into a context. -/
def within (context : String) (act : Act α) : Act α :=
  tryCatch act fun f => throw (.within context f)

end Act

namespace Machine

/-! ### Contexts -/

def newContext (id : String) : Act Nat := modifyGet fun m =>
  (m.contexts.size, { m with contexts := m.contexts.push { id } })

def contextId (ctx : Nat) : Act String := do return ((← get).contexts.getD ctx default).id

/-- Objects to the use of a closed context. -/
def requireOpen (ctx : Nat) : Act Unit := do
  let c := (← get).contexts.getD ctx default
  if c.closed then Act.fail ("context " ++ c.id ++ " has been closed")

def onClose (ctx : Nat) (hook : CloseHook) : Act Unit := modify fun m =>
  { m with contexts := m.contexts.modify ctx fun c => { c with hooks := c.hooks ++ [hook] } }

/-! ### Buffers -/

/-- A new buffer, filled with zeros. -/
def newBuffer (ctx : Nat) (size : Int) : Act Nat := do
  if size ≤ 0 then Act.fail s!"invalid buffer size {size}"
  requireOpen ctx
  modifyGet fun m =>
    (m.buffers.size,
      { m with
        buffers := m.buffers.push { origin := .context ctx, size := size.toNat }
        memories := m.memories.push (Array.replicate size.toNat 0) })

/-- Makes a buffer from elsewhere known. -/
def adoptBuffer (kind : String) (size : Nat) : Act Nat := modifyGet fun m =>
  (m.buffers.size,
    { m with
      buffers := m.buffers.push { origin := .elsewhere kind, size }
      memories := m.memories.push #[] })

/-- Releases a buffer.  Its memory stays for the commands that use it. -/
def releaseBuffer (buf : Nat) : Act Unit := do
  let b := (← get).buffers.getD buf default
  match b.origin with
  | .elsewhere _ => return
  | .context _ =>
    if b.released then Act.fail "buffer released twice"
    modify fun m =>
      { m with buffers := m.buffers.modify buf fun b => { b with released := true } }

/-- The memory of a buffer, for use in a context. -/
def memoryOf (ctx buf : Nat) : Act Nat := do
  let b := (← get).buffers.getD buf default
  match b.origin with
  | .elsewhere kind => Act.fail s!"buffer {kind} not created by the host device"
  | .context owner =>
    if b.released then Act.fail "use of a released buffer"
    if owner ≠ ctx then
      let mine ← contextId owner
      let yours ← contextId ctx
      Act.fail s!"buffer of context {mine} used in context {yours}"
    return buf

/-! ### Programs -/

/-- Builds a program for a context. -/
def build (ctx : Nat) (source : SourceText) (options : String) : Act Nat := do
  if let some log := Device.optionLog? options then throw (.build log)
  match Program.build source with
  | .rejected log => throw (.build (Diagnostic.log log))
  | .crashed => Act.fail "the device compiler has crashed"
  | .built program =>
    modifyGet fun m =>
      (m.programs.size, { m with programs := m.programs.push { ctx, program, options } })

/-- The bytes that the binary of a program starts with. -/
def binaryMark : List UInt8 := "GXHOSTCL\x01".toUTF8.toList

/-- The binary of a program: the mark and the source. -/
def binary (prog : Nat) : Act (List UInt8) := do
  let p := (← get).programs.getD prog default
  return binaryMark ++ p.program.source.bytes

/-- The source in a binary. -/
def sourceOfBinary? (binary : List UInt8) : Option SourceText :=
  if binaryMark.isPrefixOf binary then some (.ofBytes (binary.drop binaryMark.length)) else none

/-- Builds a program from its binary. -/
def buildBinary (ctx : Nat) (binary : List UInt8) (options : String) : Act Nat :=
  match sourceOfBinary? binary with
  | some source => build ctx source options
  | none => Act.fail ("invalid program binary: not built by the " ++ Device.name)

/-! ### Kernels -/

/-- A new kernel of a program, without arguments. -/
def newKernel (prog : Nat) (name : String) : Act Nat := do
  let p := (← get).programs.getD prog default
  let fn ← Act.ofExcept (p.program.kernel name)
  modifyGet fun m =>
    (m.kernels.size,
      { m with kernels := m.kernels.push (.ok { program := prog, fn, args := fn.params.map fun _ => none }) })

/-- Makes a kernel from elsewhere known. -/
def adoptKernel (kind : String) : Act Nat := modifyGet fun m =>
  (m.kernels.size, { m with kernels := m.kernels.push (.error kind) })

/-- The parameter of a kernel at an index. -/
def param (k : Kernel) (index : Int) : Act (String × Ty) :=
  match if index < 0 then none else k.fn.params[index.toNat]? with
  | some p => return p
  | none => Act.fail ("kernel " ++ k.fn.name ++ s!" has no argument {index}")

def putArg (kernel : Nat) (index : Int) (arg : KernelArg) : Act Unit := modify fun m =>
  { m with
    kernels := m.kernels.modify kernel fun k =>
      k.map fun k => { k with args := k.args.set index.toNat (some arg) } }

/-- The argument of a kernel in messages. -/
def argText (k : Kernel) (index : Int) (param : String) : String :=
  "kernel " ++ k.fn.name ++ s!": argument {index} ({param})"

/-- Sets an argument to a value, given its bytes. -/
def setArg (kernel : Nat) (index : Int) (bytes : List UInt8) : Act Unit := do
  match (← get).kernels.getD kernel (.error "") with
  | .error _ => return
  | .ok k =>
    let (name, t) ← param k index
    match t with
    | .pointer _ _ _ => Act.fail (argText k index name ++ " is a buffer")
    | t =>
      if bytes.length ≠ t.size then
        Act.fail (argText k index name ++ " of type " ++ t.name ++ " has " ++ toString t.size ++
          " bytes but got " ++ toString bytes.length)
      putArg kernel index { bytes }

/-- Sets an argument to a buffer. -/
def setArgBuffer (kernel : Nat) (index : Int) (buf : Nat) : Act Unit := do
  match (← get).kernels.getD kernel (.error "") with
  | .error _ => return
  | .ok k =>
    let (name, t) ← param k index
    match t with
    | .pointer _ _ _ =>
      let p := (← get).programs.getD k.program default
      let memory ← Act.within (argText k index name) (memoryOf p.ctx buf)
      putArg kernel index { memory? := some memory }
    | t => Act.fail (argText k index name ++ " of type " ++ t.name ++ " is not a buffer")

/-- The arguments of a kernel, all of which must have been set. -/
def snapshot (k : Kernel) : Act (List KernelArg) :=
  match k.args.findIdx? Option.isNone with
  | some i =>
    Act.fail (argText k i ((k.fn.params.getD i ("", .void)).1) ++ " has not been set")
  | none => return k.args.filterMap id

/-! ### Queues -/

def newQueue (ctx : Nat) : Act Nat := do
  requireOpen ctx
  modifyGet fun m =>
    let q := m.queues.size
    (q, { m with
      queues := m.queues.push (ctx, {})
      contexts := m.contexts.modify ctx fun c => { c with queues := c.queues ++ [q] } })

def queueContext (q : Nat) : Act Nat := do return ((← get).queues.getD q (0, {})).1

/-- Runs the commands of a queue that wait, and notes how they ended. -/
def drain (q : Nat) : Act Unit := modify fun m =>
  let (ctx, queue) := m.queues.getD q (0, {})
  let store := m.memories
  let m := { m with memories := #[] }
  let (done, queue, store) := queue.drain store
  { m with
    memories := store
    queues := m.queues.setIfInBounds q (ctx, queue)
    events := done.foldl (fun es (e, c) => es.setIfInBounds e c) m.events }

/-- Enqueues a command, and gives the number of its event. -/
def enqueue (q : Nat) (c : Command) : Act Nat := do
  let m ← get
  let (ctx, queue) := m.queues.getD q (0, {})
  let event := m.events.size
  let queue ← Act.ofExcept (queue.enqueue event c)
  modify fun m =>
    { m with
      queues := m.queues.setIfInBounds q (ctx, queue)
      events := m.events.push (.ok []) }
  drain q
  return event

/-- Waits for a command: the bytes that it read, or its fault. -/
def wait (event : Nat) : Act (List UInt8) := do
  Act.ofExcept ((← get).events.getD event (.ok []))

/-- Runs a kernel over a range of work items. -/
def enqueueRange (q kernel : Nat) (offset extent : Int) : Act Nat := do
  match (← get).kernels.getD kernel (.error "") with
  | .error kind => Act.fail s!"kernel {kind} not created by the host device"
  | .ok k =>
    let p := (← get).programs.getD k.program default
    let ctx ← queueContext q
    if p.ctx ≠ ctx then
      let mine ← contextId p.ctx
      let yours ← contextId ctx
      Act.fail ("kernel " ++ k.fn.name ++ s!" of context {mine} enqueued in context {yours}")
    let args ← snapshot k
    if offset < 0 ∨ extent < 0 then
      Act.fail (s!"invalid range offset {offset} extent {extent} for kernel " ++ k.fn.name)
    enqueue q (.run p.program k.fn args offset extent (← get).crew)

/-- Runs a kernel as one work item. -/
def enqueueTask (q kernel : Nat) : Act Nat := enqueueRange q kernel 0 1

/-- Objects to a range of bytes outside a buffer.  The end of the range may wrap. -/
def requireRange (buf : Nat) (offset : Int) (size : Nat) : Act Unit := do
  let b := (← get).buffers.getD buf default
  let finish := wrap64 (offset + size)
  if offset < 0 ∨ (b.size : Int) < finish then
    Act.fail (s!"range [{offset}:{finish}] out of bounds of a buffer of " ++ toString b.size ++ " bytes")

/-- A range whose end has wrapped is no part of a memory: the device crashes when it comes to it.  A
queue that is out of use or has a fault never does. -/
def requireUnwrapped (q : Nat) (offset : Int) (size : Nat) : Act Unit := do
  let queue := ((← get).queues.getD q (0, {})).2
  if wrap64 (offset + size) < offset ∧ queue.failed?.isNone ∧ queue.released = false then
    Act.fail "the device has crashed"

def enqueueWrite (q buf : Nat) (offset : Int) (data : List UInt8) : Act Nat := do
  let memory ← memoryOf (← queueContext q) buf
  requireRange buf offset data.length
  requireUnwrapped q offset data.length
  enqueue q (.write memory offset.toNat data)

def enqueueRead (q buf : Nat) (offset : Int) (size : Nat) : Act Nat := do
  let memory ← memoryOf (← queueContext q) buf
  requireRange buf offset size
  requireUnwrapped q offset size
  enqueue q (.read memory offset.toNat size)

/-- Waits for all commands of a queue, and reports the first fault since the last time. -/
def finish (q : Nat) : Act Unit := do
  let _ ← enqueue q .finish
  let fault? ← modifyGet fun m =>
    let (ctx, queue) := m.queues.getD q (0, {})
    let (fault?, queue) := queue.takeFault
    (fault?, { m with queues := m.queues.setIfInBounds q (ctx, queue) })
  match fault? with
  | some f => throw f
  | none => return

/-- Finishes a queue for good. -/
def releaseQueue (q : Nat) : Act Unit := do
  let (ctx, queue) := (← get).queues.getD q (0, {})
  if queue.released then return
  let release : Act Unit := modify fun m =>
    { m with
      queues := m.queues.modify q fun (c, x) => (c, { x with released := true })
      contexts := m.contexts.modify ctx fun c => { c with queues := c.queues.filter (· != q) } }
  tryCatch (finish q) fun f => do
    release
    throw f
  release

/-! ### Closing -/

/-- Does what was asked for when a context is closed. -/
def callHook (ctx : Nat) : CloseHook → Act Unit
  | .note label => modify fun m => { m with notes := m.notes ++ [label] }
  | .dropCache => modify fun m =>
    let (cache?, registry) := m.registry.remove ctx
    match cache? with
    | none => m
    | some c =>
      { m with
        registry
        caches := m.caches.modify c fun c => { c with cache := c.cache.clear } }

/-- The faults of some actions that are all done. -/
def faultsOf (acts : List (Act Unit)) : Act (List Fault) :=
  match acts with
  | [] => return []
  | act :: acts => do
    let fault? ← tryCatch (do act; return none) fun f => return some f
    let faults ← faultsOf acts
    return fault?.toList ++ faults

/-- Closes a context: the hooks come first, and then its queues are released. -/
def closeContext (ctx : Nat) : Act Unit := do
  let c := (← get).contexts.getD ctx default
  if c.closed then return
  modify fun m =>
    { m with
      contexts := m.contexts.modify ctx fun c => { c with closed := true, hooks := [], queues := [] } }
  for hook in c.hooks do callHook ctx hook
  let faults ← faultsOf (c.queues.map releaseQueue)
  match Fault.join? faults with
  | some f => throw f
  | none => return

/-! ### Caches -/

/-- A new cache for a context. -/
def newCache (ctx : Nat) (capacity? : Option Int) (store? : Option Nat) : Act Nat :=
  modifyGet fun m =>
    let cache := match capacity? with
      | some n => ProgramCache.withCapacity n
      | none => {}
    (m.caches.size, { m with caches := m.caches.push { ctx, store?, cache } })

/-- The registered cache of a context, made when it is first asked for. -/
def cacheOf (ctx : Nat) (capacity? : Option Int) (store? : Option Nat) : Act Nat := do
  match (← get).registry.get? ctx with
  | some c => return c
  | none =>
    let c ← newCache ctx capacity? store?
    modify fun m => { m with registry := (m.registry.getOrInsert ctx c).2.2 }
    onClose ctx .dropCache
    return c

/-- Changes a cache and takes a result from it. -/
def withCache {α : Type} (cache : Nat) (f : ProgramCache → α × ProgramCache) : Act α :=
  modifyGet fun m =>
    let c := m.caches.getD cache default
    let (a, inner) := f c.cache
    (a, { m with caches := m.caches.setIfInBounds cache { c with cache := inner } })

/-- The program that a cache has for a source. -/
def lookup (cache : Nat) (source options : String) : Act (Option Nat) :=
  withCache cache (·.lookup ProgramKey.hash ⟨source, options⟩)

/-- Puts a program into a cache. -/
def insert (cache : Nat) (source options : String) (prog : Nat) : Act Nat :=
  withCache cache (·.insert ProgramKey.hash ⟨source, options⟩ prog)

def clearCache (cache : Nat) : Act Unit := withCache cache fun c => ((), c.clear)

/-- The key of a program of this device. -/
def keyOf (source options : String) : List UInt8 :=
  binaryKey Device.name Device.version source options

/-! ### Stores -/

/-- A new store of binaries. -/
def newStore : Act Nat := modifyGet fun m => (m.stores.size, { m with stores := m.stores.push {} })

def storeOf (store : Nat) : Act BinaryStore := do return (← get).stores.getD store default

/-- The number of binaries in a store. -/
def storeSize (store : Nat) : Act Nat := do Act.ofExcept (← storeOf store).size

def closeStore (store : Nat) : Act Unit := modify fun m =>
  { m with stores := m.stores.modify store BinaryStore.close }

/-- The binary that a store has for a source. -/
def loadBinary (store : Nat) (source options : String) : Act (Option (List UInt8)) := do
  Act.ofExcept ((← storeOf store).load (keyOf source options))

/-- Keeps a binary for a source in a store. -/
def storeBinary (store : Nat) (source options : String) (bytes : List UInt8) : Act Unit := do
  let s ← Act.ofExcept ((← storeOf store).store (keyOf source options) bytes)
  modify fun m => { m with stores := m.stores.setIfInBounds store s }

/-! ### Programs through caches -/

/-- Loads a program from the store of a cache; what goes wrong counts as not found. -/
def loadStored (cache ctx : Nat) (store : Nat) (source options : String) : Act (Option Nat) := do
  match ← tryCatch (loadBinary store source options) fun _ => return none with
  | some bytes =>
    let prog? ← tryCatch (some <$> buildBinary ctx bytes options) fun _ => return none
    if prog?.isSome then withCache cache fun c => ((), c.countLoad)
    return prog?
  | none => return none

/-- Keeps the binary of a program in a store, if the store takes it. -/
def keepStored (store : Nat) (source options : String) (prog : Nat) : Act Unit := do
  let bytes ← binary prog
  tryCatch (storeBinary store source options bytes) fun _ => return

/-- Builds a program for a cache, counting the build whether it succeeds or not. -/
def buildCounted (cache ctx : Nat) (source options : String) : Act Nat := do
  let built ← tryCatch (.ok <$> build ctx (.ofString source) options) fun f => return .error f
  withCache cache fun c => ((), c.countBuild)
  Act.ofExcept built

/-- Makes a program that a cache does not have: from the store of the cache, or built. -/
def make (cache : Nat) (source options : String) : Act Nat := do
  let c := (← get).caches.getD cache default
  match c.store? with
  | none => buildCounted cache c.ctx source options
  | some store =>
    match ← loadStored cache c.ctx store source options with
    | some prog => return prog
    | none =>
      let prog ← buildCounted cache c.ctx source options
      keepStored store source options prog
      return prog

/-- The program for a source: from the cache, or made and put into it. -/
def getOrBuild (cache : Nat) (source options : String) : Act Nat := do
  match ← lookup cache source options with
  | some prog => return prog
  | none =>
    let prog ← make cache source options
    insert cache source options prog

end Machine
end KernelForge
