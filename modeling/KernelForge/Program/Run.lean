/-
Running a kernel over a range of work items.

The arguments are read once, before any item runs.  The items run in the order of their
numbers, and the first failure ends the range; what was written until then stays.
-/
import KernelForge.Program.Eval

namespace KernelForge

/-- An argument of a kernel: the bytes of a value, or a memory. -/
structure KernelArg where
  bytes : List UInt8 := []
  memory? : Option Nat := none
deriving Repr, Inhabited

/-- Why running a kernel fails. -/
inductive RunError where
  | range (kernel : String) (offset extent : Int)
  | argCount (kernel : String) (want got : Nat)
  | noBuffer (kernel : String) (index : Nat) (param : String)
  | argSize (kernel : String) (index : Nat) (param : String) (type : Ty) (got want : Nat)
  | argValue (kernel : String) (index : Nat) (param : String) (cause : ExecError)
  | item (kernel : String) (id : Int) (cause : ExecError)
deriving Repr

namespace RunError

def message : RunError → String
  | range kernel offset extent => s!"kernel {kernel}: invalid range offset {offset} extent {extent}"
  | argCount kernel want got => s!"kernel {kernel} expects {want} argument(s) but got {got}"
  | noBuffer kernel index param => s!"kernel {kernel}: argument {index} ({param}) requires a buffer"
  | argSize kernel index param type got want =>
    s!"kernel {kernel}: argument {index} ({param}) of type {type} has {got} bytes but want {want}"
  | argValue kernel index param cause =>
    s!"kernel {kernel}: cannot decode argument {index} ({param}): " ++ cause.message
  | item kernel id cause => s!"kernel {kernel}: work-item {id}: " ++ cause.message

end RunError

namespace Program

/-- The rounds that one loop may run. -/
def loopBudget : Nat := 0x4000000000000000

/-- Reads one argument. -/
def readArg (kernel : String) (index : Nat) (param : String) (t : Ty) (arg : KernelArg) :
    Except RunError Value :=
  match t with
  | .pointer _ _ _ =>
    match arg.memory? with
    | some m => .ok (.pointer ⟨some m, 0⟩)
    | none => .error (.noBuffer kernel index param)
  | t =>
    if arg.bytes.length ≠ t.size then
      .error (.argSize kernel index param t arg.bytes.length t.size)
    else
      match Value.decode t arg.bytes with
      | .ok v => .ok v
      | .error e => .error (.argValue kernel index param e)

/-- Reads the arguments of a kernel, the first of them being number `index`. -/
def readArgsFrom (kernel : String) (index : Nat) :
    List (String × Ty) → List KernelArg → Except RunError (List Value)
  | (param, t) :: params, arg :: args => do
    let v ← readArg kernel index param t arg
    let vs ← readArgsFrom kernel (index + 1) params args
    return v :: vs
  | _, _ => .ok []

def readArgs (fn : CheckedFn) (args : List KernelArg) : Except RunError (List Value) :=
  if args.length ≠ fn.params.length then
    .error (.argCount fn.name fn.params.length args.length)
  else readArgsFrom fn.name 0 fn.params args

/-- Runs one work item, loops having a budget of rounds. -/
def runItem (p : Program) (rounds : Nat) (fn : CheckedFn) (args : List Value) (item : WorkItem) :
    Exec Unit := do
  let _ ← fn.body.run (p.call item rounds maxCallDepth) item rounds (fn.frame args)

/-- Runs the `count` items of a range from number `id` on. -/
def runItems (p : Program) (rounds : Nat) (fn : CheckedFn) (args : List Value)
    (offset extent : Int) : Nat → Nat → Store → Outcome RunError Unit × Store
  | 0, _, st => (.ok (), st)
  | count + 1, id, st =>
    let item : WorkItem := { offset, extent, id }
    match p.runItem rounds fn args item st with
    | (.ok (), st) => runItems p rounds fn args offset extent count (id + 1) st
    | (.failed e, st) => (.failed (.item fn.name item.globalId.toInt e), st)
    | (.crashed c, st) => (.crashed c, st)
    | (.exhausted, st) => (.exhausted, st)

/-- Runs a kernel over a range of work items, loops having a budget of rounds. -/
def runWithin (p : Program) (rounds : Nat) (fn : CheckedFn) (args : List KernelArg)
    (offset extent : Int) (st : Store) : Outcome RunError Unit × Store :=
  if extent < 0 ∨ offset < 0 then (.failed (.range fn.name offset extent), st)
  else
    match readArgs fn args with
    | .error e => (.failed e, st)
    | .ok vs => p.runItems rounds fn vs offset extent extent.toNat 0 st

/-- Runs a kernel over a range of work items. -/
def run (p : Program) (fn : CheckedFn) (args : List KernelArg) (offset extent : Int)
    (st : Store) : Outcome RunError Unit × Store :=
  p.runWithin loopBudget fn args offset extent st

end Program
end KernelForge
