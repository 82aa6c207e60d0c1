/-
Command queues.

A queue runs its commands one after another.  The first command that fails leaves its fault on
the queue, and as long as it is there no other command runs: each of them fails and names that
fault.  Finishing a queue takes the fault away and reports it.

Sizes, offsets and positions are held in 64-bit integers with a sign, and sums and products of
them wrap.
-/
import KernelForge.Fault
import KernelForge.Program.Crew

namespace KernelForge

/-! ### Integers of the host -/

/-- An integer brought into the range of a 64-bit integer with a sign. -/
def wrap64 (i : Int) : Int := Int.bmod i 0x10000000000000000

theorem wrap64_of_lt {i : Int} (lo : -0x8000000000000000 ≤ i) (hi : i < 0x8000000000000000) :
    wrap64 i = i := by
  unfold wrap64
  rw [Int.bmod_eq_of_le] <;> omega

/-! ### Commands and queues -/

/-- A command for a device. -/
inductive Command where
  | run (program : Program) (fn : CheckedFn) (args : List KernelArg) (offset extent : Int) (crew : Crew)
  | write (memory : Nat) (offset : Nat) (data : List UInt8)
  | read (memory : Nat) (offset size : Nat)
  /-- Does nothing, but comes after all commands before it. -/
  | finish
deriving Inhabited

namespace Command

/-- The name of a command in messages. -/
def name : Command → String
  | run _ fn _ offset extent _ =>
    "kernel " ++ fn.name ++ "[" ++ toString offset ++ ":" ++ toString (wrap64 (offset + extent)) ++ "]"
  | write _ _ _ => "write"
  | read _ _ _ => "read"
  | finish => "finish"

/-- The fault of a run that did not end well. -/
def runFault? : Outcome (List RunError) Unit → Option Fault
  | .ok () => none
  | .failed es => Fault.join? (es.map fun e => .plain e.message)
  | .crashed _ => some (.plain "the device has crashed")
  | .exhausted => some (.plain "the device has run out of time")

/-- Does what a command says; the bytes are those that were read. -/
def execute (c : Command) (st : Store) : Except Fault (List UInt8) × Store :=
  match c with
  | run p fn args offset extent crew =>
    let (outcome, st) := p.runBy crew Program.loopBudget fn args offset extent st
    match runFault? outcome with
    | none => (.ok [], st)
    | some f => (.error f, st)
  | write memory offset data =>
    let block := st.getD memory #[]
    (.ok [], (st.setIfInBounds memory #[]).setIfInBounds memory (Bytes.write block offset data))
  | read memory offset size => (.ok (Bytes.slice (st.getD memory #[]) offset size), st)
  | finish => (.ok [], st)

end Command

/-- How a command ended: with the bytes that it read, or with a fault. -/
abbrev Completion := Except Fault (List UInt8)

/-- A queue of commands, each with the number of the event that tells of its end. -/
structure Queue where
  pending : List (Nat × Command) := []
  failed? : Option Fault := none
  released : Bool := false
deriving Inhabited

namespace Queue

/-- The fault of a command that does not run because of an earlier one. -/
def poisoned (c : Command) (earlier : Fault) : Fault :=
  .execution c.name (.within "a previous command failed" earlier)

/-- Appends a command. -/
def enqueue (q : Queue) (event : Nat) (c : Command) : Except Fault Queue :=
  if q.released then .error (.plain ("cannot enqueue " ++ c.name ++ ": queue has been released"))
  else .ok { q with pending := q.pending ++ [(event, c)] }

/-- A command that has been taken off a queue, and the fault that was on the queue then. -/
structure Taken where
  event : Nat
  command : Command
  earlier? : Option Fault
deriving Inhabited

namespace Taken

/-- Runs a command, unless an earlier one has failed. -/
def run (t : Taken) (st : Store) : Completion × Store :=
  match t.earlier? with
  | some f => (.error (poisoned t.command f), st)
  | none =>
    match t.command.execute st with
    | (.ok bytes, st) => (.ok bytes, st)
    | (.error f, st) => (.error (.execution t.command.name f), st)

/-- The fault that a command leaves behind: only a command that ran does. -/
def fault? (t : Taken) : Completion → Option Fault
  | .ok _ => none
  | .error f => if t.earlier?.isSome then none else some f

end Taken

/-- Takes the first command off a queue. -/
def take (q : Queue) : Option (Taken × Queue) :=
  match q.pending with
  | [] => none
  | (event, command) :: rest =>
    some ({ event, command, earlier? := q.failed? }, { q with pending := rest })

/-- Leaves a fault on a queue, unless there is one. -/
def note (q : Queue) (fault? : Option Fault) : Queue := { q with failed? := q.failed?.or fault? }

/-- Takes the first command and runs it, unless an earlier one has failed. -/
def step (q : Queue) (st : Store) : Option ((Nat × Completion) × Queue × Store) :=
  match q.take with
  | none => none
  | some (t, q) =>
    let (r, st) := t.run st
    some ((t.event, r), q.note (t.fault? r), st)

/-- Takes `n` commands, and gives how they ended. -/
def steps : Nat → Queue → Store → List (Nat × Completion) × Queue × Store
  | 0, q, st => ([], q, st)
  | n + 1, q, st =>
    match q.step st with
    | none => ([], q, st)
    | some (done, q, st) =>
      let (more, q, st) := steps n q st
      (done :: more, q, st)

/-- Runs all commands that wait. -/
def drain (q : Queue) (st : Store) : List (Nat × Completion) × Queue × Store :=
  steps q.pending.length q st

/-- Takes the fault away. -/
def takeFault (q : Queue) : Option Fault × Queue := (q.failed?, { q with failed? := none })

end Queue
end KernelForge
