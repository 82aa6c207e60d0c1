/-
What a running kernel does to its memories.

An action takes the memories and gives them back with an outcome: a value, a failure, a broken
invariant of the machine, or a loop that ran too long.  What an action wrote before it failed
stays written.
-/
import KernelForge.Program.Memory

namespace KernelForge

/-- An action on the memories. -/
def Exec (α : Type) := Store → Outcome ExecError α × Store

namespace Exec

variable {α β : Type}

def pure (a : α) : Exec α := fun st => (.ok a, st)

/-- Goes on with the value of an action; any other outcome ends it. -/
def bind (x : Exec α) (f : α → Exec β) : Exec β := fun st =>
  match x st with
  | (.ok a, st) => f a st
  | (.failed e, st) => (.failed e, st)
  | (.crashed c, st) => (.crashed c, st)
  | (.exhausted, st) => (.exhausted, st)

instance : Monad Exec where
  pure := pure
  bind := bind

instance : Inhabited (Exec α) := ⟨fun st => (.crashed .mismatch, st)⟩

def fail (e : ExecError) : Exec α := fun st => (.failed e, st)

/-- Stops because of a value of the wrong kind. -/
def crash : Exec α := fun st => (.crashed .mismatch, st)

/-- The result of an operation on lanes. -/
def ofLanes : Except LaneError α → Exec α
  | .ok a => pure a
  | .error e => fail (.lane e)

def ofExcept : Except ExecError α → Exec α
  | .ok a => pure a
  | .error e => fail e

def load (memory : Nat) (offset : BitVec 64) (t : Ty) : Exec Value := fun st =>
  (st.load memory offset t, st)

def store (memory : Nat) (offset : BitVec 64) (t : Ty) (v : Value) : Exec Unit := fun st =>
  let (st, outcome) := st.store memory offset t v
  (outcome, st)

end Exec

/-! ### Locations -/

/-- Where a value is kept: in a variable, in a memory, or as a part of another value. -/
inductive Loc where
  | var (slot : Nat)
  | mem (memory : Nat) (offset : BitVec 64) (elem : Ty)
  | field (parent : Loc) (i : Nat)
  | lanes (parent : Loc) (is : List Nat)
deriving DecidableEq, Repr, Inhabited

/-- The variables of a function call, by slot. -/
abbrev Vars := Array Value

namespace Loc

/-- The location of a field.  In memory it is a location of its own. -/
def fieldOf (l : Loc) (fields : List Ty) (i : Nat) : Loc :=
  match l with
  | mem memory offset _ =>
    mem memory (offset + BitVec.ofNat 64 ((Ty.fieldOffsets fields).getD i 0)) (fields.getD i .void)
  | l => field l i

/-- The value at a location. -/
def load (vars : Vars) : Loc → Exec Value
  | var slot => .pure (vars.getD slot .nothing)
  | mem memory offset elem => .load memory offset elem
  | field parent i => do
    match ← parent.load vars with
    | .record vs =>
      match vs[i]? with
      | some v => .pure v
      | none => .crash
    | _ => .crash
  | lanes parent is => do
    match ← parent.load vars with
    | .lanes e x => return .lanes e (← .ofLanes (Value.selectLanes x is))
    | _ => .crash

/-- Replaces the value at a location; the result is the variables afterwards. -/
def store (vars : Vars) (v : Value) : Loc → Exec Vars
  | var slot => .pure (vars.setIfInBounds slot v)
  | mem memory offset elem => do
    Exec.store memory offset elem v
    return vars
  | field parent i => do
    match ← parent.load vars with
    | .record vs => if i < vs.length then parent.store vars (.record (vs.set i v)) else .crash
    | _ => .crash
  | lanes parent is => do
    match ← parent.load vars, v with
    | .lanes e x, .lanes f y =>
      if h : f = e then
        let z ← Exec.ofLanes (Value.setLanes x is (h ▸ y))
        parent.store vars (.lanes e z)
      else .crash
    | _, _ => .crash

end Loc
end KernelForge
