/-
Running a kernel by a crew of workers.

The first items of a range go to the workers, and from an item each of them goes on to the one
that is as many items on as there are workers.  The workers take turns, in any order.  A worker
stops at an item that fails, and the others go on without it; what failed is told in the order in
which it did.  A crash ends everything.
-/
import KernelForge.Program.Run

namespace KernelForge

/-- The workers that share a range of items, and which of them goes at each turn. -/
structure Crew where
  size : Nat := 1
  size_pos : 0 < size := by decide
  /-- The place, counted round, of the worker that goes among those that have items left. -/
  turn : Nat → Nat := fun _ => 0

namespace Crew

/-- A worker that is alone. -/
def alone : Crew := {}

instance : Inhabited Crew := ⟨alone⟩

/-- The next items of the workers that have any, when the one at place `i` has run its item `id`. -/
def advance (crew : Crew) (count : Nat) (next : List Nat) (i id : Nat) : List Nat :=
  if id + crew.size < count then next.set i (id + crew.size) else next.eraseIdx i

/-- Turns that are enough for all the items that are left. -/
def turnsFor (count : Nat) : List Nat → Nat
  | [] => 0
  | id :: next => count - id + 1 + turnsFor count next

end Crew

namespace Program

/-- Runs the items of a range in at most `turns` turns, from turn `t` on.  The workers that have items
left are told by their next ones; `faults` have been found so far. -/
def runTurns (p : Program) (crew : Crew) (rounds : Nat) (fn : CheckedFn) (args : List Value)
    (offset extent : Int) (turns t : Nat) (next : List Nat) (faults : List RunError) (st : Store) :
    Outcome (List RunError) Unit × Store :=
  let ending := if faults.isEmpty then .ok () else .failed faults
  match turns with
  | 0 => (ending, st)
  | turns + 1 =>
    let i := crew.turn t % next.length
    match next[i]? with
    | none => (ending, st)
    | some id =>
      let item : WorkItem := { offset, extent, id }
      match p.runItem rounds fn args item st with
      | (.ok (), st) =>
        let next := crew.advance extent.toNat next i id
        runTurns p crew rounds fn args offset extent turns (t + 1) next faults st
      | (.failed e, st) =>
        let faults := faults ++ [.item fn.name item.globalId.toInt e]
        runTurns p crew rounds fn args offset extent turns (t + 1) (next.eraseIdx i) faults st
      | (.crashed c, st) => (.crashed c, st)
      | (.exhausted, st) => (.exhausted, st)

/-- Runs a kernel over a range of work items by a crew, loops having a budget of rounds. -/
def runBy (p : Program) (crew : Crew) (rounds : Nat) (fn : CheckedFn) (args : List KernelArg)
    (offset extent : Int) (st : Store) : Outcome (List RunError) Unit × Store :=
  if extent < 0 ∨ offset < 0 then (.failed [.range fn.name offset extent], st)
  else
    match readArgs fn args with
    | .error e => (.failed [e], st)
    | .ok vs =>
      let count := extent.toNat
      let next := List.range (min crew.size count)
      p.runTurns crew rounds fn vs offset extent (Crew.turnsFor count next) 0 next [] st

end Program
end KernelForge
