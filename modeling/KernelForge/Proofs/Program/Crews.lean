/-
A kernel that is run by a crew.

However many workers share a range and whichever of them goes at a turn, they do nothing but run
items, one after another.  So what every item keeps is kept by every crew, also when some items
fail and the others go on.  A worker that is alone runs the items in the order of their numbers,
and the first failure ends the range.

The number of turns is a bound only: every turn takes an item away from what is left, so that
nothing is left when the turns are over, and more turns change nothing.
-/
import KernelForge.Program.Crew

namespace KernelForge

/-- An outcome with another error. -/
def Outcome.mapError {ε δ α : Type} (f : ε → δ) : Outcome ε α → Outcome δ α
  | .ok a => .ok a
  | .failed e => .failed (f e)
  | .crashed c => .crashed c
  | .exhausted => .exhausted

namespace Crew

variable {next : List Nat} {i id : Nat}

/-! ### Turns -/

theorem turnsFor_eraseIdx (count : Nat) (h : next[i]? = some id) :
    turnsFor count (next.eraseIdx i) + (count - id + 1) = turnsFor count next := by
  induction next generalizing i with
  | nil => simp at h
  | cons first next ih =>
    cases i with
    | zero =>
      obtain rfl : first = id := by simpa using h
      exact Nat.add_comm _ _
    | succ i =>
      have := ih (i := i) (by simpa using h)
      simp only [turnsFor, List.eraseIdx_cons_succ] at this ⊢
      omega

theorem turnsFor_set (count id' : Nat) (h : next[i]? = some id) :
    turnsFor count (next.set i id') + (count - id + 1) = turnsFor count next + (count - id' + 1) := by
  induction next generalizing i with
  | nil => simp at h
  | cons first next ih =>
    cases i with
    | zero =>
      obtain rfl : first = id := by simpa using h
      simp only [turnsFor, List.set_cons_zero]
      omega
    | succ i =>
      have := ih (i := i) (by simpa using h)
      simp only [turnsFor, List.set_cons_succ] at this ⊢
      omega

/-- An item that has been run needs no turn any more. -/
theorem turnsFor_advance (crew : Crew) (count : Nat) (h : next[i]? = some id) :
    turnsFor count (crew.advance count next i id) < turnsFor count next := by
  unfold advance
  split
  · have := turnsFor_set count (id + crew.size) h
    have := crew.size_pos
    omega
  · have := turnsFor_eraseIdx count h
    omega

end Crew

namespace Program

variable {p : Program} {crew : Crew} {rounds : Nat} {fn : CheckedFn} {args : List Value}
  {offset extent : Int} {turns t id : Nat} {next : List Nat} {faults : List RunError} {st : Store}
  {I : Store → Prop}

/-- What is told when no worker has items left. -/
def ending (faults : List RunError) : Outcome (List RunError) Unit :=
  if faults.isEmpty then .ok () else .failed faults

theorem runTurns_none (h : next[crew.turn t % next.length]? = none) :
    p.runTurns crew rounds fn args offset extent turns t next faults st = (ending faults, st) := by
  cases turns with
  | zero => rfl
  | succ turns =>
    rw [runTurns]
    simp only [h]
    rfl

theorem runTurns_some (h : next[crew.turn t % next.length]? = some id) :
    p.runTurns crew rounds fn args offset extent (turns + 1) t next faults st =
      match p.runItem rounds fn args { offset, extent, id } st with
      | (.ok (), st) =>
        p.runTurns crew rounds fn args offset extent turns (t + 1)
          (crew.advance extent.toNat next (crew.turn t % next.length) id) faults st
      | (.failed e, st) =>
        p.runTurns crew rounds fn args offset extent turns (t + 1)
          (next.eraseIdx (crew.turn t % next.length))
          (faults ++ [.item fn.name ({ offset, extent, id } : WorkItem).globalId.toInt e]) st
      | (.crashed c, st) => (.crashed c, st)
      | (.exhausted, st) => (.exhausted, st) := by
  rw [runTurns]
  dsimp only
  split
  · rename_i hnone
    rw [hnone] at h
    cases h
  · rename_i id' hid
    obtain rfl : id' = id := Option.some.inj (hid.symm.trans h)
    rfl

/-- **More turns change nothing**: the turns are over when no worker has items left. -/
theorem runTurns_add (hturns : Crew.turnsFor extent.toNat next ≤ turns) (more : Nat) :
    p.runTurns crew rounds fn args offset extent (turns + more) t next faults st =
      p.runTurns crew rounds fn args offset extent turns t next faults st := by
  induction turns generalizing t next faults st with
  | zero =>
    -- a worker that has items left needs a turn
    obtain rfl : next = [] := by
      cases next with
      | nil => rfl
      | cons id next => simp [Crew.turnsFor] at hturns
    rw [runTurns_none rfl, runTurns_none rfl]
  | succ turns ih =>
    rw [Nat.succ_add]
    cases hid : next[crew.turn t % next.length]? with
    | none => rw [runTurns_none hid, runTurns_none hid]
    | some id =>
      have hadvance := crew.turnsFor_advance extent.toNat hid
      have herase := Crew.turnsFor_eraseIdx extent.toNat hid
      rw [runTurns_some hid, runTurns_some hid]
      rcases p.runItem rounds fn args { offset, extent, id } st with ⟨_ | _ | _ | _, st'⟩
      · exact ih (by omega)
      · exact ih (by omega)
      · rfl
      · rfl

/-! ### What every item keeps -/

theorem keeps_runTurns (hitem : ∀ item st, I st → I (p.runItem rounds fn args item st).2) (h : I st) :
    I (p.runTurns crew rounds fn args offset extent turns t next faults st).2 := by
  induction turns generalizing t next faults st with
  | zero => exact h
  | succ turns ih =>
    cases hid : next[crew.turn t % next.length]? with
    | none =>
      rw [runTurns_none hid]
      exact h
    | some id =>
      have hst := hitem { offset, extent, id } st h
      rw [runTurns_some hid]
      rcases hrun : p.runItem rounds fn args { offset, extent, id } st with ⟨_ | _ | _ | _, st'⟩
      all_goals rw [hrun] at hst
      · exact ih hst
      · exact ih hst
      · exact hst
      · exact hst

/-- **What every item of a kernel keeps is kept by every crew**, whatever fails. -/
theorem keeps_runBy {actuals : List KernelArg}
    (hitem : ∀ args, readArgs fn actuals = .ok args →
      ∀ item st, I st → I (p.runItem rounds fn args item st).2)
    (h : I st) : I (p.runBy crew rounds fn actuals offset extent st).2 := by
  unfold runBy
  split
  · exact h
  · split
    · exact h
    · rename_i args hargs
      exact keeps_runTurns (hitem args hargs) h

/-! ### A worker that is alone -/

theorem getElem?_alone (crew : Crew) (t id : Nat) : [id][crew.turn t % [id].length]? = some id := by
  simp [Nat.mod_one]

/-- A lone worker runs one item after the other. -/
theorem runTurns_alone (halone : crew.size = 1 ∨ extent ≤ 1) (count : Nat) (hturns : count < turns)
    (hid : id + count + 1 = extent.toNat) :
    p.runTurns crew rounds fn args offset extent turns t [id] [] st =
      ((p.runItems rounds fn args offset extent (count + 1) id st).1.mapError ([·]),
        (p.runItems rounds fn args offset extent (count + 1) id st).2) := by
  induction count generalizing turns t id st with
  | zero =>
    obtain ⟨turns, rfl⟩ := Nat.exists_eq_add_one_of_ne_zero (Nat.ne_zero_of_lt hturns)
    have hlast : crew.advance extent.toNat [id] (crew.turn t % [id].length) id = [] := by
      have := crew.size_pos
      simp only [Crew.advance, List.length_singleton, Nat.mod_one, List.eraseIdx_cons_zero]
      rw [if_neg (by omega)]
    rw [runTurns_some (getElem?_alone crew t id), runItems, hlast]
    rcases p.runItem rounds fn args { offset, extent, id } st with ⟨_ | _ | _ | _, st'⟩
    · exact runTurns_none rfl
    · exact runTurns_none (by simp [Nat.mod_one])
    · rfl
    · rfl
  | succ count ih =>
    obtain ⟨turns, rfl⟩ := Nat.exists_eq_add_one_of_ne_zero (Nat.ne_zero_of_lt hturns)
    have hgoes : crew.advance extent.toNat [id] (crew.turn t % [id].length) id = [id + 1] := by
      have hone : crew.size = 1 := by omega
      simp only [Crew.advance, hone, List.length_singleton, Nat.mod_one, List.set_cons_zero]
      rw [if_pos (by omega)]
    rw [runTurns_some (getElem?_alone crew t id), runItems, hgoes]
    rcases p.runItem rounds fn args { offset, extent, id } st with ⟨_ | _ | _ | _, st'⟩
    · exact ih (by omega) (by omega)
    · exact runTurns_none (by simp [Nat.mod_one])
    · rfl
    · rfl

/-- **A crew of one, or with one item to run, does what `runWithin` says.** -/
theorem runBy_alone (halone : crew.size = 1 ∨ extent ≤ 1) (actuals : List KernelArg) :
    p.runBy crew rounds fn actuals offset extent st =
      ((p.runWithin rounds fn actuals offset extent st).1.mapError ([·]),
        (p.runWithin rounds fn actuals offset extent st).2) := by
  unfold runBy runWithin
  split
  · rfl
  · cases readArgs fn actuals with
    | error e => rfl
    | ok vs =>
      cases hcount : extent.toNat with
      | zero =>
        simp only [Nat.min_zero, List.range_zero]
        exact runTurns_none rfl
      | succ count =>
        have hfirst : List.range (min crew.size (count + 1)) = [0] := by
          have := crew.size_pos
          rw [show min crew.size (count + 1) = 1 by omega]
          rfl
        simp only [hfirst]
        have hturns : count < Crew.turnsFor (count + 1) [0] := by
          simp only [Crew.turnsFor]
          omega
        exact runTurns_alone halone count hturns (by omega)

end Program

end KernelForge
