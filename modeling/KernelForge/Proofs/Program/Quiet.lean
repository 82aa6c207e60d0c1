/-
Actions that only look.

An action is *quiet* when it leaves all memories as they were, however it ends.  Whatever comes
after it finds the memories unchanged.  So of several quiet actions it does not matter which comes
first: all of them have a value, or there is none.
-/
import KernelForge.Proofs.Program.Spares

namespace KernelForge

namespace Exec

variable {α β : Type}

instance : LawfulMonad Exec := by
  refine LawfulMonad.mk' Exec ?_ ?_ ?_
  · intro α x
    funext st
    show Exec.bind x _ st = x st
    unfold Exec.bind
    split <;> simp_all [Function.comp, Exec.pure]
  · intro α β a f
    rfl
  · intro α β γ x f g
    funext st
    show Exec.bind (Exec.bind x f) g st = Exec.bind x (fun a => Exec.bind (f a) g) st
    rcases hx : x st with ⟨outcome, st'⟩
    cases outcome <;> simp only [Exec.bind, hx]

/-- The value of an action from some memories, if it gives one. -/
def value? (x : Exec α) (st : Store) : Option α :=
  match (x st).1 with
  | .ok a => some a
  | _ => none

/-- All memories are afterwards as they were before. -/
def Quiet (x : Exec α) : Prop := ∀ st, (x st).2 = st

variable {x : Exec α} {f : α → Exec β} {st : Store}

/-- What leaves every single memory alone is quiet. -/
theorem quiet_of_spares {P : Nat → α → Prop} (h : ∀ m, Spares m x (P m)) : Quiet x :=
  fun st => Array.ext_getElem? fun m => (h m st).1

theorem quiet_pure (a : α) : Quiet (Pure.pure a : Exec α) := fun _ => rfl

theorem quiet_crash : Quiet (crash : Exec α) := fun _ => rfl

theorem Quiet.bind (hx : Quiet x) (hf : ∀ a, Quiet (f a)) : Quiet (x >>= f) := by
  intro st
  have hst := hx st
  show (Exec.bind x f st).2 = st
  unfold Exec.bind
  rcases hrun : x st with ⟨outcome, st'⟩
  rw [hrun] at hst
  cases outcome with
  | ok a => exact (hf a st').trans hst
  | failed c => exact hst
  | crashed c => exact hst
  | exhausted => exact hst

/-- What comes after a quiet action starts from the same memories. -/
theorem Quiet.value?_bind (hx : Quiet x) (f : α → Exec β) (st : Store) :
    (x >>= f).value? st = (x.value? st).bind fun a => (f a).value? st := by
  have hst := hx st
  unfold value?
  show (match (Exec.bind x f st).1 with | .ok b => some b | _ => none) = _
  unfold Exec.bind
  rcases hrun : x st with ⟨outcome, st'⟩
  rw [hrun] at hst
  cases hst
  cases outcome <;> rfl

/-- An action that has a value gives it. -/
theorem Quiet.run_of_value? (hx : Quiet x) {a : α} (h : x.value? st = some a) :
    x st = (.ok a, st) := by
  have hst := hx st
  unfold value? at h
  rcases hrun : x st with ⟨outcome, st'⟩
  rw [hrun] at hst h
  cases hst
  cases outcome with
  | ok b =>
    cases h
    rfl
  | _ => cases h

/-- An action that has no value ends whatever follows it. -/
theorem Quiet.bind_of_no_value (hx : Quiet x) (h : x.value? st = none) (f : α → Exec β) :
    ((x >>= f) st).2 = st ∧ ∀ b, ((x >>= f) st).1 ≠ .ok b := by
  have hst := hx st
  unfold value? at h
  show (Exec.bind x f st).2 = st ∧ ∀ b, (Exec.bind x f st).1 ≠ .ok b
  unfold Exec.bind
  rcases hrun : x st with ⟨outcome, st'⟩
  rw [hrun] at hst h
  cases hst
  cases outcome with
  | ok a => cases h
  | failed c => exact ⟨rfl, nofun⟩
  | crashed c => exact ⟨rfl, nofun⟩
  | exhausted => exact ⟨rfl, nofun⟩

/-! ### Actions that give the same values -/

/-- A value that an action gives from some memories. -/
def Yields (x : Exec α) (a : α) : Prop := ∃ st, x.value? st = some a

theorem yields_pure {a b : α} (h : Yields (Pure.pure a : Exec α) b) : b = a := by
  obtain ⟨st, hst⟩ := h
  exact (Option.some.inj hst).symm

theorem Quiet.yields_bind (hx : Quiet x) {b : β} (h : Yields (x >>= f) b) :
    ∃ a, Yields x a ∧ Yields (f a) b := by
  obtain ⟨st, hst⟩ := h
  rw [hx.value?_bind] at hst
  obtain ⟨a, ha, hb⟩ := Option.bind_eq_some_iff.mp hst
  exact ⟨a, ⟨st, ha⟩, st, hb⟩

theorem Quiet.yields_map (hx : Quiet x) {a : α} (h : Yields x a) (k : α → β) :
    Yields (x >>= fun a => (Pure.pure (k a) : Exec β)) (k a) := by
  obtain ⟨st, hst⟩ := h
  exact ⟨st, by rw [hx.value?_bind, hst]; rfl⟩

theorem Safe.of_yields {Q : α → Prop} (hx : Safe x Q) {a : α} (h : Yields x a) : Q a := by
  obtain ⟨st, hst⟩ := h
  have hsound := hx st
  unfold value? at hst
  rcases hrun : (x st).1 with b | c | c | _ <;> rw [hrun] at hst hsound
  · cases hst
    exact hsound
  all_goals cases hst

/-- From any memories both give the same value, or neither gives one. -/
def Alike (x y : Exec α) : Prop := ∀ st, x.value? st = y.value? st

theorem alike_refl (x : Exec α) : Alike x x := fun _ => rfl

theorem Alike.trans {y z : Exec α} (h : Alike x y) (h' : Alike y z) : Alike x z :=
  fun st => (h st).trans (h' st)

theorem Alike.yields {y : Exec α} (h : Alike x y) {a : α} (ha : Yields x a) : Yields y a := by
  obtain ⟨st, hst⟩ := ha
  exact ⟨st, (h st).symm.trans hst⟩

/-- What comes after the same values, and is the same after each of them. -/
theorem Alike.bind {y : Exec α} {g : α → Exec β} (h : Alike x y) (hx : Quiet x) (hy : Quiet y)
    (hfg : ∀ a, Yields x a → Alike (f a) (g a)) : Alike (x >>= f) (y >>= g) := by
  intro st
  rw [hx.value?_bind, hy.value?_bind, ← h st]
  cases hst : x.value? st with
  | none => rfl
  | some a => exact hfg a ⟨st, hst⟩ st

/-- What comes after one action may depend on the values that it gives. -/
theorem Quiet.alike_bind {g : α → Exec β} (hx : Quiet x)
    (hfg : ∀ a, Yields x a → Alike (f a) (g a)) : Alike (x >>= f) (x >>= g) :=
  (alike_refl x).bind hx hx hfg

/-- **Of two quiet actions either may come first.** -/
theorem alike_swap {γ : Type} {y : Exec β} (hx : Quiet x) (hy : Quiet y) (k : α → β → Exec γ) :
    Alike (x >>= fun a => y >>= fun b => k a b) (y >>= fun b => x >>= fun a => k a b) := by
  intro st
  simp only [hx.value?_bind, hy.value?_bind]
  cases x.value? st <;> cases y.value? st <;> rfl

end Exec

end KernelForge
