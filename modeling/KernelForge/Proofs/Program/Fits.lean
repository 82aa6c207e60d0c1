/-
Which values have a type.

A scalar is an atom and a vector a row of its width, both in the register of their element; a
structure is a list of values, one for each field; a pointer is a pointer whatever it points
to; and what has no value is `nothing`.  `Value.Fits` says so by recursion on the type.  It is
the invariant of everything that a kernel computes: the operations of values, given operands
that fit, give results that fit and raise no misfit.

An action is *safe* for a property when, from any memories, it either gives a value with the
property, or fails with something that a kernel may run into (a division by zero, an access
outside of its memory, too many calls within one another), or runs too long.  It never stops
because a value is not of the kind that its type promises, and never complains about the form
of a value.  Memory holds bytes and no types, so safety asks nothing of the memories.
-/
import KernelForge.Builtin
import KernelForge.Program.Eval
import KernelForge.Program.Memory
import KernelForge.Proofs.Lanes.Rows

namespace KernelForge

namespace Ty

/-- The number of lanes of a vector; none for any other type. -/
def row? : Ty → Option Nat
  | .vector _ w => some w.lanes
  | _ => none

theorem element?_eq_some {t : Ty} {s : Scalar} (h : t.element? = some s) :
    t = .scalar s ∨ ∃ w, t = .vector s w := by
  cases t <;> simp_all [element?]

end Ty

namespace Value

mutual

/-- A value has the representation of a type. -/
def Fits (t : Ty) (v : Value) : Prop :=
  match t with
  | .void => v = .nothing
  | .scalar s => ∃ x : Lanes s.register, v = .lanes s.register x ∧ x.row? = none
  | .vector s w => ∃ x : Lanes s.register, v = .lanes s.register x ∧ x.row? = some w.lanes
  | .tuple ts => ∃ vs, v = .record vs ∧ FitsAll ts vs
  | .pointer _ _ _ => ∃ p, v = .pointer p

/-- Values have the representations of some types, one by one. -/
def FitsAll (ts : List Ty) (vs : List Value) : Prop :=
  match ts, vs with
  | [], [] => True
  | t :: ts, v :: vs => Fits t v ∧ FitsAll ts vs
  | _, _ => False

end

/-- Scalars and vectors have the same kind of representation. -/
theorem fits_iff_lanes {t : Ty} {s : Scalar} (h : t.element? = some s) (v : Value) :
    Fits t v ↔ ∃ x : Lanes s.register, v = .lanes s.register x ∧ x.row? = t.row? := by
  rcases Ty.element?_eq_some h with rfl | ⟨w, rfl⟩ <;> simp [Fits, Ty.row?]

theorem fits_lanes {t : Ty} {s : Scalar} (h : t.element? = some s) {x : Lanes s.register}
    (hx : x.row? = t.row?) : Fits t (.lanes s.register x) :=
  (fits_iff_lanes h _).mpr ⟨x, rfl, hx⟩

theorem fits_scalar (s : Scalar) (c : s.register.Cell) :
    Fits (.scalar s) (.lanes s.register (.atom c)) := by
  simp only [Fits]
  exact ⟨_, rfl, rfl⟩

/-! ### Lists of values -/

theorem FitsAll.length_eq {ts : List Ty} {vs : List Value} (h : FitsAll ts vs) :
    vs.length = ts.length := by
  induction ts generalizing vs with
  | nil =>
    cases vs with
    | nil => rfl
    | cons v vs => simp [FitsAll] at h
  | cons t ts ih =>
    cases vs with
    | nil => simp [FitsAll] at h
    | cons v vs =>
      simp only [FitsAll] at h
      rw [List.length_cons, List.length_cons, ih h.2]

theorem FitsAll.getElem? {ts : List Ty} {vs : List Value} (h : FitsAll ts vs) {i : Nat} {t : Ty}
    (ht : ts[i]? = some t) : ∃ v, vs[i]? = some v ∧ Fits t v := by
  induction ts generalizing vs i with
  | nil => simp at ht
  | cons t' ts ih =>
    cases vs with
    | nil => simp [FitsAll] at h
    | cons v vs =>
      simp only [FitsAll] at h
      cases i with
      | zero =>
        simp only [List.getElem?_cons_zero, Option.some.injEq] at ht
        exact ⟨v, rfl, ht ▸ h.1⟩
      | succ i =>
        simp only [List.getElem?_cons_succ] at ht ⊢
        exact ih h.2 ht

theorem FitsAll.set {ts : List Ty} {vs : List Value} (h : FitsAll ts vs) {i : Nat} {t : Ty}
    (ht : ts[i]? = some t) {v : Value} (hv : Fits t v) : FitsAll ts (vs.set i v) := by
  induction ts generalizing vs i with
  | nil => simp at ht
  | cons t' ts ih =>
    cases vs with
    | nil => simp [FitsAll] at h
    | cons w vs =>
      simp only [FitsAll] at h
      cases i with
      | zero =>
        simp only [List.getElem?_cons_zero, Option.some.injEq] at ht
        simp only [List.set_cons_zero, FitsAll]
        exact ⟨ht ▸ hv, h.2⟩
      | succ i =>
        simp only [List.getElem?_cons_succ] at ht
        simp only [List.set_cons_succ, FitsAll]
        exact ⟨h.1, ih h.2 ht⟩

/-! ### Registers -/

theorem narrow_register {s : Scalar} (h : s.isNarrow = true) :
    Lanes.IsNarrowRegister s.register := by
  cases s <;> simp [Scalar.isNarrow] at h <;> exact ⟨_, rfl⟩

theorem narrow_bits {s : Scalar} (h : s.isNarrow = true) : 0 < 8 * s.size ∧ 8 * s.size < 32 := by
  cases s <;> simp_all [Scalar.isNarrow, Scalar.size]

/-- Bringing a register into the range of its type always works and keeps its form. -/
theorem wrapTo_ok {t : Ty} {s : Scalar} (ht : t.element? = some s) (x : Lanes s.register) :
    ∃ y, wrapTo t x = .ok y ∧ y.row? = x.row? := by
  simp only [wrapTo, narrowBits?, ht]
  by_cases hs : s.isNarrow = true
  · rw [if_pos hs]
    have hb := narrow_bits hs
    exact Lanes.wrap_ok (by omega) (by omega) (narrow_register hs) x
  · rw [if_neg hs]
    exact ⟨x, rfl, rfl⟩

theorem castTo_ok (s : Scalar) {e : Elem} (x : Lanes e) :
    ∃ y, castTo s x = .ok y ∧ y.row? = x.row? := by
  obtain ⟨y, hy, hrow⟩ := wrapTo_ok (t := .scalar s) rfl (x.cast s.register)
  exact ⟨y, hy, by rw [hrow, Lanes.row?_cast]⟩

/-! ### Components -/

section Components

variable {e : Elem} {x : Lanes e} {n : Nat}

theorem mapM_lane_ok (hx : x.row? = some n) {is : List Nat} (his : ∀ i ∈ is, i < n) :
    ∃ ys : List (Lanes e), (is.mapM fun i : Nat => x.lane i) = .ok ys ∧
      (ys.flatMap Lanes.cells).length = is.length := by
  induction is with
  | nil => exact ⟨[], rfl, rfl⟩
  | cons i is ih =>
    have hi : i < x.cells.length := by
      rw [Lanes.length_cells hx]
      exact his i (by simp)
    obtain ⟨c, hc⟩ := Lanes.lane_ok hi
    obtain ⟨ys, hys, hlen⟩ := ih fun j hj => his j (by simp [hj])
    refine ⟨.atom c :: ys, ?_, ?_⟩
    · rw [List.mapM_cons, hc, hys]
      rfl
    · rw [List.flatMap_cons, List.length_append, hlen, List.length_cons]
      exact Nat.add_comm 1 is.length

/-- One component is an atom. -/
theorem selectLanes_one (hx : x.row? = some n) {i : Nat} (hi : i < n) :
    ∃ y, selectLanes x [i] = .ok y ∧ y.row? = none := by
  obtain ⟨c, hc⟩ := Lanes.lane_ok (x := x) (i := i) (by rw [Lanes.length_cells hx]; exact hi)
  exact ⟨_, hc, rfl⟩

theorem selectLanes_many (hx : x.row? = some n) {is : List Nat} (his : ∀ i ∈ is, i < n)
    (hlen : 1 < is.length) : ∃ y, selectLanes x is = .ok y ∧ y.row? = some is.length := by
  obtain ⟨ys, hys, hcells⟩ := mapM_lane_ok hx his
  obtain ⟨z, hz, hrow⟩ := Lanes.concat_ok (n := is.length) (by omega) (Or.inl hcells)
  refine ⟨z, ?_, hrow⟩
  match is, hlen with
  | i :: j :: is, _ =>
    show ((i :: j :: is).mapM (fun i : Nat => x.lane i) >>= _) = _
    rw [hys]
    exact hz

theorem setLanes_one (hx : x.row? = some n) {i : Nat} (hi : i < n) {y : Lanes e}
    (hy : y.row? = none) : ∃ z, setLanes x [i] y = .ok z ∧ z.row? = some n := by
  obtain ⟨z, hz, hrow⟩ :=
    Lanes.setLane_ok (x := x) (i := i) (by rw [Lanes.length_cells hx]; exact hi) hy
  exact ⟨z, hz, by rw [hrow, hx]⟩

/-- Setting lanes one after another; `k` is the number of those set before. -/
theorem foldlM_setLane_ok {y : Lanes e} {m : Nat} (hy : y.row? = some m) :
    ∀ (is : List Nat) (k : Nat) {x : Lanes e}, x.row? = some n → (∀ i ∈ is, i < n) →
      k + is.length ≤ m →
      ∃ z, (is.zipIdx k).foldlM
          (fun x p => do x.setLane (p.1 : Nat) (← y.lane (p.2 : Nat))) x = .ok z ∧
        z.row? = some n := by
  intro is
  induction is with
  | nil => intro k x hx _ _; exact ⟨x, rfl, hx⟩
  | cons i is ih =>
    intro k x hx his hlen
    rw [List.length_cons] at hlen
    obtain ⟨c, hc⟩ := Lanes.lane_ok (x := y) (i := k) (by rw [Lanes.length_cells hy]; omega)
    obtain ⟨w, hw, hrow⟩ := Lanes.setLane_ok (x := x) (i := i) (y := .atom c)
      (by rw [Lanes.length_cells hx]; exact his i (by simp)) rfl
    obtain ⟨z, hz, hrow'⟩ := ih (k + 1) (hrow.trans hx) (fun j hj => his j (by simp [hj])) (by omega)
    refine ⟨z, ?_, hrow'⟩
    rw [List.zipIdx_cons, List.foldlM_cons]
    simp only [hc, hw, bind, Except.bind] at hz ⊢
    exact hz

theorem setLanes_many (hx : x.row? = some n) {is : List Nat} (his : ∀ i ∈ is, i < n)
    (hlen : 1 < is.length) {y : Lanes e} (hy : y.row? = some is.length) :
    ∃ z, setLanes x is y = .ok z ∧ z.row? = some n := by
  obtain ⟨z, hz, hrow⟩ := foldlM_setLane_ok hy is 0 hx his (by omega)
  refine ⟨z, ?_, hrow⟩
  match is, hlen with
  | i :: j :: is, _ => exact hz

end Components

/-! ### Values from nothing and from bytes -/

theorem row?_zeros (e : Elem) (n? : Option Nat) : (Lanes.zeros e n?).row? = n? := by
  cases n? with
  | none => rfl
  | some n => exact congrArg some List.length_replicate

mutual

theorem zero_fits : ∀ {t : Ty} {v : Value}, zero t = .ok v → Fits t v
  | .void, v, h => by simp [zero] at h
  | .scalar s, v, h => by
    simp only [zero, Except.ok.injEq] at h
    subst h
    exact fits_lanes (t := .scalar s) rfl (row?_zeros _ _)
  | .vector s w, v, h => by
    simp only [zero, Except.ok.injEq] at h
    subst h
    exact fits_lanes (t := .vector s w) rfl (row?_zeros _ _)
  | .tuple ts, v, h => by
    simp only [zero] at h
    split at h
    · cases h
    · rename_i vs hvs
      cases h
      simp only [Fits]
      exact ⟨vs, rfl, zeros_fit hvs⟩
  | .pointer t space readOnly, v, h => by
    simp only [zero, Except.ok.injEq] at h
    subst h
    simp only [Fits]
    exact ⟨_, rfl⟩

theorem zeros_fit : ∀ {ts : List Ty} {vs : List Value}, zeros ts = .ok vs → FitsAll ts vs
  | [], vs, h => by
    simp only [zeros, Except.ok.injEq] at h
    subst h
    simp [FitsAll]
  | t :: ts, vs, h => by
    simp only [zeros] at h
    split at h
    · cases h
    · rename_i v hv
      split at h
      · cases h
      · rename_i ws hws
        cases h
        simp only [FitsAll]
        exact ⟨zero_fits hv, zeros_fit hws⟩

end

theorem row?_lanesOfBytes (s : Scalar) (n? : Option Nat) (bs : List UInt8) :
    (lanesOfBytes s n? bs).row? = n? := by
  cases n? with
  | none => rfl
  | some n =>
    show some (List.length _) = some n
    rw [List.length_map, List.length_range]

mutual

/-- What is read from bytes fits, whatever the bytes are. -/
theorem decodeAt_fits : ∀ {t : Ty} {bs : List UInt8} {v : Value},
    decodeAt t bs = .ok v → Fits t v
  | .void, bs, v, h => by simp [decodeAt] at h
  | .scalar s, bs, v, h => by
    simp only [decodeAt, Except.ok.injEq] at h
    subst h
    exact fits_lanes (t := .scalar s) rfl (row?_lanesOfBytes _ _ _)
  | .vector s w, bs, v, h => by
    simp only [decodeAt, Except.ok.injEq] at h
    subst h
    exact fits_lanes (t := .vector s w) rfl (row?_lanesOfBytes _ _ _)
  | .tuple ts, bs, v, h => by
    simp only [decodeAt] at h
    split at h
    · cases h
    · rename_i vs hvs
      cases h
      simp only [Fits]
      exact ⟨vs, rfl, decodeFields_fit hvs⟩
  | .pointer t space readOnly, bs, v, h => by simp [decodeAt] at h

theorem decodeFields_fit : ∀ {ts : List Ty} {bs : List UInt8} {used : Nat} {vs : List Value},
    decodeFields ts bs used = .ok vs → FitsAll ts vs
  | [], bs, used, vs, h => by
    simp only [decodeFields, Except.ok.injEq] at h
    subst h
    simp [FitsAll]
  | t :: ts, bs, used, vs, h => by
    simp only [decodeFields] at h
    split at h
    · cases h
    · rename_i v hv
      split at h
      · cases h
      · rename_i ws hws
        cases h
        simp only [FitsAll]
        exact ⟨decodeAt_fits hv, decodeFields_fit hws⟩

end

end Value

/-! ### Safe actions -/

/-- A failure that only a value of the wrong form can cause. -/
def ExecError.isMisfit : ExecError → Bool
  | .lane cause => cause.isMisfit
  | _ => false

/-- An outcome that keeps the invariants of the machine.  An access that passed its check and
lies nowhere is not a matter of types, so it is let through. -/
def Outcome.Sound {α : Type} (Q : α → Prop) : Outcome ExecError α → Prop
  | .ok a => Q a
  | .failed e => e.isMisfit = false
  | .crashed c => c = .overrun
  | .exhausted => True

namespace Value

mutual

/-- Bytes that cannot be read as a type are no misfit: the type is one that is not stored. -/
theorem isMisfit_decodeAt : ∀ {t : Ty} {bs : List UInt8} {c : ExecError},
    decodeAt t bs = .error c → c.isMisfit = false
  | .void, bs, c, h => by
    simp only [decodeAt, Except.error.injEq] at h
    subst h
    rfl
  | .scalar s, bs, c, h => by simp [decodeAt] at h
  | .vector s w, bs, c, h => by simp [decodeAt] at h
  | .tuple ts, bs, c, h => by
    simp only [decodeAt] at h
    split at h
    · rename_i c' hc
      cases h
      exact isMisfit_decodeFields hc
    · cases h
  | .pointer t space readOnly, bs, c, h => by
    simp only [decodeAt, Except.error.injEq] at h
    subst h
    rfl

theorem isMisfit_decodeFields : ∀ {ts : List Ty} {bs : List UInt8} {used : Nat} {c : ExecError},
    decodeFields ts bs used = .error c → c.isMisfit = false
  | [], bs, used, c, h => by simp [decodeFields] at h
  | t :: ts, bs, used, c, h => by
    simp only [decodeFields] at h
    split at h
    · rename_i c' hc
      cases h
      exact isMisfit_decodeAt hc
    · split at h
      · rename_i c' hc
        cases h
        exact isMisfit_decodeFields hc
      · cases h

end

mutual

/-- A type without a zero is no misfit either. -/
theorem isMisfit_zero : ∀ {t : Ty} {c : ExecError}, zero t = .error c → c.isMisfit = false
  | .void, c, h => by
    simp only [zero, Except.error.injEq] at h
    subst h
    rfl
  | .scalar s, c, h => by simp [zero] at h
  | .vector s w, c, h => by simp [zero] at h
  | .tuple ts, c, h => by
    simp only [zero] at h
    split at h
    · rename_i c' hc
      cases h
      exact isMisfit_zeros hc
    · cases h
  | .pointer t space readOnly, c, h => by simp [zero] at h

theorem isMisfit_zeros : ∀ {ts : List Ty} {c : ExecError}, zeros ts = .error c → c.isMisfit = false
  | [], c, h => by simp [zeros] at h
  | t :: ts, c, h => by
    simp only [zeros] at h
    split at h
    · rename_i c' hc
      cases h
      exact isMisfit_zero hc
    · split at h
      · rename_i c' hc
        cases h
        exact isMisfit_zeros hc
      · cases h

end

mutual

theorem encodeAt_sound : ∀ {t : Ty} {v : Value}, Fits t v → ∀ (dst : Bytes) (offset : Nat),
    (encodeAt t v dst offset).2.Sound fun _ => True
  | .void, v, h, dst, offset => by
    simp only [Fits] at h
    subst h
    exact rfl
  | .scalar s, v, h, dst, offset => by
    simp only [Fits] at h
    obtain ⟨x, rfl, -⟩ := h
    exact trivial
  | .vector s w, v, h, dst, offset => by
    simp only [Fits] at h
    obtain ⟨x, rfl, -⟩ := h
    exact trivial
  | .tuple ts, v, h, dst, offset => by
    simp only [Fits] at h
    obtain ⟨vs, rfl, hvs⟩ := h
    simp only [encodeAt]
    exact encodeFields_sound hvs dst offset 0
  | .pointer t space readOnly, v, h, dst, offset => by
    simp only [Fits] at h
    obtain ⟨p, rfl⟩ := h
    exact rfl

theorem encodeFields_sound : ∀ {ts : List Ty} {vs : List Value}, FitsAll ts vs →
    ∀ (dst : Bytes) (base used : Nat), (encodeFields ts vs dst base used).2.Sound fun _ => True
  | [], vs, _, dst, base, used => by
    simp only [encodeFields]
    exact trivial
  | t :: ts, [], h, dst, base, used => by simp [FitsAll] at h
  | t :: ts, v :: vs, h, dst, base, used => by
    simp only [FitsAll] at h
    have hv := encodeAt_sound h.1 dst (base + alignUp used t.align)
    simp only [encodeFields]
    split
    · exact encodeFields_sound h.2 _ base _
    · exact hv

end

end Value

namespace Exec

variable {α β : Type}

/-- What comes after an action that gives a value. -/
theorem bind_ok {x : Exec α} {a : α} {st st' : Store} (h : x st = (.ok a, st')) (f : α → Exec β) :
    (x >>= f) st = f a st' := by
  show Exec.bind x f st = f a st'
  rw [Exec.bind, h]

theorem bind_failed {x : Exec α} {c : ExecError} {st st' : Store} (h : x st = (.failed c, st'))
    (f : α → Exec β) : (x >>= f) st = (.failed c, st') := by
  show Exec.bind x f st = _
  rw [Exec.bind, h]

theorem bind_crashed {x : Exec α} {c : Crash} {st st' : Store} (h : x st = (.crashed c, st'))
    (f : α → Exec β) : (x >>= f) st = (.crashed c, st') := by
  show Exec.bind x f st = _
  rw [Exec.bind, h]

/-- What an action gave was computed from what its first part gave. -/
theorem of_bind_ok {x : Exec α} {f : α → Exec β} {b : β} {st st' : Store}
    (h : (x >>= f) st = (.ok b, st')) : ∃ a st₁, x st = (.ok a, st₁) ∧ f a st₁ = (.ok b, st') := by
  rcases hx : x st with ⟨outcome, st₁⟩
  cases outcome with
  | ok a => exact ⟨a, st₁, rfl, by rw [← h, bind_ok hx]⟩
  | failed c =>
    rw [bind_failed hx] at h
    cases h
  | crashed c =>
    rw [bind_crashed hx] at h
    cases h
  | exhausted =>
    have hbind : (x >>= f) st = (.exhausted, st₁) := by
      show Exec.bind x f st = _
      rw [Exec.bind, hx]
    rw [hbind] at h
    cases h

/-- From any memories the outcome is sound. -/
def Safe (x : Exec α) (Q : α → Prop) : Prop := ∀ st, (x st).1.Sound Q

variable {x : Exec α} {P Q : α → Prop}

theorem safe_pure {a : α} (h : Q a) : Safe (Pure.pure a : Exec α) Q := fun _ => h

theorem safe_fail {c : ExecError} (h : c.isMisfit = false) : Safe (fail c : Exec α) Q := fun _ => h

/-- Whatever follows a safe action has to be safe for the values that the action may give. -/
theorem Safe.bind {R : β → Prop} {f : α → Exec β} (hx : Safe x P) (hf : ∀ a, P a → Safe (f a) R) :
    Safe (x >>= f) R := by
  intro st
  show Outcome.Sound R (Exec.bind x f st).1
  have h := hx st
  unfold Exec.bind
  split
  · rename_i a st' heq
    rw [heq] at h
    exact hf a h st'
  · rename_i c st' heq
    rw [heq] at h
    exact h
  · rename_i c st' heq
    rw [heq] at h
    exact h
  · trivial

theorem Safe.mono (hx : Safe x P) (h : ∀ a, P a → Q a) : Safe x Q := by
  intro st
  have hst := hx st
  cases hout : (x st).1 with
  | ok a => rw [hout] at hst; exact h a hst
  | failed c => rw [hout] at hst; exact hst
  | crashed c => rw [hout] at hst; exact hst
  | exhausted => trivial

/-- What a safe action gives has the property. -/
theorem Safe.of_ok (hx : Safe x Q) {a : α} {st st' : Store} (h : x st = (.ok a, st')) : Q a := by
  have hst := hx st
  rw [h] at hst
  exact hst

theorem safe_ofLanes {r : Except LaneError α} (h : Lanes.Yields r Q) : Safe (ofLanes r) Q := by
  intro st
  cases r with
  | ok a => exact h
  | error c => exact h

theorem safe_ofLanes_ok {r : Except LaneError α} (h : ∃ a, r = .ok a ∧ Q a) :
    Safe (ofLanes r) Q :=
  safe_ofLanes (.of_ok h)

/-- Whatever is read from memory fits. -/
theorem safe_load (m : Nat) (offset : BitVec 64) (t : Ty) :
    Safe (Exec.load m offset t) (Value.Fits t) := by
  intro st
  show Outcome.Sound _ (Store.load st m offset t)
  simp only [Store.load]
  split
  · exact rfl
  · exact rfl
  · split
    · rename_i v hv
      exact Value.decodeAt_fits hv
    · rename_i c hc
      exact Value.isMisfit_decodeAt hc

theorem safe_store (m : Nat) (offset : BitVec 64) {t : Ty} {v : Value} (h : Value.Fits t v) :
    Safe (Exec.store m offset t v) fun _ => True := by
  intro st
  simp only [Exec.store, Store.store]
  split
  · exact rfl
  · exact rfl
  · exact Value.encodeAt_sound h _ _

end Exec

end KernelForge
