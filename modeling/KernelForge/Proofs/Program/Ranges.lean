/-
The ranges of narrow integers.

A narrow integer is held in a register of 32 bits, which has room for more than its type.  A value
is *within* a type when its registers hold no more than the type can, down to the lanes of a vector
and the fields of a structure.  Conversions, operators and functions make values that are within
their types whatever they are given, because they reduce their results to the low bits.  Parts of
values are as the values are.  Memory is on the safe side: the bytes of a narrow integer spell
nothing out of range.
-/
import KernelForge.Proofs.Lanes.Exact
import KernelForge.Proofs.Program.Codec
import KernelForge.Proofs.Program.Moments

namespace KernelForge

/-! ### Registers in range -/

/-- Every register holds a number of the scalar. -/
def Lanes.InRange (s : Scalar) (x : Lanes s.register) : Prop := ∀ c ∈ x.cells, s.Holds c

mutual

/-- The narrow integers of a value are in the ranges that its type gives them. -/
def Value.Within (t : Ty) (v : Value) : Prop :=
  match t with
  | .scalar s | .vector s _ => ∀ x : Lanes s.register, v = .lanes s.register x → x.InRange s
  | .tuple ts => ∀ vs, v = .record vs → Value.AllWithin ts vs
  | .void | .pointer _ _ _ => True

/-- The same for some values, one by one. -/
def Value.AllWithin (ts : List Ty) (vs : List Value) : Prop :=
  match ts, vs with
  | t :: ts, v :: vs => Value.Within t v ∧ Value.AllWithin ts vs
  | _, _ => True

end

theorem Scalar.holds_of_wide {s : Scalar} (hs : s.isNarrow = false) (c : s.register.Cell) :
    s.Holds c := by
  cases s <;> trivial

theorem Scalar.holds_zero (s : Scalar) : s.Holds s.register.zero := by
  cases s <;> simp [Holds, register, Elem.zero]

namespace Value

variable {t : Ty} {s : Scalar} {v : Value} {ts : List Ty} {vs : List Value}

theorem within_iff_lanes (ht : t.element? = some s) :
    v.Within t ↔ ∀ x : Lanes s.register, v = .lanes s.register x → x.InRange s := by
  rcases Ty.element?_eq_some ht with rfl | ⟨w, rfl⟩ <;> simp only [Within]

theorem within_nothing (t : Ty) : nothing.Within t := by
  cases t <;> simp [Within]

/-- Types without narrow integers ask nothing. -/
theorem within_of_wide (hs : s.isNarrow = false) (v : Value) : v.Within (.scalar s) := by
  simp only [Within]
  exact fun x _ c _ => s.holds_of_wide hs c

theorem AllWithin.getElem? (h : AllWithin ts vs) {i : Nat} (ht : ts[i]? = some t)
    (hv : vs[i]? = some v) : v.Within t := by
  induction ts generalizing vs i with
  | nil => cases ht
  | cons u ts ih =>
    cases vs with
    | nil => cases hv
    | cons w vs =>
      simp only [AllWithin] at h
      cases i with
      | zero =>
        cases ht
        cases hv
        exact h.1
      | succ i => exact ih h.2 ht hv

theorem AllWithin.set (h : AllWithin ts vs) {i : Nat} (ht : ts[i]? = some t) (hv : v.Within t) :
    AllWithin ts (vs.set i v) := by
  induction ts generalizing vs i with
  | nil => cases ht
  | cons u ts ih =>
    cases vs with
    | nil => exact h
    | cons w vs =>
      simp only [AllWithin] at h
      cases i with
      | zero =>
        cases ht
        simp only [List.set_cons_zero, AllWithin]
        exact ⟨hv, h.2⟩
      | succ i =>
        simp only [List.set_cons_succ, AllWithin]
        exact ⟨h.1, ih h.2 ht⟩

/-! ### Values from bytes and from nothing -/

mutual

theorem Formed.within : ∀ {t : Ty} {v : Value}, Formed t v → v.Within t
  | .void, v, _ | .pointer _ _ _, v, _ => by simp [Within]
  | .scalar s, v, h => by
    simp only [Formed] at h
    obtain ⟨c, rfl, hc⟩ := h
    refine (within_iff_lanes (t := .scalar s) rfl).mpr fun x hx => ?_
    cases hx
    exact fun d hd => List.mem_singleton.mp hd ▸ hc
  | .vector s w, v, h => by
    simp only [Formed] at h
    obtain ⟨cs, rfl, -, hcs⟩ := h
    refine (within_iff_lanes (t := .vector s w) rfl).mpr fun x hx => ?_
    cases hx
    exact hcs
  | .tuple ts, v, h => by
    simp only [Formed] at h
    obtain ⟨vs, rfl, hvs⟩ := h
    simp only [Within]
    intro ws hws
    cases hws
    exact FormedAll.within hvs

theorem FormedAll.within : ∀ {ts : List Ty} {vs : List Value}, FormedAll ts vs → AllWithin ts vs
  | [], vs, _ => by simp [AllWithin]
  | t :: ts, [], h => by simp [AllWithin]
  | t :: ts, v :: vs, h => by
    simp only [FormedAll] at h
    simp only [AllWithin]
    exact ⟨h.1.within, h.2.within⟩

end

theorem inRange_zeros (s : Scalar) (n? : Option Nat) : (Lanes.zeros s.register n?).InRange s := by
  intro c hc
  have hzero : c = s.register.zero := by
    cases n? with
    | none => exact List.mem_singleton.mp hc
    | some n => exact List.eq_of_mem_replicate hc
  exact hzero ▸ s.holds_zero

mutual

theorem within_zero : ∀ {t : Ty} {v : Value}, zero t = .ok v → v.Within t
  | .void, v, h => by simp [zero] at h
  | .scalar s, v, h => by
    simp only [zero, Except.ok.injEq] at h
    refine (within_iff_lanes (t := .scalar s) rfl).mpr fun x hx => ?_
    cases h.trans hx
    exact inRange_zeros s none
  | .vector s w, v, h => by
    simp only [zero, Except.ok.injEq] at h
    refine (within_iff_lanes (t := .vector s w) rfl).mpr fun x hx => ?_
    cases h.trans hx
    exact inRange_zeros s (some w.lanes)
  | .tuple ts, v, h => by
    simp only [zero] at h
    split at h
    · cases h
    · rename_i vs hvs
      cases h
      simp only [Within]
      intro ws hws
      cases hws
      exact allWithin_zeros hvs
  | .pointer _ _ _, v, _ => by simp [Within]

theorem allWithin_zeros : ∀ {ts : List Ty} {vs : List Value}, zeros ts = .ok vs → AllWithin ts vs
  | [], vs, _ => by simp [AllWithin]
  | t :: ts, vs, h => by
    simp only [zeros] at h
    split at h
    · cases h
    · rename_i v hv
      split at h
      · cases h
      · rename_i ws hws
        cases h
        simp only [AllWithin]
        exact ⟨within_zero hv, allWithin_zeros hws⟩

end

end Value

/-! ### Parts of values -/

namespace Lanes

variable {s : Scalar} {x y z : Lanes s.register}

/-- **What is wrapped is in range**, whatever it was before. -/
theorem inRange_wrap (hs : s.isNarrow = true) (h : x.wrap ((8 * s.size : Nat) : Int) = .ok y) :
    y.InRange s := by
  have hsigned : ∀ {bits : Nat} {x y : Lanes .int32}, bits ≤ 32 → x.wrap bits = .ok y →
      ∀ c ∈ y.cells, -2 ^ bits ≤ 2 * BitVec.toInt c ∧ 2 * BitVec.toInt c < 2 ^ bits := by
    intro bits x y hbits h c hc
    obtain ⟨-, rfl⟩ := wrap_eq_ok h
    rw [cells_map] at hc
    obtain ⟨a, -, rfl⟩ := List.mem_map.mp hc
    exact Word.signed_low hbits a
  have hunsigned : ∀ {bits : Nat} {x y : Lanes .uint32}, bits ≤ 32 → x.wrap bits = .ok y →
      ∀ c ∈ y.cells, BitVec.toNat c < 2 ^ bits := by
    intro bits x y hbits h c hc
    obtain ⟨-, rfl⟩ := wrap_eq_ok h
    rw [cells_map] at hc
    obtain ⟨a, -, rfl⟩ := List.mem_map.mp hc
    exact Word.unsigned_low hbits a
  intro c hc
  cases s with
  | char | short =>
    have := hsigned (by decide) h c hc
    simp only [Scalar.Holds]
    simp only [Scalar.size] at this
    omega
  | uchar | ushort => exact hunsigned (by decide) h c hc
  | _ => cases hs

theorem InRange.lane (hx : x.InRange s) {i : Int} (h : x.lane i = .ok y) : y.InRange s := by
  unfold Lanes.lane at h
  split at h
  · cases h
  · split at h
    · rename_i c hc
      cases h
      intro d hd
      exact List.mem_singleton.mp hd ▸ hx c (List.mem_of_getElem? hc)
    · cases h

theorem InRange.setLane (hx : x.InRange s) (hy : y.InRange s) {i : Int}
    (h : x.setLane i y = .ok z) : z.InRange s := by
  unfold Lanes.setLane at h
  split at h
  · cases h
  · split at h
    · cases h
    · rename_i c
      have hc : s.Holds c := hy c (List.mem_singleton.mpr rfl)
      split at h
      · cases h
        exact hy
      · cases h
        intro d hd
        rcases List.mem_or_eq_of_mem_set hd with hd | rfl
        · exact hx d hd
        · exact hc

theorem inRange_concat {n : Nat} {xs : List (Lanes s.register)} (hxs : ∀ x ∈ xs, x.InRange s)
    (h : concat n xs = .ok z) : z.InRange s := by
  have hall : ∀ c ∈ xs.flatMap cells, s.Holds c := by
    intro c hc
    obtain ⟨x, hx, hc⟩ := List.mem_flatMap.mp hc
    exact hxs x hx c hc
  unfold concat at h
  simp only at h
  split at h
  · rename_i c hone
    rw [hone] at hall
    split at h
    · cases h
      intro d hd
      rcases List.mem_cons.mp hd with rfl | hd
      · exact hall d (List.mem_singleton.mpr rfl)
      · exact List.eq_of_mem_replicate hd ▸ hall c (List.mem_singleton.mpr rfl)
    · cases h
  · split at h
    · cases h
      exact hall
    · cases h

end Lanes

namespace Value

variable {t : Ty} {s : Scalar} {v : Value} {ts : List Ty} {vs : List Value}

/-- **What is made is in range**, whatever it was made of. -/
theorem within_wrapTo {e : Elem} {x y : Lanes e} (h : wrapTo t x = .ok y) :
    (Value.lanes e y).Within t := by
  cases ht : t.element? with
  | none =>
    cases t with
    | tuple ts =>
      simp only [Within]
      intro vs hvs
      cases hvs
    | void | pointer => simp [Within]
    | scalar | vector => cases ht
  | some s =>
    refine (within_iff_lanes ht).mpr fun z hz => ?_
    cases hz
    by_cases hs : s.isNarrow = true
    · simp only [wrapTo, narrowBits?, ht, if_pos hs] at h
      exact Lanes.inRange_wrap hs h
    · exact fun c _ => s.holds_of_wide (by simpa using hs) c

/-- Lanes that are taken are in range as they were. -/
theorem inRange_selectLanes {x y : Lanes s.register} (hx : x.InRange s) {is : List Nat}
    (h : selectLanes x is = .ok y) : y.InRange s := by
  unfold selectLanes at h
  split at h
  · exact hx.lane h
  · obtain ⟨ys, hys, h⟩ := bind_eq_ok.mp h
    refine Lanes.inRange_concat (fun z hz => ?_) h
    obtain ⟨i, hi⟩ := List.mem_iff_getElem?.mp hz
    obtain ⟨j, -, hj⟩ := Lanes.getElem?_mapM hys hi
    exact hx.lane hj

theorem inRange_setLanes {x y z : Lanes s.register} (hx : x.InRange s) (hy : y.InRange s)
    {is : List Nat} (h : setLanes x is y = .ok z) : z.InRange s := by
  unfold setLanes at h
  split at h
  · exact hx.setLane hy h
  · generalize is.zipIdx = pairs at h
    induction pairs generalizing x with
    | nil =>
      cases h
      exact hx
    | cons q pairs ih =>
      rw [List.foldlM_cons] at h
      obtain ⟨w, hw, h⟩ := bind_eq_ok.mp h
      obtain ⟨u, hu, hw⟩ := bind_eq_ok.mp hw
      exact ih (hx.setLane (hy.lane hu) hw) h

end Value

/-! ### What actions give -/

namespace Exec

variable {α β : Type} {x : Exec α} {P Q : α → Prop}

/-- What the action gives has a property, when it gives anything. -/
def Ends (x : Exec α) (Q : α → Prop) : Prop := ∀ st a st', x st = (.ok a, st') → Q a

theorem ends_pure {a : α} (h : Q a) : Ends (Pure.pure a : Exec α) Q := by
  intro st b st' hb
  cases hb
  exact h

theorem ends_fail (c : ExecError) : Ends (fail c : Exec α) Q := by
  intro st a st' h
  cases h

theorem ends_crash : Ends (crash : Exec α) Q := by
  intro st a st' h
  cases h

theorem Ends.bind {R : β → Prop} {f : α → Exec β} (hx : Ends x P)
    (hf : ∀ a, P a → Ends (f a) R) : Ends (x >>= f) R := by
  intro st b st' h
  obtain ⟨a, mid, hrun, h⟩ := of_bind_ok h
  exact hf a (hx st a mid hrun) mid b st' h

/-- Nothing needs to be known of an action when what follows it does not depend on it. -/
theorem ends_bind {R : β → Prop} {f : α → Exec β} (hf : ∀ a, Ends (f a) R) : Ends (x >>= f) R :=
  Ends.bind (P := fun _ => True) (fun _ _ _ _ => trivial) fun a _ => hf a

theorem ends_ofLanes (r : Except LaneError α) : Ends (ofLanes r) fun a => r = .ok a := by
  cases r with
  | ok a => exact ends_pure rfl
  | error c => exact ends_fail _

/-- Memory gives back what is in range. -/
theorem ends_load (m : Nat) (offset : BitVec 64) (t : Ty) :
    Ends (Exec.load m offset t) (Value.Within t) := by
  intro st v st' h
  replace h : (Store.load st m offset t, st) = (.ok v, st') := h
  obtain ⟨hv, -⟩ := Prod.mk.inj h
  simp only [Store.load] at hv
  split at hv
  · cases hv
  · cases hv
  · split at hv
    · rename_i hdecode
      cases hv
      exact (Value.decodeAt_formed hdecode).within
    · cases hv

end Exec

namespace Value

open Exec

variable {t u : Ty} {s : Scalar} {v : Value}

/-- A conversion makes its value. -/
theorem ends_cast (hu : u.element? = some s) (v : Value) : Ends (v.cast s) (Within u) := by
  unfold cast
  split
  · refine (ends_ofLanes _).bind fun y hy => ends_pure ?_
    exact (within_iff_lanes hu).mpr ((within_iff_lanes (t := .scalar s) rfl).mp (within_wrapTo hy))
  · exact ends_crash

theorem ends_unary (op : Operator) (t : Ty) (v : Value) : Ends (v.unary op t) (Within t) := by
  unfold unary
  split
  · exact ends_bind fun _ => (ends_ofLanes _).bind fun y hy => ends_pure (within_wrapTo hy)
  · exact ends_crash

theorem ends_binary (op : Operator) (t : Ty) (v w : Value) : Ends (v.binary op t w) (Within t) := by
  unfold binary
  split
  · split
    · refine ends_bind fun r => ?_
      split
      · exact (ends_ofLanes _).bind fun y hy => ends_pure (within_wrapTo hy)
      · exact (ends_ofLanes _).bind fun y hy => ends_pure (within_wrapTo hy)
    · exact ends_crash
  · exact ends_crash

theorem ends_math (fn : Builtin) (t : Ty) (vs : List Value) : Ends (math fn t vs) (Within t) := by
  unfold math
  split
  · refine ends_bind fun _ => ends_bind fun _ => ?_
    exact (ends_ofLanes _).bind fun y hy => ends_pure (within_wrapTo hy)
  · exact ends_crash

/-- An atomic function gives what was in memory. -/
theorem ends_atomic (fn : AtomicFn) (s : Scalar) (p : Pointer) (args : List Value) :
    Ends (atomic fn s p args) (Within (.scalar s)) := by
  unfold atomic
  split
  · exact ends_fail _
  · refine (ends_load _ _ _).bind fun old hold => ?_
    exact ends_bind fun _ => ends_bind fun _ => ends_pure hold

theorem element?_of_picks {n : Nat} {is : List Nat} (his : Picks s n is t) :
    t.element? = some s := by
  rcases his.form with ⟨-, rfl⟩ | ⟨width, -, rfl⟩ <;> rfl

/-- Components of a vector are in range as the vector is. -/
theorem ends_select {w : Width} {n : Nat} {is : List Nat} (his : Picks s n is t)
    (hv : v.Within (.vector s w)) : Ends (v.select is) (Within t) := by
  unfold select
  split
  · rename_i e x
    refine (ends_ofLanes _).bind fun y hy => ends_pure ?_
    refine (within_iff_lanes (element?_of_picks his)).mpr fun z hz => ?_
    cases hz
    exact inRange_selectLanes ((within_iff_lanes rfl).mp hv x rfl) hy
  · exact ends_crash

theorem within_setLanes {w : Width} {n : Nat} {is : List Nat} (his : Picks s n is t) {e : Elem}
    {x y z : Lanes e} (hx : (Value.lanes e x).Within (.vector s w))
    (hy : (Value.lanes e y).Within t) (h : setLanes x is y = .ok z) : (Value.lanes e z).Within (.vector s w) := by
  refine (within_iff_lanes (t := .vector s w) rfl).mpr fun u hu => ?_
  cases hu
  exact inRange_setLanes ((within_iff_lanes (t := .vector s w) rfl).mp hx x rfl)
    ((within_iff_lanes (element?_of_picks his)).mp hy y rfl) h

theorem ends_field {ts : List Ty} {i : Nat} (hi : ts[i]? = some t) (hv : v.Within (.tuple ts)) :
    Ends (v.field i) (Within t) := by
  unfold field
  split
  · rename_i vs
    simp only [Within] at hv
    split
    · rename_i w hw
      exact ends_pure ((hv vs rfl).getElem? hi hw)
    · exact ends_crash
  · exact ends_crash

theorem ends_lanesOf {s : Scalar} {ts : List Ty} (hts : ∀ t ∈ ts, t.element? = some s)
    {vs : List Value} (hlen : vs.length = ts.length) (hvs : AllWithin ts vs) :
    Ends (lanesOf s.register vs) fun xs => ∀ x ∈ xs, x.InRange s := by
  induction ts generalizing vs with
  | nil =>
    cases List.length_eq_zero_iff.mp hlen
    exact ends_pure (List.forall_mem_nil _)
  | cons t ts ih =>
    cases vs with
    | nil => cases hlen
    | cons v vs =>
      simp only [AllWithin] at hvs
      unfold lanesOf
      split
      · exact ends_pure (List.forall_mem_nil _)
      · rename_i f x vs heq
        cases heq
        split
        · rename_i he
          cases he
          have hx := (within_iff_lanes (hts t List.mem_cons_self)).mp hvs.1 x rfl
          refine (ih (fun u hu => hts u (List.mem_cons_of_mem _ hu)) (by simpa using hlen)
            hvs.2).bind fun xs hxs => ends_pure ?_
          exact List.forall_mem_cons.mpr ⟨hx, hxs⟩
        · exact ends_crash
      · exact ends_crash

/-- The lanes of a vector are in range when those of its parts are. -/
theorem ends_concat {s : Scalar} {w : Width} {ts : List Ty} (hts : ∀ t ∈ ts, t.element? = some s)
    {vs : List Value} (hlen : vs.length = ts.length) (hvs : AllWithin ts vs) (n : Nat) :
    Ends (concat s n vs) (Within (.vector s w)) := by
  refine (ends_lanesOf hts hlen hvs).bind fun xs hxs => (ends_ofLanes _).bind fun y hy => ?_
  refine ends_pure ((within_iff_lanes (t := .vector s w) rfl).mpr fun z hz => ?_)
  cases hz
  exact Lanes.inRange_concat hxs hy

end Value

/-! ### Variables and locations -/

/-- The variables are within the types that they are declared with. -/
def Vars.Within (declared : Scope) (vars : Vars) : Prop :=
  ∀ slot t, declared slot = some t → (vars.getD slot .nothing).Within t

theorem Vars.Within.set {declared : Scope} {vars : Vars} (h : vars.Within declared) {slot : Nat}
    {t : Ty} (ht : declared slot = some t) {v : Value} (hv : v.Within t) :
    Vars.Within declared (vars.setIfInBounds slot v) := by
  intro slot' t' ht'
  have hold := h slot' t' ht'
  rw [Array.getD_eq_getD_getElem?] at hold ⊢
  by_cases hslot : slot = slot'
  · subst hslot
    rw [ht] at ht'
    cases ht'
    rcases Nat.lt_or_ge slot vars.size with hlt | hge
    · rw [Array.getElem?_setIfInBounds_self_of_lt hlt]
      exact hv
    · rw [Array.getElem?_eq_none (by simpa using hge)]
      exact Value.within_nothing _
  · rw [Array.getElem?_setIfInBounds_ne hslot]
    exact hold

namespace Loc

open Exec

variable {declared : Scope} {vars : Vars} {l : Loc} {t : Ty}

/-- What is read at a location is within its type. -/
theorem Typed.ends_load (hl : l.Typed declared t) (hvars : vars.Within declared) :
    Ends (l.load vars) (Value.Within t) := by
  induction hl with
  | var h => exact ends_pure (hvars _ _ h)
  | mem memory offset t => exact Exec.ends_load memory offset t
  | field hl hi ih => exact ih.bind fun v hv => Value.ends_field hi hv
  | lanes hl his ih => exact ih.bind fun v hv => Value.ends_select his hv

/-- What is within the type of a location may be kept there. -/
theorem Typed.ends_store (hl : l.Typed declared t) (hvars : vars.Within declared) {v : Value}
    (hv : v.Within t) : Ends (l.store vars v) (Vars.Within declared) := by
  induction hl generalizing v with
  | var h => exact ends_pure (hvars.set h hv)
  | mem memory offset t => exact ends_bind fun _ => ends_pure hvars
  | @field l ts i t hl hi ih =>
    refine (hl.ends_load hvars).bind fun w hw => ?_
    split
    · rename_i ws
      split
      · refine ih ?_
        simp only [Value.Within] at hw ⊢
        intro us hus
        cases hus
        exact (hw ws rfl).set hi hv
      · exact ends_crash
    · exact ends_crash
  | lanes hl his ih =>
    refine (hl.ends_load hvars).bind fun w hw => ?_
    split
    · split
      · rename_i he
        cases he
        exact (ends_ofLanes _).bind fun z hz => ih (Value.within_setLanes his hw hv hz)
      · exact ends_crash
    · exact ends_crash

end Loc
end KernelForge
