/-
Code that leaves a memory alone.

A memory can only be written through a pointer to it.  Which values may hold such a pointer is
followed through terms by a flag: a term without the flag never gives one.  The flag is not read
off the types, and the rules ask for little: a place that is assigned to, and the pointer of an
atomic function, must be without it, and so must whatever goes into a variable, a parameter or a
result without it.  Memory holds no pointers, so what is read from a memory is free of them.

The theorem of this file is that code which obeys the rules leaves a memory as it was, however
it ends, when no variable without the flag points to the memory.
-/
import KernelForge.Proofs.Program.Actions

namespace KernelForge

/-! ### Values without pointers to a memory -/

mutual

/-- The value holds no pointer to memory `m`. -/
def Value.Avoids (m : Nat) (v : Value) : Prop :=
  match v with
  | .record vs => Value.AllAvoid m vs
  | .pointer p => p.memory? ≠ some m
  | _ => True

def Value.AllAvoid (m : Nat) (vs : List Value) : Prop :=
  match vs with
  | [] => True
  | v :: vs => v.Avoids m ∧ Value.AllAvoid m vs

end

namespace Value

variable {m : Nat} {vs : List Value} {v : Value} {i : Nat}

theorem avoids_nothing : Value.nothing.Avoids m := by simp [Avoids]

theorem avoids_lanes {e : Elem} (x : Lanes e) : (Value.lanes e x).Avoids m := by simp [Avoids]

theorem AllAvoid.getElem? (h : AllAvoid m vs) (hi : vs[i]? = some v) : v.Avoids m := by
  induction vs generalizing i with
  | nil => simp at hi
  | cons w vs ih =>
    simp only [AllAvoid] at h
    cases i with
    | zero =>
      simp only [List.getElem?_cons_zero, Option.some.injEq] at hi
      exact hi ▸ h.1
    | succ i => exact ih h.2 (by simpa using hi)

theorem AllAvoid.set (h : AllAvoid m vs) (hv : v.Avoids m) : AllAvoid m (vs.set i v) := by
  induction vs generalizing i with
  | nil => exact h
  | cons w vs ih =>
    simp only [AllAvoid] at h
    cases i with
    | zero => exact ⟨hv, h.2⟩
    | succ i => exact ⟨h.1, ih h.2⟩

mutual

/-- Bytes hold no pointers. -/
theorem avoids_decodeAt : ∀ {t : Ty} {bs : List UInt8} {v : Value},
    decodeAt t bs = .ok v → v.Avoids m
  | .void, bs, v, h => by simp [decodeAt] at h
  | .scalar s, bs, v, h => by
    simp only [decodeAt, Except.ok.injEq] at h
    exact h ▸ avoids_lanes _
  | .vector s w, bs, v, h => by
    simp only [decodeAt, Except.ok.injEq] at h
    exact h ▸ avoids_lanes _
  | .tuple ts, bs, v, h => by
    simp only [decodeAt] at h
    split at h
    · cases h
    · rename_i vs hvs
      cases h
      simp only [Avoids]
      exact allAvoid_decodeFields hvs
  | .pointer t space readOnly, bs, v, h => by simp [decodeAt] at h

theorem allAvoid_decodeFields : ∀ {ts : List Ty} {bs : List UInt8} {used : Nat} {vs : List Value},
    decodeFields ts bs used = .ok vs → AllAvoid m vs
  | [], bs, used, vs, h => by
    cases h
    trivial
  | t :: ts, bs, used, vs, h => by
    simp only [decodeFields] at h
    split at h
    · cases h
    · rename_i v hv
      split at h
      · cases h
      · rename_i ws hws
        cases h
        exact ⟨avoids_decodeAt hv, allAvoid_decodeFields hws⟩

end

mutual

/-- Pointers are null at first. -/
theorem avoids_zero : ∀ {t : Ty} {v : Value}, zero t = .ok v → v.Avoids m
  | .void, v, h => by simp [zero] at h
  | .scalar s, v, h => by
    simp only [zero, Except.ok.injEq] at h
    exact h ▸ avoids_lanes _
  | .vector s w, v, h => by
    simp only [zero, Except.ok.injEq] at h
    exact h ▸ avoids_lanes _
  | .tuple ts, v, h => by
    simp only [zero] at h
    split at h
    · cases h
    · rename_i vs hvs
      cases h
      simp only [Avoids]
      exact allAvoid_zeros hvs
  | .pointer t space readOnly, v, h => by
    simp only [zero, Except.ok.injEq] at h
    subst h
    simp [Avoids]

theorem allAvoid_zeros : ∀ {ts : List Ty} {vs : List Value}, zeros ts = .ok vs → AllAvoid m vs
  | [], vs, h => by
    cases h
    trivial
  | t :: ts, vs, h => by
    simp only [zeros] at h
    split at h
    · cases h
    · rename_i v hv
      split at h
      · cases h
      · rename_i ws hws
        cases h
        exact ⟨avoids_zero hv, allAvoid_zeros hws⟩

end

end Value

/-! ### Actions that leave a memory alone -/

namespace Exec

variable {α β : Type} {m : Nat}

/-- Memory `m` is afterwards as it was before, however the action ends, and what the action gives
has a property. -/
def Spares (m : Nat) (x : Exec α) (Q : α → Prop) : Prop :=
  ∀ st, (x st).2[m]? = st[m]? ∧ ∀ a, (x st).1 = .ok a → Q a

variable {x : Exec α} {P Q : α → Prop}

theorem spares_pure {a : α} (h : Q a) : Spares m (Pure.pure a : Exec α) Q := by
  intro st
  refine ⟨rfl, fun b hb => ?_⟩
  cases hb
  exact h

theorem spares_fail (c : ExecError) : Spares m (fail c : Exec α) Q := fun _ => ⟨rfl, nofun⟩

theorem spares_crash : Spares m (crash : Exec α) Q := fun _ => ⟨rfl, nofun⟩

theorem spares_exhausted : Spares m (fun st => (.exhausted, st) : Exec α) Q := fun _ => ⟨rfl, nofun⟩

/-- Whatever follows has to leave the memory alone for the values that it may be given. -/
theorem Spares.bind {R : β → Prop} {f : α → Exec β} (hx : Spares m x P)
    (hf : ∀ a, P a → Spares m (f a) R) : Spares m (x >>= f) R := by
  intro st
  obtain ⟨hmem, hok⟩ := hx st
  show (Exec.bind x f st).2[m]? = _ ∧ ∀ b, (Exec.bind x f st).1 = .ok b → R b
  unfold Exec.bind
  rcases hrun : x st with ⟨outcome, st'⟩
  rw [hrun] at hmem hok
  cases outcome with
  | ok a =>
    obtain ⟨hmem', hok'⟩ := hf a (hok a rfl) st'
    exact ⟨hmem'.trans hmem, hok'⟩
  | failed c => exact ⟨hmem, nofun⟩
  | crashed c => exact ⟨hmem, nofun⟩
  | exhausted => exact ⟨hmem, nofun⟩

theorem Spares.mono (hx : Spares m x P) (h : ∀ a, P a → Q a) : Spares m x Q :=
  fun st => ⟨(hx st).1, fun a ha => h a ((hx st).2 a ha)⟩

theorem spares_ofLanes (r : Except LaneError α) : Spares m (ofLanes r) fun _ => True := by
  cases r with
  | ok a => exact spares_pure trivial
  | error c => exact spares_fail _

/-- What is read from a memory holds no pointers. -/
theorem spares_load (n : Nat) (offset : BitVec 64) (t : Ty) :
    Spares m (Exec.load n offset t) (Value.Avoids m) := by
  intro st
  refine ⟨rfl, fun v hv => ?_⟩
  replace hv : Store.load st n offset t = .ok v := hv
  simp only [Store.load] at hv
  split at hv
  · cases hv
  · cases hv
  · split at hv
    · rename_i hdecode
      cases hv
      exact Value.avoids_decodeAt hdecode
    · cases hv

/-- Writing to another memory. -/
theorem spares_store {n : Nat} (hn : n ≠ m) (offset : BitVec 64) (t : Ty) (v : Value) :
    Spares m (Exec.store n offset t v) fun _ => True := by
  intro st
  refine ⟨?_, fun _ _ => trivial⟩
  simp only [Exec.store, Store.store]
  split
  · rfl
  · rfl
  · simp only [Array.getElem?_setIfInBounds_ne hn]

end Exec

namespace Value

open Exec

variable {m : Nat}

theorem spares_toWord (w : WordWidth) (signed : Bool) (v : Value) :
    Spares m (v.toWord w signed) fun _ => True := by
  unfold toWord
  split
  · split
    · exact (spares_ofLanes _).bind fun _ _ => spares_pure trivial
    · exact spares_crash
  · exact spares_crash

theorem spares_toBool (v : Value) : Spares m v.toBool fun _ => True := by
  unfold toBool
  split
  · exact spares_ofLanes _
  · exact spares_crash

theorem spares_toPointer (v : Value) : Spares m v.toPointer fun p => v = .pointer p := by
  unfold toPointer
  split
  · exact spares_pure rfl
  · exact spares_crash

theorem spares_cast (s : Scalar) (v : Value) : Spares m (v.cast s) (Avoids m) := by
  unfold cast
  split
  · exact (spares_ofLanes _).bind fun _ _ => spares_pure (avoids_lanes _)
  · exact spares_crash

theorem spares_lanesOf (e : Elem) (vs : List Value) : Spares m (lanesOf e vs) fun _ => True := by
  induction vs with
  | nil => exact spares_pure trivial
  | cons v vs ih =>
    unfold lanesOf
    split
    · exact spares_pure trivial
    · rename_i heq
      cases heq
      split
      · exact ih.bind fun _ _ => spares_pure trivial
      · exact spares_crash
    · exact spares_crash

theorem spares_concat (s : Scalar) (n : Nat) (vs : List Value) :
    Spares m (concat s n vs) (Avoids m) :=
  (spares_lanesOf _ vs).bind fun _ _ => (spares_ofLanes _).bind fun _ _ => spares_pure (avoids_lanes _)

theorem spares_unary (op : Operator) (t : Ty) (v : Value) : Spares m (v.unary op t) (Avoids m) := by
  unfold unary
  split
  · exact (spares_ofLanes _).bind fun _ _ => (spares_ofLanes _).bind fun _ _ =>
      spares_pure (avoids_lanes _)
  · exact spares_crash

theorem spares_binary (op : Operator) (t : Ty) (v w : Value) :
    Spares m (v.binary op t w) (Avoids m) := by
  unfold binary
  split
  · split
    · refine (spares_ofLanes _).bind fun r _ => ?_
      split
      · exact (spares_ofLanes _).bind fun _ _ => spares_pure (avoids_lanes _)
      · exact (spares_ofLanes _).bind fun _ _ => spares_pure (avoids_lanes _)
    · exact spares_crash
  · exact spares_crash

theorem spares_select (is : List Nat) (v : Value) : Spares m (v.select is) (Avoids m) := by
  unfold select
  split
  · exact (spares_ofLanes _).bind fun _ _ => spares_pure (avoids_lanes _)
  · exact spares_crash

theorem spares_math (fn : Builtin) (t : Ty) (vs : List Value) :
    Spares m (math fn t vs) (Avoids m) := by
  unfold math
  split
  · refine (spares_lanesOf _ _).bind fun _ _ => (spares_ofLanes _).bind fun _ _ => ?_
    exact (spares_ofLanes _).bind fun _ _ => spares_pure (avoids_lanes _)
  · exact spares_crash

/-- A field holds no more pointers than its structure. -/
theorem spares_field (i : Nat) {v : Value} {b : Bool} (hv : b = false → v.Avoids m) :
    Spares m (v.field i) fun w => b = false → w.Avoids m := by
  unfold field
  split
  · split
    · rename_i hi
      refine spares_pure fun hb => ?_
      have hvs := hv hb
      simp only [Avoids] at hvs
      exact hvs.getElem? hi
    · exact spares_crash
  · exact spares_crash

theorem spares_atomicNext (fn : AtomicFn) (s : Scalar) (old : Value) (args : List Value) :
    Spares m (atomicNext fn s old args) fun _ => True := by
  unfold atomicNext
  simp only
  split
  case h_8 => exact spares_pure trivial
  case h_11 =>
    refine (spares_binary _ _ _ _).bind fun _ _ => (spares_toBool _).bind fun _ _ => ?_
    split
    · exact spares_pure trivial
    · exact spares_pure trivial
  case h_12 => exact spares_crash
  case h_9 | h_10 => exact (spares_math _ _ _).mono fun _ _ => trivial
  all_goals exact (spares_binary _ _ _ _).mono fun _ _ => trivial

/-- An atomic function leaves every memory alone that its pointer does not point to. -/
theorem spares_atomic (fn : AtomicFn) (s : Scalar) {p : Pointer} (hp : p.memory? ≠ some m)
    (args : List Value) : Spares m (atomic fn s p args) (Avoids m) := by
  unfold atomic
  split
  · exact spares_fail _
  · rename_i n hn
    have hne : n ≠ m := fun heq => hp (heq ▸ hn)
    refine (spares_load n _ _).bind fun old hold => (spares_atomicNext _ _ _ _).bind fun next _ => ?_
    exact (spares_store hne _ _ _).bind fun _ _ => spares_pure hold

end Value

/-- A value may point to memory `m` only where a flag says so. -/
def Value.Respects (m : Nat) (aims : Bool) (v : Value) : Prop := aims = false → v.Avoids m

theorem Value.Avoids.respects {m : Nat} {v : Value} (h : v.Avoids m) (aims : Bool) :
    v.Respects m aims := fun _ => h

/-! ### Rules for terms and places -/

/-- Nothing may be written through a pointer of this type. -/
def Ty.isSealed : Ty → Bool
  | .pointer _ space readOnly => readOnly || space = .constant
  | _ => false

/-- What the rules are about.  A flag says whether the values of a term, or those at a place, may
point to the memory, and for a place another one says whether it may lie in the memory. -/
inductive Exposure where
  | term (x : Term) (aims : Bool)
  | place (p : Place) (inside aims : Bool)

/-- The rules.  Variables have flags, by slot, and `here` is the flag of the place that is being
updated; parameters and results may aim at the memory when their types are sealed. -/
inductive Wary (sigs : Signatures) (seals : Nat → Bool) (here : Bool) : Exposure → Prop
  | const {e : Elem} {x : Lanes e} {b : Bool} : Wary sigs seals here (.term (.const e x) b)
  | var {slot : Nat} : Wary sigs seals here (.term (.var slot) (seals slot))
  | current : Wary sigs seals here (.term .current here)
  | weaken {x : Term} (hx : Wary sigs seals here (.term x false)) :
      Wary sigs seals here (.term x true)
  | cast {s : Scalar} {x : Term} {b : Bool} (hx : Wary sigs seals here (.term x true)) :
      Wary sigs seals here (.term (.cast s x) b)
  | concat {s : Scalar} {n : Nat} {xs : List Term} {b : Bool}
      (hxs : ∀ x ∈ xs, Wary sigs seals here (.term x true)) :
      Wary sigs seals here (.term (.concat s n xs) b)
  | unary {op : Operator} {t : Ty} {x : Term} {b : Bool}
      (hx : Wary sigs seals here (.term x true)) : Wary sigs seals here (.term (.unary op t x) b)
  | binary {op : Operator} {t : Ty} {x y : Term} {b : Bool}
      (hx : Wary sigs seals here (.term x true)) (hy : Wary sigs seals here (.term y true)) :
      Wary sigs seals here (.term (.binary op t x y) b)
  | and {x y : Term} {b : Bool} (hx : Wary sigs seals here (.term x true))
      (hy : Wary sigs seals here (.term y true)) : Wary sigs seals here (.term (.and x y) b)
  | or {x y : Term} {b : Bool} (hx : Wary sigs seals here (.term x true))
      (hy : Wary sigs seals here (.term y true)) : Wary sigs seals here (.term (.or x y) b)
  | cond {test x y : Term} {b : Bool} (htest : Wary sigs seals here (.term test true))
      (hx : Wary sigs seals here (.term x b)) (hy : Wary sigs seals here (.term y b)) :
      Wary sigs seals here (.term (.cond test x y) b)
  | advance {stride : Int} {ptr n : Term} {b : Bool} (hptr : Wary sigs seals here (.term ptr b))
      (hn : Wary sigs seals here (.term n true)) :
      Wary sigs seals here (.term (.advance stride ptr n) b)
  | record {xs : List Term} {b : Bool} (hxs : ∀ x ∈ xs, Wary sigs seals here (.term x b)) :
      Wary sigs seals here (.term (.record xs) b)
  | load {p : Place} {inside b : Bool} (hp : Wary sigs seals here (.place p inside b)) :
      Wary sigs seals here (.term (.load p) b)
  | address {p : Place} {inside b : Bool} (hp : Wary sigs seals here (.place p inside b)) :
      Wary sigs seals here (.term (.address p) inside)
  | field {i : Nat} {x : Term} {b : Bool} (hx : Wary sigs seals here (.term x b)) :
      Wary sigs seals here (.term (.field i x) b)
  | lanes {is : List Nat} {x : Term} {b : Bool} (hx : Wary sigs seals here (.term x true)) :
      Wary sigs seals here (.term (.lanes is x) b)
  | discard {x : Term} {b : Bool} (hx : Wary sigs seals here (.term x true)) :
      Wary sigs seals here (.term (.discard x) b)
  | workItem {fn : WorkItemFn} {dim : Term} {b : Bool}
      (hdim : Wary sigs seals here (.term dim true)) :
      Wary sigs seals here (.term (.workItem fn dim) b)
  | atomic {fn : AtomicFn} {s : Scalar} {ptr : Term} {args : List Term} {b : Bool}
      (hptr : Wary sigs seals here (.term ptr false))
      (hargs : ∀ x ∈ args, Wary sigs seals here (.term x true)) :
      Wary sigs seals here (.term (.atomic fn s ptr args) b)
  | math {fn : Builtin} {t : Ty} {args : List Term} {b : Bool}
      (hargs : ∀ x ∈ args, Wary sigs seals here (.term x true)) :
      Wary sigs seals here (.term (.math fn t args) b)
  | call {fn : String} {params : List Ty} {result : Ty} {args : List Term}
      (hfn : sigs fn = some (params, result)) (hlen : args.length = params.length)
      (hargs : ∀ p ∈ args.zip params, Wary sigs seals here (.term p.1 p.2.isSealed)) :
      Wary sigs seals here (.term (.call fn args) result.isSealed)
  | placeVar {slot : Nat} : Wary sigs seals here (.place (.var slot) false (seals slot))
  | placeDeref {elem : Ty} {ptr index : Term} {inside b : Bool}
      (hptr : Wary sigs seals here (.term ptr inside))
      (hindex : Wary sigs seals here (.term index true)) :
      Wary sigs seals here (.place (.deref elem ptr index) inside b)
  | placeField {p : Place} {ts : List Ty} {i : Nat} {inside b : Bool}
      (hp : Wary sigs seals here (.place p inside b)) :
      Wary sigs seals here (.place (.field p ts i) inside b)
  | placeLanes {p : Place} {is : List Nat} {inside b c : Bool}
      (hp : Wary sigs seals here (.place p inside b)) :
      Wary sigs seals here (.place (.lanes p is) inside c)

/-! ### Variables and locations -/

/-- Variables respect their flags. -/
def Vars.Respect (m : Nat) (seals : Nat → Bool) (vars : Vars) : Prop :=
  ∀ slot, (vars.getD slot .nothing).Respects m (seals slot)

theorem Vars.Respect.set {m : Nat} {seals : Nat → Bool} {vars : Vars} (h : vars.Respect m seals)
    {slot : Nat} {v : Value} (hv : v.Respects m (seals slot)) :
    Vars.Respect m seals (vars.setIfInBounds slot v) := by
  intro slot'
  have hold := h slot'
  rw [Array.getD_eq_getD_getElem?] at hold ⊢
  by_cases hslot : slot = slot'
  · subst hslot
    rcases Nat.lt_or_ge slot vars.size with hlt | hge
    · rw [Array.getElem?_setIfInBounds_self_of_lt hlt]
      exact hv
    · rw [Array.getElem?_eq_none (by simpa using hge)]
      exact Value.avoids_nothing.respects _
  · rw [Array.getElem?_setIfInBounds_ne hslot]
    exact hold

namespace Loc

open Exec

/-- The location is not in memory `m`. -/
def Outside (m : Nat) : Loc → Prop
  | var _ => True
  | mem n _ _ => n ≠ m
  | field l _ => l.Outside m
  | lanes l _ => l.Outside m

/-- What may be kept at a location.  Memories hold no pointers, and neither do vectors. -/
inductive Holds (seals : Nat → Bool) : Loc → Bool → Prop
  | var (slot : Nat) : Holds seals (.var slot) (seals slot)
  | mem (n : Nat) (offset : BitVec 64) (t : Ty) (b : Bool) : Holds seals (.mem n offset t) b
  | field {l : Loc} {b : Bool} (hl : Holds seals l b) (i : Nat) : Holds seals (.field l i) b
  | lanes {l : Loc} {b : Bool} (hl : Holds seals l b) (is : List Nat) (c : Bool) :
      Holds seals (.lanes l is) c

variable {m : Nat} {seals : Nat → Bool} {vars : Vars} {l : Loc} {b : Bool}

theorem Holds.fieldOf (hl : l.Holds seals b) (ts : List Ty) (i : Nat) :
    (l.fieldOf ts i).Holds seals b := by
  cases l with
  | mem n offset t => exact .mem _ _ _ _
  | var slot => exact .field hl i
  | field parent j => exact .field hl i
  | lanes parent is => exact .field hl i

theorem Outside.fieldOf (hl : l.Outside m) (ts : List Ty) (i : Nat) :
    (l.fieldOf ts i).Outside m := by
  cases l with
  | mem n offset t => exact hl
  | var slot => exact hl
  | field parent j => exact hl
  | lanes parent is => exact hl

theorem Holds.spares_load (hl : l.Holds seals b) (hvars : vars.Respect m seals) :
    Spares m (l.load vars) (Value.Respects m b) := by
  induction hl with
  | var slot => exact spares_pure (hvars slot)
  | mem n offset t b => exact (Exec.spares_load n offset t).mono fun v hv => hv.respects b
  | field hl i ih =>
    refine ih.bind fun v hv => ?_
    exact Value.spares_field i hv
  | lanes hl is c ih =>
    refine ih.bind fun v _ => ?_
    exact (Value.spares_select is v).mono fun w hw => hw.respects c

theorem Holds.spares_store (hl : l.Holds seals b) (hout : l.Outside m)
    (hvars : vars.Respect m seals) {v : Value} (hv : v.Respects m b) :
    Spares m (l.store vars v) (Vars.Respect m seals) := by
  induction hl generalizing v with
  | var slot => exact spares_pure (hvars.set hv)
  | mem n offset t b =>
    exact (Exec.spares_store hout offset t v).bind fun _ _ => spares_pure hvars
  | field hl i ih =>
    refine (hl.spares_load hvars).bind fun w hw => ?_
    split
    · split
      · refine ih hout fun hb => ?_
        have hws := hw hb
        simp only [Value.Avoids] at hws ⊢
        exact hws.set (hv hb)
      · exact spares_crash
    · exact spares_crash
  | lanes hl is c ih =>
    refine (hl.spares_load hvars).bind fun w _ => ?_
    split
    · split
      · refine (spares_ofLanes _).bind fun z _ => ?_
        exact ih hout ((Value.avoids_lanes z).respects _)
      · exact spares_crash
    · exact spares_crash

end Loc

/-! ### Terms -/

/-- A frame in which terms can be evaluated. -/
structure Frame.Respect (m : Nat) (seals : Nat → Bool) (here : Bool) (f : Frame) : Prop where
  vars : f.vars.Respect m seals
  current : ∀ l, f.current? = some l → l.Holds seals here

/-- Outside of an update nothing is current. -/
theorem Frame.Respect.start {m : Nat} {seals : Nat → Bool} {here : Bool} {item : WorkItem} {vars : Vars}
    (h : vars.Respect m seals) : Frame.Respect m seals here { item, vars } := ⟨h, nofun⟩

/-- Arguments may point to the memory only where the types of the parameters are sealed. -/
def Value.RespectAll (m : Nat) (ts : List Ty) (vs : List Value) : Prop :=
  ∀ (i : Nat) (v : Value), vs[i]? = some v → v.Respects m (ts[i]?.any Ty.isSealed)

theorem Value.RespectAll.nil {m : Nat} {ts : List Ty} : RespectAll m ts [] := nofun

theorem Value.RespectAll.cons {m : Nat} {t : Ty} {ts : List Ty} {v : Value} {vs : List Value}
    (hv : v.Respects m t.isSealed) (hvs : RespectAll m ts vs) : RespectAll m (t :: ts) (v :: vs) := by
  intro i w hw
  cases i with
  | zero =>
    simp only [List.getElem?_cons_zero, Option.some.injEq] at hw
    subst hw
    exact hv
  | succ i => exact hvs i w (by simpa using hw)

/-- Calls leave the memory alone. -/
def Caller.Spares (m : Nat) (sigs : Signatures) (call : Caller) : Prop :=
  ∀ fn params result args, sigs fn = some (params, result) → Value.RespectAll m params args →
    Exec.Spares m (call fn args) (Value.Respects m result.isSealed)

open Exec

section Terms

variable {m : Nat} {call : Caller} {f : Frame} {xs : List Term}

theorem spares_evalAll {b : Bool}
    (h : ∀ x ∈ xs, Spares m (x.eval call f) (Value.Respects m b)) :
    Spares m (Term.evalAll call f xs) fun vs => b = false → Value.AllAvoid m vs := by
  induction xs with
  | nil =>
    rw [Term.evalAll]
    exact spares_pure fun _ => by simp [Value.AllAvoid]
  | cons x xs ih =>
    rw [Term.evalAll]
    refine (h x (by simp)).bind fun v hv => ?_
    refine (ih fun y hy => h y (by simp [hy])).bind fun vs hvs => spares_pure fun hb => ?_
    simp only [Value.AllAvoid]
    exact ⟨hv hb, hvs hb⟩

theorem spares_evalArgs {ts : List Ty} (hlen : xs.length = ts.length)
    (h : ∀ p ∈ xs.zip ts, Spares m (p.1.eval call f) (Value.Respects m p.2.isSealed)) :
    Spares m (Term.evalAll call f xs) (Value.RespectAll m ts) := by
  induction xs generalizing ts with
  | nil =>
    cases ts with
    | nil =>
      rw [Term.evalAll]
      exact spares_pure .nil
    | cons t ts => simp at hlen
  | cons x xs ih =>
    cases ts with
    | nil => simp at hlen
    | cons t ts =>
      rw [Term.evalAll]
      refine (h (x, t) (by simp)).bind fun v hv => ?_
      have hrest := ih (by simpa using hlen) fun p hp => h p (by simp [hp])
      exact hrest.bind fun vs hvs => spares_pure (.cons hv hvs)

/-- What the rules promise. -/
def Exposure.Promises (m : Nat) (call : Caller) (f : Frame) (seals : Nat → Bool) : Exposure → Prop
  | .term x b => Exec.Spares m (x.eval call f) (Value.Respects m b)
  | .place p inside b => Exec.Spares m (p.locate call f) fun l =>
    l.Holds seals b ∧ (inside = false → l.Outside m)

/-- **Terms that obey the rules leave the memory alone.** -/
theorem Wary.promises {sigs : Signatures} {seals : Nat → Bool} {here : Bool} {e : Exposure}
    (h : Wary sigs seals here e) (hcall : call.Spares m sigs) (hf : f.Respect m seals here) :
    e.Promises m call f seals := by
  induction h with
  | const =>
    simp only [Exposure.Promises, Term.eval]
    exact spares_pure ((Value.avoids_lanes _).respects _)
  | var =>
    simp only [Exposure.Promises, Term.eval]
    exact spares_pure (hf.vars _)
  | current =>
    simp only [Exposure.Promises, Term.eval]
    split
    · rename_i l hl
      exact (hf.current l hl).spares_load hf.vars
    · exact spares_crash
  | weaken hx ih => exact ih.mono fun v hv => (hv rfl).respects true
  | cast hx ih =>
    simp only [Exposure.Promises, Term.eval]
    exact ih.bind fun v _ => (Value.spares_cast _ v).mono fun w hw => hw.respects _
  | concat hxs ih =>
    simp only [Exposure.Promises, Term.eval]
    refine (spares_evalAll ih).bind fun vs _ => ?_
    exact (Value.spares_concat _ _ vs).mono fun w hw => hw.respects _
  | unary hx ih =>
    simp only [Exposure.Promises, Term.eval]
    exact ih.bind fun v _ => (Value.spares_unary _ _ v).mono fun w hw => hw.respects _
  | binary hx hy ihx ihy =>
    simp only [Exposure.Promises, Term.eval]
    refine ihx.bind fun v _ => ihy.bind fun w _ => ?_
    exact (Value.spares_binary _ _ v w).mono fun u hu => hu.respects _
  | and hx hy ihx ihy =>
    simp only [Exposure.Promises, Term.eval]
    refine ihx.bind fun v _ => (Value.spares_toBool v).bind fun b _ => ?_
    split
    · refine ihy.bind fun w _ => (Value.spares_toBool w).bind fun c _ => ?_
      exact spares_pure ((Value.avoids_lanes _).respects _)
    · exact spares_pure ((Value.avoids_lanes _).respects _)
  | or hx hy ihx ihy =>
    simp only [Exposure.Promises, Term.eval]
    refine ihx.bind fun v _ => (Value.spares_toBool v).bind fun b _ => ?_
    split
    · exact spares_pure ((Value.avoids_lanes _).respects _)
    · refine ihy.bind fun w _ => (Value.spares_toBool w).bind fun c _ => ?_
      exact spares_pure ((Value.avoids_lanes _).respects _)
  | cond htest hx hy ihtest ihx ihy =>
    simp only [Exposure.Promises, Term.eval]
    refine ihtest.bind fun v _ => (Value.spares_toBool v).bind fun b _ => ?_
    split
    · exact ihx
    · exact ihy
  | advance hptr hn ihptr ihn =>
    simp only [Exposure.Promises, Term.eval]
    refine ihptr.bind fun p hp => ihn.bind fun v _ => ?_
    refine (Value.spares_toWord _ _ v).bind fun i _ => (Value.spares_toPointer p).bind fun q hq => ?_
    refine spares_pure fun hb => ?_
    have havoid := hp hb
    simp only [hq, Value.Avoids] at havoid ⊢
    exact havoid
  | record hxs ih =>
    simp only [Exposure.Promises, Term.eval]
    refine (spares_evalAll ih).bind fun vs hvs => spares_pure fun hb => ?_
    simp only [Value.Avoids]
    exact hvs hb
  | load hp ih =>
    simp only [Exposure.Promises, Term.eval]
    exact ih.bind fun l hl => hl.1.spares_load hf.vars
  | address hp ih =>
    simp only [Exposure.Promises, Term.eval]
    refine ih.bind fun l hl => ?_
    split
    · refine spares_pure fun hb => ?_
      have hout := hl.2 hb
      simp only [Loc.Outside] at hout
      simpa [Value.Avoids] using hout
    · exact spares_crash
  | field hx ih =>
    simp only [Exposure.Promises, Term.eval]
    exact ih.bind fun v hv => Value.spares_field _ hv
  | lanes hx ih =>
    simp only [Exposure.Promises, Term.eval]
    exact ih.bind fun v _ => (Value.spares_select _ v).mono fun w hw => hw.respects _
  | discard hx ih =>
    simp only [Exposure.Promises, Term.eval]
    exact ih.bind fun v _ => spares_pure (Value.avoids_nothing.respects _)
  | workItem hdim ih =>
    simp only [Exposure.Promises, Term.eval]
    refine ih.bind fun v _ => (Value.spares_toWord _ _ v).bind fun d _ => ?_
    exact spares_pure ((Value.avoids_lanes _).respects _)
  | atomic hptr hargs ihptr ihargs =>
    simp only [Exposure.Promises, Term.eval]
    refine ihptr.bind fun p hp => (spares_evalAll ihargs).bind fun vs _ => ?_
    refine (Value.spares_toPointer p).bind fun q hq => ?_
    have havoid := hp rfl
    rw [hq] at havoid
    simp only [Value.Avoids] at havoid
    exact (Value.spares_atomic _ _ havoid vs).mono fun w hw => hw.respects _
  | math hargs ih =>
    simp only [Exposure.Promises, Term.eval]
    refine (spares_evalAll ih).bind fun vs _ => ?_
    exact (Value.spares_math _ _ vs).mono fun w hw => hw.respects _
  | call hfn hlen hargs ih =>
    simp only [Exposure.Promises, Term.eval]
    exact (spares_evalArgs hlen ih).bind fun vs hvs => hcall _ _ _ _ hfn hvs
  | placeVar =>
    simp only [Exposure.Promises, Place.locate]
    exact spares_pure ⟨.var _, fun _ => trivial⟩
  | placeDeref hptr hindex ihptr ihindex =>
    simp only [Exposure.Promises, Place.locate]
    refine ihptr.bind fun p hp => ihindex.bind fun v _ => ?_
    refine (Value.spares_toWord _ _ v).bind fun i _ => (Value.spares_toPointer p).bind fun q hq => ?_
    split
    · exact spares_fail _
    · rename_i n hn
      refine spares_pure ⟨.mem _ _ _ _, fun hb => ?_⟩
      have havoid := hp hb
      simp only [hq, Value.Avoids, hn] at havoid
      simpa [Loc.Outside] using havoid
  | placeField hp ih =>
    simp only [Exposure.Promises, Place.locate]
    exact ih.bind fun l hl => spares_pure ⟨hl.1.fieldOf _ _, fun hb => (hl.2 hb).fieldOf _ _⟩
  | placeLanes hp ih =>
    simp only [Exposure.Promises, Place.locate]
    exact ih.bind fun l hl => spares_pure ⟨.lanes hl.1 _ _, hl.2⟩

end Terms

/-! ### Actions -/

/-- The rules for actions; `aims` is the flag of the result. -/
def Action.Wary (sigs : Signatures) (seals : Nat → Bool) (aims : Bool) : Action → Prop
  | .eval x => KernelForge.Wary sigs seals false (.term x true)
  | .declare slot _ init => ∀ x, init = some x → KernelForge.Wary sigs seals false (.term x (seals slot))
  | .assign p x => ∃ b, KernelForge.Wary sigs seals false (.place p false b) ∧
      KernelForge.Wary sigs seals false (.term x b)
  | .update p next => ∃ b, KernelForge.Wary sigs seals false (.place p false b) ∧
      KernelForge.Wary sigs seals b (.term next b)
  | .seq first second => first.Wary sigs seals aims ∧ second.Wary sigs seals aims
  | .branch test yes no => KernelForge.Wary sigs seals false (.term test true) ∧
      yes.Wary sigs seals aims ∧ no.Wary sigs seals aims
  | .loop test post body =>
    (∀ x, test = some x → KernelForge.Wary sigs seals false (.term x true)) ∧
    post.Wary sigs seals aims ∧ body.Wary sigs seals aims
  | .ret result => ∀ x, result = some x → KernelForge.Wary sigs seals false (.term x aims)
  | .skip | .brk | .cont => True

/-- What is known after an action. -/
def Flow.Respects (m : Nat) (seals : Nat → Bool) (aims : Bool) (r : Flow × Vars) : Prop :=
  r.2.Respect m seals ∧ ∀ v, r.1 = .ret v → v.Respects m aims

section Runs

variable {m : Nat} {seals : Nat → Bool} {aims : Bool} {vars : Vars}

theorem Flow.respects_next (h : vars.Respect m seals) :
    Flow.Respects m seals aims (.next, vars) := ⟨h, nofun⟩

theorem Flow.respects_brk (h : vars.Respect m seals) :
    Flow.Respects m seals aims (.brk, vars) := ⟨h, nofun⟩

theorem Flow.respects_cont (h : vars.Respect m seals) :
    Flow.Respects m seals aims (.cont, vars) := ⟨h, nofun⟩

/-- Rounds of a loop. -/
theorem spares_iterate {test : Vars → Exec Bool} {body post : Step}
    (htest : ∀ vars, vars.Respect m seals → Spares m (test vars) fun _ => True)
    (hbody : ∀ vars, vars.Respect m seals → Spares m (body vars) (Flow.Respects m seals aims))
    (hpost : ∀ vars, vars.Respect m seals → Spares m (post vars) (Flow.Respects m seals aims))
    (rounds : Nat) (vars : Vars) (hvars : vars.Respect m seals) :
    Spares m (iterate test body post rounds vars) (Flow.Respects m seals aims) := by
  induction rounds generalizing vars with
  | zero => exact spares_exhausted
  | succ rounds ih =>
    rw [iterate_succ]
    refine (htest vars hvars).bind fun b _ => ?_
    split
    · refine (hbody vars hvars).bind fun r hr => ?_
      have hgo : ∀ vars', vars'.Respect m seals →
          Spares m (do let r ← post vars'; iterate test body post rounds r.2)
            (Flow.Respects m seals aims) :=
        fun vars' h' => (hpost vars' h').bind fun r' hr' => ih r'.2 hr'.1
      obtain ⟨flow, vars'⟩ := r
      cases flow with
      | brk => exact spares_pure (Flow.respects_next hr.1)
      | ret v => exact spares_pure hr
      | next => exact hgo vars' hr.1
      | cont => exact hgo vars' hr.1
    · exact spares_pure (Flow.respects_next hvars)

/-- **Actions that obey the rules leave the memory alone**, however they are left. -/
theorem Action.Wary.spares_run {sigs : Signatures} {call : Caller} (hcall : call.Spares m sigs)
    (item : WorkItem) (rounds : Nat) {a : Action} (h : a.Wary sigs seals aims)
    (hvars : vars.Respect m seals) :
    Spares m (a.run call item rounds vars) (Flow.Respects m seals aims) := by
  induction a generalizing vars with
  | skip =>
    rw [Action.run]
    exact spares_pure (Flow.respects_next hvars)
  | eval x =>
    rw [Action.run]
    refine Spares.bind (KernelForge.Wary.promises h hcall (.start hvars)) fun v _ => ?_
    exact spares_pure (Flow.respects_next hvars)
  | declare slot t init =>
    have hset : ∀ v : Value, v.Respects m (seals slot) →
        Spares m (Pure.pure (Flow.next, vars.setIfInBounds slot v)) (Flow.Respects m seals aims) :=
      fun v hv => spares_pure (Flow.respects_next (hvars.set hv))
    cases init with
    | some x =>
      rw [Action.run]
      exact Spares.bind ((h x rfl).promises hcall (.start hvars)) hset
    | none =>
      rw [Action.run]
      have hzero : Spares m (Exec.ofExcept (Value.zero t)) (Value.Respects m (seals slot)) := by
        cases hz : Value.zero t with
        | ok v => exact spares_pure ((Value.avoids_zero hz).respects _)
        | error c => exact spares_fail c
      exact hzero.bind hset
  | assign p x =>
    obtain ⟨b, hp, hx⟩ := h
    rw [Action.run]
    refine Spares.bind (hx.promises hcall (.start hvars)) fun v hv => ?_
    refine Spares.bind (hp.promises hcall (.start hvars)) fun l hl => ?_
    refine (hl.1.spares_store (hl.2 rfl) hvars hv).bind fun vars' hvars' => ?_
    exact spares_pure (Flow.respects_next hvars')
  | update p next =>
    obtain ⟨b, hp, hnext⟩ := h
    rw [Action.run]
    refine Spares.bind (hp.promises hcall (.start hvars)) fun l hl => ?_
    have hf : Frame.Respect m seals b { item, vars, current? := some l } :=
      ⟨hvars, fun l' hl' => by cases hl'; exact hl.1⟩
    refine Spares.bind (hnext.promises hcall hf) fun v hv => ?_
    refine (hl.1.spares_store (hl.2 rfl) hvars hv).bind fun vars' hvars' => ?_
    exact spares_pure (Flow.respects_next hvars')
  | seq first second ihfirst ihsecond =>
    rw [Action.run]
    refine (ihfirst h.1 hvars).bind fun r hr => ?_
    obtain ⟨flow, vars'⟩ := r
    cases flow with
    | next => exact ihsecond h.2 hr.1
    | brk => exact spares_pure hr
    | cont => exact spares_pure hr
    | ret v => exact spares_pure hr
  | branch test yes no ihyes ihno =>
    rw [Action.run]
    refine Spares.bind (h.1.promises hcall (.start hvars)) fun v _ => ?_
    refine (Value.spares_toBool v).bind fun b _ => ?_
    split
    · exact ihyes h.2.1 hvars
    · exact ihno h.2.2 hvars
  | loop test post body ihpost ihbody =>
    rw [Action.run]
    refine spares_iterate ?_ (fun vars hvars => ihbody h.2.2 hvars)
      (fun vars hvars => ihpost h.2.1 hvars) rounds vars hvars
    intro vars hvars
    cases test with
    | none => exact spares_pure trivial
    | some x =>
      refine Spares.bind ((h.1 x rfl).promises hcall (.start hvars)) fun v _ => ?_
      exact Value.spares_toBool v
  | ret result =>
    cases result with
    | none =>
      rw [Action.run]
      refine spares_pure ⟨hvars, fun v hv => ?_⟩
      cases hv
      exact Value.avoids_nothing.respects _
    | some x =>
      rw [Action.run]
      refine Spares.bind ((h x rfl).promises hcall (.start hvars)) fun v hv => ?_
      refine spares_pure ⟨hvars, fun w hw => ?_⟩
      cases hw
      exact hv
  | brk =>
    rw [Action.run]
    exact spares_pure (Flow.respects_brk hvars)
  | cont =>
    rw [Action.run]
    exact spares_pure (Flow.respects_cont hvars)

end Runs

/-! ### Functions and programs -/

namespace CheckedFn

/-- A variable may point to the memory when its type is sealed. -/
def seals (fn : CheckedFn) (slot : Nat) : Bool := (fn.declared slot).any Ty.isSealed

/-- The body of a function obeys the rules. -/
def Wary (sigs : Signatures) (fn : CheckedFn) : Prop :=
  fn.body.Wary sigs fn.seals fn.result.isSealed

variable {m : Nat} {fn : CheckedFn} {args : List Value}

theorem getElem?_frame {slot : Nat} {v : Value} (h : (fn.frame args)[slot]? = some v) :
    args[slot]? = some v ∨ v = .nothing := by
  rw [frame, List.getElem?_toArray, List.getElem?_append] at h
  split at h
  · rw [List.getElem?_take] at h
    split at h
    · exact Or.inl h
    · cases h
  · exact Or.inr (List.eq_of_mem_replicate (List.mem_of_getElem? h))

/-- Before the body the variables respect their flags. -/
theorem respect_frame (hargs : Value.RespectAll m fn.paramTypes args) :
    (fn.frame args).Respect m fn.seals := by
  intro slot
  rw [Array.getD_eq_getD_getElem?]
  cases hv : (fn.frame args)[slot]? with
  | none => exact Value.avoids_nothing.respects _
  | some v =>
    rcases getElem?_frame hv with hv | rfl
    · intro hseals
      refine hargs slot v hv ?_
      -- The flag of a parameter is that of its variable.
      rw [seals, declared] at hseals
      cases ht : fn.paramTypes[slot]? with
      | none => rfl
      | some t =>
        rw [ht] at hseals
        exact hseals
    · exact Value.avoids_nothing.respects _

theorem spares_result {flow : Flow} (h : ∀ v, flow = .ret v → v.Respects m fn.result.isSealed) :
    Spares m (fn.result? flow) (Value.Respects m fn.result.isSealed) := by
  unfold result?
  split
  all_goals first
    | exact spares_pure (h _ rfl)
    | (split
       · exact spares_pure (Value.avoids_nothing.respects _)
       · exact spares_fail _)

/-- The body of a function leaves the memory alone. -/
theorem Wary.spares_body {sigs : Signatures} (hfn : fn.Wary sigs) {call : Caller}
    (hcall : call.Spares m sigs) (item : WorkItem) (rounds : Nat)
    (hargs : Value.RespectAll m fn.paramTypes args) :
    Spares m (fn.body.run call item rounds (fn.frame args))
      (Flow.Respects m fn.seals fn.result.isSealed) :=
  Action.Wary.spares_run hcall item rounds hfn (respect_frame hargs)

end CheckedFn

namespace Program

/-- All functions of the program obey the rules. -/
def Wary (p : Program) : Prop := ∀ fn ∈ p.funcs, fn.Wary p.signatures

variable {p : Program} {m : Nat}

/-- Calls leave the memory alone, whatever the number of calls that may still be made. -/
theorem Wary.spares_call (hp : p.Wary) (item : WorkItem) (rounds depth : Nat) :
    Caller.Spares m p.signatures (p.call item rounds depth) := by
  induction depth with
  | zero =>
    intro fn params result args _ _
    exact spares_fail _
  | succ depth ih =>
    intro name params result args hsig hargs
    unfold signatures at hsig
    cases hfn : p.func? name with
    | none =>
      rw [hfn] at hsig
      cases hsig
    | some fn =>
      rw [hfn] at hsig
      cases hsig
      simp only [call, hfn]
      have hwary := hp fn (List.mem_of_find?_eq_some hfn)
      refine (hwary.spares_body ih item rounds hargs).bind fun r hr => ?_
      exact CheckedFn.spares_result hr.2

theorem Wary.spares_runItem (hp : p.Wary) {fn : CheckedFn} (hfn : fn ∈ p.funcs) (rounds : Nat)
    {args : List Value} (hargs : Value.RespectAll m fn.paramTypes args) (item : WorkItem) :
    Spares m (p.runItem rounds fn args item) fun _ => True := by
  have hcall := hp.spares_call (m := m) item rounds maxCallDepth
  exact ((hp fn hfn).spares_body hcall item rounds hargs).bind fun _ _ => spares_pure trivial

end Program
end KernelForge
