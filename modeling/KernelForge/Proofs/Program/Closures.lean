/-
Properties that a run has when its steps have them.

Running checked code does one small thing after another: it computes with values, reads and
writes a memory, or gives up.  A property of actions that all these have, and that is kept by
doing one action after another, is one that every term and every action without a loop has, as
long as the functions that are called have it.  The recursion on the code is done once here.

A calm term asks for less: it calls no function and changes no memory, so the property need not
hold of calls and of writes.
-/
import KernelForge.Proofs.Program.Quiet

namespace KernelForge

/-! ### Calm terms -/

mutual

/-- Whether a term calls no function, changes no memory and does not look at a place that is
being updated. -/
def Term.isCalm : Term → Bool
  | .const _ _ | .var _ => true
  | .current | .atomic _ _ _ _ | .call _ _ => false
  | .cast _ x | .unary _ _ x | .field _ x | .lanes _ x | .discard x | .workItem _ x => x.isCalm
  | .concat _ _ xs | .record xs | .math _ _ xs => Term.areCalm xs
  | .binary _ _ x y | .and x y | .or x y | .advance _ x y => x.isCalm && y.isCalm
  | .cond test x y => test.isCalm && x.isCalm && y.isCalm
  | .load p | .address p => p.isCalm

def Term.areCalm : List Term → Bool
  | [] => true
  | x :: xs => x.isCalm && Term.areCalm xs

def Place.isCalm : Place → Bool
  | .var _ => true
  | .deref _ ptr index => ptr.isCalm && index.isCalm
  | .field p _ _ | .lanes p _ => p.isCalm

end

namespace Exec

/-- A property of actions that holds of what neither calls nor writes, and that is kept by doing
one action after another. -/
structure Closed (C : (α : Type) → Exec α → Prop) : Prop where
  pure : ∀ {α : Type} (a : α), C α (Pure.pure a)
  bind : ∀ {α β : Type} {x : Exec α} {f : α → Exec β}, C α x → (∀ a, C β (f a)) → C β (x >>= f)
  fail : ∀ {α : Type} (e : ExecError), C α (.fail e)
  crash : ∀ {α : Type}, C α .crash
  load : ∀ (m : Nat) (offset : BitVec 64) (t : Ty), C Value (.load m offset t)

/-- It holds of writes and of calls as well. -/
structure Open (C : (α : Type) → Exec α → Prop) (call : Caller) : Prop where
  store : ∀ (m : Nat) (offset : BitVec 64) (t : Ty) (v : Value), C Unit (.store m offset t v)
  call : ∀ (fn : String) (vs : List Value), C Value (call fn vs)

namespace Closed

variable {C : (α : Type) → Exec α → Prop} (hC : Closed C)
include hC

/-! ### Operations on values -/

theorem ofLanes {α : Type} (r : Except LaneError α) : C α (.ofLanes r) := by
  cases r with
  | ok a => exact hC.pure a
  | error e => exact hC.fail _

theorem ofExcept {α : Type} (r : Except ExecError α) : C α (.ofExcept r) := by
  cases r with
  | ok a => exact hC.pure a
  | error e => exact hC.fail e

theorem toWord (w : WordWidth) (signed : Bool) (v : Value) : C _ (v.toWord w signed) := by
  unfold Value.toWord
  split
  · split
    · exact hC.bind (hC.ofLanes _) fun _ => hC.pure _
    · exact hC.crash
  · exact hC.crash

theorem toBool (v : Value) : C _ v.toBool := by
  unfold Value.toBool
  split
  · exact hC.ofLanes _
  · exact hC.crash

theorem toPointer (v : Value) : C _ v.toPointer := by
  unfold Value.toPointer
  split
  · exact hC.pure _
  · exact hC.crash

theorem cast (s : Scalar) (v : Value) : C _ (v.cast s) := by
  unfold Value.cast
  split
  · exact hC.bind (hC.ofLanes _) fun _ => hC.pure _
  · exact hC.crash

theorem lanesOf (e : Elem) (vs : List Value) : C _ (Value.lanesOf e vs) := by
  induction vs with
  | nil => exact hC.pure _
  | cons v vs ih =>
    cases v with
    | lanes f x =>
      rw [Value.lanesOf]
      split
      · exact hC.bind ih fun _ => hC.pure _
      · exact hC.crash
    | _ => exact hC.crash

theorem concat (s : Scalar) (n : Nat) (vs : List Value) : C _ (Value.concat s n vs) :=
  hC.bind (hC.lanesOf _ _) fun _ => hC.bind (hC.ofLanes _) fun _ => hC.pure _

theorem unary (op : Operator) (t : Ty) (v : Value) : C _ (v.unary op t) := by
  unfold Value.unary
  split
  · exact hC.bind (hC.ofLanes _) fun _ => hC.bind (hC.ofLanes _) fun _ => hC.pure _
  · exact hC.crash

theorem binary (op : Operator) (t : Ty) (v w : Value) : C _ (v.binary op t w) := by
  unfold Value.binary
  split
  · split
    · refine hC.bind (hC.ofLanes _) fun r => ?_
      cases r <;> exact hC.bind (hC.ofLanes _) fun _ => hC.pure _
    · exact hC.crash
  · exact hC.crash

theorem field (i : Nat) (v : Value) : C _ (v.field i) := by
  unfold Value.field
  split
  · split
    · exact hC.pure _
    · exact hC.crash
  · exact hC.crash

theorem select (is : List Nat) (v : Value) : C _ (v.select is) := by
  unfold Value.select
  split
  · exact hC.bind (hC.ofLanes _) fun _ => hC.pure _
  · exact hC.crash

theorem math (fn : Builtin) (t : Ty) (vs : List Value) : C _ (Value.math fn t vs) := by
  unfold Value.math
  split
  · exact hC.bind (hC.lanesOf _ _) fun _ => hC.bind (hC.ofLanes _) fun _ =>
      hC.bind (hC.ofLanes _) fun _ => hC.pure _
  · exact hC.crash

theorem atomicNext (fn : AtomicFn) (s : Scalar) (old : Value) (args : List Value) :
    C _ (Value.atomicNext fn s old args) := by
  unfold Value.atomicNext
  split
  case h_11 =>
    refine hC.bind (hC.binary ..) fun _ => hC.bind (hC.toBool _) fun b => ?_
    cases b <;> exact hC.pure _
  all_goals first | exact hC.binary .. | exact hC.math .. | exact hC.pure _ | exact hC.crash

theorem result (fn : CheckedFn) (flow : Flow) : C _ (fn.result? flow) := by
  unfold CheckedFn.result?
  split
  case h_5 => exact hC.pure _
  all_goals
    split
    · exact hC.pure _
    · exact hC.fail _

/-! ### Locations -/

theorem loadAt (vars : Vars) (l : Loc) : C _ (l.load vars) := by
  induction l with
  | var slot => exact hC.pure _
  | mem memory offset elem => exact hC.load ..
  | field parent i ih =>
    rw [Loc.load]
    refine hC.bind ih fun v => ?_
    cases v with
    | record vs =>
      dsimp only
      cases vs[i]? with
      | some w => exact hC.pure w
      | none => exact hC.crash
    | _ => exact hC.crash
  | lanes parent is ih =>
    rw [Loc.load]
    refine hC.bind ih fun v => ?_
    cases v with
    | lanes e x => exact hC.bind (hC.ofLanes _) fun _ => hC.pure _
    | _ => exact hC.crash

theorem storeAt {call : Caller} (hopen : Open C call) (vars : Vars) (l : Loc) (v : Value) :
    C _ (l.store vars v) := by
  induction l generalizing v with
  | var slot => exact hC.pure _
  | mem memory offset elem => exact hC.bind (hopen.store ..) fun _ => hC.pure _
  | field parent i ih =>
    rw [Loc.store]
    refine hC.bind (hC.loadAt vars parent) fun w => ?_
    cases w with
    | record vs =>
      dsimp only
      split
      · exact ih _
      · exact hC.crash
    | _ => exact hC.crash
  | lanes parent is ih =>
    rw [Loc.store]
    refine hC.bind (hC.loadAt vars parent) fun w => ?_
    cases w with
    | lanes e x =>
      cases v with
      | lanes f y =>
        dsimp only
        split
        · exact hC.bind (hC.ofLanes _) fun _ => ih _
        · exact hC.crash
      | _ => exact hC.crash
    | _ => exact hC.crash

theorem atomic {call : Caller} (hopen : Open C call) (fn : AtomicFn) (s : Scalar) (p : Pointer)
    (args : List Value) : C _ (Value.atomic fn s p args) := by
  unfold Value.atomic
  cases p.memory? with
  | none => exact hC.fail _
  | some m =>
    exact hC.bind (hC.load ..) fun _ => hC.bind (hC.atomicNext ..) fun _ =>
      hC.bind (hopen.store ..) fun _ => hC.pure _

/-! ### Terms -/

variable {call : Caller}

mutual

theorem eval (f : Frame) : ∀ t : Term, t.isCalm = true ∨ Open C call → C _ (t.eval call f)
  | .const e x, _ => by
    rw [Term.eval]
    exact hC.pure _
  | .var slot, _ => by
    rw [Term.eval]
    exact hC.pure _
  | .current, _ => by
    rw [Term.eval]
    cases f.current? with
    | some l => exact hC.loadAt f.vars l
    | none => exact hC.crash
  | .cast s x, h => by
    rw [Term.isCalm] at h
    rw [Term.eval]
    exact hC.bind (eval f x h) fun v => hC.cast s v
  | .concat s n xs, h => by
    rw [Term.isCalm] at h
    rw [Term.eval]
    exact hC.bind (evalAll f xs h) fun vs => hC.concat s n vs
  | .unary op t x, h => by
    rw [Term.isCalm] at h
    rw [Term.eval]
    exact hC.bind (eval f x h) fun v => hC.unary op t v
  | .binary op t x y, h => by
    rw [Term.isCalm, Bool.and_eq_true] at h
    rw [Term.eval]
    exact hC.bind (eval f x (h.imp And.left id)) fun v =>
      hC.bind (eval f y (h.imp And.right id)) fun w => hC.binary op t v w
  | .and x y, h => by
    rw [Term.isCalm, Bool.and_eq_true] at h
    rw [Term.eval]
    refine hC.bind (eval f x (h.imp And.left id)) fun v => hC.bind (hC.toBool v) fun b => ?_
    cases b with
    | true =>
      exact hC.bind (eval f y (h.imp And.right id)) fun w => hC.bind (hC.toBool w) fun _ => hC.pure _
    | false => exact hC.pure _
  | .or x y, h => by
    rw [Term.isCalm, Bool.and_eq_true] at h
    rw [Term.eval]
    refine hC.bind (eval f x (h.imp And.left id)) fun v => hC.bind (hC.toBool v) fun b => ?_
    cases b with
    | true => exact hC.pure _
    | false =>
      exact hC.bind (eval f y (h.imp And.right id)) fun w => hC.bind (hC.toBool w) fun _ => hC.pure _
  | .cond test x y, h => by
    rw [Term.isCalm, Bool.and_eq_true, Bool.and_eq_true] at h
    rw [Term.eval]
    refine hC.bind (eval f test (h.imp (·.1.1) id)) fun v => hC.bind (hC.toBool v) fun b => ?_
    cases b with
    | true => exact eval f x (h.imp (·.1.2) id)
    | false => exact eval f y (h.imp And.right id)
  | .advance stride ptr n, h => by
    rw [Term.isCalm, Bool.and_eq_true] at h
    rw [Term.eval]
    exact hC.bind (eval f ptr (h.imp And.left id)) fun p =>
      hC.bind (eval f n (h.imp And.right id)) fun v => hC.bind (hC.toWord _ _ v) fun _ =>
        hC.bind (hC.toPointer p) fun _ => hC.pure _
  | .record xs, h => by
    rw [Term.isCalm] at h
    rw [Term.eval]
    exact hC.bind (evalAll f xs h) fun _ => hC.pure _
  | .load p, h => by
    rw [Term.isCalm] at h
    rw [Term.eval]
    exact hC.bind (locate f p h) fun l => hC.loadAt f.vars l
  | .address p, h => by
    rw [Term.isCalm] at h
    rw [Term.eval]
    refine hC.bind (locate f p h) fun l => ?_
    cases l with
    | mem memory offset elem => exact hC.pure _
    | _ => exact hC.crash
  | .field i x, h => by
    rw [Term.isCalm] at h
    rw [Term.eval]
    exact hC.bind (eval f x h) fun v => hC.field i v
  | .lanes is x, h => by
    rw [Term.isCalm] at h
    rw [Term.eval]
    exact hC.bind (eval f x h) fun v => hC.select is v
  | .discard x, h => by
    rw [Term.isCalm] at h
    rw [Term.eval]
    exact hC.bind (eval f x h) fun _ => hC.pure _
  | .workItem fn dim, h => by
    rw [Term.isCalm] at h
    rw [Term.eval]
    exact hC.bind (eval f dim h) fun v => hC.bind (hC.toWord _ _ v) fun _ => hC.pure _
  | .math fn t args, h => by
    rw [Term.isCalm] at h
    rw [Term.eval]
    exact hC.bind (evalAll f args h) fun vs => hC.math fn t vs
  | .atomic fn s ptr args, h => by
    have hopen : Open C call := h.resolve_left (by simp [Term.isCalm])
    rw [Term.eval]
    exact hC.bind (eval f ptr (.inr hopen)) fun p => hC.bind (evalAll f args (.inr hopen)) fun vs =>
      hC.bind (hC.toPointer p) fun q => hC.atomic hopen fn s q vs
  | .call fn args, h => by
    have hopen : Open C call := h.resolve_left (by simp [Term.isCalm])
    rw [Term.eval]
    exact hC.bind (evalAll f args (.inr hopen)) fun vs => hopen.call fn vs

theorem evalAll (f : Frame) : ∀ ts : List Term, Term.areCalm ts = true ∨ Open C call →
    C _ (Term.evalAll call f ts)
  | [], _ => by
    rw [Term.evalAll]
    exact hC.pure _
  | t :: ts, h => by
    rw [Term.areCalm, Bool.and_eq_true] at h
    rw [Term.evalAll]
    exact hC.bind (eval f t (h.imp And.left id)) fun _ =>
      hC.bind (evalAll f ts (h.imp And.right id)) fun _ => hC.pure _

theorem locate (f : Frame) : ∀ p : Place, p.isCalm = true ∨ Open C call → C _ (p.locate call f)
  | .var slot, _ => by
    rw [Place.locate]
    exact hC.pure _
  | .deref elem ptr index, h => by
    rw [Place.isCalm, Bool.and_eq_true] at h
    rw [Place.locate]
    refine hC.bind (eval f ptr (h.imp And.left id)) fun p =>
      hC.bind (eval f index (h.imp And.right id)) fun v => hC.bind (hC.toWord _ _ v) fun i =>
        hC.bind (hC.toPointer p) fun q => ?_
    cases q.memory? with
    | none => exact hC.fail _
    | some m => exact hC.pure _
  | .field p fields i, h => by
    rw [Place.isCalm] at h
    rw [Place.locate]
    exact hC.bind (locate f p h) fun _ => hC.pure _
  | .lanes p is, h => by
    rw [Place.isCalm] at h
    rw [Place.locate]
    exact hC.bind (locate f p h) fun _ => hC.pure _

end

end Closed

/-! ### Calm terms -/

theorem closed_quiet : Closed fun _ x => Quiet x where
  pure := quiet_pure
  bind hx hf := hx.bind hf
  fail _ _ := rfl
  crash := quiet_crash
  load _ _ _ _ := rfl

end Exec

namespace Term

variable {call : Caller} {f : Frame}

/-- A calm term leaves the memories alone. -/
theorem quiet_eval {t : Term} (h : t.isCalm = true) : (t.eval call f).Quiet :=
  Exec.closed_quiet.eval f t (.inl h)

/-- When a calm term has been evaluated the next step starts from the same memories. -/
theorem of_eval_bind {t : Term} (h : t.isCalm = true) {α : Type} {k : Value → Exec α} {a : α}
    {st st' : Store} (hrun : (t.eval call f >>= k) st = (.ok a, st')) :
    ∃ v, t.eval call f st = (.ok v, st) ∧ k v st = (.ok a, st') := by
  obtain ⟨v, st₁, hv, hk⟩ := Exec.of_bind_ok hrun
  have hst : st₁ = st := by
    have hquiet : (t.eval call f st).2 = st := quiet_eval h st
    rwa [hv] at hquiet
  subst hst
  exact ⟨v, hv, hk⟩

end Term

theorem Place.of_locate_bind {call : Caller} {f : Frame} {p : Place} (h : p.isCalm = true) {α : Type}
    {k : Loc → Exec α} {a : α} {st st' : Store} (hrun : (p.locate call f >>= k) st = (.ok a, st')) :
    ∃ l, p.locate call f st = (.ok l, st) ∧ k l st = (.ok a, st') := by
  obtain ⟨l, st₁, hl, hk⟩ := Exec.of_bind_ok hrun
  have hst : st₁ = st := by
    have hquiet : (p.locate call f st).2 = st := Exec.closed_quiet.locate f p (.inl h) st
    rwa [hl] at hquiet
  subst hst
  exact ⟨l, hl, hk⟩

section Current

variable (call : Caller) (item : WorkItem) (vars : Vars) (c c' : Option Loc)

mutual

/-- A calm term does not look at the place that is being updated. -/
theorem Term.eval_calm : ∀ {t : Term}, t.isCalm = true →
    t.eval call ⟨item, vars, c⟩ = t.eval call ⟨item, vars, c'⟩
  | .const e x, _ | .var slot, _ => by rw [Term.eval, Term.eval]
  | .current, h | .atomic fn s ptr args, h | .call fn args, h => by simp [Term.isCalm] at h
  | .cast s x, h | .unary op t x, h | .field i x, h | .lanes is x, h | .discard x, h
  | .workItem fn x, h => by
    rw [Term.isCalm] at h
    rw [Term.eval, Term.eval, Term.eval_calm h]
  | .concat s n xs, h | .record xs, h | .math fn t xs, h => by
    rw [Term.isCalm] at h
    rw [Term.eval, Term.eval, Term.evalAll_calm h]
  | .binary op t x y, h | .and x y, h | .or x y, h | .advance stride x y, h => by
    rw [Term.isCalm, Bool.and_eq_true] at h
    rw [Term.eval, Term.eval, Term.eval_calm h.1, Term.eval_calm h.2]
  | .cond test x y, h => by
    rw [Term.isCalm, Bool.and_eq_true, Bool.and_eq_true] at h
    rw [Term.eval, Term.eval, Term.eval_calm h.1.1, Term.eval_calm h.1.2, Term.eval_calm h.2]
  | .load p, h | .address p, h => by
    rw [Term.isCalm] at h
    rw [Term.eval, Term.eval, Place.locate_calm h]

theorem Term.evalAll_calm : ∀ {ts : List Term}, Term.areCalm ts = true →
    Term.evalAll call ⟨item, vars, c⟩ ts = Term.evalAll call ⟨item, vars, c'⟩ ts
  | [], _ => by rw [Term.evalAll, Term.evalAll]
  | t :: ts, h => by
    rw [Term.areCalm, Bool.and_eq_true] at h
    rw [Term.evalAll, Term.evalAll, Term.eval_calm h.1, Term.evalAll_calm h.2]

theorem Place.locate_calm : ∀ {p : Place}, p.isCalm = true →
    p.locate call ⟨item, vars, c⟩ = p.locate call ⟨item, vars, c'⟩
  | .var slot, _ => by rw [Place.locate, Place.locate]
  | .deref elem x y, h => by
    rw [Place.isCalm, Bool.and_eq_true] at h
    rw [Place.locate, Place.locate, Term.eval_calm h.1, Term.eval_calm h.2]
  | .field p fields i, h => by
    rw [Place.isCalm] at h
    rw [Place.locate, Place.locate, Place.locate_calm h]
  | .lanes p is, h => by
    rw [Place.isCalm] at h
    rw [Place.locate, Place.locate, Place.locate_calm h]

end

end Current

end KernelForge
