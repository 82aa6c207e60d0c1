/-
Work items that do not touch each other's bytes.

The traced interpreter does what the interpreter does, and its logs are honest: by recursion on
the code, since every step is an access to memory or does not look at the memories at all.  So a
run depends on the bytes it reads and changes the bytes it writes.  Two items whose logs are
apart then find what they would have found without each other, in either order; and several
items that are pairwise apart leave the same memories in every order, since each byte is what
the one item that wrote it makes of the memories at the start, or what it was.
-/
import KernelForge.Proofs.Program.Traces
import KernelForge.Proofs.Sequence.Ranges

namespace KernelForge

/-- A loop that ran too long ends what comes after it. -/
theorem Exec.bind_exhausted {α β : Type} {x : Exec α} {st st' : Store} (h : x st = (.exhausted, st'))
    (f : α → Exec β) : (x >>= f) st = (.exhausted, st') := by
  show Exec.bind x f st = _
  rw [Exec.bind, h]

/-! ### Operations that do not look at the memories -/

namespace Tracks.Blind

variable {α β : Type} {y : Exec α}

theorem pure (a : α) : Blind (Pure.pure a : Exec α) := ⟨.ok a, fun _ => rfl⟩

theorem crash : Blind (Exec.crash : Exec α) := ⟨.crashed .mismatch, fun _ => rfl⟩

theorem fail (c : ExecError) : Blind (Exec.fail c : Exec α) := ⟨.failed c, fun _ => rfl⟩

theorem exhausted : Blind (fun st => (.exhausted, st) : Exec α) := ⟨.exhausted, fun _ => rfl⟩

theorem bind {g : α → Exec β} (hy : Blind y) (hg : ∀ a, Blind (g a)) : Blind (y >>= g) := by
  obtain ⟨r, hr⟩ := hy
  cases r with
  | ok a =>
    obtain ⟨r', hr'⟩ := hg a
    exact ⟨r', fun st => by rw [Exec.bind_ok (hr st), hr']⟩
  | failed c => exact ⟨.failed c, fun st => Exec.bind_failed (hr st) g⟩
  | crashed c => exact ⟨.crashed c, fun st => Exec.bind_crashed (hr st) g⟩
  | exhausted => exact ⟨.exhausted, fun st => Exec.bind_exhausted (hr st) g⟩

theorem ofLanes (r : Except LaneError α) : Blind (Exec.ofLanes r) := by
  cases r with
  | ok a => exact pure a
  | error c => exact fail _

theorem ofExcept (r : Except ExecError α) : Blind (Exec.ofExcept r) := by
  cases r with
  | ok a => exact pure a
  | error c => exact fail _

theorem toWord (w : WordWidth) (signed : Bool) (v : Value) : Blind (v.toWord w signed) := by
  unfold Value.toWord
  split
  · split
    · exact (ofLanes _).bind fun _ => pure _
    · exact crash
  · exact crash

theorem toBool (v : Value) : Blind v.toBool := by
  unfold Value.toBool
  split
  · exact ofLanes _
  · exact crash

theorem toPointer (v : Value) : Blind v.toPointer := by
  unfold Value.toPointer
  split
  · exact pure _
  · exact crash

theorem cast (s : Scalar) (v : Value) : Blind (v.cast s) := by
  unfold Value.cast
  split
  · exact (ofLanes _).bind fun _ => pure _
  · exact crash

theorem lanesOf (e : Elem) (vs : List Value) : Blind (Value.lanesOf e vs) := by
  induction vs with
  | nil => exact pure _
  | cons v vs ih =>
    cases v with
    | lanes f x =>
      rw [Value.lanesOf]
      split
      · exact ih.bind fun _ => pure _
      · exact crash
    | _ => exact crash

theorem concat (s : Scalar) (n : Nat) (vs : List Value) : Blind (Value.concat s n vs) :=
  (lanesOf _ _).bind fun _ => (ofLanes _).bind fun _ => pure _

theorem unary (op : Operator) (t : Ty) (v : Value) : Blind (v.unary op t) := by
  unfold Value.unary
  split
  · exact (ofLanes _).bind fun _ => (ofLanes _).bind fun _ => pure _
  · exact crash

theorem binary (op : Operator) (t : Ty) (v w : Value) : Blind (v.binary op t w) := by
  unfold Value.binary
  split
  · split
    · refine (ofLanes _).bind fun r => ?_
      cases r <;> exact (ofLanes _).bind fun _ => pure _
    · exact crash
  · exact crash

theorem field (i : Nat) (v : Value) : Blind (v.field i) := by
  unfold Value.field
  split
  · split
    · exact pure _
    · exact crash
  · exact crash

theorem select (is : List Nat) (v : Value) : Blind (v.select is) := by
  unfold Value.select
  split
  · exact (ofLanes _).bind fun _ => pure _
  · exact crash

theorem math (fn : Builtin) (t : Ty) (vs : List Value) : Blind (Value.math fn t vs) := by
  unfold Value.math
  split
  · exact (lanesOf _ _).bind fun _ => (ofLanes _).bind fun _ => (ofLanes _).bind fun _ => pure _
  · exact crash

theorem atomicNext (fn : AtomicFn) (s : Scalar) (old : Value) (args : List Value) :
    Blind (Value.atomicNext fn s old args) := by
  unfold Value.atomicNext
  split
  case h_11 =>
    refine (binary ..).bind fun _ => (toBool _).bind fun b => ?_
    cases b <;> exact pure _
  all_goals first | exact binary .. | exact math .. | exact pure _ | exact crash

theorem result (fn : CheckedFn) (flow : Flow) : Blind (fn.result? flow) := by
  unfold CheckedFn.result?
  split
  case h_5 => exact pure _
  all_goals
    split
    · exact pure _
    · exact fail _

end Tracks.Blind

/-! ### The interpreter -/

namespace Tracks

open Traced (loadAt storeAt)

variable {α : Type}

theorem crash : Tracks (.ofExec .crash : Traced α) .crash := ofExec Blind.crash

theorem loadAt (vars : Vars) : ∀ l : Loc, Tracks (Traced.loadAt vars l) (l.load vars)
  | .var slot => pure _
  | .mem memory offset elem => load memory offset elem
  | .field parent i => by
    rw [Traced.loadAt, Loc.load]
    refine (loadAt vars parent).bind fun v => ?_
    cases v with
    | record vs =>
      dsimp only
      cases vs[i]? with
      | some w => exact pure w
      | none => exact crash
    | _ => exact crash
  | .lanes parent is => by
    rw [Traced.loadAt, Loc.load]
    refine (loadAt vars parent).bind fun v => ?_
    cases v with
    | lanes e x => exact (ofExec (Blind.ofLanes _)).bind fun _ => pure _
    | _ => exact crash

theorem storeAt (vars : Vars) : ∀ (l : Loc) (v : Value), Tracks (Traced.storeAt vars v l) (l.store vars v)
  | .var slot, v => pure _
  | .mem memory offset elem, v => (store memory offset elem v).bind fun _ => pure _
  | .field parent i, v => by
    rw [Traced.storeAt, Loc.store]
    refine (loadAt vars parent).bind fun w => ?_
    cases w with
    | record vs =>
      dsimp only
      split
      · exact storeAt vars parent _
      · exact crash
    | _ => exact crash
  | .lanes parent is, v => by
    rw [Traced.storeAt, Loc.store]
    refine (loadAt vars parent).bind fun w => ?_
    cases w with
    | lanes e x =>
      cases v with
      | lanes f y =>
        dsimp only
        split
        · exact (ofExec (Blind.ofLanes _)).bind fun _ => storeAt vars parent _
        · exact crash
      | _ => exact crash
    | _ => exact crash

theorem atomic (fn : AtomicFn) (s : Scalar) (p : Pointer) (args : List Value) :
    Tracks (Traced.atomic fn s p args) (Value.atomic fn s p args) := by
  unfold Traced.atomic Value.atomic
  cases p.memory? with
  | none => exact ofExec (Blind.fail _)
  | some m => exact (load ..).bind fun _ => (ofExec (Blind.atomicNext ..)).bind fun _ =>
    (store ..).bind fun _ => pure _

section Terms

variable {call : Caller} {tcall : TracedCaller}

mutual

theorem eval (hcall : ∀ fn vs, Tracks (tcall fn vs) (call fn vs)) (f : Frame) : 
    ∀ t : Term, Tracks (Traced.eval tcall f t) (t.eval call f)
  | .const e x => by
    rw [Traced.eval, Term.eval]
    exact pure _
  | .var slot => by
    rw [Traced.eval, Term.eval]
    exact pure _
  | .current => by
    rw [Traced.eval, Term.eval]
    cases f.current? with
    | some l => exact loadAt f.vars l
    | none => exact crash
  | .cast s x => by
    rw [Traced.eval, Term.eval]
    exact (eval hcall f x).bind fun v => ofExec (Blind.cast s v)
  | .concat s n xs => by
    rw [Traced.eval, Term.eval]
    exact (evalAll hcall f xs).bind fun vs => ofExec (Blind.concat s n vs)
  | .unary op t x => by
    rw [Traced.eval, Term.eval]
    exact (eval hcall f x).bind fun v => ofExec (Blind.unary op t v)
  | .binary op t x y => by
    rw [Traced.eval, Term.eval]
    exact (eval hcall f x).bind fun v => (eval hcall f y).bind fun w => ofExec (Blind.binary op t v w)
  | .and x y => by
    rw [Traced.eval, Term.eval]
    refine (eval hcall f x).bind fun v => (ofExec (Blind.toBool v)).bind fun b => ?_
    cases b with
    | true => exact (eval hcall f y).bind fun w => (ofExec (Blind.toBool w)).bind fun _ => pure _
    | false => exact pure _
  | .or x y => by
    rw [Traced.eval, Term.eval]
    refine (eval hcall f x).bind fun v => (ofExec (Blind.toBool v)).bind fun b => ?_
    cases b with
    | true => exact pure _
    | false => exact (eval hcall f y).bind fun w => (ofExec (Blind.toBool w)).bind fun _ => pure _
  | .cond test x y => by
    rw [Traced.eval, Term.eval]
    refine (eval hcall f test).bind fun v => (ofExec (Blind.toBool v)).bind fun b => ?_
    cases b with
    | true => exact eval hcall f x
    | false => exact eval hcall f y
  | .advance stride ptr n => by
    rw [Traced.eval, Term.eval]
    exact (eval hcall f ptr).bind fun p => (eval hcall f n).bind fun v =>
      (ofExec (Blind.toWord _ _ v)).bind fun _ => (ofExec (Blind.toPointer p)).bind fun _ => pure _
  | .record xs => by
    rw [Traced.eval, Term.eval]
    exact (evalAll hcall f xs).bind fun _ => pure _
  | .load p => by
    rw [Traced.eval, Term.eval]
    exact (locate hcall f p).bind fun l => loadAt f.vars l
  | .address p => by
    rw [Traced.eval, Term.eval]
    refine (locate hcall f p).bind fun l => ?_
    cases l with
    | mem memory offset elem => exact pure _
    | _ => exact crash
  | .field i x => by
    rw [Traced.eval, Term.eval]
    exact (eval hcall f x).bind fun v => ofExec (Blind.field i v)
  | .lanes is x => by
    rw [Traced.eval, Term.eval]
    exact (eval hcall f x).bind fun v => ofExec (Blind.select is v)
  | .discard x => by
    rw [Traced.eval, Term.eval]
    exact (eval hcall f x).bind fun _ => pure _
  | .workItem fn dim => by
    rw [Traced.eval, Term.eval]
    exact (eval hcall f dim).bind fun v => (ofExec (Blind.toWord _ _ v)).bind fun _ => pure _
  | .atomic fn s ptr args => by
    rw [Traced.eval, Term.eval]
    exact (eval hcall f ptr).bind fun p => (evalAll hcall f args).bind fun vs =>
      (ofExec (Blind.toPointer p)).bind fun q => atomic fn s q vs
  | .math fn t args => by
    rw [Traced.eval, Term.eval]
    exact (evalAll hcall f args).bind fun vs => ofExec (Blind.math fn t vs)
  | .call fn args => by
    rw [Traced.eval, Term.eval]
    exact (evalAll hcall f args).bind fun vs => hcall fn vs

theorem evalAll (hcall : ∀ fn vs, Tracks (tcall fn vs) (call fn vs)) (f : Frame) : 
    ∀ ts : List Term, Tracks (Traced.evalAll tcall f ts) (Term.evalAll call f ts)
  | [] => by
    rw [Traced.evalAll, Term.evalAll]
    exact pure _
  | t :: ts => by
    rw [Traced.evalAll, Term.evalAll]
    exact (eval hcall f t).bind fun _ => (evalAll hcall f ts).bind fun _ => pure _

theorem locate (hcall : ∀ fn vs, Tracks (tcall fn vs) (call fn vs)) (f : Frame) : 
    ∀ p : Place, Tracks (Traced.locate tcall f p) (p.locate call f)
  | .var slot => by
    rw [Traced.locate, Place.locate]
    exact pure _
  | .deref elem ptr index => by
    rw [Traced.locate, Place.locate]
    refine (eval hcall f ptr).bind fun p => (eval hcall f index).bind fun v =>
      (ofExec (Blind.toWord _ _ v)).bind fun i => (ofExec (Blind.toPointer p)).bind fun q => ?_
    cases q.memory? with
    | none => exact ofExec (Blind.fail _)
    | some m => exact pure _
  | .field p fields i => by
    rw [Traced.locate, Place.locate]
    exact (locate hcall f p).bind fun _ => pure _
  | .lanes p is => by
    rw [Traced.locate, Place.locate]
    exact (locate hcall f p).bind fun _ => pure _

end

end Terms

/-! ### Actions and calls -/

/-- A round of a loop, as a sequence of its parts. -/
theorem iterate_succ (test : Vars → Exec Bool) (body post : Step) (rounds : Nat) (vars : Vars) :
    KernelForge.iterate test body post (rounds + 1) vars = (do
      if ← test vars then
        match ← body vars with
        | (.brk, vars) => return (.next, vars)
        | (.ret v, vars) => return (.ret v, vars)
        | (_, vars) =>
          let (_, vars) ← post vars
          KernelForge.iterate test body post rounds vars
      else return (.next, vars)) := by
  funext st
  rcases htest : test vars st with ⟨outcome, st₁⟩
  cases outcome with
  | ok b =>
    rw [Exec.bind_ok htest]
    cases b with
    | false =>
      simp only [KernelForge.iterate, htest]
      rfl
    | true =>
      rw [if_pos rfl]
      rcases hbody : body vars st₁ with ⟨outcome, st₂⟩
      cases outcome with
      | ok r =>
        rw [Exec.bind_ok hbody]
        obtain ⟨flow, vars'⟩ := r
        cases flow with
        | brk | ret v =>
          simp only [KernelForge.iterate, htest, hbody]
          rfl
        | next | cont =>
          rcases hpost : post vars' st₂ with ⟨outcome, st₃⟩
          cases outcome with
          | ok r => simp only [KernelForge.iterate, htest, hbody, hpost, Exec.bind_ok hpost]
          | failed c => simp only [KernelForge.iterate, htest, hbody, hpost, Exec.bind_failed hpost]
          | crashed c => simp only [KernelForge.iterate, htest, hbody, hpost, Exec.bind_crashed hpost]
          | exhausted => simp only [KernelForge.iterate, htest, hbody, hpost, Exec.bind_exhausted hpost]
      | failed c => simp only [KernelForge.iterate, htest, hbody, Exec.bind_failed hbody]
      | crashed c => simp only [KernelForge.iterate, htest, hbody, Exec.bind_crashed hbody]
      | exhausted => simp only [KernelForge.iterate, htest, hbody, Exec.bind_exhausted hbody]
  | failed c => simp only [KernelForge.iterate, htest, Exec.bind_failed htest]
  | crashed c => simp only [KernelForge.iterate, htest, Exec.bind_crashed htest]
  | exhausted => simp only [KernelForge.iterate, htest, Exec.bind_exhausted htest]

theorem iterate {test : Vars → Exec Bool} {body post : Step} {ttest : Vars → Traced Bool}
    {tbody tpost : Vars → Traced (Flow × Vars)} (htest : ∀ vars, Tracks (ttest vars) (test vars))
    (hbody : ∀ vars, Tracks (tbody vars) (body vars)) (hpost : ∀ vars, Tracks (tpost vars) (post vars))
    (rounds : Nat) (vars : Vars) :
    Tracks (Traced.iterate ttest tbody tpost rounds vars) (KernelForge.iterate test body post rounds vars) := by
  induction rounds generalizing vars with
  | zero => exact ofExec Blind.exhausted
  | succ rounds ih =>
    rw [iterate_succ, Traced.iterate]
    refine (htest vars).bind fun b => ?_
    cases b with
    | false => exact pure _
    | true =>
      refine (hbody vars).bind fun r => ?_
      obtain ⟨flow, vars'⟩ := r
      cases flow with
      | brk | ret v => exact pure _
      | next | cont => exact (hpost vars').bind fun r => ih r.2

section Actions

variable {call : Caller} {tcall : TracedCaller} (hcall : ∀ fn vs, Tracks (tcall fn vs) (call fn vs))
include hcall

theorem run (item : WorkItem) (rounds : Nat) : ∀ (a : Action) (vars : Vars),
    Tracks (Traced.run tcall item rounds a vars) (a.run call item rounds vars)
  | .skip, vars => pure _
  | .eval x, vars => (eval hcall _ x).bind fun _ => pure _
  | .declare slot t none, vars => (ofExec (Blind.ofExcept _)).bind fun _ => pure _
  | .declare slot t (some x), vars => (eval hcall _ x).bind fun _ => pure _
  | .assign p x, vars => (eval hcall _ x).bind fun v => (locate hcall _ p).bind fun l =>
    (storeAt vars l v).bind fun _ => pure _
  | .update p next, vars => (locate hcall _ p).bind fun l => (eval hcall _ next).bind fun v =>
    (storeAt vars l v).bind fun _ => pure _
  | .seq first second, vars => by
    rw [Traced.run, Action.run]
    refine (run item rounds first vars).bind fun r => ?_
    obtain ⟨flow, vars'⟩ := r
    cases flow with
    | next => exact run item rounds second vars'
    | _ => exact pure _
  | .branch test yes no, vars => by
    rw [Traced.run, Action.run]
    refine (eval hcall _ test).bind fun v => (ofExec (Blind.toBool v)).bind fun b => ?_
    cases b with
    | true => exact run item rounds yes vars
    | false => exact run item rounds no vars
  | .loop test post body, vars => by
    rw [Traced.run, Action.run]
    refine iterate (fun vars => ?_) (run item rounds body) (run item rounds post) rounds vars
    cases test with
    | some x => exact (eval hcall _ x).bind fun v => ofExec (Blind.toBool v)
    | none => exact pure _
  | .ret none, vars => pure _
  | .ret (some x), vars => (eval hcall _ x).bind fun _ => pure _
  | .brk, vars => pure _
  | .cont, vars => pure _

end Actions

theorem call (p : Program) (item : WorkItem) (rounds : Nat) : ∀ (depth : Nat) (name : String)
    (args : List Value), Tracks (Traced.call p item rounds depth name args) (p.call item rounds depth name args)
  | 0, name, args => ofExec (Blind.fail _)
  | depth + 1, name, args => by
    rw [Traced.call, Program.call]
    cases p.func? name with
    | none => exact crash
    | some fn =>
      have hbody := run (call p item rounds depth) item rounds fn.body (fn.frame args)
      exact hbody.bind fun r => ofExec (Blind.result fn r.1)

/-- **The traced run of a work item does what the run does, and its log is honest.** -/
theorem traceItem (p : Program) (rounds : Nat) (fn : CheckedFn) (args : List Value) (item : WorkItem) :
    Tracks (p.traceItem rounds fn args item) (p.runItem rounds fn args item) :=
  (run (call p item rounds maxCallDepth) item rounds fn.body (fn.frame args)).bind fun _ => pure _

end Tracks

/-- Whether there is a result. -/
def Outcome.isOk {ε α : Type} : Outcome ε α → Bool
  | .ok _ => true
  | _ => false

theorem Outcome.eq_ok_of_isOk {ε : Type} {r : Outcome ε Unit} (h : r.isOk = true) : r = .ok () := by
  cases r with
  | ok _ => rfl
  | _ => cases h

namespace Program

/-! ### Items in any order -/

section Order

variable {p : Program} {rounds : Nat} {fn : CheckedFn} {args : List Value} {offset extent : Int}
variable {st : Store}

/-- What an item of a range reads and writes when it runs first. -/
def traceAt (p : Program) (rounds : Nat) (fn : CheckedFn) (args : List Value) (offset extent : Int)
    (st : Store) (id : Nat) : Trace := (p.traceItem rounds fn args { offset, extent, id } st).2

/-- The memories after an item of a range that runs first. -/
def storeAfter (p : Program) (rounds : Nat) (fn : CheckedFn) (args : List Value) (offset extent : Int)
    (st : Store) (id : Nat) : Store := (p.runItem rounds fn args { offset, extent, id } st).2

/-- An item of a range succeeds when it runs first. -/
def Succeeds (p : Program) (rounds : Nat) (fn : CheckedFn) (args : List Value) (offset extent : Int)
    (st : Store) (id : Nat) : Prop := (p.runItem rounds fn args { offset, extent, id } st).1 = .ok ()

/-- What memories hold after some items: every byte that one of them writes is what it makes of
the memories `st`, and every other byte is as it was. -/
structure Merges (p : Program) (rounds : Nat) (fn : CheckedFn) (args : List Value) (offset extent : Int)
    (st : Store) (ids : List Nat) (before after : Store) : Prop where
  shape : after.SameShape st
  written : ∀ id ∈ ids, ∀ a ∈ (p.traceAt rounds fn args offset extent st id).writes,
    after.byte? a = (p.storeAfter rounds fn args offset extent st id).byte? a
  kept : ∀ a, (∀ id ∈ ids, a ∉ (p.traceAt rounds fn args offset extent st id).writes) →
    after.byte? a = before.byte? a

/-- Items that are pairwise apart succeed after one another, each as if it were the first. -/
theorem runOrder_merges : ∀ {ids : List Nat} {before : Store},
    (∀ id ∈ ids, p.Succeeds rounds fn args offset extent st id) →
    ids.Pairwise (fun i j => (p.traceAt rounds fn args offset extent st i).Apart
      (p.traceAt rounds fn args offset extent st j)) →
    st.SameShape before →
    (∀ id ∈ ids, AgreeOn (p.traceAt rounds fn args offset extent st id).reads st before) →
    ∃ after, p.runOrder rounds fn args offset extent ids before = (.ok (), after) ∧
      p.Merges rounds fn args offset extent st ids before after
  | [], before, _, _, hshape, _ => ⟨before, rfl, hshape.symm, nofun, fun _ _ => rfl⟩
  | id :: ids, before, hok, hapart, hshape, hagree => by
    obtain ⟨hfirst, hrest⟩ := List.pairwise_cons.mp hapart
    have htracks := Tracks.traceItem p rounds fn args { offset, extent, id }
    have hreads := hagree id List.mem_cons_self
    obtain ⟨houtcome, hlog⟩ := htracks.outcome st before hreads
    have hwritten := htracks.same st before hreads ⟨(), hok id List.mem_cons_self⟩
    have hkept := htracks.kept before
    rw [hlog] at hkept
    have hshape' := htracks.shape before
    rw [hok id List.mem_cons_self] at houtcome
    rcases hrun : p.runItem rounds fn args { offset, extent, id } before with ⟨outcome, mid⟩
    rw [hrun] at houtcome hwritten hkept hshape'
    dsimp only at houtcome hwritten hkept hshape'
    subst houtcome
    have hmid : ∀ j ∈ ids, AgreeOn (p.traceAt rounds fn args offset extent st j).reads st mid :=
      fun j hj => ⟨hshape.trans hshape'.symm, fun a ha => by
        rw [hkept a fun hw => ((hfirst j hj).1 a hw).1 ha]
        exact (hagree j (List.mem_cons_of_mem _ hj)).bytes a ha⟩
    obtain ⟨after, hafter, hmerges⟩ := runOrder_merges
      (fun j hj => hok j (List.mem_cons_of_mem _ hj)) hrest (hshape.trans hshape'.symm) hmid
    refine ⟨after, by simp only [runOrder, hrun, hafter], hmerges.shape, fun j hj a ha => ?_,
      fun a ha => ?_⟩
    · rcases List.mem_cons.mp hj with rfl | hj
      · rw [hmerges.kept a fun k hk hw => ((hfirst k hk).1 a ha).2 hw]
        exact hwritten a ha
      · exact hmerges.written j hj a ha
    · rw [hmerges.kept a fun j hj => ha j (List.mem_cons_of_mem _ hj)]
      exact hkept a (ha id List.mem_cons_self)

/-- Memories that hold the same items' work are the same. -/
theorem Merges.unique {ids ids' : List Nat} {after after' : Store}
    (h : p.Merges rounds fn args offset extent st ids st after)
    (h' : p.Merges rounds fn args offset extent st ids' st after') (hids : ∀ id, id ∈ ids ↔ id ∈ ids') :
    after = after' := by
  refine (h.shape.trans h'.shape.symm).ext fun a => ?_
  by_cases hw : ∃ id ∈ ids, a ∈ (p.traceAt rounds fn args offset extent st id).writes
  · obtain ⟨id, hid, hw⟩ := hw
    rw [h.written id hid a hw, h'.written id ((hids id).mp hid) a hw]
  · rw [h.kept a fun id hid hin => hw ⟨id, hid, hin⟩,
      h'.kept a fun id hid hin => hw ⟨id, (hids id).mpr hid, hin⟩]

theorem runOrder_perm {ids ids' : List Nat} (hperm : ids'.Perm ids)
    (hok : ∀ id ∈ ids, p.Succeeds rounds fn args offset extent st id)
    (hapart : ids.Pairwise fun i j => (p.traceAt rounds fn args offset extent st i).Apart
      (p.traceAt rounds fn args offset extent st j)) :
    ∃ after, p.runOrder rounds fn args offset extent ids st = (.ok (), after) ∧
      p.runOrder rounds fn args offset extent ids' st = (.ok (), after) := by
  have hagree : ∀ {a : List Address}, AgreeOn a st st := ⟨.refl st, fun _ _ => rfl⟩
  obtain ⟨after, hrun, hmerges⟩ := runOrder_merges hok hapart (.refl st) fun _ _ => hagree
  obtain ⟨after', hrun', hmerges'⟩ := runOrder_merges
    (fun id hid => hok id (hperm.mem_iff.mp hid))
    (hperm.symm.pairwise hapart fun h => h.symm) (.refl st) fun _ _ => hagree
  obtain rfl := hmerges.unique hmerges' fun id => hperm.mem_iff.symm
  exact ⟨after, hrun, hrun'⟩

end Order

/-- **Work items that are independent commute.**  The traced run of an item does what the run
does.  Two items that succeed from given memories, and of which neither wrote a byte that the
other read or wrote, succeed one after the other in both orders, and leave the same memories.
And when all items of a range are so, pairwise, every order of them leaves the memories that
running the kernel leaves. -/
theorem independent_items_commute {p : Program} {fn : CheckedFn} {actuals : List KernelArg}
    {args : List Value} (hargs : readArgs fn actuals = .ok args) {offset extent : Int}
    (hrange : 0 ≤ offset ∧ 0 ≤ extent) (st : Store) :
    (∀ item st, (p.traceItem loopBudget fn args item st).1 = p.runItem loopBudget fn args item st) ∧
    (∀ i j, p.Succeeds loopBudget fn args offset extent st i →
      p.Succeeds loopBudget fn args offset extent st j →
      (p.traceAt loopBudget fn args offset extent st i).Apart
        (p.traceAt loopBudget fn args offset extent st j) →
      ∃ after, p.runOrder loopBudget fn args offset extent [i, j] st = (.ok (), after) ∧
        p.runOrder loopBudget fn args offset extent [j, i] st = (.ok (), after)) ∧
    ((∀ id < extent.toNat, p.Succeeds loopBudget fn args offset extent st id) →
      (∀ i < extent.toNat, ∀ j < extent.toNat, i ≠ j →
        (p.traceAt loopBudget fn args offset extent st i).Apart
          (p.traceAt loopBudget fn args offset extent st j)) →
      ∃ after, p.run fn actuals offset extent st = (.ok (), after) ∧
        ∀ ids, ids.Perm (List.range extent.toNat) →
          p.runOrder loopBudget fn args offset extent ids st = (.ok (), after)) := by
  refine ⟨fun item st => (Tracks.traceItem p loopBudget fn args item).erases st,
    fun i j hi hj hapart => ?_, fun hok hapart => ?_⟩
  · exact runOrder_perm (List.Perm.swap i j []) (by simp [hi, hj]) (by simpa using hapart)
  · have hpairs : (List.range extent.toNat).Pairwise fun i j =>
        (p.traceAt loopBudget fn args offset extent st i).Apart
          (p.traceAt loopBudget fn args offset extent st j) := by
      refine List.Pairwise.imp_of_mem (fun hi hj hne => hapart _ (List.mem_range.mp hi) _
        (List.mem_range.mp hj) hne) List.nodup_range
    have hrun : p.run fn actuals offset extent st =
        p.runOrder loopBudget fn args offset extent (List.range extent.toNat) st := by
      rw [Program.run, Program.runWithin, if_neg (by omega), hargs]
      simp only [runItems_eq_runOrder, List.range_eq_range']
    obtain ⟨after, hafter, -⟩ := runOrder_perm (List.Perm.refl (List.range extent.toNat))
      (fun id hid => hok id (List.mem_range.mp hid)) hpairs
    refine ⟨after, hrun.trans hafter, fun ids hperm => ?_⟩
    obtain ⟨after', hsame, hother⟩ := runOrder_perm hperm
      (fun id hid => hok id (List.mem_range.mp hid)) hpairs
    rw [hother]
    rw [hafter] at hsame
    rw [hsame]

/-! ### A kernel whose items are apart -/

section Each

/-- The element of what a pointer variable points to that has the number of the work item. -/
def eachPlace (slot : Nat) : Place :=
  .deref (.scalar .char) (.var slot)
    (.cast .long (.workItem .globalId (.cast .uint (.const .int32 (.atom 0)))))

/-- A kernel that adds an element of one memory to that of another, for every work item. -/
def eachFn : CheckedFn where
  name := "each"
  isKernel := true
  result := .void
  params := [("a", .pointer (.scalar .char) .global true), ("b", .pointer (.scalar .char) .global false)]
  slots := 2
  body := .seq (.update (eachPlace 1) (.cast .char (.binary .add (.scalar .int)
    (.load (eachPlace 0)) .current))) .skip

def eachProgram : Program where
  source := SourceText.ofString ""
  fp64 := false
  funcs := [eachFn]

/-- Of the two items of a range each adds its own bytes, so that they may run in any order. -/
theorem each_commutes :
    let actuals : List KernelArg := [{ memory? := some 0 }, { memory? := some 1 }]
    let args : List Value := [.pointer ⟨some 0, 0⟩, .pointer ⟨some 1, 0⟩]
    let st : Store := #[#[1, 2], #[10, 20]]
    readArgs eachFn actuals = .ok args ∧
      (∀ id < 2, eachProgram.Succeeds loopBudget eachFn args 0 2 st id) ∧
      (∀ i < 2, ∀ j < 2, i ≠ j → (eachProgram.traceAt loopBudget eachFn args 0 2 st i).Apart
        (eachProgram.traceAt loopBudget eachFn args 0 2 st j)) ∧
      ∃ after, eachProgram.run eachFn actuals 0 2 st = (.ok (), after) ∧
        eachProgram.runOrder loopBudget eachFn args 0 2 [1, 0] st = (.ok (), after) := by
  intro actuals args st
  have hargs : readArgs eachFn actuals = .ok args := rfl
  have hok : ∀ id < 2, eachProgram.Succeeds loopBudget eachFn args 0 2 st id := by
    have hdone : ∀ id < 2, (eachProgram.runItem loopBudget eachFn args ⟨0, 2, id⟩ st).1.isOk = true := by
      decide +kernel
    exact fun id hid => Outcome.eq_ok_of_isOk (hdone id hid)
  have hapart : ∀ i < 2, ∀ j < 2, i ≠ j → (eachProgram.traceAt loopBudget eachFn args 0 2 st i).Apart
      (eachProgram.traceAt loopBudget eachFn args 0 2 st j) := by
    decide +kernel
  obtain ⟨-, -, hall⟩ := @independent_items_commute eachProgram eachFn actuals args hargs 0 2 (by decide) st
  obtain ⟨after, hrun, horder⟩ := hall hok hapart
  exact ⟨hargs, hok, hapart, after, hrun, horder [1, 0] (List.Perm.swap 0 1 [])⟩

end Each

end Program

end KernelForge
