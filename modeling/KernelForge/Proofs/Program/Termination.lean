/-
Kernels without loops always end.

A loop is the only thing that can go on for ever: calls may recurse, but no more than 64 of them
are ever active.  So what has no loop comes to an end however its functions call each other, and
how many rounds a loop would have been given makes no difference.

The interpreter hands each call what is left of the limit.  `callOn` counts upwards instead, as
a caller does that knows how many calls are active, and it has room for a number of active calls
only; running out of room is not an error but a run that never ends.  With room for 64 calls it
does what the interpreter does, so there never are more.
-/
import KernelForge.Proofs.Code.Listings
import KernelForge.Proofs.Program.Bounds
import KernelForge.Proofs.Program.Built
import KernelForge.Proofs.Program.Closures
import KernelForge.Program.Run

namespace KernelForge

/-- Whether an action has no loop. -/
def Action.isLoopFree : Action → Bool
  | .loop _ _ _ => false
  | .seq first second => first.isLoopFree && second.isLoopFree
  | .branch _ yes no => yes.isLoopFree && no.isLoopFree
  | _ => true

namespace Code

mutual

/-- Whether a statement has no loop. -/
def Stmt.isLoopFree : Stmt → Bool
  | .loop _ _ _ _ _ => false
  | .block _ body => areLoopFree body
  | .ifThen _ _ yes => yes.isLoopFree
  | .ifElse _ _ yes no => yes.isLoopFree && no.isLoopFree
  | _ => true

def Stmt.areLoopFree : List Stmt → Bool
  | [] => true
  | s :: ss => s.isLoopFree && areLoopFree ss

end

/-- Whether no function of a source has a loop. -/
def File.isLoopFree (file : File) : Bool := file.funcs.all fun d => Stmt.areLoopFree d.body

end Code

/-! ### Actions that end -/

/-- The action comes to an end. -/
def Exec.Halts (α : Type) (x : Exec α) : Prop := ∀ st, (x st).1 ≠ .exhausted

namespace Exec

theorem closed_halts : Closed Halts where
  pure a st h := by cases h
  bind hx hf st h := by
    rename_i α β x f
    rcases hrun : x st with ⟨outcome, st'⟩
    have hst := hx st
    rw [hrun] at hst
    cases outcome with
    | ok a =>
      rw [bind_ok hrun] at h
      exact hf a st' h
    | failed e =>
      rw [bind_failed hrun] at h
      cases h
    | crashed c =>
      rw [bind_crashed hrun] at h
      cases h
    | exhausted => exact hst rfl
  fail e st h := by cases h
  crash st h := by cases h
  load m offset t st h := by
    simp only [load, Store.load] at h
    split at h
    · cases h
    · cases h
    · split at h <;> cases h

end Exec

namespace Value

mutual

theorem encodeAt_halts : ∀ (t : Ty) (v : Value) (dst : Bytes) (offset : Nat),
    (encodeAt t v dst offset).2 ≠ .exhausted
  | t, .nothing, dst, offset => by simp [encodeAt]
  | t, .pointer _, dst, offset => by simp [encodeAt]
  | t, .lanes _ x, dst, offset => by simp [encodeAt]
  | .tuple ts, .record vs, dst, offset => by
    rw [encodeAt]
    exact encodeFields_halts ts vs dst offset 0
  | .void, .record _, dst, offset | .scalar _, .record _, dst, offset
  | .vector _ _, .record _, dst, offset | .pointer _ _ _, .record _, dst, offset => by
    simp [encodeAt]

theorem encodeFields_halts : ∀ (ts : List Ty) (vs : List Value) (dst : Bytes) (base used : Nat),
    (encodeFields ts vs dst base used).2 ≠ .exhausted
  | [], vs, dst, base, used => by simp [encodeFields]
  | _ :: _, [], dst, base, used => by simp [encodeFields]
  | t :: ts, v :: vs, dst, base, used => by
    rw [encodeFields]
    split
    · exact encodeFields_halts ts vs _ base _
    · exact encodeAt_halts t v dst _

end

end Value

theorem Exec.halts_store (m : Nat) (offset : BitVec 64) (t : Ty) (v : Value) :
    Halts Unit (.store m offset t v) := by
  intro st h
  simp only [store, Store.store] at h
  split at h
  · cases h
  · cases h
  · exact Value.encodeAt_halts t v _ _ h

/-- What has no loop has every property that its steps have. -/
theorem Exec.Closed.run {C : (α : Type) → Exec α → Prop} (hC : Closed C) {call : Caller}
    (hopen : Open C call) (item : WorkItem) (rounds : Nat) {a : Action} (ha : a.isLoopFree = true)
    (vars : Vars) : C _ (a.run call item rounds vars) := by
  have heval := fun x => hC.eval { item, vars } x (.inr hopen)
  have hlocate := fun p => hC.locate { item, vars } p (.inr hopen)
  induction a generalizing vars with
  | skip => exact hC.pure _
  | eval x => exact hC.bind (heval x) fun _ => hC.pure _
  | declare slot t init =>
    cases init with
    | none => exact hC.bind (hC.ofExcept _) fun _ => hC.pure _
    | some x => exact hC.bind (heval x) fun _ => hC.pure _
  | assign p x =>
    exact hC.bind (heval x) fun v => hC.bind (hlocate p) fun l =>
      hC.bind (hC.storeAt hopen vars l v) fun _ => hC.pure _
  | update p next =>
    exact hC.bind (hlocate p) fun l => hC.bind (hC.eval _ next (.inr hopen)) fun v =>
      hC.bind (hC.storeAt hopen vars l v) fun _ => hC.pure _
  | seq first second ih₁ ih₂ =>
    rw [Action.isLoopFree, Bool.and_eq_true] at ha
    rw [Action.run]
    refine hC.bind (ih₁ ha.1 vars heval hlocate) fun r => ?_
    obtain ⟨flow, vars'⟩ := r
    cases flow with
    | next =>
      exact ih₂ ha.2 vars' (fun x => hC.eval _ x (.inr hopen)) fun p => hC.locate _ p (.inr hopen)
    | _ => exact hC.pure _
  | branch test yes no ih₁ ih₂ =>
    rw [Action.isLoopFree, Bool.and_eq_true] at ha
    rw [Action.run]
    refine hC.bind (heval test) fun v => hC.bind (hC.toBool v) fun b => ?_
    cases b with
    | true => exact ih₁ ha.1 vars heval hlocate
    | false => exact ih₂ ha.2 vars heval hlocate
  | loop test post body ih₁ ih₂ => cases ha
  | ret result =>
    cases result with
    | none => exact hC.pure _
    | some x => exact hC.bind (heval x) fun _ => hC.pure _
  | brk => exact hC.pure _
  | cont => exact hC.pure _

/-- Without a loop it makes no difference how many rounds a loop may run. -/
theorem Action.run_of_isLoopFree {a : Action} (ha : a.isLoopFree = true) (call : Caller)
    (item : WorkItem) (rounds rounds' : Nat) (vars : Vars) :
    a.run call item rounds vars = a.run call item rounds' vars := by
  induction a generalizing vars with
  | seq first second ih₁ ih₂ =>
    rw [isLoopFree, Bool.and_eq_true] at ha
    rw [run, run, ih₁ ha.1]
    congr 1
    funext r
    obtain ⟨flow, vars'⟩ := r
    cases flow with
    | next => exact ih₂ ha.2 vars'
    | _ => rfl
  | branch test yes no ih₁ ih₂ =>
    rw [isLoopFree, Bool.and_eq_true] at ha
    rw [run, run]
    simp only [ih₁ ha.1, ih₂ ha.2]
  | loop test post body => cases ha
  | ret result => cases result <;> rfl
  | _ => rfl

/-- A run that does not come to an end. -/
def Exec.endless {α : Type} : Exec α := fun st => (.exhausted, st)

namespace Program

/-! ### Calls -/

/-- Runs functions as a caller does that knows how many calls are active.  There is room for some
more; a call for which there is none is never done with. -/
def callOn (p : Program) (item : WorkItem) (rounds : Nat) : Nat → Nat → Caller
  | 0, active, name, _ =>
    if maxCallDepth ≤ active then .fail (.stackOverflow name maxCallDepth) else .endless
  | room + 1, active, name, args =>
    if maxCallDepth ≤ active then .fail (.stackOverflow name maxCallDepth)
    else
      match p.func? name with
      | none => .crash
      | some fn => do
        let (flow, _) ← fn.body.run (p.callOn item rounds room (active + 1)) item rounds (fn.frame args)
        fn.result? flow

/-- Runs one work item with room for a number of active calls. -/
def runItemOn (p : Program) (rounds room : Nat) (fn : CheckedFn) (args : List Value)
    (item : WorkItem) : Exec Unit := do
  let _ ← fn.body.run (p.callOn item rounds room 0) item rounds (fn.frame args)

variable {p : Program} {item : WorkItem} {rounds : Nat}

theorem callOn_of_le {room active : Nat} (h : maxCallDepth ≤ active) (name : String)
    (args : List Value) :
    p.callOn item rounds room active name args = .fail (.stackOverflow name maxCallDepth) := by
  cases room <;> rw [callOn, if_pos h]

/-- **Where there is room for all calls that the limit allows, the calls are those of the
interpreter.** -/
theorem callOn_eq_call {room active : Nat} (hroom : maxCallDepth ≤ room + active) :
    p.callOn item rounds room active = p.call item rounds (maxCallDepth - active) := by
  induction room generalizing active with
  | zero =>
    funext name args
    have hspare : maxCallDepth - active = 0 := by omega
    rw [callOn_of_le (by omega), hspare, call]
  | succ room ih =>
    funext name args
    by_cases hlimit : maxCallDepth ≤ active
    · have hspare : maxCallDepth - active = 0 := by omega
      rw [callOn_of_le hlimit, hspare, call]
    · have hspare : maxCallDepth - active = maxCallDepth - (active + 1) + 1 := by omega
      rw [callOn, if_neg hlimit, ih (by omega), hspare]
      rfl

/-- Whether no function of a program has a loop. -/
def LoopFree (p : Program) : Prop := ∀ fn ∈ p.funcs, fn.body.isLoopFree = true

theorem LoopFree.call_eq (hp : p.LoopFree) (item : WorkItem) (rounds rounds' depth : Nat) :
    p.call item rounds depth = p.call item rounds' depth := by
  induction depth with
  | zero => rfl
  | succ depth ih =>
    funext name args
    rw [call, call]
    cases hfn : p.func? name with
    | none => rfl
    | some fn =>
      dsimp only
      rw [ih, Action.run_of_isLoopFree (hp fn (List.mem_of_find?_eq_some hfn)) _ item rounds rounds']

theorem LoopFree.halts_call (hp : p.LoopFree) (item : WorkItem) (rounds depth : Nat) (name : String)
    (args : List Value) : Exec.Halts _ (p.call item rounds depth name args) := by
  induction depth generalizing name args with
  | zero => exact Exec.closed_halts.fail _
  | succ depth ih =>
    rw [call]
    cases hfn : p.func? name with
    | none => exact Exec.closed_halts.crash
    | some fn =>
      have hbody := Exec.closed_halts.run ⟨Exec.halts_store, ih⟩ item rounds
        (hp fn (List.mem_of_find?_eq_some hfn)) (fn.frame args)
      exact Exec.closed_halts.bind hbody fun r => Exec.closed_halts.result fn r.1

theorem LoopFree.runItem_eq (hp : p.LoopFree) {k : CheckedFn} (hk : k ∈ p.funcs)
    (rounds rounds' : Nat) (vs : List Value) (item : WorkItem) :
    p.runItem rounds k vs item = p.runItem rounds' k vs item := by
  unfold runItem
  rw [hp.call_eq item rounds rounds', Action.run_of_isLoopFree (hp k hk) _ item rounds rounds']

theorem LoopFree.halts_runItem (hp : p.LoopFree) {k : CheckedFn} (hk : k ∈ p.funcs) (rounds : Nat)
    (vs : List Value) (item : WorkItem) : Exec.Halts _ (p.runItem rounds k vs item) := by
  have hbody := Exec.closed_halts.run ⟨Exec.halts_store, hp.halts_call item rounds maxCallDepth⟩ item
    rounds (hp k hk) (k.frame vs)
  exact Exec.closed_halts.bind hbody fun _ => Exec.closed_halts.pure _

theorem runItemOn_eq {room : Nat} (hroom : maxCallDepth ≤ room) (k : CheckedFn) (vs : List Value) :
    p.runItemOn rounds room k vs item = p.runItem rounds k vs item := by
  unfold runItemOn runItem
  rw [callOn_eq_call hroom, Nat.sub_zero]

end Program

/-! ### Checked sources without loops -/

namespace Env

variable {env env' : Env} {a : Action}

theorem loopFree_checkVariables {t : NamedTy} {readOnly : Bool}
    {vars : List (Code.Ident × Option Code.Expr)}
    (h : env.checkVariables t readOnly vars = .ok (a, env')) : a.isLoopFree = true := by
  induction vars generalizing env a with
  | nil =>
    cases h
    rfl
  | cons q vars ih =>
    obtain ⟨init, -, h⟩ := bind_eq_ok.mp h
    obtain ⟨⟨slot, mid⟩, -, h⟩ := bind_eq_ok.mp h
    obtain ⟨⟨rest, last⟩, hrest, h⟩ := bind_eq_ok.mp h
    cases h
    rw [Action.isLoopFree, ih hrest]
    rfl

theorem loopFree_checkUpdate {offset : Nat} {lhs rhs : Checked} {op : Operator}
    (h : checkUpdate offset lhs op rhs = .ok a) : a.isLoopFree = true := by
  obtain ⟨p, -, h⟩ := bind_eq_ok.mp h
  obtain ⟨x, -, h⟩ := bind_eq_ok.mp h
  obtain ⟨y, -, h⟩ := bind_eq_ok.mp h
  cases h
  rfl

theorem loopFree_checkSimple {s : Code.Simple} (h : env.checkSimple s = .ok (a, env')) :
    a.isLoopFree = true := by
  cases s with
  | decl spec vars =>
    obtain ⟨t, -, h⟩ := bind_eq_ok.mp h
    split at h
    · cases h
    · exact loopFree_checkVariables h
  | expr e =>
    obtain ⟨x, -, h⟩ := bind_eq_ok.mp h
    cases h
    rfl
  | assign lhs offset op rhs =>
    obtain ⟨x, -, h⟩ := bind_eq_ok.mp h
    obtain ⟨y, -, h⟩ := bind_eq_ok.mp h
    split at h
    · obtain ⟨act, hact, h⟩ := bind_eq_ok.mp h
      cases h
      exact loopFree_checkUpdate hact
    · obtain ⟨p, -, h⟩ := bind_eq_ok.mp h
      obtain ⟨z, -, h⟩ := bind_eq_ok.mp h
      cases h
      rfl
  | step e offset op =>
    obtain ⟨x, -, h⟩ := bind_eq_ok.mp h
    obtain ⟨act, hact, h⟩ := bind_eq_ok.mp h
    cases h
    exact loopFree_checkUpdate hact

theorem loopFree_checkReturn {offset : Nat} {e? : Option Code.Expr}
    (h : env.checkReturn offset e? = .ok a) : a.isLoopFree = true := by
  cases e? with
  | none =>
    rw [checkReturn] at h
    split at h <;> cases h
    rfl
  | some e =>
    rw [checkReturn] at h
    split at h
    · cases h
    · obtain ⟨x, -, h⟩ := bind_eq_ok.mp h
      obtain ⟨y, -, h⟩ := bind_eq_ok.mp h
      cases h
      rfl

mutual

/-- A statement without a loop is checked into an action without one. -/
theorem loopFree_checkStmt : ∀ {s : Code.Stmt} {env env' : Env} {a : Action},
    s.isLoopFree = true → env.checkStmt s = .ok (a, env') → a.isLoopFree = true
  | .simple s, env, env', a, _, h => by
    rw [checkStmt] at h
    exact loopFree_checkSimple h
  | .block offset body, env, env', a, hs, h => by
    rw [Code.Stmt.isLoopFree] at hs
    rw [checkStmt] at h
    obtain ⟨⟨b, inner⟩, hb, h⟩ := bind_eq_ok.mp h
    cases h
    exact loopFree_checkStmts hs hb
  | .empty offset, env, env', a, _, h => by
    rw [checkStmt] at h
    cases h
    rfl
  | .ifThen offset test yes, env, env', a, hs, h => by
    rw [Code.Stmt.isLoopFree] at hs
    rw [checkStmt] at h
    obtain ⟨t, -, h⟩ := bind_eq_ok.mp h
    obtain ⟨⟨y, inner⟩, hy, h⟩ := bind_eq_ok.mp h
    cases h
    rw [Action.isLoopFree, loopFree_checkStmt hs hy]
    rfl
  | .ifElse offset test yes no, env, env', a, hs, h => by
    rw [Code.Stmt.isLoopFree, Bool.and_eq_true] at hs
    rw [checkStmt] at h
    obtain ⟨t, -, h⟩ := bind_eq_ok.mp h
    obtain ⟨⟨y, inner⟩, hy, h⟩ := bind_eq_ok.mp h
    obtain ⟨⟨n, last⟩, hn, h⟩ := bind_eq_ok.mp h
    cases h
    rw [Action.isLoopFree, loopFree_checkStmt hs.1 hy, loopFree_checkStmt hs.2 hn]
    rfl
  | .loop offset init test post body, env, env', a, hs, _ => by simp [Code.Stmt.isLoopFree] at hs
  | .brk offset, env, env', a, _, h => by
    rw [checkStmt] at h
    split at h <;> cases h
    rfl
  | .cont offset, env, env', a, _, h => by
    rw [checkStmt] at h
    split at h <;> cases h
    rfl
  | .ret offset e?, env, env', a, _, h => by
    rw [checkStmt] at h
    obtain ⟨b, hb, h⟩ := bind_eq_ok.mp h
    cases h
    exact loopFree_checkReturn hb

theorem loopFree_checkStmts : ∀ {ss : List Code.Stmt} {env env' : Env} {a : Action},
    Code.Stmt.areLoopFree ss = true → env.checkStmts ss = .ok (a, env') → a.isLoopFree = true
  | [], env, env', a, _, h => by
    rw [checkStmts] at h
    cases h
    rfl
  | s :: ss, env, env', a, hs, h => by
    rw [Code.Stmt.areLoopFree, Bool.and_eq_true] at hs
    rw [checkStmts] at h
    obtain ⟨⟨b, mid⟩, hb, h⟩ := bind_eq_ok.mp h
    obtain ⟨⟨c, last⟩, hc, h⟩ := bind_eq_ok.mp h
    cases h
    rw [Action.isLoopFree, loopFree_checkStmt hs.1 hb, loopFree_checkStmts hs.2 hc]
    rfl

end

end Env

namespace Builder

variable {b b' : Builder}

/-- No function so far has a loop. -/
def LoopFree (b : Builder) : Prop := ∀ fn ∈ b.funcs, fn.body.isLoopFree = true

theorem object_funcs {o : Objection} (h : b.object o = some b') : b'.funcs = b.funcs := by
  cases o with
  | complaint offset e =>
    cases h
    rfl
  | collapse => cases h

theorem learn_funcs {r : Check Env} (h : b.learn r = some b') : b'.funcs = b.funcs := by
  cases r with
  | ok env =>
    cases h
    rfl
  | error o => exact object_funcs h

theorem LoopFree.addFunc (hb : b.LoopFree) {d : Code.Func} (hd : Code.Stmt.areLoopFree d.body = true)
    (h : b.addFunc d = some b') : b'.LoopFree := by
  unfold LoopFree
  unfold Builder.addFunc at h
  split at h
  · rw [object_funcs h]
    exact hb
  · rename_i params inner hheader
    simp only at h
    split at h
    · rw [object_funcs h]
      exact hb
    · rename_i fn hfn
      cases h
      obtain ⟨⟨body, last⟩, hbody, hfn⟩ := bind_eq_ok.mp hfn
      cases hfn
      intro f hf
      rcases List.mem_append.mp hf with hf | hf
      · exact hb f hf
      · cases List.mem_singleton.mp hf
        exact Env.loopFree_checkStmts hd hbody

theorem loopFree_ofFile {file : Code.File} (hfile : file.isLoopFree = true)
    (h : ofFile file = some b) : b.LoopFree := by
  obtain ⟨b₁, hb₁, h⟩ := Option.bind_eq_some_iff.mp h
  obtain ⟨b₂, hb₂, h⟩ := Option.bind_eq_some_iff.mp h
  have hlearn : ∀ {b b' : Builder} {r : Check Env}, b.LoopFree → b.learn r = some b' → b'.LoopFree := by
    intro b b' r hb hr
    unfold LoopFree
    rw [learn_funcs hr]
    exact hb
  have h₀ : LoopFree {} := List.forall_mem_nil _
  have h₁ : b₁.LoopFree := keeps_foldlM (fun _ hb h => hlearn hb h) h₀ hb₁
  have h₂ : b₂.LoopFree := keeps_foldlM (fun _ hb h => hlearn hb h) h₁ hb₂
  exact keeps_foldlM (fun hd hb h => hb.addFunc (List.all_eq_true.mp hfile _ hd) h) h₂ h

end Builder

namespace Program

variable {p : Program}

theorem loopFree_of_build {source : SourceText} {file : Code.File}
    (hparse : Code.File.ofStream (TokenStream.ofText fileName source) = .ok file)
    (hfile : file.isLoopFree = true) (h : build source = .built p) : p.LoopFree := by
  obtain ⟨file', b, hparse', hb, -, rfl⟩ := build_ok h
  rw [hparse] at hparse'
  cases hparse'
  exact Builder.loopFree_ofFile hfile hb

end Program

/-! ### Runs -/

/-- The ways in which a run comes to an end: normally or with an error. -/
def Outcome.Ends {ε α : Type} : Outcome ε α → Prop
  | .ok _ | .failed _ => True
  | .crashed _ | .exhausted => False

theorem Outcome.Sound.ends {α : Type} {Q : α → Prop} {r : Outcome ExecError α} (h : r.Sound Q)
    (hhalts : r ≠ .exhausted) : r.Ends ∨ r = .crashed .overrun := by
  cases r with
  | ok a => exact .inl trivial
  | failed e => exact .inl trivial
  | crashed c => exact .inr (congrArg Outcome.crashed h)
  | exhausted => exact absurd rfl hhalts

namespace Program

variable {p : Program} {k : CheckedFn}

theorem ends_runItem (htyped : p.Typed) (hfree : p.LoopFree) (hk : k ∈ p.funcs) {vs : List Value}
    (hvs : Value.FitsAll k.paramTypes vs) (rounds : Nat) (item : WorkItem) (st : Store) :
    (p.runItem rounds k vs item st).1.Ends ∨ (p.runItem rounds k vs item st).1 = .crashed .overrun :=
  (htyped.safe_runItem hk rounds hvs item st).ends (hfree.halts_runItem hk rounds vs item st)

theorem ends_runItems (htyped : p.Typed) (hfree : p.LoopFree) (hk : k ∈ p.funcs) {vs : List Value}
    (hvs : Value.FitsAll k.paramTypes vs) (rounds : Nat) (offset extent : Int) (count id : Nat)
    (st : Store) : (p.runItems rounds k vs offset extent count id st).1.Ends ∨
      (p.runItems rounds k vs offset extent count id st).1 = .crashed .overrun := by
  induction count generalizing id st with
  | zero => exact .inl trivial
  | succ count ih =>
    have hitem := ends_runItem htyped hfree hk hvs rounds { offset, extent, id } st
    rw [runItems]
    rcases hrun : p.runItem rounds k vs { offset, extent, id } st with ⟨_ | _ | c | _, st'⟩
    all_goals rw [hrun] at hitem
    · exact ih (id + 1) st'
    · exact .inl trivial
    · obtain rfl : c = .overrun := by simpa [Outcome.Ends] using hitem
      exact .inr rfl
    · simp [Outcome.Ends] at hitem

theorem LoopFree.runItems_eq (hfree : p.LoopFree) (hk : k ∈ p.funcs) (vs : List Value)
    (rounds rounds' : Nat) (offset extent : Int) (count id : Nat) (st : Store) :
    p.runItems rounds k vs offset extent count id st =
      p.runItems rounds' k vs offset extent count id st := by
  induction count generalizing id st with
  | zero => rfl
  | succ count ih =>
    rw [runItems, runItems, hfree.runItem_eq hk rounds rounds']
    simp only [ih]

/-- **A kernel without loops always ends**, however its functions call each other, but for an access
that overruns its memory.  For every arguments and every range the run ends, and the same way however
many rounds a loop may have, or it crashes with such an access.  A load or a store crashes if and only
if it starts where a machine integer can point to and ends where none can.  Each work item does the same
when its calls are counted and there is room for 64 active ones only: so no more are ever active, and a
call beyond them is refused. -/
theorem loopFree_kernel_ends {source : SourceText} (hbuild : build source = .built p) {file : Code.File}
    (hparse : Code.File.ofStream (TokenStream.ofText fileName source) = .ok file)
    (hfile : file.isLoopFree = true) (hk : k ∈ p.kernels) :
    (∀ args offset extent st, ∃ r, (r.1.Ends ∨ r.1 = .crashed .overrun) ∧
      ∀ rounds, p.runWithin rounds k args offset extent st = r) ∧
    (∀ args vs, readArgs k args = .ok vs → ∀ item st, ∃ r, (r.1.Ends ∨ r.1 = .crashed .overrun) ∧
      (∀ rounds, p.runItem rounds k vs item st = r) ∧
      ∀ rounds room, 64 ≤ room → p.runItemOn rounds room k vs item st = r) ∧
    (∀ item rounds room active name vs st, 64 ≤ active →
      p.callOn item rounds room active name vs st = (.failed (.stackOverflow name 64), st)) ∧
    ∀ (st : Store) m o (t : Ty), (st.getD m #[]).size < 2 ^ 63 → t.size < 2 ^ 63 →
      ((Exec.load m o t st).1 = .crashed .overrun ↔ Store.Overruns t.size o.toInt) ∧
      ∀ v : Value, v.Fits t →
        ((Exec.store m o t v st).1 = .crashed .overrun ↔ Store.Overruns t.size o.toInt) := by
  have htyped := (typed_of_build hbuild).1
  have hfree := loopFree_of_build hparse hfile hbuild
  have hk' : k ∈ p.funcs := (List.mem_filter.mp hk).1
  refine ⟨fun args offset extent st => ?_, fun args vs hargs item st => ?_, ?_, fun st m o t hn ht => ?_⟩
  · refine ⟨p.runWithin 0 k args offset extent st, ?_, fun rounds => ?_⟩
    · unfold runWithin
      split
      · exact .inl trivial
      · split
        · exact .inl trivial
        · rename_i vs hvs
          exact ends_runItems htyped hfree hk' (fits_readArgs hvs) 0 offset extent _ _ st
    · unfold runWithin
      simp only [hfree.runItems_eq hk' _ rounds 0]
  · have hsame : ∀ rounds, p.runItem rounds k vs item st = p.runItem 0 k vs item st :=
      fun rounds => by rw [hfree.runItem_eq hk' rounds 0]
    refine ⟨p.runItem 0 k vs item st, ends_runItem htyped hfree hk' (fits_readArgs hargs) 0 item st,
      hsame, fun rounds room hroom => ?_⟩
    rw [runItemOn_eq hroom, hsame]
  · intro item rounds room active name vs st hactive
    rw [callOn_of_le hactive]
    rfl
  · exact ⟨(Store.load_gives hn ht).overrun_iff.trans Store.verdict_eq_overrun, fun v hv =>
      (Store.store_gives hn ht hv).overrun_iff.trans Store.verdict_eq_overrun⟩

/-! ### An index that is too far -/

section Far

open Token (spaced scans_spaced)
open Code.Scope

/-- The tokens of a kernel that stores a number at an index that it is given. -/
def farTokens : List Token :=
  [.name "__kernel", .name "void", .name "k", .op .lparen, .name "__global", .name "int", .op .mul,
    .name "a", .op .comma, .keyword .const, .name "long", .name "i", .op .rparen, .op .lbrace,
    .name "a", .op .lbrack, .name "i", .op .rbrack, .op .assign, .int "7", .op .semicolon, .op .rbrace]

def farSource : SourceText := SourceText.ofChars (spaced farTokens)

/-- The kernel as it is checked. -/
def farFn : CheckedFn where
  name := "k"
  isKernel := true
  result := .void
  params := [("a", .pointer (.scalar .int) .global false), ("i", .scalar .long)]
  slots := 2
  body := .seq (.assign (.deref (.scalar .int) (.var 0) (.var 1))
    (.const .int32 (.atom (BitVec.ofInt 32 7)))) .skip

def farProgram : Program where
  source := farSource
  fp64 := false
  funcs := [farFn]

/-- How the source is read, with what stands at some offsets. -/
def farFile (o : Nat → Nat) : Code.File where
  funcs :=
    [{ isKernel := true
       result := { offset := o 1, name := "void" }
       name := ⟨o 2, "k"⟩
       params :=
         [⟨{ offset := o 4, name := "int", space := .global, pointer := true }, ⟨o 7, "a"⟩⟩,
          ⟨{ offset := o 9, name := "long", readOnly := true }, ⟨o 11, "i"⟩⟩]
       brace := o 13
       body := [.simple (.assign (.index (.ident ⟨o 14, "a"⟩) (o 15) (.ident ⟨o 16, "i"⟩)) (o 18) .assign
         (.number (o 19) .int "7"))] }]

theorem build_far : ∃ file, Code.File.ofStream (TokenStream.ofText fileName farSource) = .ok file ∧
    file.isLoopFree = true ∧ build farSource = .built farProgram := by
  obtain ⟨o, finish, map, hstream⟩ := exists_stream (@scans_spaced farTokens (by decide)) fileName
  have hparse : Code.File.ofStream (TokenStream.ofText fileName farSource) = .ok (farFile o) := by
    rw [farSource, hstream]
    with_unfolding_all rfl
  refine ⟨farFile o, hparse, rfl, ?_⟩
  simp only [build, hparse]
  rfl

/-- The bytes of the index `2 ^ 61 - 1`: an integer there ends at `2 ^ 63`. -/
def farIndex : List UInt8 := [255, 255, 255, 255, 255, 255, 255, 31]

/-- A kernel without loops need not end: the index is too far, and the store overruns the memory. -/
theorem far_index_crashes :
    (∃ file, Code.File.ofStream (TokenStream.ofText fileName farSource) = .ok file ∧
      file.isLoopFree = true ∧ build farSource = .built farProgram) ∧
    farFn ∈ farProgram.kernels ∧
    ∃ vs, readArgs farFn [{ memory? := some 0 }, { bytes := farIndex }] = .ok vs ∧
      ¬ (farProgram.runItem loopBudget farFn vs default twoInts).1.Ends := by
  refine ⟨build_far, List.mem_singleton.mpr rfl,
    [.pointer ⟨some 0, 0⟩, .lanes .int64 (.atom 0x1FFFFFFFFFFFFFFF#64)], rfl, fun hends => ?_⟩
  have hrun : (farProgram.runItem loopBudget farFn
      [.pointer ⟨some 0, 0⟩, .lanes .int64 (.atom 0x1FFFFFFFFFFFFFFF#64)] default twoInts).1 =
        .crashed .overrun := rfl
  rw [hrun] at hends
  exact hends

end Far

/-! ### A function that calls itself -/

section Spin

open Token (spaced scans_spaced)
open Code.Scope

/-- The tokens of a kernel that stores the result of a function which only calls itself. -/
def spinTokens : List Token :=
  [.name "int", .name "f", .op .lparen, .name "int", .name "n", .op .rparen, .op .lbrace,
    .keyword .ret, .name "f", .op .lparen, .name "n", .op .rparen, .op .semicolon, .op .rbrace,
    .name "__kernel", .name "void", .name "spin", .op .lparen, .name "__global", .name "int",
    .op .mul, .name "a", .op .rparen, .op .lbrace, .name "a", .op .lbrack, .int "0", .op .rbrack,
    .op .assign, .name "f", .op .lparen, .int "0", .op .rparen, .op .semicolon, .op .rbrace]

def spinSource : SourceText := SourceText.ofChars (spaced spinTokens)

def spinZero : Term := .const .int32 (.atom (BitVec.ofInt 32 0))

/-- The kernel as it is checked. -/
def spinFn : CheckedFn where
  name := "spin"
  isKernel := true
  result := .void
  params := [("a", .pointer (.scalar .int) .global false)]
  slots := 1
  body := .seq (.assign (.deref (.scalar .int) (.var 0) (.cast .long spinZero)) (.call "f" [spinZero])) .skip

def spinProgram : Program where
  source := spinSource
  fp64 := false
  funcs :=
    [{ name := "f", isKernel := false, result := .scalar .int, params := [("n", .scalar .int)]
       slots := 1, body := .seq (.ret (some (.call "f" [.var 0]))) .skip },
     spinFn]

/-- How the source is read, with what stands at some offsets. -/
def spinFile (o : Nat → Nat) : Code.File where
  funcs :=
    [{ isKernel := false
       result := { offset := o 0, name := "int" }
       name := ⟨o 1, "f"⟩
       params := [⟨{ offset := o 3, name := "int" }, ⟨o 4, "n"⟩⟩]
       brace := o 6
       body := [.ret (o 7) (some (.call ⟨o 8, "f"⟩ (o 9) [.ident ⟨o 10, "n"⟩]))] },
     { isKernel := true
       result := { offset := o 15, name := "void" }
       name := ⟨o 16, "spin"⟩
       params := [⟨{ offset := o 18, name := "int", space := .global, pointer := true }, ⟨o 21, "a"⟩⟩]
       brace := o 23
       body := [.simple (.assign (.index (.ident ⟨o 24, "a"⟩) (o 25) (.number (o 26) .int "0")) (o 28) .assign
         (.call ⟨o 29, "f"⟩ (o 30) [.number (o 31) .int "0"]))] }]

theorem ofFile_spin (o : Nat → Nat) :
    ∃ env : Env, env.fp64 = false ∧ Builder.ofFile (spinFile o) = some { env, funcs := spinProgram.funcs } := by
  refine ⟨{ funcs := [("spin", ⟨true, .void, [.pointer (.scalar .int) .global false]⟩),
    ("f", ⟨false, .scalar .int, [.scalar .int]⟩)] }, rfl, ?_⟩
  simp only [Builder.ofFile, spinFile, List.foldlM_nil, List.foldlM_cons, Option.pure_def,
    Option.bind_eq_bind, Option.bind_some, Builder.addFunc, Env.checkBody, Env.checkStmts, Env.checkStmt,
    Env.checkReturn, Env.checkSimple, Env.checkExpr]
  with_unfolding_all rfl

theorem build_spin : ∃ file, Code.File.ofStream (TokenStream.ofText fileName spinSource) = .ok file ∧
    file.isLoopFree = true ∧ build spinSource = .built spinProgram := by
  obtain ⟨o, finish, map, hstream⟩ := exists_stream (@scans_spaced spinTokens (by decide)) fileName
  have hparse : Code.File.ofStream (TokenStream.ofText fileName spinSource) = .ok (spinFile o) := by
    rw [spinSource, hstream]
    with_unfolding_all rfl
  obtain ⟨env, hfp64, hfile⟩ := ofFile_spin o
  refine ⟨spinFile o, hparse, rfl, ?_⟩
  simp only [build, hparse, hfile, hfp64]
  rfl

theorem call_f (item : WorkItem) (rounds depth : Nat) (v : Value) (st : Store) :
    spinProgram.call item rounds depth "f" [v] st = (.failed (.stackOverflow "f" 64), st) := by
  induction depth with
  | zero => rfl
  | succ depth ih =>
    have hterm : (Term.call "f" [.var 0]).eval (spinProgram.call item rounds depth)
        { item, vars := #[v] } st = (.failed (.stackOverflow "f" 64), st) := ih
    have hret : (Action.ret (some (.call "f" [.var 0]))).run (spinProgram.call item rounds depth) item
        rounds #[v] st = (.failed (.stackOverflow "f" 64), st) := Exec.bind_failed hterm _
    have hbody : (Action.seq (.ret (some (.call "f" [.var 0]))) .skip).run
        (spinProgram.call item rounds depth) item rounds #[v] st =
          (.failed (.stackOverflow "f" 64), st) := Exec.bind_failed hret _
    exact Exec.bind_failed hbody _

theorem runItem_spin (item : WorkItem) (rounds : Nat) (st : Store) :
    spinProgram.runItem rounds spinFn [.pointer ⟨some 0, 0⟩] item st =
      (.failed (.stackOverflow "f" 64), st) := by
  have hcall := fun depth => call_f item rounds depth (.lanes .int32 (.atom (BitVec.ofInt 32 0))) st
  unfold runItem
  generalize maxCallDepth = depth
  have hterm : (Term.call "f" [spinZero]).eval (spinProgram.call item rounds depth)
      { item, vars := #[.pointer ⟨some 0, 0⟩] } st = (.failed (.stackOverflow "f" 64), st) := hcall depth
  have hassign : (Action.assign (.deref (.scalar .int) (.var 0) (.cast .long spinZero))
      (.call "f" [spinZero])).run (spinProgram.call item rounds depth) item rounds
        #[.pointer ⟨some 0, 0⟩] st = (.failed (.stackOverflow "f" 64), st) := Exec.bind_failed hterm _
  have hbody : spinFn.body.run (spinProgram.call item rounds depth) item rounds
      #[.pointer ⟨some 0, 0⟩] st = (.failed (.stackOverflow "f" 64), st) := Exec.bind_failed hassign _
  exact Exec.bind_failed hbody _

/-- The recursion of `f` ends with the call for which there is no room. -/
theorem spin_ends : spinFn ∈ spinProgram.kernels ∧
    readArgs spinFn [{ memory? := some 0 }] = .ok [.pointer ⟨some 0, 0⟩] ∧
    ∀ item st, ∃ r, (r.1.Ends ∨ r.1 = .crashed .overrun) ∧
      (∀ rounds, spinProgram.runItem rounds spinFn [.pointer ⟨some 0, 0⟩] item st = r) ∧
      (∀ rounds room, 64 ≤ room →
        spinProgram.runItemOn rounds room spinFn [.pointer ⟨some 0, 0⟩] item st = r) ∧
      r = (.failed (.stackOverflow "f" 64), st) := by
  obtain ⟨file, hparse, hfile, hbuild⟩ := build_spin
  have hk : spinFn ∈ spinProgram.kernels := List.mem_singleton.mpr rfl
  have hargs : readArgs spinFn [{ memory? := some 0 }] = .ok [.pointer ⟨some 0, 0⟩] := rfl
  refine ⟨hk, hargs, fun item st => ?_⟩
  obtain ⟨r, hends, hitem, hroom⟩ :=
    (loopFree_kernel_ends hbuild hparse hfile hk).2.1 _ _ hargs item st
  exact ⟨r, hends, hitem, hroom, (hitem 0).symm.trans (runItem_spin item 0 st)⟩

end Spin

end Program
end KernelForge
