/-
Actions, calls and work items keep the types of variables.

An action takes a scope to a scope: a declaration adds a variable, everything else adds none.
Slots are never used twice, so each slot of a function has one declared type for good, and
whatever path a run takes, a slot that once held a value of its type goes on to do so.  That is
the invariant of runs (`Vars.Keeps`); it holds for every way to leave an action, and the scope
after the action is only needed when the run goes on to the next one.

Calls are safe by induction on the number of calls within one another.
-/
import KernelForge.Program.Run
import KernelForge.Proofs.Basic
import KernelForge.Proofs.Program.Typing

namespace KernelForge

open Exec

/-- A scope with one more variable. -/
def Scope.with (scope : Scope) (slot : Nat) (t : Ty) : Scope :=
  fun slot' => if slot' = slot then some t else scope slot'

/-- The actions that keep types, from the scope before to the scope after. -/
inductive Action.Typed (sigs : Signatures) (declared : Scope) (result : Ty) :
    Scope → Action → Scope → Prop
  | skip {scope : Scope} : Action.Typed sigs declared result scope .skip scope
  | eval {scope : Scope} {x : Term} {t : Ty} (hx : KernelForge.Typed sigs scope none (.term x) t) :
      Action.Typed sigs declared result scope (.eval x) scope
  | declare {scope : Scope} {slot : Nat} {t : Ty} {init : Option Term}
      (hinit : ∀ x, init = some x → KernelForge.Typed sigs scope none (.term x) t)
      (hslot : declared slot = some t) :
      Action.Typed sigs declared result scope (.declare slot t init) (scope.with slot t)
  | assign {scope : Scope} {p : Place} {x : Term} {t : Ty}
      (hp : KernelForge.Typed sigs scope none (.place p) t)
      (hx : KernelForge.Typed sigs scope none (.term x) t) :
      Action.Typed sigs declared result scope (.assign p x) scope
  | update {scope : Scope} {p : Place} {next : Term} {t : Ty}
      (hp : KernelForge.Typed sigs scope none (.place p) t)
      (hnext : KernelForge.Typed sigs scope (some t) (.term next) t) :
      Action.Typed sigs declared result scope (.update p next) scope
  | seq {scope mid after : Scope} {first second : Action}
      (hfirst : Action.Typed sigs declared result scope first mid)
      (hsecond : Action.Typed sigs declared result mid second after) :
      Action.Typed sigs declared result scope (.seq first second) after
  | branch {scope afterYes afterNo : Scope} {test : Term} {yes no : Action}
      (htest : KernelForge.Typed sigs scope none (.term test) (.scalar .bool))
      (hyes : Action.Typed sigs declared result scope yes afterYes)
      (hno : Action.Typed sigs declared result scope no afterNo) :
      Action.Typed sigs declared result scope (.branch test yes no) scope
  | loop {scope afterPost afterBody : Scope} {test : Option Term} {post body : Action}
      (htest : ∀ x, test = some x → KernelForge.Typed sigs scope none (.term x) (.scalar .bool))
      (hpost : Action.Typed sigs declared result scope post afterPost)
      (hbody : Action.Typed sigs declared result scope body afterBody) :
      Action.Typed sigs declared result scope (.loop test post body) scope
  | leave {scope : Scope} (hresult : result = .void) :
      Action.Typed sigs declared result scope (.ret none) scope
  | ret {scope : Scope} {x : Term} (hx : KernelForge.Typed sigs scope none (.term x) result) :
      Action.Typed sigs declared result scope (.ret (some x)) scope
  | brk {scope : Scope} : Action.Typed sigs declared result scope .brk scope
  | cont {scope : Scope} : Action.Typed sigs declared result scope .cont scope
  | close {scope after : Scope} {a : Action}
      (ha : Action.Typed sigs declared result scope a after) :
      Action.Typed sigs declared result scope a scope

/-- A result that is returned fits. -/
def Flow.Fits (result : Ty) : Flow → Prop
  | .ret v => v.Fits result
  | _ => True

/-- What is known after an action. -/
structure Flow.After (declared : Scope) (result : Ty) (scope : Scope) (vars : Vars)
    (r : Flow × Vars) : Prop where
  keeps : vars.Keeps declared r.2
  holds : r.1 = .next → r.2.Holds declared scope
  result : r.1.Fits result

/-- Every slot that is declared is there. -/
def Vars.Room (declared : Scope) (vars : Vars) : Prop :=
  ∀ slot t, declared slot = some t → slot < vars.size

theorem Vars.Room.mono {declared : Scope} {vars vars' : Vars} (h : vars.Room declared)
    (hk : vars.Keeps declared vars') : vars'.Room declared := by
  intro slot t hslot
  rw [hk.size]
  exact h slot t hslot

section Runs

variable {declared scope : Scope} {result : Ty} {vars : Vars}

theorem Flow.After.next (hvars : vars.Holds declared scope) :
    Flow.After declared result scope vars (.next, vars) :=
  ⟨.refl, fun _ => hvars, trivial⟩

theorem Flow.After.of_keeps {vars' : Vars} (hvars : vars.Holds declared scope)
    (hk : vars.Keeps declared vars') : Flow.After declared result scope vars (.next, vars') :=
  ⟨hk, fun _ => hvars.mono hk, trivial⟩

/-- A round of a loop as a sequence of its parts. -/
theorem iterate_succ (test : Vars → Exec Bool) (body post : Step) (rounds : Nat) (vars : Vars) :
    iterate test body post (rounds + 1) vars = (do
      if ← test vars then
        match ← body vars with
        | (.brk, vars) => return (.next, vars)
        | (.ret v, vars) => return (.ret v, vars)
        | (_, vars) =>
          let (_, vars) ← post vars
          iterate test body post rounds vars
      else return (.next, vars)) := by
  funext st
  simp only [iterate, Bind.bind, Exec.bind]
  rcases test vars st with ⟨b | c | c | _, st₁⟩ <;> try rfl
  cases b with
  | false => rfl
  | true =>
    simp only [if_true, Exec.bind]
    rcases body vars st₁ with ⟨⟨flow, vars₁⟩ | c | c | _, st₂⟩ <;> try rfl
    cases flow <;> try rfl
    all_goals
      simp only [Exec.bind]
      rcases post vars₁ st₂ with ⟨⟨flow', vars₂⟩ | c | c | _, st₃⟩ <;> rfl

/-- Rounds of a loop: each starts in the scope of the loop. -/
theorem safe_iterate {test : Vars → Exec Bool} {body post : Step}
    (htest : ∀ vars, vars.Holds declared scope → vars.Room declared → Safe (test vars) fun _ => True)
    (hbody : ∀ vars, vars.Holds declared scope → vars.Room declared →
      Safe (body vars) fun r => vars.Keeps declared r.2 ∧ r.1.Fits result)
    (hpost : ∀ vars, vars.Holds declared scope → vars.Room declared →
      Safe (post vars) fun r => vars.Keeps declared r.2)
    (rounds : Nat) (vars : Vars) (hvars : vars.Holds declared scope) (hroom : vars.Room declared) :
    Safe (iterate test body post rounds vars) (Flow.After declared result scope vars) := by
  induction rounds generalizing vars with
  | zero => exact fun _ => trivial
  | succ rounds ih =>
    rw [iterate_succ]
    refine (htest vars hvars hroom).bind fun b _ => ?_
    split
    · refine (hbody vars hvars hroom).bind fun r hr => ?_
      have hgo : ∀ vars', vars.Keeps declared vars' →
          Safe (do let r ← post vars'; iterate test body post rounds r.2)
            (Flow.After declared result scope vars) := by
        intro vars' hk
        refine (hpost vars' (hvars.mono hk) (hroom.mono hk)).bind fun r' hr' => ?_
        have hk' := hk.trans hr'
        refine (ih r'.2 (hvars.mono hk') (hroom.mono hk')).mono fun q hq => ?_
        exact ⟨hk'.trans hq.keeps, hq.holds, hq.result⟩
      obtain ⟨flow, vars'⟩ := r
      cases flow with
      | brk => exact safe_pure (.of_keeps hvars hr.1)
      | ret v => exact safe_pure ⟨hr.1, nofun, hr.2⟩
      | next => exact hgo vars' hr.1
      | cont => exact hgo vars' hr.1
    · exact safe_pure (.next hvars)

/-- **Actions keep the types of variables**, however they are left. -/
theorem Action.Typed.safe_run {sigs : Signatures} {call : Caller} (hcall : call.Safe sigs)
    (item : WorkItem) (rounds : Nat) {a : Action} {after : Scope}
    (h : a.Typed sigs declared result scope after) {vars : Vars}
    (hvars : vars.Holds declared scope) (hroom : vars.Room declared) :
    Safe (a.run call item rounds vars) (Flow.After declared result after vars) := by
  induction h generalizing vars with
  | skip =>
    rw [Action.run]
    exact safe_pure (.next hvars)
  | eval hx =>
    rw [Action.run]
    refine Safe.bind (hx.promises hcall (.start hvars)) fun v _ => ?_
    exact safe_pure (.next hvars)
  | @declare scope slot t init hinit hslot =>
    have hdeclared : ∀ v : Value, v.Fits t →
        Flow.After declared result (scope.with slot t) vars (.next, vars.setIfInBounds slot v) := by
      intro v hv
      refine ⟨Vars.keeps_set hslot hv, fun _ slot' t' h' => ?_, trivial⟩
      unfold Scope.with at h'
      split at h'
      · rename_i heq
        cases h'
        subst heq
        exact ⟨hslot, Vars.holdsAt_set (hroom slot' t hslot) hv⟩
      · exact (hvars.mono (Vars.keeps_set hslot hv)) slot' t' h'
    cases init with
    | none =>
      rw [Action.run]
      have hzero : Safe (Exec.ofExcept (Value.zero t)) (Value.Fits t) := by
        intro st
        cases hz : Value.zero t with
        | ok v => exact Value.zero_fits hz
        | error c => exact Value.isMisfit_zero hz
      exact hzero.bind fun v hv => safe_pure (hdeclared v hv)
    | some x =>
      rw [Action.run]
      refine Safe.bind ((hinit x rfl).promises hcall (.start hvars)) fun v hv => ?_
      exact safe_pure (hdeclared v hv)
  | assign hp hx =>
    rw [Action.run]
    refine Safe.bind (hx.promises hcall (.start hvars)) fun v hv => ?_
    refine Safe.bind (hp.promises hcall (.start hvars)) fun l hl => ?_
    exact (hl.1.safe_store hvars hv).bind fun vars' hk => safe_pure (.of_keeps hvars hk)
  | @update scope p next t hp hnext =>
    rw [Action.run]
    refine Safe.bind (hp.promises hcall (.start hvars)) fun l hl => ?_
    have hready : Frame.Ready declared scope (some t) { item, vars, current? := some l } :=
      ⟨hvars, fun u hu => ⟨l, rfl, by cases hu; exact hl.1⟩⟩
    refine Safe.bind (hnext.promises hcall hready) fun v hv => ?_
    exact (hl.1.safe_store hvars hv).bind fun vars' hk => safe_pure (.of_keeps hvars hk)
  | seq hfirst hsecond ihfirst ihsecond =>
    rw [Action.run]
    refine (ihfirst hvars hroom).bind fun r hr => ?_
    obtain ⟨flow, vars'⟩ := r
    cases flow with
    | next =>
      refine (ihsecond (hr.holds rfl) (hroom.mono hr.keeps)).mono fun q hq => ?_
      exact ⟨hr.keeps.trans hq.keeps, hq.holds, hq.result⟩
    | brk => exact safe_pure ⟨hr.keeps, nofun, trivial⟩
    | cont => exact safe_pure ⟨hr.keeps, nofun, trivial⟩
    | ret v => exact safe_pure ⟨hr.keeps, nofun, hr.result⟩
  | branch htest hyes hno ihyes ihno =>
    rw [Action.run]
    refine Safe.bind (htest.promises hcall (.start hvars)) fun v hv => ?_
    refine (Value.safe_toBool hv).bind fun b _ => ?_
    split
    · exact (ihyes hvars hroom).mono fun q hq => ⟨hq.keeps, fun _ => hvars.mono hq.keeps, hq.result⟩
    · exact (ihno hvars hroom).mono fun q hq => ⟨hq.keeps, fun _ => hvars.mono hq.keeps, hq.result⟩
  | @loop scope afterPost afterBody test post body htest hpost hbody ihpost ihbody =>
    rw [Action.run]
    refine safe_iterate ?_ ?_ ?_ rounds vars hvars hroom
    · intro vars hvars hroom
      cases test with
      | none => exact safe_pure trivial
      | some x =>
        refine Safe.bind ((htest x rfl).promises hcall (.start hvars)) fun v hv => ?_
        exact Value.safe_toBool hv
    · intro vars hvars hroom
      exact (ihbody hvars hroom).mono fun q hq => ⟨hq.keeps, hq.result⟩
    · intro vars hvars hroom
      exact (ihpost hvars hroom).mono fun q hq => hq.keeps
  | leave hresult =>
    rw [Action.run]
    refine safe_pure ⟨.refl, nofun, ?_⟩
    rw [hresult]
    simp only [Flow.Fits, Value.Fits]
  | ret hx =>
    rw [Action.run]
    refine Safe.bind (hx.promises hcall (.start hvars)) fun v hv => ?_
    exact safe_pure ⟨.refl, nofun, hv⟩
  | brk =>
    rw [Action.run]
    exact safe_pure ⟨.refl, nofun, trivial⟩
  | cont =>
    rw [Action.run]
    exact safe_pure ⟨.refl, nofun, trivial⟩
  | close ha ih =>
    exact (ih hvars hroom).mono fun q hq => ⟨hq.keeps, fun _ => hvars.mono hq.keeps, hq.result⟩

end Runs

/-! ### Functions -/

/-- The variables that an action declares, with their types. -/
def Action.declared : Action → List (Nat × Ty)
  | .declare slot t _ => [(slot, t)]
  | .seq first second => first.declared ++ second.declared
  | .branch _ yes no => yes.declared ++ no.declared
  | .loop _ post body => post.declared ++ body.declared
  | _ => []

namespace CheckedFn

/-- The types of the parameters of a function. -/
def paramTypes (fn : CheckedFn) : List Ty := fn.params.map Prod.snd

/-- The parameters are the variables before the body. -/
def paramScope (fn : CheckedFn) : Scope := fun slot => fn.paramTypes[slot]?

/-- The type that each variable of a function is declared with. -/
def declared (fn : CheckedFn) : Scope := fun slot =>
  match fn.paramTypes[slot]? with
  | some t => some t
  | none => fn.body.declared.lookup slot

/-- The body of a function keeps types, and there is room for all of its variables. -/
structure Typed (sigs : Signatures) (fn : CheckedFn) : Prop where
  body : ∃ after, fn.body.Typed sigs fn.declared fn.result fn.paramScope after
  room : ∀ slot t, fn.declared slot = some t → slot < fn.slots

theorem declared_of_param {fn : CheckedFn} {slot : Nat} {t : Ty}
    (h : fn.paramScope slot = some t) : fn.declared slot = some t := by
  unfold paramScope at h
  rw [declared, h]

theorem Typed.params_le {sigs : Signatures} {fn : CheckedFn} (h : fn.Typed sigs) :
    fn.paramTypes.length ≤ fn.slots := by
  rcases Nat.lt_or_ge fn.slots fn.paramTypes.length with hlt | hle
  · have := h.room fn.slots _ (declared_of_param (List.getElem?_eq_getElem hlt))
    omega
  · exact hle

section Frames

variable {sigs : Signatures} {fn : CheckedFn} {args : List Value}

theorem size_frame (fn : CheckedFn) (args : List Value) : (fn.frame args).size = fn.slots := by
  simp only [frame, List.size_toArray, List.length_append, List.length_take,
    List.length_replicate]
  omega

/-- Before the body the parameters hold the arguments. -/
theorem holds_frame (hfn : fn.Typed sigs) (hargs : Value.FitsAll fn.paramTypes args) :
    (fn.frame args).Holds fn.declared fn.paramScope := by
  intro slot t hslot
  refine ⟨declared_of_param hslot, ?_⟩
  obtain ⟨v, hv, hfits⟩ := hargs.getElem? hslot
  refine ⟨v, ?_, hfits⟩
  have hlen := hargs.length_eq
  have hle := hfn.params_le
  have hlt := (List.getElem?_eq_some_iff.mp hv).1
  rw [frame, List.getElem?_toArray, List.take_of_length_le (by omega),
    List.getElem?_append_left hlt, hv]

theorem room_frame (hfn : fn.Typed sigs) (args : List Value) :
    (fn.frame args).Room fn.declared := by
  intro slot t hslot
  rw [size_frame]
  exact hfn.room slot t hslot

/-- What a function gives fits its result, or it gives nothing where it should. -/
theorem safe_result {flow : Flow} (h : flow.Fits fn.result) :
    Safe (fn.result? flow) (Value.Fits fn.result) := by
  unfold result?
  split
  all_goals first
    | exact safe_pure h
    | (split
       · rename_i hvoid
         refine safe_pure ?_
         rw [hvoid]
         simp only [Value.Fits]
       · exact safe_fail rfl)

/-- The body of a function keeps types. -/
theorem Typed.safe_body (hfn : fn.Typed sigs) {call : Caller} (hcall : call.Safe sigs)
    (item : WorkItem) (rounds : Nat) (hargs : Value.FitsAll fn.paramTypes args) :
    Safe (fn.body.run call item rounds (fn.frame args)) fun r => r.1.Fits fn.result := by
  obtain ⟨after, hbody⟩ := hfn.body
  have hrun := hbody.safe_run hcall item rounds (holds_frame hfn hargs) (room_frame hfn args)
  exact hrun.mono fun r hr => hr.result

end Frames
end CheckedFn

/-! ### Programs -/

namespace Program

/-- What is known of the functions of a program. -/
def signatures (p : Program) : Signatures := fun name =>
  (p.func? name).map fun fn => (fn.paramTypes, fn.result)

/-- All functions of the program keep types. -/
def Typed (p : Program) : Prop := ∀ fn ∈ p.funcs, fn.Typed p.signatures

variable {p : Program}

/-- **Calls are safe**, whatever the number of calls that may still be made. -/
theorem Typed.safe_call (hp : p.Typed) (item : WorkItem) (rounds depth : Nat) :
    Caller.Safe p.signatures (p.call item rounds depth) := by
  induction depth with
  | zero =>
    intro fn params result args _ _
    exact safe_fail rfl
  | succ depth ih =>
    intro name params result args hsig hargs
    unfold signatures at hsig
    cases hfn : p.func? name with
    | none =>
      rw [hfn] at hsig
      cases hsig
    | some fn =>
      rw [hfn] at hsig
      cases hsig
      simp only [call, hfn]
      have htyped := hp fn (List.mem_of_find?_eq_some hfn)
      refine (htyped.safe_body ih item rounds hargs).bind fun r hr => ?_
      exact CheckedFn.safe_result hr

theorem Typed.safe_runItem (hp : p.Typed) {fn : CheckedFn} (hfn : fn ∈ p.funcs) (rounds : Nat)
    {args : List Value} (hargs : Value.FitsAll fn.paramTypes args) (item : WorkItem) :
    Safe (p.runItem rounds fn args item) fun _ => True := by
  have hcall := hp.safe_call item rounds maxCallDepth
  exact ((hp fn hfn).safe_body hcall item rounds hargs).bind fun _ _ => safe_pure trivial

/-! ### Arguments -/

theorem fits_readArg {kernel param : String} {index : Nat} {t : Ty} {arg : KernelArg} {v : Value}
    (h : readArg kernel index param t arg = .ok v) : v.Fits t := by
  unfold readArg at h
  split at h
  · split at h
    · cases h
      simp only [Value.Fits]
      exact ⟨_, rfl⟩
    · cases h
  · split at h
    · cases h
    · split at h
      · rename_i v' hv
        cases h
        exact Value.decodeAt_fits hv
      · cases h

theorem fits_readArgsFrom {kernel : String} {index : Nat} {params : List (String × Ty)}
    {args : List KernelArg} (hlen : args.length = params.length) {vs : List Value}
    (h : readArgsFrom kernel index params args = .ok vs) :
    Value.FitsAll (params.map Prod.snd) vs := by
  induction params generalizing index args vs with
  | nil =>
    cases h
    simp [Value.FitsAll]
  | cons q params ih =>
    cases args with
    | nil => simp at hlen
    | cons arg args =>
      obtain ⟨v, hv, h⟩ := bind_eq_ok.mp h
      obtain ⟨ws, hws, h⟩ := bind_eq_ok.mp h
      cases h
      simp only [List.map_cons, Value.FitsAll]
      exact ⟨fits_readArg hv, ih (by simpa using hlen) hws⟩

/-- The arguments that are accepted fit the parameters. -/
theorem fits_readArgs {fn : CheckedFn} {args : List KernelArg} {vs : List Value}
    (h : readArgs fn args = .ok vs) : Value.FitsAll fn.paramTypes vs := by
  unfold readArgs at h
  split at h
  · cases h
  · rename_i hlen
    exact fits_readArgsFrom (by omega) h

end Program
end KernelForge
