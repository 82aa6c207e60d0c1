/-
Code that keeps narrow integers in their ranges.

Some terms *make* their value and bring it into the range of its type, whatever they were given.
All others *pass on* what they were given, and so do variables, calls and places; for these the
types before and after have to be the same.

The types of terms do not tell whether that is so, because they leave it open whether a constant is
in the range of the type that it is given.  So the rules here are stricter: they are those of
`Typed`, with constants in range.  What one term and one action keep, a call keeps by induction on
the number of calls within one another, and a run from moment to moment.
-/
import KernelForge.Proofs.Program.Ranges
import KernelForge.Proofs.Program.Spares

namespace KernelForge

/-! ### Rules -/

/-- The phrase makes what it gives: it is in range whatever its parts give. -/
def Phrase.makes : Phrase → Bool
  | .term (.cast _ _) | .term (.unary _ _ _) | .term (.binary _ _ _ _) | .term (.and _ _)
  | .term (.or _ _) | .term (.advance _ _ _) | .term (.address _) | .term (.discard _)
  | .term (.workItem _ _) | .term (.atomic _ _ _ _) | .term (.math _ _ _)
  | .place (.deref _ _ _) => true
  | _ => false

/-- The types of terms and places whose narrow integers are in range.  Phrases that make what they
give are free to have any parts; the others pass on what has the right type. -/
inductive Ranged (sigs : Signatures) (scope : Scope) (here? : Option Ty) : Phrase → Ty → Prop
  | made {ph : Phrase} {t : Ty} {types : Phrase → Ty} (h : Typed sigs scope here? ph t)
      (hmakes : ph.makes = true) (hparts : ∀ q ∈ ph.parts, Ranged sigs scope here? q (types q)) :
      Ranged sigs scope here? ph t
  | const {s : Scalar} {c : s.register.Cell} (hc : s.Holds c) :
      Ranged sigs scope here? (.term (.const s.register (.atom c))) (.scalar s)
  | var {slot : Nat} {t : Ty} (h : scope slot = some t) :
      Ranged sigs scope here? (.term (.var slot)) t
  | current {t : Ty} (h : here? = some t) : Ranged sigs scope here? (.term .current) t
  | concat {s : Scalar} {w : Width} {xs : List Term} {ts : List Ty} (hlen : xs.length = ts.length)
      (hxs : ∀ p ∈ xs.zip ts, Ranged sigs scope here? (.term p.1) p.2)
      (hts : ∀ t ∈ ts, t.element? = some s)
      (hcount : (ts.map Value.laneCount).sum = w.lanes ∨ (ts.map Value.laneCount).sum = 1) :
      Ranged sigs scope here? (.term (.concat s w.lanes xs)) (.vector s w)
  | cond {test x y : Term} {t : Ty} (htest : Ranged sigs scope here? (.term test) (.scalar .bool))
      (hx : Ranged sigs scope here? (.term x) t) (hy : Ranged sigs scope here? (.term y) t) :
      Ranged sigs scope here? (.term (.cond test x y)) t
  | record {xs : List Term} {ts : List Ty} (hlen : xs.length = ts.length)
      (hxs : ∀ p ∈ xs.zip ts, Ranged sigs scope here? (.term p.1) p.2) :
      Ranged sigs scope here? (.term (.record xs)) (.tuple ts)
  | load {p : Place} {t : Ty} (hp : Ranged sigs scope here? (.place p) t) :
      Ranged sigs scope here? (.term (.load p)) t
  | field {i : Nat} {x : Term} {ts : List Ty} {t : Ty}
      (hx : Ranged sigs scope here? (.term x) (.tuple ts)) (hi : ts[i]? = some t) :
      Ranged sigs scope here? (.term (.field i x)) t
  | lanes {is : List Nat} {x : Term} {s : Scalar} {w : Width} {t : Ty}
      (hx : Ranged sigs scope here? (.term x) (.vector s w)) (his : Value.Picks s w.lanes is t) :
      Ranged sigs scope here? (.term (.lanes is x)) t
  | call {fn : String} {params : List Ty} {result : Ty} {args : List Term}
      (hfn : sigs fn = some (params, result)) (hlen : args.length = params.length)
      (hargs : ∀ p ∈ args.zip params, Ranged sigs scope here? (.term p.1) p.2) :
      Ranged sigs scope here? (.term (.call fn args)) result
  | retag {x : Term} {t : Ty} {space space' : Space} {readOnly readOnly' : Bool}
      (hx : Ranged sigs scope here? (.term x) (.pointer t space readOnly)) :
      Ranged sigs scope here? (.term x) (.pointer t space' readOnly')
  | placeVar {slot : Nat} {t : Ty} (h : scope slot = some t) :
      Ranged sigs scope here? (.place (.var slot)) t
  | placeField {p : Place} {ts : List Ty} {i : Nat} {t : Ty}
      (hp : Ranged sigs scope here? (.place p) (.tuple ts)) (hi : ts[i]? = some t) :
      Ranged sigs scope here? (.place (.field p ts i)) t
  | placeLanes {p : Place} {is : List Nat} {s : Scalar} {w : Width} {t : Ty}
      (hp : Ranged sigs scope here? (.place p) (.vector s w)) (his : Value.Picks s w.lanes is t) :
      Ranged sigs scope here? (.place (.lanes p is)) t

section Rules

variable {sigs : Signatures} {scope : Scope} {here? : Option Ty} {ph : Phrase} {t : Ty}

/-- A phrase that makes what it gives may have parts of any types. -/
theorem Ranged.make (h : Typed sigs scope here? ph t) (hmakes : ph.makes = true)
    (hparts : ∀ q ∈ ph.parts, ∃ u, Ranged sigs scope here? q u) : Ranged sigs scope here? ph t := by
  have htypes : ∀ q, ∃ u, q ∈ ph.parts → Ranged sigs scope here? q u := by
    intro q
    by_cases hq : q ∈ ph.parts
    · obtain ⟨u, hu⟩ := hparts q hq
      exact ⟨u, fun _ => hu⟩
    · exact ⟨.void, fun hmem => absurd hmem hq⟩
  obtain ⟨types, htypes⟩ := Classical.skolem.mp htypes
  exact .made h hmakes htypes

/-- The rules are stricter than those for types. -/
theorem Ranged.typed (h : Ranged sigs scope here? ph t) : Typed sigs scope here? ph t := by
  induction h with
  | made h hmakes hparts ih => exact h
  | const hc => exact .const rfl
  | var h => exact .var h
  | current h => exact .current h
  | concat hlen hxs hts hcount ih => exact .concat hlen ih hts hcount
  | cond htest hx hy ihtest ihx ihy => exact .cond ihtest ihx ihy
  | record hlen hxs ih => exact .record hlen ih
  | load hp ih => exact .load ih
  | field hx hi ih => exact .field ih hi
  | lanes hx his ih => exact .lanes ih his
  | call hfn hlen hargs ih => exact .call hfn hlen ih
  | retag hx ih => exact .retag ih
  | placeVar h => exact .placeVar h
  | placeField hp hi ih => exact .placeField ih hi
  | placeLanes hp his ih => exact .placeLanes ih his

theorem exists_ranged_of_zip {xs : List Term} {ts : List Ty} (hlen : xs.length = ts.length)
    (hxs : ∀ p ∈ xs.zip ts, Ranged sigs scope here? (.term p.1) p.2) :
    ∀ q ∈ xs.map Phrase.term, ∃ u, Ranged sigs scope here? q u := by
  intro q hq
  obtain ⟨x, hx, rfl⟩ := List.mem_map.mp hq
  obtain ⟨i, hi⟩ := List.mem_iff_getElem?.mp hx
  have hlt : i < ts.length := hlen ▸ (List.getElem?_eq_some_iff.mp hi).1
  refine ⟨ts[i], hxs (x, ts[i]) (List.mem_iff_getElem?.mpr ⟨i, ?_⟩)⟩
  rw [List.getElem?_zip_eq_some]
  exact ⟨hi, List.getElem?_eq_getElem hlt⟩

/-- The parts of a phrase obey the rules as it does. -/
theorem Ranged.parts (h : Ranged sigs scope here? ph t) :
    ∀ q ∈ ph.parts, ∃ u, Ranged sigs scope here? q u := by
  induction h with
  | made h hmakes hparts ih => exact fun q hq => ⟨_, hparts q hq⟩
  | const hc => exact List.forall_mem_nil _
  | var h => exact List.forall_mem_nil _
  | current h => exact List.forall_mem_nil _
  | placeVar h => exact List.forall_mem_nil _
  | concat hlen hxs hts hcount ih => exact exists_ranged_of_zip hlen hxs
  | record hlen hxs ih => exact exists_ranged_of_zip hlen hxs
  | call hfn hlen hargs ih => exact exists_ranged_of_zip hlen hargs
  | cond htest hx hy ihtest ihx ihy =>
    exact List.forall_mem_cons.mpr ⟨⟨_, htest⟩, forall_mem_pair ⟨_, hx⟩ ⟨_, hy⟩⟩
  | load hp ih => exact List.forall_mem_singleton.mpr ⟨_, hp⟩
  | field hx hi ih => exact List.forall_mem_singleton.mpr ⟨_, hx⟩
  | lanes hx his ih => exact List.forall_mem_singleton.mpr ⟨_, hx⟩
  | retag hx ih => exact ih
  | placeField hp hi ih => exact List.forall_mem_singleton.mpr ⟨_, hp⟩
  | placeLanes hp his ih => exact List.forall_mem_singleton.mpr ⟨_, hp⟩

end Rules

/-! ### Terms -/

/-- A frame in which terms can be evaluated. -/
structure Frame.Within (declared : Scope) (here? : Option Ty) (f : Frame) : Prop where
  vars : f.vars.Within declared
  current : ∀ t, here? = some t → ∀ l, f.current? = some l → l.Typed declared t

/-- Outside of an update nothing is current. -/
theorem Frame.Within.start {declared : Scope} {item : WorkItem} {vars : Vars}
    (h : vars.Within declared) : Frame.Within declared none { item, vars } :=
  ⟨h, fun _ ht => by cases ht⟩

/-- Calls give results within their types for arguments within theirs. -/
def Caller.Within (sigs : Signatures) (call : Caller) : Prop :=
  ∀ fn params result args, sigs fn = some (params, result) → args.length = params.length →
    Value.AllWithin params args → Exec.Ends (call fn args) (Value.Within result)

/-- What the rules promise. -/
def Phrase.Ends (call : Caller) (f : Frame) (scope : Scope) : Phrase → Ty → Prop
  | .term x, t => Exec.Ends (x.eval call f) (Value.Within t)
  | .place p, t => Exec.Ends (p.locate call f) fun l => l.Typed scope t

section Terms

open Exec

variable {sigs : Signatures} {scope : Scope} {here? : Option Ty} {call : Caller} {f : Frame}
  {ph : Phrase} {t : Ty}

/-- What a phrase makes is within its type, whatever its parts and its variables are. -/
theorem Typed.ends_makes (h : Typed sigs scope here? ph t) (hmakes : ph.makes = true) :
    ph.Ends call f scope t := by
  induction h with
  | cast hx ht hu hrow ih =>
    simp only [Phrase.Ends, Term.eval]
    exact ends_bind fun v => Value.ends_cast hu v
  | unary hx ht ih =>
    simp only [Phrase.Ends, Term.eval]
    exact ends_bind fun v => Value.ends_unary _ _ v
  | binary hx hy hcmp hlog ht ha hb hrow ihx ihy =>
    simp only [Phrase.Ends, Term.eval]
    exact ends_bind fun v => ends_bind fun w => Value.ends_binary _ _ v w
  | compare hx hy hcmp ihx ihy =>
    simp only [Phrase.Ends, Term.eval]
    exact ends_bind fun v => ends_bind fun w => Value.ends_binary _ _ v w
  | and hx hy ihx ihy =>
    exact fun _ v _ _ => Value.within_of_wide rfl v
  | or hx hy ihx ihy =>
    exact fun _ v _ _ => Value.within_of_wide rfl v
  | workItem hdim ih =>
    exact fun _ v _ _ => Value.within_of_wide rfl v
  | advance hptr hn ihptr ihn =>
    exact fun _ v _ _ => by simp only [Value.Within]
  | address hp hmem ih =>
    exact fun _ v _ _ => by simp only [Value.Within]
  | discard hx ih =>
    exact fun _ v _ _ => by simp only [Value.Within]
  | atomic hptr hs hcount hargs ihptr ihargs =>
    simp only [Phrase.Ends, Term.eval]
    exact ends_bind fun _ => ends_bind fun vs => ends_bind fun q => Value.ends_atomic _ _ q vs
  | math hsig hlen hargs ih =>
    simp only [Phrase.Ends, Term.eval]
    exact ends_bind fun vs => Value.ends_math _ _ vs
  | placeDeref hptr hindex ihptr ihindex =>
    simp only [Phrase.Ends, Place.locate]
    refine ends_bind fun _ => ends_bind fun _ => ends_bind fun _ => ends_bind fun _ => ?_
    split
    · exact ends_fail _
    · exact ends_pure (.mem _ _ _)
  | retag hx ih => exact fun _ v _ _ => by simp only [Value.Within]
  | _ => cases hmakes

theorem ends_evalAll {xs : List Term} {ts : List Ty} (hlen : xs.length = ts.length)
    (h : ∀ p ∈ xs.zip ts, Ends (p.1.eval call f) (Value.Within p.2)) :
    Ends (Term.evalAll call f xs) fun vs => vs.length = ts.length ∧ Value.AllWithin ts vs := by
  induction xs generalizing ts with
  | nil =>
    cases List.length_eq_zero_iff.mp hlen.symm
    rw [Term.evalAll]
    exact ends_pure ⟨rfl, by simp only [Value.AllWithin]⟩
  | cons x xs ih =>
    cases ts with
    | nil => cases hlen
    | cons t ts =>
      rw [Term.evalAll]
      refine (h (x, t) List.mem_cons_self).bind fun v hv => ?_
      have hrest := ih (by simpa using hlen) fun p hp => h p (List.mem_cons_of_mem _ hp)
      refine hrest.bind fun vs hvs => ends_pure ⟨congrArg (· + 1) hvs.1, ?_⟩
      simp only [Value.AllWithin]
      exact ⟨hv, hvs.2⟩

/-- **Terms that obey the rules give values within their types.** -/
theorem Ranged.ends (h : Ranged sigs scope here? ph t) (hcall : call.Within sigs)
    (hf : f.Within scope here?) : ph.Ends call f scope t := by
  induction h with
  | made h hmakes hparts ih => exact h.ends_makes hmakes
  | @const s c hc =>
    simp only [Phrase.Ends, Term.eval]
    refine ends_pure ((Value.within_iff_lanes (t := .scalar s) rfl).mpr fun x hx => ?_)
    cases hx
    exact fun d hd => List.mem_singleton.mp hd ▸ hc
  | var h =>
    simp only [Phrase.Ends, Term.eval]
    exact ends_pure (hf.vars _ _ h)
  | current h =>
    simp only [Phrase.Ends, Term.eval]
    split
    · rename_i l hl
      exact (hf.current _ h l hl).ends_load hf.vars
    · exact ends_crash
  | concat hlen hxs hts hcount ih =>
    simp only [Phrase.Ends, Term.eval]
    exact (ends_evalAll hlen ih).bind fun vs hvs => Value.ends_concat hts hvs.1 hvs.2 _
  | cond htest hx hy ihtest ihx ihy =>
    simp only [Phrase.Ends, Term.eval]
    refine ends_bind fun _ => ends_bind fun b => ?_
    split
    · exact ihx
    · exact ihy
  | record hlen hxs ih =>
    simp only [Phrase.Ends, Term.eval]
    refine (ends_evalAll hlen ih).bind fun vs hvs => ends_pure ?_
    simp only [Value.Within]
    intro ws hws
    cases hws
    exact hvs.2
  | load hp ih =>
    simp only [Phrase.Ends, Term.eval]
    exact ih.bind fun l hl => hl.ends_load hf.vars
  | field hx hi ih =>
    simp only [Phrase.Ends, Term.eval]
    exact ih.bind fun v hv => Value.ends_field hi hv
  | lanes hx his ih =>
    simp only [Phrase.Ends, Term.eval]
    exact ih.bind fun v hv => Value.ends_select his hv
  | call hfn hlen hargs ih =>
    simp only [Phrase.Ends, Term.eval]
    exact (ends_evalAll hlen ih).bind fun vs hvs => hcall _ _ _ _ hfn hvs.1 hvs.2
  | retag hx ih =>
    exact fun _ v _ _ => by simp only [Value.Within]
  | placeVar h =>
    simp only [Phrase.Ends, Place.locate]
    exact ends_pure (.var h)
  | placeField hp hi ih =>
    simp only [Phrase.Ends, Place.locate]
    exact ih.bind fun l hl => ends_pure (hl.fieldOf hi)
  | placeLanes hp his ih =>
    simp only [Phrase.Ends, Place.locate]
    exact ih.bind fun l hl => ends_pure (.lanes hl his)

end Terms

/-! ### Actions -/

/-- The rules for actions. -/
def Action.Ranged (sigs : Signatures) (declared : Scope) (result : Ty) : Action → Prop
  | .eval x => ∃ t, KernelForge.Ranged sigs declared none (.term x) t
  | .declare slot t init => declared slot = some t ∧
      ∀ x, init = some x → KernelForge.Ranged sigs declared none (.term x) t
  | .assign p x => ∃ t, KernelForge.Ranged sigs declared none (.place p) t ∧
      KernelForge.Ranged sigs declared none (.term x) t
  | .update p next => ∃ t, KernelForge.Ranged sigs declared none (.place p) t ∧
      KernelForge.Ranged sigs declared (some t) (.term next) t
  | .seq first second => first.Ranged sigs declared result ∧ second.Ranged sigs declared result
  | .branch test yes no => KernelForge.Ranged sigs declared none (.term test) (.scalar .bool) ∧
      yes.Ranged sigs declared result ∧ no.Ranged sigs declared result
  | .loop test post body =>
    (∀ x, test = some x → KernelForge.Ranged sigs declared none (.term x) (.scalar .bool)) ∧
    post.Ranged sigs declared result ∧ body.Ranged sigs declared result
  | .ret init => ∀ x, init = some x → KernelForge.Ranged sigs declared none (.term x) result
  | .skip | .brk | .cont => True

/-- What is known after an action. -/
def Flow.Within (declared : Scope) (result : Ty) (r : Flow × Vars) : Prop :=
  r.2.Within declared ∧ ∀ v, r.1 = .ret v → v.Within result

section Runs

open Exec

variable {sigs : Signatures} {declared : Scope} {result : Ty} {vars : Vars}

theorem Flow.within_next (h : vars.Within declared) :
    Flow.Within declared result (.next, vars) := ⟨h, fun _ hv => by cases hv⟩

/-- Rounds of a loop. -/
theorem ends_iterate {test : Vars → Exec Bool} {body post : Step}
    (hbody : ∀ vars, vars.Within declared → Ends (body vars) (Flow.Within declared result))
    (hpost : ∀ vars, vars.Within declared → Ends (post vars) (Flow.Within declared result))
    (rounds : Nat) (vars : Vars) (hvars : vars.Within declared) :
    Ends (iterate test body post rounds vars) (Flow.Within declared result) := by
  induction rounds generalizing vars with
  | zero =>
    intro st r st' h
    cases h
  | succ rounds ih =>
    rw [iterate_succ]
    refine ends_bind fun b => ?_
    split
    · refine (hbody vars hvars).bind fun r hr => ?_
      have hgo : ∀ vars', vars'.Within declared →
          Ends (do let r ← post vars'; iterate test body post rounds r.2)
            (Flow.Within declared result) :=
        fun vars' h' => (hpost vars' h').bind fun r' hr' => ih r'.2 hr'.1
      obtain ⟨flow, vars'⟩ := r
      cases flow with
      | brk => exact ends_pure (Flow.within_next hr.1)
      | ret v => exact ends_pure hr
      | next => exact hgo vars' hr.1
      | cont => exact hgo vars' hr.1
    · exact ends_pure (Flow.within_next hvars)

/-- **Actions that obey the rules keep variables within their types**, however they are left. -/
theorem Action.Ranged.ends_run {call : Caller} (hcall : call.Within sigs) (item : WorkItem)
    (rounds : Nat) {a : Action} (h : a.Ranged sigs declared result) (hvars : vars.Within declared) :
    Ends (a.run call item rounds vars) (Flow.Within declared result) := by
  induction a generalizing vars with
  | skip =>
    rw [Action.run]
    exact ends_pure (Flow.within_next hvars)
  | eval x =>
    rw [Action.run]
    exact ends_bind fun _ => ends_pure (Flow.within_next hvars)
  | declare slot t init =>
    obtain ⟨hslot, hinit⟩ := h
    have hset : ∀ v : Value, v.Within t →
        Ends (Pure.pure (Flow.next, vars.setIfInBounds slot v)) (Flow.Within declared result) :=
      fun v hv => ends_pure (Flow.within_next (hvars.set hslot hv))
    cases init with
    | some x =>
      rw [Action.run]
      exact Ends.bind ((hinit x rfl).ends hcall (.start hvars)) hset
    | none =>
      rw [Action.run]
      have hzero : Ends (Exec.ofExcept (Value.zero t)) (Value.Within t) := by
        cases hz : Value.zero t with
        | ok v => exact ends_pure (Value.within_zero hz)
        | error c => exact ends_fail c
      exact hzero.bind hset
  | assign p x =>
    obtain ⟨t, hp, hx⟩ := h
    rw [Action.run]
    refine Ends.bind (hx.ends hcall (.start hvars)) fun v hv => ?_
    refine Ends.bind (hp.ends hcall (.start hvars)) fun l hl => ?_
    refine (Loc.Typed.ends_store hl hvars hv).bind fun vars' hvars' => ?_
    exact ends_pure (Flow.within_next hvars')
  | update p next =>
    obtain ⟨t, hp, hnext⟩ := h
    rw [Action.run]
    refine Ends.bind (hp.ends hcall (.start hvars)) fun l hl => ?_
    have hf : Frame.Within declared (some t) { item, vars, current? := some l } :=
      ⟨hvars, fun u hu l' hl' => by cases hu; cases hl'; exact hl⟩
    refine Ends.bind (hnext.ends hcall hf) fun v hv => ?_
    refine (Loc.Typed.ends_store hl hvars hv).bind fun vars' hvars' => ?_
    exact ends_pure (Flow.within_next hvars')
  | seq first second ihfirst ihsecond =>
    rw [Action.run]
    refine (ihfirst h.1 hvars).bind fun r hr => ?_
    obtain ⟨flow, vars'⟩ := r
    cases flow with
    | next => exact ihsecond h.2 hr.1
    | brk => exact ends_pure hr
    | cont => exact ends_pure hr
    | ret v => exact ends_pure hr
  | branch test yes no ihyes ihno =>
    rw [Action.run]
    refine ends_bind fun _ => ends_bind fun b => ?_
    split
    · exact ihyes h.2.1 hvars
    · exact ihno h.2.2 hvars
  | loop test post body ihpost ihbody =>
    rw [Action.run]
    exact ends_iterate (fun vars hvars => ihbody h.2.2 hvars)
      (fun vars hvars => ihpost h.2.1 hvars) rounds vars hvars
  | ret x? =>
    cases x? with
    | none =>
      rw [Action.run]
      refine ends_pure ⟨hvars, fun v hv => ?_⟩
      cases hv
      exact Value.within_nothing _
    | some x =>
      rw [Action.run]
      refine Ends.bind ((h x rfl).ends hcall (.start hvars)) fun v hv => ?_
      refine ends_pure ⟨hvars, fun w hw => ?_⟩
      cases hw
      exact hv
  | brk =>
    rw [Action.run]
    exact ends_pure ⟨hvars, fun _ hv => by cases hv⟩
  | cont =>
    rw [Action.run]
    exact ends_pure ⟨hvars, fun _ hv => by cases hv⟩

end Runs

/-! ### Functions and programs -/

namespace CheckedFn

open Exec

variable {sigs : Signatures} {fn : CheckedFn} {args : List Value}

/-- The body of a function obeys the rules. -/
def Ranged (sigs : Signatures) (fn : CheckedFn) : Prop :=
  fn.body.Ranged sigs fn.declared fn.result

/-- Before the body the variables are within their types. -/
theorem within_frame (hlen : args.length = fn.paramTypes.length)
    (hargs : Value.AllWithin fn.paramTypes args) : (fn.frame args).Within fn.declared := by
  intro slot t ht
  rw [Array.getD_eq_getD_getElem?]
  cases hv : (fn.frame args)[slot]? with
  | none => exact Value.within_nothing t
  | some v =>
    rcases getElem?_frame hv with hv | rfl
    · -- An argument is that of a parameter, whose type the variable is declared with.
      have hlt : slot < fn.paramTypes.length := hlen ▸ (List.getElem?_eq_some_iff.mp hv).1
      have hparam := List.getElem?_eq_getElem hlt
      rw [declared, hparam] at ht
      cases ht
      exact hargs.getElem? hparam hv
    · exact Value.within_nothing t

theorem ends_result {flow : Flow} {t : Ty} (h : ∀ v, flow = .ret v → v.Within t) :
    Ends (fn.result? flow) (Value.Within t) := by
  unfold result?
  split
  all_goals first
    | exact ends_pure (h _ rfl)
    | (split
       · exact ends_pure (Value.within_nothing t)
       · exact ends_fail _)

/-- The body of a function keeps variables and results within their types. -/
theorem Ranged.ends_body (hfn : fn.Ranged sigs) {call : Caller} (hcall : call.Within sigs)
    (item : WorkItem) (rounds : Nat) (hlen : args.length = fn.paramTypes.length)
    (hargs : Value.AllWithin fn.paramTypes args) :
    Ends (fn.body.run call item rounds (fn.frame args)) (Flow.Within fn.declared fn.result) :=
  Action.Ranged.ends_run hcall item rounds hfn (within_frame hlen hargs)

end CheckedFn

namespace Program

open Exec

/-- All functions of the program obey the rules. -/
def Ranged (p : Program) : Prop := ∀ fn ∈ p.funcs, fn.Ranged p.signatures

variable {p : Program}

/-- **Calls give results within their types**, whatever the number of calls that may be made. -/
theorem Ranged.within_call (hp : p.Ranged) (item : WorkItem) (rounds depth : Nat) :
    Caller.Within p.signatures (p.call item rounds depth) := by
  induction depth with
  | zero =>
    intro fn params result args _ _ _
    exact ends_fail _
  | succ depth ih =>
    intro name params result args hsig hlen hargs
    unfold signatures at hsig
    cases hfn : p.func? name with
    | none =>
      rw [hfn] at hsig
      cases hsig
    | some fn =>
      rw [hfn] at hsig
      cases hsig
      simp only [call, hfn]
      have hranged := hp fn (List.mem_of_find?_eq_some hfn)
      refine (hranged.ends_body ih item rounds hlen hargs).bind fun r hr => ?_
      exact CheckedFn.ends_result hr.2

end Program
end KernelForge
