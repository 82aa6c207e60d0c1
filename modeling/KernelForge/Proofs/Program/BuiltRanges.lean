/-
Programs that have been built keep narrow integers in their ranges.

A statement that the checker accepts obeys the rules in the declarations of its function, as its
expressions do: what is stored has been converted to the type of the place, and what is returned to
the type of the result.  The environment only ever knows variables that have been declared, so it
agrees with the declarations from the parameters on.

What is proved of a function is for any signatures that the functions before it have.  The builder
keeps the origin of each function as long as its log is empty.
-/
import KernelForge.Proofs.Program.CheckedRanges

namespace KernelForge

/-- The variables that an action declares are among the declarations. -/
def Action.DeclaredIn (declared : Scope) (a : Action) : Prop :=
  ∀ d ∈ a.declared, declared d.1 = some d.2

namespace Env

open Checked

/-- What the environment knows agrees with the declarations of a function. -/
structure Settled (sigs : Signatures) (declared : Scope) (result : Ty) (env : Env) : Prop where
  agrees : env.Agrees sigs declared
  resultTy : env.result.ty = result
  resultNamed : env.result.Named

variable {sigs : Signatures} {declared : Scope} {result : Ty} {env env' inner : Env} {a : Action}

/-! ### Scopes -/

theorem Settled.openScope (h : env.Settled sigs declared result) :
    env.openScope.Settled sigs declared result := by
  refine ⟨⟨h.agrees.structs, fun name v hv => ?_, h.agrees.funcs⟩, h.resultTy, h.resultNamed⟩
  rw [find?_openScope] at hv
  exact h.agrees.vars name v hv

theorem Settled.closeTo (h : env.Settled sigs declared result) (inner : Env) :
    (env.closeTo inner).Settled sigs declared result :=
  ⟨⟨h.agrees.structs, h.agrees.vars, h.agrees.funcs⟩, h.resultTy, h.resultNamed⟩

theorem Settled.inLoop (h : env.Settled sigs declared result) :
    { env with inLoop := true }.Settled sigs declared result :=
  ⟨⟨h.agrees.structs, h.agrees.vars, h.agrees.funcs⟩, h.resultTy, h.resultNamed⟩

/-- A new variable has the type that its slot is declared with. -/
theorem Settled.declare (h : env.Settled sigs declared result) {id : Code.Ident} {t : NamedTy}
    {readOnly : Bool} {slot : Nat} (ht : t.Named) (hslot : declared slot = some t.ty)
    (hd : env.declare id t readOnly = .ok (slot, env')) : env'.Settled sigs declared result := by
  have hfind := find?_declare hd
  unfold Env.declare at hd
  simp only at hd
  split at hd
  · cases hd
  · cases hd
    refine ⟨⟨h.agrees.structs, fun name v hv => ?_, h.agrees.funcs⟩, h.resultTy, h.resultNamed⟩
    rw [hfind] at hv
    split at hv
    · cases hv
      exact ⟨ht, hslot⟩
    · exact h.agrees.vars name v hv

/-! ### Single statements -/

theorem ranged_checkInit (henv : env.Settled sigs declared result) {t : NamedTy}
    (hnamed : t.Named) {readOnly : Bool} {id : Code.Ident} {e? : Option Code.Expr}
    {init : Option Term} (h : env.checkInit t readOnly id e? = .ok init) :
    ∀ x, init = some x → KernelForge.Ranged sigs declared none (.term x) t.ty := by
  intro x hx
  subst hx
  cases e? with
  | none =>
    rw [checkInit] at h
    cases readOnly with
    | true => cases h
    | false => cases h
  | some e =>
    obtain ⟨y, hy, h⟩ := bind_eq_ok.mp h
    obtain ⟨z, hz, h⟩ := bind_eq_ok.mp h
    cases h
    exact ranged_term_convert (ranged_checkExpr henv.agrees hy) hnamed hz

theorem ranged_checkVariables (henv : env.Settled sigs declared result) {t : NamedTy}
    (hnamed : t.Named) {readOnly : Bool} {vars : List (Code.Ident × Option Code.Expr)}
    (h : env.checkVariables t readOnly vars = .ok (a, env')) (hdeclared : a.DeclaredIn declared) :
    a.Ranged sigs declared result ∧ env'.Settled sigs declared result := by
  induction vars generalizing env a with
  | nil =>
    cases h
    exact ⟨trivial, henv⟩
  | cons q vars ih =>
    obtain ⟨id, e?⟩ := q
    obtain ⟨init, hinit, h⟩ := bind_eq_ok.mp h
    obtain ⟨⟨slot, mid⟩, hd, h⟩ := bind_eq_ok.mp h
    obtain ⟨⟨rest, last⟩, hrest, h⟩ := bind_eq_ok.mp h
    cases h
    have hslot : declared slot = some t.ty := hdeclared (slot, t.ty) (by simp [Action.declared])
    obtain ⟨hrest', hlast⟩ := ih (henv.declare hnamed hslot hd) hrest
      fun d hmem => hdeclared d (List.mem_append_right _ hmem)
    exact ⟨⟨⟨hslot, ranged_checkInit henv hnamed hinit⟩, hrest'⟩, hlast⟩

theorem ranged_assignable {scope : Scope} {here? : Option Ty} {offset : Nat} {x : Checked}
    {p : Place} (hx : Checked.Ranged sigs scope here? x) (h : assignable offset x = .ok p) :
    KernelForge.Ranged sigs scope here? (.place p) x.type.ty := by
  unfold assignable at h
  split at h
  · cases h
  · rename_i q hq
    split at h
    · cases h
    · cases h
      exact hx.place p hq

/-- The new value is computed from the current one and converted back. -/
theorem ranged_checkUpdate {offset : Nat} {lhs rhs : Checked} {op : Operator}
    (hlhs : Checked.Ranged sigs declared none lhs)
    (hrhs : ∀ here?, Checked.Ranged sigs declared here? rhs)
    (h : checkUpdate offset lhs op rhs = .ok a) : a.Ranged sigs declared result := by
  obtain ⟨p, hp, h⟩ := bind_eq_ok.mp h
  obtain ⟨next, hnext, h⟩ := bind_eq_ok.mp h
  obtain ⟨next', hnext', h⟩ := bind_eq_ok.mp h
  cases h
  have hcurrent : Checked.Ranged sigs declared (some lhs.type.ty)
      { type := lhs.type, term := .current } :=
    ranged_value hlhs.good.named (.current rfl)
  have hbinary := ranged_binary hcurrent (hrhs _) hnext
  exact ⟨_, ranged_assignable hlhs hp, ranged_term_convert hbinary hlhs.good.named hnext'⟩

theorem ranged_checkSimple (henv : env.Settled sigs declared result) {s : Code.Simple}
    (h : env.checkSimple s = .ok (a, env')) (hdeclared : a.DeclaredIn declared) :
    a.Ranged sigs declared result ∧ env'.Settled sigs declared result := by
  cases s with
  | decl spec vars =>
    obtain ⟨t, ht, h⟩ := bind_eq_ok.mp h
    split at h
    · cases h
    · exact ranged_checkVariables henv (named_resolve henv.agrees.structs ht) h hdeclared
  | expr e =>
    obtain ⟨x, hx, h⟩ := bind_eq_ok.mp h
    cases h
    exact ⟨⟨_, (ranged_checkExpr henv.agrees hx).term⟩, henv⟩
  | assign lhs offset op rhs =>
    obtain ⟨x, hx, h⟩ := bind_eq_ok.mp h
    obtain ⟨y, hy, h⟩ := bind_eq_ok.mp h
    have hleft : Checked.Ranged sigs declared none x := ranged_checkExpr henv.agrees hx
    split at h
    · obtain ⟨act, hact, h⟩ := bind_eq_ok.mp h
      cases h
      exact ⟨ranged_checkUpdate hleft (fun _ => ranged_checkExpr henv.agrees hy) hact, henv⟩
    · obtain ⟨p, hp, h⟩ := bind_eq_ok.mp h
      obtain ⟨z, hz, h⟩ := bind_eq_ok.mp h
      cases h
      have hright : Checked.Ranged sigs declared none y := ranged_checkExpr henv.agrees hy
      have hterm := ranged_term_convert hright hleft.good.named hz
      exact ⟨⟨_, ranged_assignable hleft hp, hterm⟩, henv⟩
  | step e offset op =>
    obtain ⟨x, hx, h⟩ := bind_eq_ok.mp h
    obtain ⟨act, hact, h⟩ := bind_eq_ok.mp h
    cases h
    have hone : (Constant.ofInt 1).Fills := ⟨rfl, rfl⟩
    exact ⟨ranged_checkUpdate (ranged_checkExpr henv.agrees hx)
      (fun _ => ranged_ofConstant hone) hact, henv⟩

theorem ranged_checkTest {scope : Scope} (henv : env.Agrees sigs scope) {e : Code.Expr} {x : Term}
    (h : env.checkTest e = .ok x) :
    KernelForge.Ranged sigs scope none (.term x) (.scalar .bool) := by
  obtain ⟨y, hy, h⟩ := bind_eq_ok.mp h
  obtain ⟨z, hz, h⟩ := bind_eq_ok.mp h
  cases h
  exact ranged_truth (ranged_checkExpr henv hy) hz

theorem ranged_checkReturn (henv : env.Settled sigs declared result) {offset : Nat}
    {e? : Option Code.Expr} (h : env.checkReturn offset e? = .ok a) :
    a.Ranged sigs declared result := by
  cases e? with
  | none =>
    rw [checkReturn] at h
    split at h
    · cases h
      intro x hx
      cases hx
    · cases h
  | some e =>
    rw [checkReturn] at h
    split at h
    · cases h
    · obtain ⟨x, hx, h⟩ := bind_eq_ok.mp h
      obtain ⟨y, hy, h⟩ := bind_eq_ok.mp h
      cases h
      intro z hz
      cases hz
      rw [← henv.resultTy]
      exact ranged_term_convert (ranged_checkExpr henv.agrees hx) henv.resultNamed hy

/-! ### Statements within statements -/

theorem upholds_ranged : Upholds (fun _ => True) (Settled sigs declared result)
    (fun d => declared d.1 = some d.2) (Action.Ranged sigs declared result) where
  uses _ := ⟨trivial, trivial⟩
  openScope := Settled.openScope
  closeTo inner h := h.closeTo inner
  inLoop := Settled.inLoop
  simple henv _ := ranged_checkSimple henv
  ret henv _ := ranged_checkReturn henv
  skip := trivial
  brk := trivial
  cont := trivial
  seq ha hb := ⟨ha, hb⟩
  branch henv _ h ha hb := ⟨ranged_checkTest henv.agrees h, ha, hb⟩
  loop henv _ h ha hb := by
    refine ⟨fun x hx => ?_, ha, hb⟩
    obtain ⟨e, -, he⟩ := h x hx
    exact ranged_checkTest henv.agrees he

/-- **Checked statements obey the rules**, and the environment after them still agrees with the
declarations. -/
theorem ranged_checkStmts (henv : env.Settled sigs declared result) {ss : List Code.Stmt}
    (h : env.checkStmts ss = .ok (a, env')) (hdeclared : a.DeclaredIn declared) :
    a.Ranged sigs declared result ∧ env'.Settled sigs declared result :=
  upholds_ranged.checkStmts henv trivial h hdeclared

/-! ### Functions -/

/-- **A function that has been checked obeys the rules.** -/
theorem ranged_checkBody {d : Code.Func} {params : List NamedTy} (hformed : env.Formed)
    (h : env.checkHeader d = .ok (params, inner)) (hinner : inner.Known sigs) {fn : CheckedFn}
    (hbody : inner.checkBody d params = .ok fn) : fn.Ranged sigs := by
  obtain ⟨-, hslots, htracks, -⟩ := tracks_checkHeader hformed h hinner
  obtain ⟨-, header, mid, -, hparams, -⟩ := checkHeader_ok h
  have hlen := (valued_checkParams hparams).1
  obtain ⟨-, htypes, hresult, last, hstmts, -⟩ := checkBody_ok hlen hbody
  -- The parameters are the first declarations.
  have hsettled : inner.Settled sigs fn.declared fn.result := by
    refine ⟨⟨htracks.agrees.structs, fun name v hv => ?_, htracks.agrees.funcs⟩,
      hresult.symm, htracks.resultNamed⟩
    obtain ⟨hnamed, hslot⟩ := htracks.agrees.vars name v hv
    exact ⟨hnamed, CheckedFn.declared_of_param (by rw [CheckedFn.paramScope, htypes]; exact hslot)⟩
  exact (ranged_checkStmts hsettled.openScope hstmts (declared_checkBody hslots hlen hbody).2).1

end Env

/-! ### The builder -/

/-- Every function that is known has been checked where the functions before it were known. -/
def Builder.Ranged (b : Builder) : Prop :=
  ∀ fn ∈ b.funcs, ∀ sigs, b.env.Known sigs → fn.Ranged sigs

namespace Builder

variable {b b' : Builder}

/-- As long as there is no objection, the functions obey the rules. -/
structure RangedSoFar (b : Builder) : Prop where
  invariant : b.Invariant
  ranged : b.log = [] → b.Ranged

theorem RangedSoFar.learn (hb : b.RangedSoFar) {r : Check Env} (hinv : b'.Invariant)
    (h : b.learn r = some b') (hr : ∀ env, r = .ok env → env.funcs = b.env.funcs) :
    b'.RangedSoFar := by
  refine ⟨hinv, fun hlog => ?_⟩
  cases r with
  | error o => exact absurd hlog (log_object h)
  | ok env =>
    cases h
    intro fn hfn sigs hknown
    refine hb.ranged hlog fn hfn sigs ?_
    unfold Env.Known at hknown
    rw [hr env rfl] at hknown
    exact hknown

theorem RangedSoFar.obey (hb : b.RangedSoFar) {p : Pragma}
    (h : b.learn (b.env.obey p) = some b') : b'.RangedSoFar :=
  hb.learn (hb.invariant.obey h) h fun _ hobey => (obey_same hobey).2

theorem RangedSoFar.checkTypedef (hb : b.RangedSoFar) {d : Code.Typedef}
    (h : b.learn (b.env.checkTypedef d) = some b') : b'.RangedSoFar := by
  refine hb.learn (hb.invariant.checkTypedef h) h fun env hdef => ?_
  obtain ⟨members, -, hdef⟩ := bind_eq_ok.mp hdef
  simp only at hdef
  split at hdef
  · cases hdef
  · cases hdef
    rfl

/-- A function joins those before it, which keep what they obey. -/
theorem RangedSoFar.addFunc (hb : b.RangedSoFar) {d : Code.Func} (h : b.addFunc d = some b') :
    b'.RangedSoFar := by
  refine ⟨hb.invariant.addFunc h, fun hlog => ?_⟩
  unfold Builder.addFunc at h
  split at h
  · exact absurd hlog (log_object h)
  · rename_i params inner hheader
    simp only at h
    split at h
    · exact absurd hlog (log_object h)
    · rename_i fn hfn
      cases h
      intro f hf sigs hknown
      rcases List.mem_append.mp hf with hf | hf
      · refine hb.ranged hlog f hf sigs fun name hd hlookup => hknown name hd ?_
        obtain ⟨hnew, result, mid, -, -, rfl⟩ := Env.checkHeader_ok hheader
        exact Env.lookup_header hnew hlookup
      · cases List.mem_singleton.mp hf
        exact Env.ranged_checkBody (hb.invariant hlog).formed hheader hknown hfn

theorem rangedSoFar_ofFile {file : Code.File} (h : ofFile file = some b) : b.RangedSoFar := by
  obtain ⟨b₁, hb₁, h⟩ := Option.bind_eq_some_iff.mp h
  obtain ⟨b₂, hb₂, h⟩ := Option.bind_eq_some_iff.mp h
  have h₀ : RangedSoFar {} := ⟨fun _ => sound_empty, fun _ => List.forall_mem_nil _⟩
  have h₁ : b₁.RangedSoFar := keeps_foldlM (fun _ hb h => hb.obey h) h₀ hb₁
  have h₂ : b₂.RangedSoFar := keeps_foldlM (fun _ hb h => hb.checkTypedef h) h₁ hb₂
  exact keeps_foldlM (fun _ hb h => hb.addFunc h) h₂ h

end Builder

/-- **A program that has been built obeys the rules.** -/
theorem Program.ranged_of_build {source : SourceText} {p : Program}
    (h : build source = .built p) : p.Ranged := by
  obtain ⟨file, b, -, hb, hlog, rfl⟩ := build_ok h
  have hsofar := Builder.rangedSoFar_ofFile hb
  exact fun fn hfn => hsofar.ranged hlog fn hfn _ ((hsofar.invariant hlog).known_signatures source)

end KernelForge
