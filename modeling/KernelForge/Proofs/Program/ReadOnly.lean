/-
Read-only memory is never written.

Statements and functions that the checker accepts obey the rules for sealed pointers, as their
expressions do.  Variables take the flags of their declared types, so what is assumed of the slots
of a function is read off its declarations.  The builder keeps this for every function that is
known, whatever functions follow.

The theorem of this file puts this together: a memory that is passed only for read-only or constant
pointers is the same after a run, whether the run succeeds or not.  Parameters that are written as
read-only are pointers for reading, so for a kernel that has only such parameters after the first, these
are all memories but one.
-/
import KernelForge.Proofs.Code.Reading
import KernelForge.Proofs.Program.Crews
import KernelForge.Proofs.Program.Sealed
import KernelForge.Proofs.Program.Totality

namespace KernelForge

namespace Env

open Checked Code

variable {sigs : Signatures} {seals : Nat → Bool} {aims here : Bool} {env env' inner : Env}

/-! ### Scopes -/

theorem Wary.openScope (h : env.Wary sigs seals aims) : env.openScope.Wary sigs seals aims := by
  refine ⟨h.structs, fun name v hv => ?_, h.funcs, h.result, h.aims⟩
  rw [find?_openScope] at hv
  exact h.vars name v hv

theorem Wary.closeTo (h : env.Wary sigs seals aims) (inner : Env) :
    (env.closeTo inner).Wary sigs seals aims :=
  ⟨h.structs, h.vars, h.funcs, h.result, h.aims⟩

theorem Wary.inLoop (h : env.Wary sigs seals aims) :
    { env with inLoop := true }.Wary sigs seals aims :=
  ⟨h.structs, h.vars, h.funcs, h.result, h.aims⟩

/-- A new variable has the flag of its type. -/
theorem Wary.declare (h : env.Wary sigs seals aims) {id : Ident} {t : NamedTy} {readOnly : Bool}
    {slot : Nat} (hflat : t.ty.isFlat = true) (hslot : seals slot = t.ty.isSealed)
    (hd : env.declare id t readOnly = .ok (slot, env')) : env'.Wary sigs seals aims := by
  have hfind := find?_declare hd
  unfold Env.declare at hd
  simp only at hd
  split at hd
  · cases hd
  · cases hd
    refine ⟨h.structs, fun name v hv => ?_, h.funcs, h.result, h.aims⟩
    rw [hfind] at hv
    split at hv
    · cases hv
      exact ⟨hflat, hslot⟩
    · exact h.vars name v hv

/-! ### Statements -/

variable {a : Action}

/-- The variables that an action declares have the flags of their types. -/
def Flagged (seals : Nat → Bool) (a : Action) : Prop :=
  ∀ d ∈ a.declared, seals d.1 = d.2.isSealed

theorem wary_checkInit (henv : env.Wary sigs seals aims) {t : NamedTy}
    (hflat : t.ty.isFlat = true) {readOnly : Bool} {id : Ident} {e? : Option Expr}
    {init : Option Term} (huses : NoPointerCasts (optionTypeUses Expr.typeUses e?))
    (h : env.checkInit t readOnly id e? = .ok init) :
    ∀ x, init = some x → KernelForge.Wary sigs seals false (.term x t.ty.isSealed) := by
  intro x hx
  subst hx
  cases e? with
  | none =>
    rw [checkInit] at h
    cases readOnly with
    | true => cases h
    | false => cases h
  | some e =>
    obtain ⟨y, hy, h⟩ := bind_eq_ok.mp h
    obtain ⟨z, hz, h⟩ := bind_eq_ok.mp h
    cases h
    exact wary_term_convert (wary_checkExpr (e := e) henv huses hy) hflat hz

theorem wary_checkVariables (henv : env.Wary sigs seals aims) {t : NamedTy}
    (hflat : t.ty.isFlat = true) {readOnly : Bool} {vars : List (Ident × Option Expr)}
    (huses : NoPointerCasts (initTypeUses vars))
    (h : env.checkVariables t readOnly vars = .ok (a, env')) (hflags : Flagged seals a) :
    a.Wary sigs seals aims ∧ env'.Wary sigs seals aims := by
  induction vars generalizing env a with
  | nil =>
    cases h
    exact ⟨trivial, henv⟩
  | cons q vars ih =>
    obtain ⟨id, e?⟩ := q
    obtain ⟨init, hinit, h⟩ := bind_eq_ok.mp h
    obtain ⟨⟨slot, mid⟩, hd, h⟩ := bind_eq_ok.mp h
    obtain ⟨⟨rest, last⟩, hrest, h⟩ := bind_eq_ok.mp h
    cases h
    rw [initTypeUses] at huses
    have hslot : seals slot = t.ty.isSealed := hflags (slot, t.ty) (by simp [Action.declared])
    have hinit' := wary_checkInit henv hflat huses.left hinit
    obtain ⟨hrest', hlast⟩ := ih (henv.declare hflat hslot hd) huses.right hrest
      fun d hmem => hflags d (List.mem_append_right _ hmem)
    refine ⟨⟨fun x hx => ?_, hrest'⟩, hlast⟩
    rw [hslot]
    exact hinit' x hx

/-- A place that may be assigned to does not lie in the memory. -/
theorem wary_assignable {offset : Nat} {x : Checked} {p : Place}
    (hx : Checked.Wary sigs seals here x) (h : assignable offset x = .ok p) :
    KernelForge.Wary sigs seals here (.place p false x.type.ty.isSealed) := by
  unfold assignable at h
  split at h
  · cases h
  · rename_i q hq
    split at h
    · cases h
    · rename_i hro
      cases h
      obtain ⟨inside, hp, hreadOnly, -⟩ := hx.place p hq
      cases inside with
      | true => exact absurd (hreadOnly rfl) hro
      | false => exact hp

theorem wary_checkUpdate {offset : Nat} {lhs rhs : Checked} {op : Operator}
    (hlhs : Checked.Wary sigs seals false lhs)
    (hrhs : Checked.Wary sigs seals lhs.type.ty.isSealed rhs)
    (h : checkUpdate offset lhs op rhs = .ok a) : a.Wary sigs seals aims := by
  obtain ⟨p, hp, h⟩ := bind_eq_ok.mp h
  obtain ⟨next, hnext, h⟩ := bind_eq_ok.mp h
  obtain ⟨next', hnext', h⟩ := bind_eq_ok.mp h
  cases h
  have hcurrent : Checked.Wary sigs seals lhs.type.ty.isSealed { type := lhs.type, term := .current } :=
    wary_value hlhs.flat .current
  have hbinary := wary_binary hcurrent hrhs hnext
  exact ⟨_, wary_assignable hlhs hp, wary_term_convert hbinary hlhs.flat hnext'⟩

theorem wary_checkSimple (henv : env.Wary sigs seals aims) {s : Simple}
    (huses : NoPointerCasts s.typeUses) (h : env.checkSimple s = .ok (a, env'))
    (hflags : Flagged seals a) : a.Wary sigs seals aims ∧ env'.Wary sigs seals aims := by
  cases s with
  | decl spec vars =>
    obtain ⟨t, ht, h⟩ := bind_eq_ok.mp h
    split at h
    · cases h
    · exact wary_checkVariables henv (flat_resolve henv.structs ht).1 huses h hflags
  | expr e =>
    obtain ⟨x, hx, h⟩ := bind_eq_ok.mp h
    cases h
    exact ⟨(wary_checkExpr (e := e) henv huses hx).any, henv⟩
  | assign lhs offset op rhs =>
    obtain ⟨x, hx, h⟩ := bind_eq_ok.mp h
    obtain ⟨y, hy, h⟩ := bind_eq_ok.mp h
    rw [Simple.typeUses] at huses
    split at h
    · obtain ⟨act, hact, h⟩ := bind_eq_ok.mp h
      cases h
      exact ⟨wary_checkUpdate (wary_checkExpr henv huses.left hx)
        (wary_checkExpr henv huses.right hy) hact, henv⟩
    · obtain ⟨p, hp, h⟩ := bind_eq_ok.mp h
      obtain ⟨z, hz, h⟩ := bind_eq_ok.mp h
      cases h
      have hleft : Checked.Wary sigs seals false x := wary_checkExpr henv huses.left hx
      have hright : Checked.Wary sigs seals false y := wary_checkExpr henv huses.right hy
      exact ⟨⟨_, wary_assignable hleft hp, wary_term_convert hright hleft.flat hz⟩, henv⟩
  | step e offset op =>
    obtain ⟨x, hx, h⟩ := bind_eq_ok.mp h
    obtain ⟨act, hact, h⟩ := bind_eq_ok.mp h
    cases h
    exact ⟨wary_checkUpdate (wary_checkExpr (e := e) henv huses hx) (wary_ofConstant _) hact, henv⟩

theorem wary_checkTest (henv : env.Wary sigs seals aims) {e : Expr} {x : Term}
    (huses : NoPointerCasts e.typeUses) (h : env.checkTest e = .ok x) :
    KernelForge.Wary sigs seals false (.term x true) := by
  obtain ⟨y, hy, h⟩ := bind_eq_ok.mp h
  obtain ⟨z, hz, h⟩ := bind_eq_ok.mp h
  cases h
  exact wary_truth (wary_checkExpr henv huses hy) hz

/-- What is returned has the flag of the result. -/
theorem wary_checkReturn (henv : env.Wary sigs seals aims) {offset : Nat} {e? : Option Expr}
    (huses : NoPointerCasts (optionTypeUses Expr.typeUses e?))
    (h : env.checkReturn offset e? = .ok a) : a.Wary sigs seals aims := by
  cases e? with
  | none =>
    rw [checkReturn] at h
    split at h
    · cases h
      intro z hz
      cases hz
    · cases h
  | some e =>
    rw [checkReturn] at h
    split at h
    · cases h
    · obtain ⟨x, hx, h⟩ := bind_eq_ok.mp h
      obtain ⟨y, hy, h⟩ := bind_eq_ok.mp h
      cases h
      intro z hz
      cases hz
      rw [← henv.aims]
      exact wary_term_convert (wary_checkExpr (e := e) henv huses hx) henv.result hy

theorem upholds_wary : Upholds NoPointerCasts (Wary sigs seals aims)
    (fun d => seals d.1 = d.2.isSealed) (Action.Wary sigs seals aims) where
  uses h := ⟨h.left, h.right⟩
  openScope := Wary.openScope
  closeTo inner h := h.closeTo inner
  inLoop := Wary.inLoop
  simple henv huses := wary_checkSimple henv huses
  ret henv huses := wary_checkReturn henv huses
  skip := trivial
  brk := trivial
  cont := trivial
  seq ha hb := ⟨ha, hb⟩
  branch henv huses h ha hb := ⟨wary_checkTest henv huses h, ha, hb⟩
  loop henv huses h ha hb := by
    refine ⟨fun x hx => ?_, ha, hb⟩
    obtain ⟨e, rfl, he⟩ := h x hx
    exact wary_checkTest henv huses he

/-- **Checked statements obey the rules**, and so does the environment after them. -/
theorem wary_checkStmts (henv : env.Wary sigs seals aims) {ss : List Stmt}
    (huses : NoPointerCasts (Stmt.allTypeUses ss)) (h : env.checkStmts ss = .ok (a, env'))
    (hflags : Flagged seals a) : a.Wary sigs seals aims ∧ env'.Wary sigs seals aims :=
  upholds_wary.checkStmts henv huses h hflags

/-! ### Functions -/

/-- What the environment knows of functions and structures hides no pointers in structures. -/
structure Flat (env : Env) : Prop where
  structs : ∀ name t, env.structs.lookup name = some t → t.ty.isPointerFree = true
  funcs : ∀ name h, env.funcs.lookup name = some h →
    h.result.ty.isFlat = true ∧ ∀ t ∈ h.params, t.ty.isFlat = true

variable {d : Func} {params : List NamedTy}

theorem wary_checkParams (henv : env.Wary sigs seals aims) {isKernel : Bool} {fs : List Field}
    {ts : List NamedTy} (h : env.checkParams isKernel fs = .ok (ts, env'))
    (hseals : ∀ i t, ts[i]? = some t → seals (env.slots + i) = t.ty.isSealed) :
    env'.Wary sigs seals aims ∧ env'.slots = env.slots + ts.length ∧
      ∀ t ∈ ts, t.ty.isFlat = true := by
  induction fs generalizing env ts with
  | nil =>
    cases h
    exact ⟨henv, rfl, by simp⟩
  | cons f fs ih =>
    obtain ⟨t, slot, mid, us, hty, -, hd, hus, rfl⟩ := checkParams_cons h
    obtain ⟨hslot, hmid⟩ := slots_declare hd
    have hflat := (flat_resolve henv.structs hty).1
    have hseal : seals slot = t.ty.isSealed := hslot ▸ hseals 0 t rfl
    obtain ⟨hwary, hcount, hall⟩ := ih (henv.declare hflat hseal hd) hus fun i u hu => by
      rw [hmid, Nat.add_assoc, Nat.add_comm 1]
      exact hseals (i + 1) u hu
    refine ⟨hwary, by rw [hcount, hmid, List.length_cons]; omega, fun u hu => ?_⟩
    rcases List.mem_cons.mp hu with rfl | hu
    · exact hflat
    · exact hall u hu

/-- What a header leaves for the body obeys the rules, when the parameters have the flags of their
types. -/
theorem wary_checkHeader (hflat : env.Flat) (h : env.checkHeader d = .ok (params, inner))
    (hinner : inner.Known sigs) (hseals : ∀ i t, params[i]? = some t → seals i = t.ty.isSealed) :
    inner.Wary sigs seals inner.result.ty.isSealed ∧ inner.Flat ∧ inner.slots = params.length := by
  obtain ⟨hnew, result, mid, hresult, hparams, rfl⟩ := checkHeader_ok h
  have hresultFlat := (flat_resolve hflat.structs hresult).1
  have hstart : (env.atHeader d.name.name result).Wary sigs seals result.ty.isSealed := by
    refine ⟨hflat.structs, fun id v hv => ?_, fun id hd hlookup => ?_, hresultFlat, rfl⟩
    · simp [find?, atHeader, List.findSome?_cons] at hv
    · exact ⟨hinner id hd (lookup_header hnew hlookup), hflat.funcs id hd hlookup⟩
  obtain ⟨hmid, hslots, hall⟩ := wary_checkParams hstart hparams fun i t hi => by
    rw [show (env.atHeader d.name.name result).slots + i = i from Nat.zero_add i]
    exact hseals i t hi
  have hfuncs : ∀ name hd, ((d.name.name, ⟨d.isKernel, result, params⟩) :: env.funcs).lookup name =
      some hd → hd.result.ty.isFlat = true ∧ ∀ t ∈ hd.params, t.ty.isFlat = true := by
    intro name hd hlookup
    rw [List.lookup_cons] at hlookup
    split at hlookup
    · cases hlookup
      exact ⟨hresultFlat, hall⟩
    · exact hflat.funcs name hd hlookup
  refine ⟨⟨hmid.structs, hmid.vars, fun name hd hlookup => ?_, hmid.result, rfl⟩,
    ⟨hmid.structs, hfuncs⟩, hslots.trans (Nat.zero_add _)⟩
  exact ⟨hinner name hd hlookup, hfuncs name hd hlookup⟩

/-- **A function that has been checked obeys the rules.** -/
theorem wary_checkBody (hflat : env.Flat) (h : env.checkHeader d = .ok (params, inner))
    (hinner : inner.Known sigs) {fn : CheckedFn} (huses : NoPointerCasts d.typeUses)
    (hbody : inner.checkBody d params = .ok fn) : fn.Wary sigs := by
  obtain ⟨-, _, mid, -, hparams, -⟩ := checkHeader_ok h
  have hlen := (valued_checkParams hparams).1
  obtain ⟨-, htypes, hresult, last, hstmts, -⟩ := checkBody_ok hlen hbody
  have hseals : ∀ i t, params[i]? = some t → fn.seals i = t.ty.isSealed := by
    intro i t hi
    rw [CheckedFn.seals, CheckedFn.declared, htypes, List.getElem?_map, hi]
    rfl
  obtain ⟨hwary, -, hslots⟩ := wary_checkHeader hflat h hinner hseals
  have hdeclared := (declared_checkBody hslots hlen hbody).2
  have hflags : Flagged fn.seals fn.body := by
    intro e he
    rw [CheckedFn.seals, hdeclared e he]
    rfl
  unfold CheckedFn.Wary
  rw [hresult]
  exact (wary_checkStmts hwary.openScope huses hstmts hflags).1

end Env

/-! ### Programs -/

/-- The functions that have been checked obey the rules, whatever functions follow. -/
structure Builder.Wary (b : Builder) : Prop where
  flat : b.env.Flat
  funcs : ∀ fn ∈ b.funcs, ∀ sigs, b.env.Known sigs → fn.Wary sigs

namespace Builder

variable {b b' : Builder}

theorem Wary.object (hb : b.Wary) {o : Objection} (h : b.object o = some b') : b'.Wary := by
  cases o with
  | complaint offset e =>
    cases h
    exact ⟨hb.flat, hb.funcs⟩
  | collapse => cases h

/-- Structures without pointers may be added to what is known. -/
theorem Wary.learn (hb : b.Wary) {r : Check Env} (h : b.learn r = some b')
    (hr : ∀ env, r = .ok env → env.funcs = b.env.funcs ∧
      ∀ name t, env.structs.lookup name = some t → t.ty.isPointerFree = true) : b'.Wary := by
  cases r with
  | error o => exact hb.object h
  | ok env =>
    cases h
    obtain ⟨hfuncs, hstructs⟩ := hr env rfl
    refine ⟨⟨hstructs, ?_⟩, ?_⟩
    · rw [hfuncs]
      exact hb.flat.funcs
    · unfold Env.Known
      rw [hfuncs]
      exact hb.funcs

theorem Wary.obey (hb : b.Wary) {p : Pragma} (h : b.learn (b.env.obey p) = some b') : b'.Wary := by
  refine hb.learn h fun env hobey => ?_
  obtain ⟨hstructs, hfuncs⟩ := obey_same hobey
  refine ⟨hfuncs, ?_⟩
  rw [hstructs]
  exact hb.flat.structs

theorem isPointerFree_checkMembers {env : Env}
    (hstructs : ∀ name t, env.structs.lookup name = some t → t.ty.isPointerFree = true)
    {seen : List String} {fs : List Code.Field} {names : List String} {ts : List NamedTy}
    (h : env.checkMembers seen fs = .ok (names, ts)) : ∀ t ∈ ts, t.ty.isPointerFree = true := by
  induction fs generalizing seen names ts with
  | nil =>
    cases h
    simp
  | cons f fs ih =>
    obtain ⟨t, ht, h⟩ := bind_eq_ok.mp h
    split at h
    · cases h
    · rename_i hpointer
      split at h
      · cases h
      · obtain ⟨⟨names', ts'⟩, hrest, h⟩ := bind_eq_ok.mp h
        cases h
        intro u hu
        rcases List.mem_cons.mp hu with rfl | hu
        · exact (Env.flat_resolve hstructs ht).2 (by simpa using hpointer)
        · exact ih hrest u hu

theorem Wary.checkTypedef (hb : b.Wary) {d : Code.Typedef}
    (h : b.learn (b.env.checkTypedef d) = some b') : b'.Wary := by
  refine hb.learn h fun env hdef => ?_
  obtain ⟨⟨names, fields⟩, hmembers, hdef⟩ := bind_eq_ok.mp hdef
  simp only at hdef
  split at hdef
  · cases hdef
  · cases hdef
    refine ⟨rfl, fun name t hlookup => ?_⟩
    rw [List.lookup_cons] at hlookup
    split at hlookup
    · cases hlookup
      refine Ty.allPointerFree_iff.mpr fun t ht => ?_
      rw [NamedTy.tys_eq_map] at ht
      obtain ⟨u, hu, rfl⟩ := List.mem_map.mp ht
      exact isPointerFree_checkMembers hb.flat.structs hmembers u hu
    · exact hb.flat.structs name t hlookup

theorem Wary.addFunc (hb : b.Wary) {d : Code.Func} (huses : Code.NoPointerCasts d.typeUses)
    (h : b.addFunc d = some b') : b'.Wary := by
  unfold Builder.addFunc at h
  split at h
  · exact hb.object h
  · rename_i params inner hheader
    obtain ⟨hnew, result, mid, -, -, hinner⟩ := Env.checkHeader_ok hheader
    -- There are flags that suit the parameters; what is known does not depend on them.
    obtain ⟨flags, hflags⟩ : ∃ flags : Nat → Bool,
        ∀ i t, params[i]? = some t → flags i = t.ty.isSealed :=
      ⟨fun i => params[i]?.any fun t => t.ty.isSealed, fun i t hi => by simp [hi]⟩
    have hflat := (Env.wary_checkHeader hb.flat hheader inner.known_own hflags).2.1
    have hold : ∀ {sigs : Signatures}, inner.Known sigs → b.env.Known sigs := by
      intro sigs hknown name hd hlookup
      refine hknown name hd ?_
      rw [hinner]
      exact Env.lookup_header hnew hlookup
    have hknown : Wary { b with env := { b.env with funcs := inner.funcs } } :=
      ⟨⟨hb.flat.structs, hflat.funcs⟩, fun fn hfn sigs hs => hb.funcs fn hfn sigs (hold hs)⟩
    simp only at h
    split at h
    · exact hknown.object h
    · rename_i fn hfn
      cases h
      refine ⟨hknown.flat, fun f hf sigs hs => ?_⟩
      rcases List.mem_append.mp hf with hf | hf
      · exact hknown.funcs f hf sigs hs
      · cases List.mem_singleton.mp hf
        exact Env.wary_checkBody hb.flat hheader hs huses hfn

theorem wary_ofFile {file : Code.File} (huses : ∀ d ∈ file.funcs, Code.NoPointerCasts d.typeUses)
    (h : ofFile file = some b) : b.Wary := by
  obtain ⟨b₁, hb₁, h⟩ := Option.bind_eq_some_iff.mp h
  obtain ⟨b₂, hb₂, h⟩ := Option.bind_eq_some_iff.mp h
  have h₀ : Wary {} := ⟨⟨nofun, nofun⟩, nofun⟩
  have h₁ : b₁.Wary := keeps_foldlM (fun _ hb h => hb.obey h) h₀ hb₁
  have h₂ : b₂.Wary := keeps_foldlM (fun _ hb h => hb.checkTypedef h) h₁ hb₂
  exact keeps_foldlM (fun hd hb h => hb.addFunc (huses _ hd) h) h₂ h

end Builder

theorem Program.wary_of_build {source : SourceText} {file : Code.File} {p : Program}
    (hfile : Code.File.ofStream (TokenStream.ofText fileName source) = .ok file)
    (huses : ∀ d ∈ file.funcs, Code.NoPointerCasts d.typeUses) (hbuild : build source = .built p) :
    p.Wary := by
  obtain ⟨file', b, hfile', hb, hlog, rfl⟩ := build_ok hbuild
  rw [hfile] at hfile'
  cases hfile'
  have hknown := (Builder.invariant_ofFile hb hlog).known_signatures source
  exact fun fn hfn => (Builder.wary_ofFile huses hb).funcs fn hfn _ hknown

/-! ### Parameters that are read -/

/-- A pointer of this type is for reading. -/
def Ty.IsRead (t : Ty) : Prop := ∀ elem space readOnly, t = .pointer elem space readOnly → readOnly = true

/-- Nothing is written through the parameters of a function, the first one apart. -/
def CheckedFn.ReadsRest (fn : CheckedFn) : Prop := ∀ t ∈ fn.paramTypes.tail, t.IsRead

namespace Env

variable {env env' : Env}

theorem isRead_resolve (hstructs : ∀ name t, env.structs.lookup name = some t → t.ty.isPointerFree = true)
    {spec : Code.TypeSpec} {t : NamedTy} (h : env.resolve spec = .ok t) (hspec : spec.readOnly = true) :
    t.ty.IsRead := by
  intro elem space readOnly ht
  cases hpointer : spec.pointer with
  | false =>
    have hfree := (flat_resolve hstructs h).2 hpointer
    rw [ht] at hfree
    cases hfree
  | true =>
    unfold resolve at h
    split at h
    · cases h
    · simp only [hpointer, Bool.not_true, Bool.false_eq_true, if_false] at h
      split at h
      · cases h
      · split at h
        · cases h
        · cases h
          cases ht
          exact hspec

theorem isRead_checkParams
    (hstructs : ∀ name t, env.structs.lookup name = some t → t.ty.isPointerFree = true) {isKernel : Bool}
    {fs : List Code.Field} {ts : List NamedTy} (hfs : ∀ f ∈ fs, f.type.readOnly = true)
    (h : env.checkParams isKernel fs = .ok (ts, env')) : ∀ t ∈ ts, t.ty.IsRead := by
  induction fs generalizing env ts with
  | nil =>
    cases h
    nofun
  | cons f fs ih =>
    obtain ⟨t, slot, mid, us, hty, -, hd, hus, rfl⟩ := checkParams_cons h
    rw [List.forall_mem_cons] at hfs
    exact List.forall_mem_cons.mpr ⟨isRead_resolve hstructs hty hfs.1,
      ih (by rwa [structs_declare hd]) hfs.2 hus⟩

/-- The parameters of a function after the first are for reading if they are written so. -/
theorem readsRest_checkBody {inner : Env} {d : Code.Func} {params : List NamedTy} {fn : CheckedFn}
    (hflat : env.Flat) (hparams : ∀ f ∈ d.params.tail, f.type.readOnly = true)
    (h : env.checkHeader d = .ok (params, inner)) (hbody : inner.checkBody d params = .ok fn) :
    fn.ReadsRest := by
  obtain ⟨-, result, mid, -, hchecked, -⟩ := checkHeader_ok h
  obtain ⟨-, htypes, -⟩ := checkBody_ok (valued_checkParams hchecked).1 hbody
  unfold CheckedFn.ReadsRest
  rw [htypes]
  cases hfields : d.params with
  | nil =>
    rw [hfields] at hchecked
    cases hchecked
    nofun
  | cons f fs =>
    rw [hfields] at hchecked hparams
    obtain ⟨t, slot, env₁, us, -, -, hd, hus, rfl⟩ := checkParams_cons hchecked
    have hall := isRead_checkParams (by rw [structs_declare hd]; exact hflat.structs) hparams hus
    rw [List.map_cons, List.tail_cons]
    exact List.forall_mem_map.mpr hall

end Env

namespace Builder

variable {b b' : Builder}

/-- The kernels that have been checked write through their first parameter only. -/
def ReadsRest (b : Builder) : Prop := ∀ fn ∈ b.funcs, fn.isKernel = true → fn.ReadsRest

theorem ReadsRest.object (hb : b.ReadsRest) {o : Objection} (h : b.object o = some b') : b'.ReadsRest := by
  cases o with
  | complaint offset e =>
    cases h
    exact hb
  | collapse => cases h

theorem ReadsRest.learn (hb : b.ReadsRest) {r : Check Env} (h : b.learn r = some b') : b'.ReadsRest := by
  cases r with
  | error o => exact hb.object h
  | ok env =>
    cases h
    exact hb

theorem ReadsRest.addFunc (hb : b.ReadsRest) (hflat : b.env.Flat) {d : Code.Func}
    (hparams : d.isKernel = true → ∀ f ∈ d.params.tail, f.type.readOnly = true)
    (h : b.addFunc d = some b') : b'.ReadsRest := by
  unfold Builder.addFunc at h
  split at h
  · exact hb.object h
  · rename_i params inner hheader
    have hknown : ReadsRest { b with env := { b.env with funcs := inner.funcs } } := hb
    simp only at h
    split at h
    · exact hknown.object h
    · rename_i fn hfn
      cases h
      refine fun f hf hkernel => ?_
      rcases List.mem_append.mp hf with hf | hf
      · exact hb f hf hkernel
      · cases List.mem_singleton.mp hf
        obtain ⟨⟨body, last⟩, -, hmade⟩ := bind_eq_ok.mp hfn
        have hkernel' : d.isKernel = true := by
          cases hmade
          exact hkernel
        exact Env.readsRest_checkBody hflat (hparams hkernel') hheader hfn

theorem readsRest_ofFile {file : Code.File} (huses : ∀ d ∈ file.funcs, Code.NoPointerCasts d.typeUses)
    (hparams : ∀ d ∈ file.funcs, d.isKernel = true → ∀ f ∈ d.params.tail, f.type.readOnly = true)
    (h : ofFile file = some b) : b.ReadsRest := by
  obtain ⟨b₁, hb₁, h⟩ := Option.bind_eq_some_iff.mp h
  obtain ⟨b₂, hb₂, h⟩ := Option.bind_eq_some_iff.mp h
  have h₀ : Wary {} ∧ ReadsRest {} := ⟨⟨⟨nofun, nofun⟩, nofun⟩, nofun⟩
  have h₁ : b₁.Wary ∧ b₁.ReadsRest :=
    keeps_foldlM (P := fun b => b.Wary ∧ b.ReadsRest)
      (fun _ hb h => ⟨hb.1.obey h, hb.2.learn h⟩) h₀ hb₁
  have h₂ : b₂.Wary ∧ b₂.ReadsRest :=
    keeps_foldlM (P := fun b => b.Wary ∧ b.ReadsRest)
      (fun _ hb h => ⟨hb.1.checkTypedef h, hb.2.learn h⟩) h₁ hb₂
  exact (keeps_foldlM (P := fun b => b.Wary ∧ b.ReadsRest)
    (fun hd hb h => ⟨hb.1.addFunc (huses _ hd) h, hb.2.addFunc hb.1.flat (hparams _ hd) h⟩) h₂ h).2

end Builder

/-! ### Arguments -/

/-- Memory `m` is passed for a parameter of type `t`. -/
def CheckedFn.Passes (fn : CheckedFn) (args : List KernelArg) (m : Nat) (t : Ty) : Prop :=
  ∃ name arg, ((name, t), arg) ∈ fn.params.zip args ∧ arg.memory? = some m

theorem CheckedFn.ReadsRest.isRead {fn : CheckedFn} (h : fn.ReadsRest) {args : List KernelArg} {out m : Nat}
    (hfirst : ∀ a ∈ args.head?, a.memory? = some out) (hm : m ≠ out) {t : Ty} (hpasses : fn.Passes args m t) :
    t.IsRead := by
  obtain ⟨name, arg, hmem, hmemory⟩ := hpasses
  unfold ReadsRest paramTypes at h
  cases hparams : fn.params with
  | nil =>
    rw [hparams] at hmem
    cases hmem
  | cons param params =>
    cases args with
    | nil =>
      rw [hparams] at hmem
      cases hmem
    | cons a args =>
      rw [hparams] at hmem h
      rcases List.mem_cons.mp hmem with heq | hmem
      · cases heq
        rw [hfirst arg rfl] at hmemory
        cases hmemory
        exact absurd rfl hm
      · exact h t (List.mem_map.mpr ⟨(name, t), (List.of_mem_zip hmem).1, rfl⟩)

namespace Program

theorem respects_readArg {kernel param : String} {index m : Nat} {t : Ty} {arg : KernelArg}
    {v : Value} (h : readArg kernel index param t arg = .ok v)
    (hm : arg.memory? = some m → ∀ elem space readOnly, t = .pointer elem space readOnly →
      readOnly = true ∨ space = .constant) : v.Respects m t.isSealed := by
  unfold readArg at h
  split at h
  · rename_i elem space readOnly
    split at h
    · rename_i n hn
      cases h
      intro hopen hsame
      rcases hm (hn.trans hsame) elem space readOnly rfl with rfl | rfl
      · cases hopen
      · simp [Ty.isSealed] at hopen
    · cases h
  · split at h
    · cases h
    · split at h
      · rename_i hdecode
        cases h
        exact (Value.avoids_decodeAt hdecode).respects _
      · cases h

theorem respectAll_readArgsFrom {kernel : String} {index m : Nat} {params : List (String × Ty)}
    {args : List KernelArg} {vs : List Value} (h : readArgsFrom kernel index params args = .ok vs)
    (hm : ∀ q ∈ params.zip args, q.2.memory? = some m → ∀ elem space readOnly,
      q.1.2 = .pointer elem space readOnly → readOnly = true ∨ space = .constant) :
    Value.RespectAll m (params.map Prod.snd) vs := by
  fun_induction readArgsFrom kernel index params args generalizing vs with
  | case1 index param t params arg args ih =>
    obtain ⟨v, hv, h⟩ := bind_eq_ok.mp h
    obtain ⟨ws, hws, h⟩ := bind_eq_ok.mp h
    cases h
    have hfirst := respects_readArg hv (hm ((param, t), arg) (by simp))
    exact .cons hfirst (ih hws fun q hq => hm q (by simp [hq]))
  | case2 =>
    cases h
    exact .nil

/-- **Read-only memory is never written.**  Take a program that has been built from a source
without casts to pointer types, and run a kernel of it over any range.  A memory that is passed
only for pointers that are read-only or in constant memory is the same afterwards, however the
run ends: with any number of workers, whichever of them goes at each turn, and also when some
items fail and the workers that are left go on. -/
theorem read_only_memory_kept {source : SourceText} {file : Code.File} {p : Program}
    (hfile : Code.File.ofStream (TokenStream.ofText fileName source) = .ok file)
    (huses : ∀ d ∈ file.funcs, Code.NoPointerCasts d.typeUses) (hbuild : build source = .built p)
    {k : CheckedFn} (hk : k ∈ p.kernels) {args : List KernelArg} {m : Nat}
    (hm : ∀ elem space readOnly, k.Passes args m (.pointer elem space readOnly) →
      readOnly = true ∨ space = .constant) (offset extent : Int) (st : Store) :
    (p.run k args offset extent st).2[m]? = st[m]? ∧
      (∀ rounds, (p.runWithin rounds k args offset extent st).2[m]? = st[m]?) ∧
      ∀ crew rounds, (p.runBy crew rounds k args offset extent st).2[m]? = st[m]? := by
  have hwary := wary_of_build hfile huses hbuild
  have hrespect : ∀ vs, readArgs k args = .ok vs → Value.RespectAll m k.paramTypes vs := by
    intro vs hvs
    unfold readArgs at hvs
    split at hvs
    · cases hvs
    · refine respectAll_readArgsFrom hvs fun q hq hmem elem space readOnly ht => ?_
      obtain ⟨⟨name, t⟩, arg⟩ := q
      cases ht
      exact hm elem space readOnly ⟨name, arg, hq, hmem⟩
  have hby : ∀ crew rounds, (p.runBy crew rounds k args offset extent st).2[m]? = st[m]? := by
    intro crew rounds
    refine keeps_runBy (I := fun st' => st'[m]? = st[m]?) (fun vs hvs item st' hst' => ?_) rfl
    exact (hwary.spares_runItem (List.mem_filter.mp hk).1 rounds (hrespect vs hvs) item st').1.trans hst'
  have hwithin : ∀ rounds, (p.runWithin rounds k args offset extent st).2[m]? = st[m]? := by
    intro rounds
    have hone := hby {} rounds
    rwa [runBy_alone (.inl rfl)] at hone
  exact ⟨hwithin loopBudget, hwithin, hby⟩

/-! ### A kernel that reads one memory and writes another -/

section Copy

open Token (spaced scans_spaced)
open Code.Scope

/-- The tokens of a kernel that copies a number out of memory that it must not write. -/
def copyTokens : List Token :=
  [.name "__kernel", .name "void", .name "copy", .op .lparen, .name "__global", .keyword .const,
    .name "int", .op .mul, .name "a", .op .comma, .name "__global", .name "int", .op .mul,
    .name "b", .op .rparen, .op .lbrace, .name "b", .op .lbrack, .int "0", .op .rbrack, .op .assign,
    .name "a", .op .lbrack, .int "0", .op .rbrack, .op .semicolon, .op .rbrace]

def copySource : SourceText := SourceText.ofChars (spaced copyTokens)

/-- The first element of what a pointer variable points to. -/
def copyPlace (slot : Nat) : Place :=
  .deref (.scalar .int) (.var slot) (.cast .long (.const .int32 (.atom (BitVec.ofInt 32 0))))

/-- The kernel as it is checked. -/
def copyFn : CheckedFn where
  name := "copy"
  isKernel := true
  result := .void
  params := [("a", .pointer (.scalar .int) .global true), ("b", .pointer (.scalar .int) .global false)]
  slots := 2
  body := .seq (.assign (copyPlace 1) (.load (copyPlace 0))) .skip

def copyProgram : Program where
  source := copySource
  fp64 := false
  funcs := [copyFn]

/-- How the source is read, with what stands at some offsets. -/
def copyFile (o : Nat → Nat) : Code.File where
  funcs :=
    [{ isKernel := true
       result := { offset := o 1, name := "void" }
       name := ⟨o 2, "copy"⟩
       params :=
         [⟨{ offset := o 4, name := "int", space := .global, readOnly := true, pointer := true }, ⟨o 8, "a"⟩⟩,
          ⟨{ offset := o 10, name := "int", space := .global, pointer := true }, ⟨o 13, "b"⟩⟩]
       brace := o 15
       body := [.simple (.assign (.index (.ident ⟨o 16, "b"⟩) (o 17) (.number (o 18) .int "0")) (o 20) .assign
         (.index (.ident ⟨o 21, "a"⟩) (o 22) (.number (o 23) .int "0")))] }]

theorem build_copy :
    (∃ file, Code.File.ofStream (TokenStream.ofText fileName copySource) = .ok file ∧
      ∀ d ∈ file.funcs, Code.NoPointerCasts d.typeUses) ∧ build copySource = .built copyProgram := by
  obtain ⟨o, finish, map, hstream⟩ := exists_stream (@scans_spaced copyTokens (by decide)) fileName
  have hparse : Code.File.ofStream (TokenStream.ofText fileName copySource) = .ok (copyFile o) := by
    rw [copySource, hstream]
    with_unfolding_all rfl
  refine ⟨⟨copyFile o, hparse, fun d hd => ?_⟩, ?_⟩
  · cases List.mem_singleton.mp hd
    exact fun _ => nofun
  · unfold build
    simp only [hparse]
    rfl

/-- Memory 0 is passed for the read-only pointer only, so a copy by five items leaves it as it was. -/
theorem copy_keeps_source :
    (∃ file, Code.File.ofStream (TokenStream.ofText fileName copySource) = .ok file ∧
      ∀ d ∈ file.funcs, Code.NoPointerCasts d.typeUses) ∧
    build copySource = .built copyProgram ∧ copyFn ∈ copyProgram.kernels ∧
    (∀ elem space readOnly, copyFn.Passes [{ memory? := some 0 }, { memory? := some 1 }] 0
      (.pointer elem space readOnly) → readOnly = true ∨ space = .constant) ∧
    ∀ (crew : Crew) (st : Store), (copyProgram.runBy crew loopBudget copyFn
      [{ memory? := some 0 }, { memory? := some 1 }] 0 5 st).2[0]? = st[0]? := by
  obtain ⟨⟨file, hfile, huses⟩, hbuild⟩ := build_copy
  have hk : copyFn ∈ copyProgram.kernels := List.mem_singleton.mpr rfl
  have hm : ∀ elem space readOnly, copyFn.Passes [{ memory? := some 0 }, { memory? := some 1 }] 0
      (.pointer elem space readOnly) → readOnly = true ∨ space = .constant := by
    rintro elem space readOnly ⟨name, arg, hmem, harg⟩
    simp only [copyFn, List.zip_cons_cons, List.zip_nil_right, List.mem_cons, List.not_mem_nil,
      or_false] at hmem
    rcases hmem with h | h
    · cases h
      exact Or.inl rfl
    · cases h
      cases harg
  exact ⟨⟨file, hfile, huses⟩, hbuild, hk, hm,
    fun crew st => (read_only_memory_kept hfile huses hbuild hk hm 0 5 st).2.2 crew loopBudget⟩

end Copy

end Program
end KernelForge
