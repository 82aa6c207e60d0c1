/-
Programs that have been built keep types.

A function is checked in an environment that knows the functions before it and itself.  What is
proved of it is for any signatures that these functions have, so it stays true when more
functions become known.  The invariant of the builder holds as long as the log is empty: then
each function that is known has been checked and stands in the program under its name.
-/
import KernelForge.Proofs.Basic
import KernelForge.Proofs.Program.CheckedStmts

namespace KernelForge

/-! ### Parameters -/

theorem Scope.with_length (ts : List Ty) (t : Ty) :
    Scope.with (fun slot => ts[slot]?) ts.length t = fun slot => (ts ++ [t])[slot]? := by
  funext slot
  unfold Scope.with
  split
  · rename_i hslot
    rw [hslot, List.getElem?_append_right (Nat.le_refl _), Nat.sub_self]
    rfl
  · rename_i hslot
    rcases Nat.lt_or_ge slot ts.length with hlt | hge
    · exact (List.getElem?_append_left hlt).symm
    · have hlen : (ts ++ [t]).length ≤ slot := by
        rw [List.length_append, List.length_singleton]
        omega
      exact (List.getElem?_eq_none hge).trans (List.getElem?_eq_none hlen).symm

namespace Env

variable {sigs : Signatures} {result : Ty} {env env' : Env}

theorem checkParams_cons {isKernel : Bool} {f : Code.Field} {fs : List Code.Field}
    {ts : List NamedTy} (h : env.checkParams isKernel (f :: fs) = .ok (ts, env')) :
    ∃ t slot mid us, env.resolve f.type = .ok t ∧ t.ty ≠ .void ∧
      env.declare f.name t (f.type.readOnly && !f.type.pointer) = .ok (slot, mid) ∧
      mid.checkParams isKernel fs = .ok (us, env') ∧ ts = t :: us := by
  obtain ⟨t, hty, h⟩ := bind_eq_ok.mp h
  split at h
  · cases h
  · rename_i hvoid
    have hrest : (do
        let declared ← env.declare f.name t (f.type.readOnly && !f.type.pointer)
        let checked ← declared.2.checkParams isKernel fs
        return (t :: checked.1, checked.2)) = Except.ok (ts, env') := by
      cases isKernel with
      | false => exact h
      | true =>
        obtain ⟨u, -, h⟩ := bind_eq_ok.mp h
        exact h
    obtain ⟨⟨slot, mid⟩, hd, hrest⟩ := bind_eq_ok.mp hrest
    obtain ⟨⟨us, last⟩, hus, hrest⟩ := bind_eq_ok.mp hrest
    cases hrest
    exact ⟨t, slot, mid, us, hty, hvoid, hd, hus, rfl⟩

/-- The parameters of a function take the first slots, in their order. -/
theorem tracks_checkParams {isKernel : Bool} {fs : List Code.Field} {ts : List NamedTy}
    {before : List Ty} (ht : env.Tracks sigs result fun slot => before[slot]?)
    (hslots : env.slots = before.length) (h : env.checkParams isKernel fs = .ok (ts, env')) :
    env'.Tracks sigs result (fun slot => (before ++ ts.map (·.ty))[slot]?) ∧
      env'.slots = before.length + ts.length ∧ (∀ t ∈ ts, t.Named) := by
  induction fs generalizing env ts before with
  | nil =>
    cases h
    simpa using ⟨ht, hslots⟩
  | cons f fs ih =>
    obtain ⟨t, slot, mid, us, hty, -, hd, hus, rfl⟩ := checkParams_cons h
    have hnamed := named_resolve ht.agrees.structs hty
    obtain ⟨hslot, hmid, ht'⟩ := ht.declare hnamed hd
    rw [hslot, hslots, Scope.with_length] at ht'
    have hmid' : mid.slots = (before ++ [t.ty]).length := by
      rw [List.length_append, List.length_singleton, hmid, hslots]
    obtain ⟨htracks, hcount, hall⟩ := ih ht' hmid' hus
    rw [List.append_assoc] at htracks
    refine ⟨htracks, ?_, ?_⟩
    · rw [hcount, List.length_append, List.length_singleton, List.length_cons]
      omega
    · intro u hu
      rcases List.mem_cons.mp hu with rfl | hu
      · exact hnamed
      · exact hall u hu

theorem valued_checkParams {isKernel : Bool} {fs : List Code.Field} {ts : List NamedTy}
    (h : env.checkParams isKernel fs = .ok (ts, env')) :
    ts.length = fs.length ∧ ∀ t ∈ ts, t.ty ≠ .void := by
  induction fs generalizing env ts with
  | nil =>
    cases h
    simp
  | cons f fs ih =>
    obtain ⟨t, slot, mid, us, -, hvoid, -, hus, rfl⟩ := checkParams_cons h
    obtain ⟨hlen, hall⟩ := ih hus
    refine ⟨by rw [List.length_cons, List.length_cons, hlen], fun u hu => ?_⟩
    rcases List.mem_cons.mp hu with rfl | hu
    · exact hvoid
    · exact hall u hu

end Env

/-! ### Functions -/

/-- The functions that an environment knows have these signatures. -/
def Env.Known (sigs : Signatures) (env : Env) : Prop :=
  ∀ name h, env.funcs.lookup name = some h → sigs name = some (h.params.map (·.ty), h.result.ty)

/-- The signatures of the functions that an environment knows. -/
def Env.own (env : Env) : Signatures := fun name =>
  (env.funcs.lookup name).map fun h => (h.params.map (·.ty), h.result.ty)

theorem Env.known_own (env : Env) : env.Known env.own := by
  intro name h hlookup
  rw [Env.own, hlookup]
  rfl

/-- What the environment knows of functions and structures is well formed. -/
structure Env.Formed (env : Env) : Prop where
  structs : ∀ name t, env.structs.lookup name = some t → t.Named
  funcs : ∀ name h, env.funcs.lookup name = some h → h.result.Named ∧ ∀ t ∈ h.params, t.Named

namespace Env

variable {env inner : Env} {d : Code.Func} {params : List NamedTy}

/-- The environment in which the parameters of a function are checked. -/
def atHeader (env : Env) (name : String) (result : NamedTy) : Env :=
  { env with scopes := [[]], slots := 0, fn := name, result }

theorem checkHeader_ok (h : env.checkHeader d = .ok (params, inner)) :
    env.funcs.lookup d.name.name = none ∧ ∃ result mid, env.resolve d.result = .ok result ∧
      (env.atHeader d.name.name result).checkParams d.isKernel d.params = .ok (params, mid) ∧
      inner = { mid with funcs := (d.name.name, ⟨d.isKernel, result, params⟩) :: env.funcs } := by
  unfold checkHeader at h
  simp only at h
  split at h
  · cases h
  · rename_i hnew
    split at h
    · cases h
    · obtain ⟨result, hresult, h⟩ := bind_eq_ok.mp h
      split at h
      · cases h
      · obtain ⟨⟨ts, mid⟩, hparams, h⟩ := bind_eq_ok.mp h
        cases h
        exact ⟨Option.not_isSome_iff_eq_none.mp hnew, result, mid, hresult, hparams, rfl⟩

/-- Nothing is in scope before the parameters. -/
theorem tracks_atHeader {sigs : Signatures} (hformed : env.Formed) (hknown : env.Known sigs)
    (name : String) {result : NamedTy} (hresult : result.Named) :
    (env.atHeader name result).Tracks sigs result.ty fun slot => ([] : List Ty)[slot]? := by
  refine ⟨⟨hformed.structs, fun id v hv => ?_, fun id h hlookup => ?_⟩, nofun, rfl, hresult⟩
  · simp [find?, atHeader, List.findSome?_cons] at hv
  · exact ⟨hknown id h hlookup, hformed.funcs id h hlookup⟩

/-- A function that is checked is known, and those before it stay known. -/
theorem lookup_header {name : String} {header : Header} (hnew : env.funcs.lookup name = none)
    {name' : String} {h : Header} (hlookup : env.funcs.lookup name' = some h) :
    ((name, header) :: env.funcs).lookup name' = some h := by
  have hne : (name' == name) = false := by
    rw [beq_eq_false_iff_ne]
    rintro rfl
    rw [hnew] at hlookup
    cases hlookup
  rw [List.lookup_cons, hne]
  exact hlookup

/-- What a header leaves for the body: the parameters are in scope. -/
theorem tracks_checkHeader {sigs : Signatures} (hformed : env.Formed)
    (h : env.checkHeader d = .ok (params, inner)) (hinner : inner.Known sigs) :
    inner.Formed ∧ inner.slots = params.length ∧
      inner.Tracks sigs inner.result.ty (fun slot => (params.map (·.ty))[slot]?) ∧
      ∃ header : Header, inner.funcs = (d.name.name, header) :: env.funcs ∧
        header.params = params ∧ header.result.ty = inner.result.ty := by
  obtain ⟨hnew, result, mid, hresult, hparams, rfl⟩ := checkHeader_ok h
  have hnamed := named_resolve hformed.structs hresult
  have hknown : env.Known sigs := fun name hd hlookup => hinner name hd (lookup_header hnew hlookup)
  obtain ⟨htracks, hslots, hall⟩ :=
    tracks_checkParams (tracks_atHeader hformed hknown d.name.name hnamed) rfl hparams
  have hfuncs : ∀ name hd, ((d.name.name, ⟨d.isKernel, result, params⟩) :: env.funcs).lookup name =
      some hd → hd.result.Named ∧ ∀ t ∈ hd.params, t.Named := by
    intro name hd hlookup
    rw [List.lookup_cons] at hlookup
    split at hlookup
    · cases hlookup
      exact ⟨hnamed, hall⟩
    · exact hformed.funcs name hd hlookup
  rw [List.nil_append] at htracks
  refine ⟨⟨htracks.agrees.structs, hfuncs⟩, by simpa using hslots, ?_⟩
  have hagrees : ∀ name hd, _ → _ ∧ _ := fun name hd hlookup =>
    ⟨hinner name hd hlookup, hfuncs name hd hlookup⟩
  exact ⟨⟨⟨htracks.agrees.structs, htracks.agrees.vars, hagrees⟩, htracks.bound, rfl,
    htracks.resultNamed⟩, _, rfl, rfl, htracks.resultTy.symm⟩

theorem checkBody_ok (hlen : params.length = d.params.length) {fn : CheckedFn}
    (h : env.checkBody d params = .ok fn) :
    fn.name = d.name.name ∧ fn.paramTypes = params.map (·.ty) ∧ fn.result = env.result.ty ∧
      ∃ last, env.openScope.checkStmts d.body = .ok (fn.body, last) ∧ fn.slots = last.slots := by
  obtain ⟨⟨body, last⟩, hstmts, h⟩ := bind_eq_ok.mp h
  cases h
  refine ⟨rfl, ?_, rfl, last, hstmts, rfl⟩
  simp only [CheckedFn.paramTypes, List.map_map]
  rw [show (Prod.snd ∘ fun p : Code.Field × NamedTy => (p.1.name.name, p.2.ty)) =
    (·.ty) ∘ Prod.snd from rfl, ← List.map_map, List.map_snd_zip (by omega)]

theorem declared_checkBody (hslots : env.slots = params.length)
    (hlen : params.length = d.params.length) {fn : CheckedFn}
    (hbody : env.checkBody d params = .ok fn) :
    Fresh env.slots fn.slots fn.body.declared ∧
      ∀ e ∈ fn.body.declared, fn.declared e.1 = some e.2 := by
  obtain ⟨-, htypes, -, last, hstmts, hroom⟩ := checkBody_ok hlen hbody
  have hsize : fn.paramTypes.length = env.slots := by rw [htypes, List.length_map, hslots]
  have hfresh : Fresh env.slots fn.slots fn.body.declared := hroom ▸ (steps_checkStmts hstmts).fresh
  refine ⟨hfresh, fun e he => ?_⟩
  have hwithin := hfresh.within e he
  rw [CheckedFn.declared, List.getElem?_eq_none (by omega)]
  exact lookup_of_mem hfresh.nodup he

/-- **A function that has been checked keeps types**, and none of its variables is void. -/
theorem typed_checkBody {sigs : Signatures} (hformed : env.Formed)
    (h : env.checkHeader d = .ok (params, inner)) (hinner : inner.Known sigs) {fn : CheckedFn}
    (hbody : inner.checkBody d params = .ok fn) :
    fn.Typed sigs ∧ (∀ slot t, fn.declared slot = some t → t ≠ .void) := by
  obtain ⟨-, hslots, htracks, -⟩ := tracks_checkHeader hformed h hinner
  obtain ⟨-, result, mid, -, hparams, -⟩ := checkHeader_ok h
  obtain ⟨hlen, hvoid⟩ := valued_checkParams hparams
  obtain ⟨-, htypes, hresult, last, hstmts, -⟩ := checkBody_ok hlen hbody
  have hsteps := steps_checkStmts hstmts
  have hsize : fn.paramTypes.length = inner.slots := by rw [htypes, List.length_map, hslots]
  obtain ⟨hfresh, hdeclared⟩ := declared_checkBody hslots hlen hbody
  refine ⟨⟨?_, fun slot t hslot => ?_⟩, fun slot t hslot => ?_⟩
  · obtain ⟨after, htyped, -⟩ := hsteps.typed htracks.openScope hdeclared
    refine ⟨after, ?_⟩
    rw [hresult, show fn.paramScope = fun slot => (params.map (·.ty))[slot]? from by
      unfold CheckedFn.paramScope; rw [htypes]]
    exact htyped
  · unfold CheckedFn.declared at hslot
    split at hslot
    · rename_i u hu
      have hlt := (List.getElem?_eq_some_iff.mp hu).1
      have hle := hfresh.le
      omega
    · exact (hfresh.within _ (mem_of_lookup hslot)).2
  · unfold CheckedFn.declared at hslot
    split at hslot
    · rename_i u hu
      cases hslot
      rw [htypes, List.getElem?_map] at hu
      obtain ⟨q, hq, rfl⟩ := Option.map_eq_some_iff.mp hu
      exact hvoid q (List.mem_of_getElem? hq)
    · exact hfresh.valued _ (mem_of_lookup hslot)

end Env

/-! ### The builder -/

/-- Every variable of a function has a type that has values. -/
def CheckedFn.Valued (fn : CheckedFn) : Prop := ∀ slot t, fn.declared slot = some t → t ≠ .void

/-- The functions that are known have been checked, and they keep types. -/
structure Builder.Sound (b : Builder) : Prop where
  formed : b.env.Formed
  listed : ∀ name h, b.env.funcs.lookup name = some h →
    ∃ fn, (b.funcs.find? fun f => f.name = name) = some fn ∧ fn.paramTypes = h.params.map (·.ty) ∧
      fn.result = h.result.ty
  known : ∀ fn ∈ b.funcs, ∃ h, b.env.funcs.lookup fn.name = some h
  typed : ∀ fn ∈ b.funcs, ∀ sigs, b.env.Known sigs → fn.Typed sigs ∧ fn.Valued

namespace Builder

variable {b b' : Builder}

theorem log_object {o : Objection} (h : b.object o = some b') : b'.log ≠ [] := by
  cases o with
  | complaint offset e =>
    cases h
    simp
  | collapse => cases h

/-- The empty builder knows nothing. -/
theorem sound_empty : Sound {} :=
  ⟨⟨nofun, nofun⟩, nofun, nofun, nofun⟩

/-- The invariant of the builder: as long as there is no objection, all is well. -/
def Invariant (b : Builder) : Prop := b.log = [] → b.Sound

/-- Structures may be added to what is known. -/
theorem Sound.with_env (h : b.Sound) {env : Env} (hfuncs : env.funcs = b.env.funcs)
    (hstructs : ∀ name t, env.structs.lookup name = some t → t.Named) :
    Sound { b with env } := by
  refine ⟨⟨hstructs, ?_⟩, ?_, ?_, ?_⟩
  · rw [hfuncs]
    exact h.formed.funcs
  · rw [hfuncs]
    exact h.listed
  · rw [hfuncs]
    exact h.known
  · unfold Env.Known
    rw [hfuncs]
    exact h.typed

theorem Invariant.learn (hb : b.Invariant) {r : Check Env} (h : b.learn r = some b')
    (hr : ∀ env, r = .ok env → b.Sound → env.funcs = b.env.funcs ∧
      ∀ name t, env.structs.lookup name = some t → t.Named) : b'.Invariant := by
  intro hlog
  cases r with
  | error o => exact absurd hlog (log_object h)
  | ok env =>
    cases h
    have hsound := hb hlog
    obtain ⟨hfuncs, hstructs⟩ := hr env rfl hsound
    exact hsound.with_env hfuncs hstructs

theorem obey_same {env env' : Env} {p : Pragma} (h : env.obey p = .ok env') :
    env'.structs = env.structs ∧ env'.funcs = env.funcs := by
  unfold Env.obey at h
  split at h
  · split at h
    · simp only at h
      split at h
      · cases h
        split <;> exact ⟨rfl, rfl⟩
      · cases h
        split <;> exact ⟨rfl, rfl⟩
      · cases h
    · cases h
      exact ⟨rfl, rfl⟩
  · cases h
    exact ⟨rfl, rfl⟩

theorem Invariant.obey (hb : b.Invariant) {p : Pragma} (h : b.learn (b.env.obey p) = some b') :
    b'.Invariant := by
  refine hb.learn h fun env hobey hsound => ?_
  obtain ⟨hstructs, hfuncs⟩ := obey_same hobey
  refine ⟨hfuncs, ?_⟩
  rw [hstructs]
  exact hsound.formed.structs

theorem named_checkMembers {env : Env}
    (hstructs : ∀ name t, env.structs.lookup name = some t → t.Named) {seen : List String}
    {fs : List Code.Field} {names : List String} {ts : List NamedTy}
    (h : env.checkMembers seen fs = .ok (names, ts)) :
    names.length = ts.length ∧ NamedTy.AllNamed ts := by
  induction fs generalizing seen names ts with
  | nil =>
    cases h
    exact ⟨rfl, trivial⟩
  | cons f fs ih =>
    obtain ⟨t, ht, h⟩ := bind_eq_ok.mp h
    split at h
    · cases h
    · split at h
      · cases h
      · obtain ⟨⟨names', ts'⟩, hrest, h⟩ := bind_eq_ok.mp h
        cases h
        obtain ⟨hlen, hall⟩ := ih hrest
        exact ⟨by rw [List.length_cons, List.length_cons, hlen], Env.named_resolve hstructs ht, hall⟩

theorem Invariant.checkTypedef (hb : b.Invariant) {d : Code.Typedef}
    (h : b.learn (b.env.checkTypedef d) = some b') : b'.Invariant := by
  refine hb.learn h fun env hdef hsound => ?_
  obtain ⟨⟨names, fields⟩, hmembers, hdef⟩ := bind_eq_ok.mp hdef
  simp only at hdef
  split at hdef
  · cases hdef
  · cases hdef
    refine ⟨rfl, fun name t hlookup => ?_⟩
    rw [List.lookup_cons] at hlookup
    split at hlookup
    · cases hlookup
      exact named_checkMembers hsound.formed.structs hmembers
    · exact hsound.formed.structs name t hlookup

theorem Invariant.addFunc (hb : b.Invariant) {d : Code.Func} (h : b.addFunc d = some b') :
    b'.Invariant := by
  intro hlog
  unfold Builder.addFunc at h
  split at h
  · exact absurd hlog (log_object h)
  · rename_i params inner hheader
    simp only at h
    split at h
    · exact absurd hlog (log_object h)
    · rename_i fn hfn
      cases h
      have hsound := hb hlog
      obtain ⟨hnew, result, mid, hresult, hparams, -⟩ := Env.checkHeader_ok hheader
      obtain ⟨hname, htypes, hfnresult, -⟩ :=
        Env.checkBody_ok (Env.valued_checkParams hparams).1 hfn
      obtain ⟨hformed, -, -, header, hfuncs, hheaderParams, hheaderResult⟩ :=
        Env.tracks_checkHeader hsound.formed hheader inner.known_own
      have hown : inner.funcs.lookup d.name.name = some header := by
        rw [hfuncs]
        exact List.lookup_cons_self
      have hold : ∀ {name hd}, b.env.funcs.lookup name = some hd →
          inner.funcs.lookup name = some hd := by
        intro name hd hlookup
        rw [hfuncs]
        exact Env.lookup_header hnew hlookup
      refine ⟨⟨hsound.formed.structs, hformed.funcs⟩, fun name hd hlookup => ?_, fun f hf => ?_,
        fun f hf sigs hknown => ?_⟩
      · show ∃ f, (b.funcs ++ [fn]).find? _ = some f ∧ _
        replace hlookup : inner.funcs.lookup name = some hd := hlookup
        rw [List.find?_append]
        by_cases hsame : name = d.name.name
        · -- The new function is the first of its name.
          subst hsame
          rw [hown] at hlookup
          cases hlookup
          have hnone : (b.funcs.find? fun f => f.name = d.name.name) = none := by
            rw [List.find?_eq_none]
            intro f hf hfname
            obtain ⟨hd', hd''⟩ := hsound.known f hf
            rw [of_decide_eq_true hfname, hnew] at hd''
            cases hd''
          rw [hnone]
          refine ⟨fn, by simp [hname], ?_, ?_⟩
          · rw [htypes, hheaderParams]
          · rw [hfnresult, hheaderResult]
        · have hne : (name == d.name.name) = false := by rw [beq_eq_false_iff_ne]; exact hsame
          rw [hfuncs, List.lookup_cons, hne] at hlookup
          obtain ⟨f, hf, hrest⟩ := hsound.listed name hd hlookup
          exact ⟨f, by rw [hf]; rfl, hrest⟩
      · rcases List.mem_append.mp hf with hf | hf
        · obtain ⟨hd, hlookup⟩ := hsound.known f hf
          exact ⟨hd, hold hlookup⟩
        · cases List.mem_singleton.mp hf
          exact ⟨header, hname ▸ hown⟩
      · rcases List.mem_append.mp hf with hf | hf
        · exact hsound.typed f hf sigs fun name hd hlookup => hknown name hd (hold hlookup)
        · cases List.mem_singleton.mp hf
          exact Env.typed_checkBody hsound.formed hheader hknown hfn

/-- What every step of a run keeps, the run keeps. -/
theorem keeps_foldlM {α : Type} {P : Builder → Prop} {step : Builder → α → Option Builder}
    {xs : List α} (hstep : ∀ {b b' x}, x ∈ xs → P b → step b x = some b' → P b') (hb : P b)
    (h : xs.foldlM step b = some b') : P b' := by
  induction xs generalizing b with
  | nil =>
    cases h
    exact hb
  | cons x xs ih =>
    rw [List.foldlM_cons] at h
    obtain ⟨mid, hmid, h⟩ := Option.bind_eq_some_iff.mp h
    exact ih (fun hx => hstep (List.mem_cons_of_mem _ hx)) (hstep List.mem_cons_self hb hmid) h

theorem invariant_ofFile {file : Code.File} (h : ofFile file = some b) : b.Invariant := by
  obtain ⟨b₁, hb₁, h⟩ := Option.bind_eq_some_iff.mp h
  obtain ⟨b₂, hb₂, h⟩ := Option.bind_eq_some_iff.mp h
  have h₁ : b₁.Invariant := keeps_foldlM (fun _ hb h => hb.obey h) (fun _ => sound_empty) hb₁
  have h₂ : b₂.Invariant := keeps_foldlM (fun _ hb h => hb.checkTypedef h) h₁ hb₂
  exact keeps_foldlM (fun _ hb h => hb.addFunc h) h₂ h

end Builder

theorem Builder.Sound.known_signatures {b : Builder} (h : b.Sound) (source : SourceText) :
    b.env.Known (Program.signatures ⟨source, b.env.fp64, b.funcs⟩) := by
  intro name hd hlookup
  obtain ⟨fn, hfn, hparams, hresult⟩ := h.listed name hd hlookup
  rw [Program.signatures, Program.func?, hfn, ← hparams, ← hresult]
  rfl

namespace Program

/-- A program that has been built comes from a builder without objections. -/
theorem build_ok {source : SourceText} {p : Program} (h : build source = .built p) :
    ∃ file b, Code.File.ofStream (TokenStream.ofText fileName source) = .ok file ∧
      Builder.ofFile file = some b ∧ b.log = [] ∧ p = ⟨source, b.env.fp64, b.funcs⟩ := by
  unfold build at h
  simp only at h
  split at h
  · cases h
  · rename_i file hfile
    split at h
    · cases h
    · rename_i b hb
      split at h
      · rename_i hlog
        cases h
        exact ⟨file, b, hfile, hb, List.isEmpty_iff.mp hlog, rfl⟩
      · cases h

/-- **A program that has been built keeps types**, and none of its variables is void. -/
theorem typed_of_build {source : SourceText} {p : Program} (h : build source = .built p) :
    p.Typed ∧ ∀ fn ∈ p.funcs, fn.Valued := by
  obtain ⟨file, b, -, hb, hlog, rfl⟩ := build_ok h
  have hsound := Builder.invariant_ofFile hb hlog
  have hknown := hsound.known_signatures source
  exact ⟨fun fn hfn => (hsound.typed fn hfn _ hknown).1,
    fun fn hfn => (hsound.typed fn hfn _ hknown).2⟩

end Program
end KernelForge
