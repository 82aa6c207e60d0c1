/-
Building and running a source in which a variable is renamed.

The renamed source builds to the same code.  Only the names of the parameters can differ, and these
are told by errors about the arguments of a kernel and by nothing else.
-/
import KernelForge.Proofs.Program.Built
import KernelForge.Proofs.Program.Crews
import KernelForge.Proofs.Program.Occurrences

namespace KernelForge

open Check

namespace Renaming

variable {ρ : Renaming} {scopes scopes' : Scopes} {env env' : Env}

/-! ### Functions -/

/-- What a kernel may not take it may not take under another name. -/
theorem follows_kernelParam (f : Code.Field) (o : Nat) (id : Code.Ident) (t : NamedTy) :
    Follows Eq (Env.checkKernelParam f t) (Env.checkKernelParam ⟨{ f.type with offset := o }, id⟩ t) := by
  unfold Env.checkKernelParam
  split
  · exact follows_complain
  · exact follows_complain
  · exact follows_refl

theorem Params.follows {isKernel : Bool} {fs fs' : List Code.Field} (hfs : ρ.Params scopes fs fs' scopes')
    {env env' : Env} (h : Matches ρ scopes env env') : Follows (Together ρ scopes')
      (env.checkParams isKernel fs) (env'.checkParams isKernel fs') := by
  induction hfs generalizing env env' with
  | nil => exact h.follows_pure _
  | @cons scopes scopes' f o p fs fs' hfresh hfs ih =>
    rw [Env.checkParams, Env.checkParams]
    refine (h.follows_resolve _ _).step fun t => ?_
    split
    · exact follows_complain
    · have hrest : Follows (Together ρ scopes')
          (env.declare f.name t (f.type.readOnly && !f.type.pointer) >>= fun d =>
            d.2.checkParams isKernel fs >>= fun r => pure (t :: r.1, r.2))
          (env'.declare ⟨p, ρ.declared f.name⟩ t (f.type.readOnly && !f.type.pointer) >>= fun d =>
            d.2.checkParams isKernel fs' >>= fun r => pure (t :: r.1, r.2)) := by
        refine (h.follows_declare p hfresh t _).bind fun d d' hd => ?_
        refine (ih hd.2).bind fun r r' hr => ?_
        exact follows_ok ⟨by rw [hr.1], hr.2⟩
      cases isKernel with
      | false => exact hrest
      | true => exact (follows_kernelParam f o _ t).step fun _ => hrest

/-- A checked function and the renamed one: only what the parameters are called differs. -/
structure Fn (ρ : Renaming) (d : Code.Func) (k k' : CheckedFn) : Prop where
  name : k.name = d.name.name
  params : k.params.map Prod.fst = d.params.map (·.name.name)
  called : k'.params.map Prod.fst = d.params.map fun f => ρ.declared f.name
  types : k'.params.map Prod.snd = k.params.map Prod.snd
  code : k' = { k with params := k'.params }

theorem Func.follows_header {d d' : Code.Func} (hd : ρ.Func d d')
    (hparams : ρ.Params [[]] d.params d'.params scopes) (env : Env) :
    Follows (Together ρ scopes) (env.checkHeader d) (env.checkHeader d') := by
  unfold Env.checkHeader
  rw [hd.name, hd.isKernel]
  dsimp only
  split
  · exact follows_complain
  · split
    · exact follows_complain
    · refine (env.follows_resolve hd.result).step fun result => ?_
      split
      · exact follows_complain
      · refine (hparams.follows (.start { env with slots := 0, fn := d.name.name, result })).bind
          fun r r' hr => ?_
        exact follows_ok ⟨hr.1, by rw [hr.1]; exact hr.2.withFuncs _⟩

theorem Params.names_eq {fs fs' : List Code.Field} (h : ρ.Params scopes fs fs' scopes') :
    fs'.map (·.name.name) = fs.map fun f => ρ.declared f.name := by
  induction h with
  | nil => rfl
  | cons _ _ ih => rw [List.map_cons, List.map_cons, ih]

/-- The names of parameters, and their types. -/
theorem map_params (fs : List Code.Field) (ts : List NamedTy) (hlen : ts.length = fs.length) :
    (((fs.zip ts).map fun (f, t) => (f.name.name, t.ty)).map Prod.fst = fs.map (·.name.name)) ∧
      (((fs.zip ts).map fun (f, t) => (f.name.name, t.ty)).map Prod.snd = ts.map (·.ty)) := by
  have hfst : (fs.zip ts).map Prod.fst = fs := List.map_fst_zip (by omega)
  have hsnd : (fs.zip ts).map Prod.snd = ts := List.map_snd_zip (by omega)
  constructor
  · conv_rhs => rw [← hfst, List.map_map]
    exact List.map_map
  · conv_rhs => rw [← hsnd, List.map_map]
    exact List.map_map

theorem Func.follows_body {d d' : Code.Func} (hd : ρ.Func d d') {params : List NamedTy}
    {start : Scopes} (hparams : ρ.Params start d.params d'.params scopes)
    (hlen : params.length = d.params.length)
    (hbody : ρ.Stmts ([] :: scopes) d.body d'.body scopes') (h : Matches ρ scopes env env') :
    Follows (Fn ρ d) (env.checkBody d params) (env'.checkBody d' params) := by
  have hnames := hparams.names_eq
  have hlen' : params.length = d'.params.length := by
    simpa [hlen] using (congrArg List.length hnames).symm
  have hresult : env'.result = env.result := by
    obtain ⟨L, -, -, rfl⟩ := h.ledger
    rfl
  refine (hbody.follows h.openScope).bind fun r r' hr => ?_
  refine follows_ok ⟨rfl, (map_params _ _ hlen).1, (map_params _ _ hlen').1.trans hnames,
    (map_params _ _ hlen').2.trans (map_params _ _ hlen).2.symm, ?_⟩
  obtain ⟨L, -, -, heq⟩ := hr.2.ledger
  rw [hd.name, hd.isKernel, hresult, hr.1, heq]

/-- **A renamed function is checked to the same code.** -/
theorem Func.checked {d d' : Code.Func} (hd : ρ.Func d d') {params : List NamedTy} {inner : Env}
    {k : CheckedFn} (hheader : env.checkHeader d = .ok (params, inner))
    (hbody : inner.checkBody d params = .ok k) :
    ∃ inner' k', env.checkHeader d' = .ok (params, inner') ∧ inner'.funcs = inner.funcs ∧
      inner'.checkBody d' params = .ok k' ∧ Fn ρ d k k' := by
  obtain ⟨-, _, _, -, hchecked, -⟩ := Env.checkHeader_ok hheader
  have hlen := (Env.valued_checkParams hchecked).1
  obtain ⟨scopes, scopes', hparams, hstmts⟩ := hd.inner
  obtain ⟨⟨_, inner'⟩, hheader', rfl, hmatches⟩ := hd.follows_header hparams env _ hheader
  obtain ⟨k', hbody', hk⟩ := hd.follows_body hparams hlen hstmts hmatches k hbody
  have hfuncs : inner'.funcs = inner.funcs := by
    obtain ⟨L, -, -, heq⟩ := hmatches.ledger
    rw [show inner' = _ from heq]
  exact ⟨inner', k', hheader', hfuncs, hbody', hk⟩

/-! ### Whole sources -/

/-- Two builders that have got equally far without an objection. -/
structure Building (ρ : Renaming) (file : Code.File) (b c : Builder) : Prop where
  env : c.env = b.env
  log : c.log = []
  funcs : List.Forall₂ (fun k k' => ∃ d ∈ file.funcs, Fn ρ d k k') b.funcs c.funcs

variable {file file' : Code.File} {b b' c : Builder}

theorem log_learn {r : Check Env} (h : b.learn r = some b') (hlog : b'.log = []) :
    ∃ env, r = .ok env ∧ b' = { b with env } := by
  cases r with
  | error o => exact absurd hlog (Builder.log_object h)
  | ok env =>
    cases h
    exact ⟨env, rfl, rfl⟩

theorem Building.learn (h : Building ρ file b c) {r r' : Check Env} (hr : Follows Eq r r')
    (hlearn : b.learn r = some b') (hlog : b'.log = []) :
    ∃ c', c.learn r' = some c' ∧ Building ρ file b' c' := by
  obtain ⟨env, rfl, rfl⟩ := log_learn hlearn hlog
  obtain ⟨_, rfl, rfl⟩ := hr env rfl
  exact ⟨{ c with env }, rfl, rfl, h.log, h.funcs⟩

theorem Building.addFunc (h : Building ρ file b c) {d d' : Code.Func} (hmem : d ∈ file.funcs)
    (hd : ρ.Func d d') (hadd : b.addFunc d = some b') (hlog : b'.log = []) :
    ∃ c', c.addFunc d' = some c' ∧ Building ρ file b' c' := by
  unfold Builder.addFunc at hadd
  split at hadd
  · exact absurd hlog (Builder.log_object hadd)
  · rename_i params inner hheader
    simp only at hadd
    split at hadd
    · exact absurd hlog (Builder.log_object hadd)
    · rename_i k hbody
      cases hadd
      obtain ⟨inner', k', hheader', hfuncs, hbody', hk⟩ := hd.checked hheader hbody
      refine ⟨{ c with env := { c.env with funcs := inner'.funcs }, funcs := c.funcs ++ [k'] }, ?_, ?_⟩
      · unfold Builder.addFunc
        rw [h.env, hheader']
        dsimp only
        rw [hbody']
      · refine ⟨by rw [hfuncs, h.env], h.log, ?_⟩
        exact List.rel_append h.funcs (.cons ⟨d, hmem, hk⟩ .nil)

/-- Only the last log matters: an objection is never taken back. -/
theorem log_of_foldlM {α : Type} {step : Builder → α → Option Builder} {xs : List α}
    (h : xs.foldlM step b = some b') (hlog : b'.log = [])
    (hstep : ∀ b b' x, step b x = some b' → b'.log = [] → b.log = []) : b.log = [] := by
  by_contra hne
  exact Builder.keeps_foldlM (P := fun b => b.log ≠ [])
    (fun _ hb hb' hnil => hb (hstep _ _ _ hb' hnil)) hne h hlog

theorem log_of_learn {r : Check Env} (h : b.learn r = some b') (hlog : b'.log = []) : b.log = [] := by
  obtain ⟨env, -, rfl⟩ := log_learn h hlog
  exact hlog

theorem log_of_addFunc {d : Code.Func} (h : b.addFunc d = some b') (hlog : b'.log = []) : b.log = [] := by
  unfold Builder.addFunc at h
  split at h
  · exact absurd hlog (Builder.log_object h)
  · simp only at h
    split at h
    · exact absurd hlog (Builder.log_object h)
    · cases h
      exact hlog

/-- What single steps keep, whole runs keep. -/
theorem Building.foldlM {α β : Type} {R : α → β → Prop} {step : Builder → α → Option Builder}
    {step' : Builder → β → Option Builder} {xs : List α} {ys : List β} {b b' c : Builder}
    (h : Building ρ file b c) (hrun : xs.foldlM step b = some b') (hlog : b'.log = [])
    (hxs : List.Forall₂ R xs ys) (hlogs : ∀ b b' x, step b x = some b' → b'.log = [] → b.log = [])
    (hstep : ∀ b b' c x y, Building ρ file b c → R x y → step b x = some b' → b'.log = [] →
      ∃ c', step' c y = some c' ∧ Building ρ file b' c') :
    ∃ c', ys.foldlM step' c = some c' ∧ Building ρ file b' c' := by
  induction hxs generalizing b c with
  | nil =>
    cases hrun
    exact ⟨c, rfl, h⟩
  | cons hx hxs ih =>
    rw [List.foldlM_cons] at hrun
    obtain ⟨mid, hmid, hrun⟩ := Option.bind_eq_some_iff.mp hrun
    obtain ⟨mid', hmid', hbuilding⟩ := hstep _ _ _ _ _ h hx hmid (log_of_foldlM hrun hlog hlogs)
    obtain ⟨c', hc', h'⟩ := ih hbuilding hrun
    exact ⟨c', by rw [List.foldlM_cons, hmid']; exact hc', h'⟩

theorem follows_obey (env : Env) {p p' : Pragma} (h : p'.text = p.text) :
    Follows Eq (env.obey p) (env.obey p') := by
  unfold Env.obey
  rw [h]
  split
  · split
    · dsimp only
      split
      · exact follows_refl
      · exact follows_refl
      · exact follows_complain
    · exact follows_refl
  · exact follows_refl

theorem follows_members (env : Env) {fs fs' : List Code.Field}
    (h : fs'.map Code.Field.bare = fs.map Code.Field.bare) (seen : List String) :
    Follows Eq (env.checkMembers seen fs) (env.checkMembers seen fs') := by
  induction fs generalizing fs' seen with
  | nil =>
    obtain rfl := List.map_eq_nil_iff.mp h
    exact follows_refl
  | cons f fs ih =>
    obtain ⟨f', fs', rfl, hf, hfs⟩ := List.map_eq_cons_iff.mp h
    have htype : f'.type.bare = f.type.bare := congrArg Code.Field.type hf
    have hpointer : f'.type.bare.pointer = f.type.bare.pointer := congrArg _ htype
    have hname : f'.bare.name.name = f.bare.name.name :=
      congrArg (fun g : Code.Field => g.name.name) hf
    change f'.type.pointer = f.type.pointer at hpointer
    change f'.name.name = f.name.name at hname
    rw [Env.checkMembers, Env.checkMembers, hname, hpointer]
    refine (env.follows_resolve htype).step fun t => ?_
    split
    · exact follows_complain
    · split
      · exact follows_complain
      · exact (ih hfs _).step fun _ => follows_refl

theorem follows_typedef (env : Env) {d d' : Code.Typedef} (h : d'.bare = d.bare) :
    Follows Eq (env.checkTypedef d) (env.checkTypedef d') := by
  have hname : d'.bare.name.name = d.bare.name.name :=
    congrArg (fun g : Code.Typedef => g.name.name) h
  change d'.name.name = d.name.name at hname
  unfold Env.checkTypedef
  rw [hname]
  refine (follows_members env (congrArg Code.Typedef.fields h) []).step fun r => ?_
  dsimp only
  split
  · exact follows_complain
  · exact follows_refl

theorem Building.obey (h : Building ρ file b c) {p p' : Pragma} (htext : p'.text = p.text)
    (hobey : b.learn (b.env.obey p) = some b') (hlog : b'.log = []) :
    ∃ c', c.learn (c.env.obey p') = some c' ∧ Building ρ file b' c' := by
  rw [h.env]
  exact h.learn (follows_obey _ htext) hobey hlog

theorem Building.checkTypedef (h : Building ρ file b c) {d d' : Code.Typedef} (hbare : d'.bare = d.bare)
    (hcheck : b.learn (b.env.checkTypedef d) = some b') (hlog : b'.log = []) :
    ∃ c', c.learn (c.env.checkTypedef d') = some c' ∧ Building ρ file b' c' := by
  rw [h.env]
  exact h.learn (follows_typedef _ hbare) hcheck hlog

/-- **A renamed source is built**, function by function to the same code. -/
theorem File.builds (h : ρ.File file file') {b : Builder} (hb : Builder.ofFile file = some b)
    (hlog : b.log = []) : ∃ c, Builder.ofFile file' = some c ∧ Building ρ file b c := by
  obtain ⟨b₁, hb₁, hb⟩ := Option.bind_eq_some_iff.mp hb
  obtain ⟨b₂, hb₂, hb⟩ := Option.bind_eq_some_iff.mp hb
  have hlog₂ : b₂.log = [] := log_of_foldlM hb hlog fun _ _ _ => log_of_addFunc
  have hlog₁ : b₁.log = [] := log_of_foldlM hb₂ hlog₂ fun _ _ _ => log_of_learn
  have hstart : Building ρ file {} {} := ⟨rfl, rfl, .nil⟩
  obtain ⟨c₁, hc₁, h₁⟩ := hstart.foldlM hb₁ hlog₁ h.pragmas (fun _ _ _ => log_of_learn)
    fun _ _ _ _ _ hbc => hbc.obey
  obtain ⟨c₂, hc₂, h₂⟩ := h₁.foldlM hb₂ hlog₂ h.typedefs (fun _ _ _ => log_of_learn)
    fun _ _ _ _ _ hbc => hbc.checkTypedef
  obtain ⟨c, hc, h₃⟩ := h₂.foldlM hb hlog
    ((List.forall₂_and_left _ _).mpr ⟨fun d hd => hd, h.funcs⟩) (fun _ _ _ => log_of_addFunc)
    fun _ _ _ _ _ hbc hd => hbc.addFunc hd.1 hd.2
  refine ⟨c, ?_, h₃⟩
  rw [Builder.ofFile, hc₁, Option.bind_eq_bind, Option.bind_some, hc₂]
  exact hc

/-! ### Runs -/

/-- The functions of a program and the renamed ones. -/
abbrev Fns (ρ : Renaming) (file : Code.File) : List CheckedFn → List CheckedFn → Prop :=
  List.Forall₂ fun k k' => ∃ d ∈ file.funcs, Fn ρ d k k'

theorem Fns.find? {ks ks' : List CheckedFn} (h : Fns ρ file ks ks') {P : CheckedFn → Bool}
    (hP : ∀ k k', k'.name = k.name → k'.isKernel = k.isKernel → P k' = P k) :
    Option.Rel (fun k k' => ∃ d ∈ file.funcs, Fn ρ d k k') (ks.find? P) (ks'.find? P) := by
  induction h with
  | nil => exact .none
  | @cons k k' ks ks' hk hks ih =>
    have ⟨d, _, hd⟩ := hk
    have hsame : P k' = P k := hP k k' (by rw [hd.code]) (by rw [hd.code])
    rw [List.find?_cons, List.find?_cons, hsame]
    cases P k with
    | true => exact .some hk
    | false => exact ih

variable {p p' : Program}

theorem Fn.frame_eq {d : Code.Func} {k k' : CheckedFn} (h : Fn ρ d k k') : k'.frame = k.frame := by
  rw [h.code]
  rfl

theorem Fn.result?_eq {d : Code.Func} {k k' : CheckedFn} (h : Fn ρ d k k') : k'.result? = k.result? := by
  rw [h.code]
  rfl

theorem Fn.body_eq {d : Code.Func} {k k' : CheckedFn} (h : Fn ρ d k k') : k'.body = k.body := by
  rw [h.code]

/-- **Calls do the same.** -/
theorem call_eq (h : Fns ρ file p.funcs p'.funcs) (item : WorkItem) (rounds depth : Nat) :
    p'.call item rounds depth = p.call item rounds depth := by
  induction depth with
  | zero => rfl
  | succ depth ih =>
    funext name args
    have hfind := h.find? (P := fun f => f.name = name) fun k k' hname _ => by rw [hname]
    rw [Program.call, Program.call, Program.func?, Program.func?, ih]
    generalize p.funcs.find? (fun f => f.name = name) = k? at hfind ⊢
    generalize p'.funcs.find? (fun f => f.name = name) = k'? at hfind ⊢
    cases hfind with
    | none => rfl
    | some hk =>
      obtain ⟨d, -, hd⟩ := hk
      dsimp only
      rw [hd.body_eq, hd.frame_eq, hd.result?_eq]

end Renaming

/-! ### What errors call a parameter -/

/-- The error, when the parameters of the kernel have some names. -/
def RunError.called (names : List String) : RunError → RunError
  | noBuffer kernel index param => noBuffer kernel index (names.getD index param)
  | argSize kernel index param type got want =>
    argSize kernel index (names.getD index param) type got want
  | argValue kernel index param cause => argValue kernel index (names.getD index param) cause
  | e => e

namespace Renaming

variable {p p' : Program} {file : Code.File} {ρ : Renaming}

theorem readArg_called (kernel : String) (names : List String) (index : Nat) {param param' : String}
    (hname : names[index]? = some param') (t : Ty) (arg : KernelArg) :
    Program.readArg kernel index param' t arg =
      (Program.readArg kernel index param t arg).mapError (RunError.called names) := by
  have hparam : names.getD index param = param' := by
    rw [List.getD_eq_getElem?_getD, hname]
    rfl
  unfold Program.readArg
  split
  · split
    · rfl
    · rw [Except.mapError, RunError.called, hparam]
  · split
    · rw [Except.mapError, RunError.called, hparam]
    · split
      · rfl
      · rw [Except.mapError, RunError.called, hparam]

theorem readArgs_called (kernel : String) (names : List String) {params params' : List (String × Ty)}
    (htypes : params'.map Prod.snd = params.map Prod.snd) (args : List KernelArg) (index : Nat)
    (hnames : names.drop index = params'.map Prod.fst) :
    Program.readArgsFrom kernel index params' args =
      (Program.readArgsFrom kernel index params args).mapError (RunError.called names) := by
  induction params generalizing params' args index with
  | nil =>
    obtain rfl := List.map_eq_nil_iff.mp htypes
    rfl
  | cons q params ih =>
    obtain ⟨⟨param', t⟩, params', rfl, rfl, hrest⟩ := List.map_eq_cons_iff.mp htypes
    cases args with
    | nil => rfl
    | cons arg args =>
      have hname : names[index]? = some param' := by
        rw [← List.head?_drop, hnames]
        rfl
      have htail : names.drop (index + 1) = params'.map Prod.fst := by
        rw [← List.tail_drop, hnames]
        rfl
      rw [Program.readArgsFrom, Program.readArgsFrom, readArg_called kernel names index hname,
        ih hrest args (index + 1) htail]
      cases Program.readArg kernel index q.1 q.2 arg with
      | error e => rfl
      | ok v => cases Program.readArgsFrom kernel (index + 1) params args <;> rfl

theorem Fn.readArgs_eq {d : Code.Func} {k k' : CheckedFn} (h : Fn ρ d k k') (args : List KernelArg) :
    Program.readArgs k' args =
      (Program.readArgs k args).mapError (RunError.called (k'.params.map Prod.fst)) := by
  have hname : k'.name = k.name := by rw [h.code]
  have hlen : k'.params.length = k.params.length := by
    simpa using congrArg List.length h.types
  unfold Program.readArgs
  rw [hlen, hname]
  split
  · rfl
  · exact readArgs_called k.name _ h.types args 0 rfl

theorem Fn.runItem_eq {d : Code.Func} {k k' : CheckedFn} (h : Fn ρ d k k')
    (hfns : Fns ρ file p.funcs p'.funcs) (rounds : Nat) (vs : List Value) (item : WorkItem) :
    p'.runItem rounds k' vs item = p.runItem rounds k vs item := by
  rw [Program.runItem, Program.runItem, call_eq hfns, h.body_eq, h.frame_eq]

/-- What items do wrong is not told by the names of parameters. -/
theorem Fn.runTurns_eq {d : Code.Func} {k k' : CheckedFn} (h : Fn ρ d k k')
    (hfns : Fns ρ file p.funcs p'.funcs) (crew : Crew) (rounds : Nat) (vs : List Value)
    (offset extent : Int) (names : List String) (turns t : Nat) (next : List Nat) (faults : List RunError)
    (st : Store) :
    p'.runTurns crew rounds k' vs offset extent turns t next (faults.map (RunError.called names)) st =
      ((p.runTurns crew rounds k vs offset extent turns t next faults st).1.mapError
        (List.map (RunError.called names)),
        (p.runTurns crew rounds k vs offset extent turns t next faults st).2) := by
  have hending : ∀ faults, Program.ending (faults.map (RunError.called names)) =
      (Program.ending faults).mapError (List.map (RunError.called names)) := fun faults => by
    cases faults <;> rfl
  induction turns generalizing t next faults st with
  | zero => exact Prod.ext (hending faults) rfl
  | succ turns ih =>
    cases hid : next[crew.turn t % next.length]? with
    | none => rw [Program.runTurns_none hid, Program.runTurns_none hid, hending]
    | some id =>
      have hname : k'.name = k.name := by rw [h.code]
      rw [Program.runTurns_some hid, Program.runTurns_some hid, h.runItem_eq hfns, hname]
      rcases p.runItem rounds k vs { offset, extent, id } st with ⟨_ | e | _ | _, st'⟩
      · exact ih (t + 1) _ faults st'
      · have hrest := ih (t + 1) (next.eraseIdx (crew.turn t % next.length))
          (faults ++ [.item k.name ({ offset, extent, id } : WorkItem).globalId.toInt e]) st'
        rwa [List.map_append] at hrest
      · rfl
      · rfl

/-- **A renamed kernel runs alike**: the memories are the same, and so is the outcome, but for what
errors call the parameters. -/
theorem Fn.runBy_eq {d : Code.Func} {k k' : CheckedFn} (h : Fn ρ d k k')
    (hfns : Fns ρ file p.funcs p'.funcs) (crew : Crew) (rounds : Nat) (args : List KernelArg)
    (offset extent : Int) (st : Store) :
    p'.runBy crew rounds k' args offset extent st =
      ((p.runBy crew rounds k args offset extent st).1.mapError
        (List.map (RunError.called (k'.params.map Prod.fst))),
        (p.runBy crew rounds k args offset extent st).2) := by
  have hname : k'.name = k.name := by rw [h.code]
  unfold Program.runBy
  rw [hname, h.readArgs_eq]
  split
  · rfl
  · cases Program.readArgs k args with
    | error e => rfl
    | ok vs => exact h.runTurns_eq hfns crew rounds vs offset extent _ _ 0 _ [] st

end Renaming

namespace Renaming

variable {source source' : SourceText} {p : Program} {file file' : Code.File} {ρ : Renaming}

theorem File.built (h : ρ.File file file') (hparse : Code.File.parse Program.fileName source = .ok file)
    (hparse' : Code.File.parse Program.fileName source' = .ok file')
    (hbuild : Program.build source = .built p) :
    ∃ p', Program.build source' = .built p' ∧ Fns ρ file p.funcs p'.funcs := by
  obtain ⟨_, b, hfile, hb, hlog, rfl⟩ := Program.build_ok hbuild
  obtain rfl := Except.ok.inj (hparse.symm.trans hfile)
  obtain ⟨c, hc, hbuilding⟩ := h.builds hb hlog
  have hparse' : Code.File.ofStream (TokenStream.ofText Program.fileName source') = .ok file' := hparse'
  refine ⟨⟨source', c.env.fp64, c.funcs⟩, ?_, hbuilding.funcs⟩
  unfold Program.build
  simp only [hparse', hc, hbuilding.log, List.isEmpty_nil, if_true]

theorem Fns.kernel? {p p' : Program} (h : Fns ρ file p.funcs p'.funcs) (name : String) :
    Option.Rel (fun k k' => ∃ d ∈ file.funcs, Fn ρ d k k') (p.kernel? name) (p'.kernel? name) := by
  unfold Program.kernel? Program.kernels
  rw [List.find?_filter, List.find?_filter]
  exact h.find? fun k k' hname hkernel => by rw [hname, hkernel]

theorem forall₂_of_map_eq {α β γ : Type} {f : α → γ} {g : β → γ} {as : List α} {bs : List β}
    (h : bs.map g = as.map f) : List.Forall₂ (fun a b => g b = f a) as bs := by
  rw [← List.forall₂_map_left_iff (R := fun c b => g b = c), ← List.forall₂_map_right_iff (R := fun c c' => c' = c), h]
  exact List.forall₂_same.mpr fun _ _ => rfl

open Code.Scope in
/-- **The renamed source is read to the renamed tree.** -/
theorem exists_file {stream stream' : TokenStream} (hparse : Code.File.ofStream stream = .ok file)
    (hincreasing : (stream.lexemes.map Lexeme.offset ++ [stream.finish]).Pairwise (· < ·))
    (hfresh : ρ.Fresh stream) (hsource : ρ.Source file stream stream') :
    ∃ file', Code.File.ofStream stream' = .ok file' ∧ ρ.File file file' := by
  unfold Code.File.ofStream at hparse
  split at hparse
  · cases hparse
  · split at hparse
    · cases hparse
    · rename_i f hread
      have hocc : ρ.occurrences file = ρ.occurrences f := by
        cases hparse
        rfl
      have htokens := forall₂_of_map_eq hsource.tokens
      rw [hocc] at htokens
      have hordered : Ordered { finish := stream.finish } stream.lexemes := hincreasing
      let σ : Respelling := { ρ with places := ρ.occurrences f, finish := stream'.finish }
      have hplain : Plainly σ { finish := stream.finish } := by
        refine ⟨?_, hfresh.noWord⟩
        have hqualifier := isQualifier_of_notMem hfresh.noQualifier
        rw [isQualifier] at hqualifier
        rw [startsType, isTypeWord, hqualifier, hfresh.noType]
        rfl
      obtain ⟨hpasses, hrereads⟩ :=
        rereads_file stream.lexemes hplain f hread hfresh.unused hordered
      have hrenamed : Renamed σ stream.lexemes stream'.lexemes := by
        have hnames : ∀ l ∈ stream.lexemes,
            l.token ≠ .name σ.fresh ∧ (l.offset ∈ σ.places → ∃ n, l.token = .name n) := by
          refine fun l hl => ⟨hfresh.unused l hl, fun hplace => ?_⟩
          obtain ⟨n, hn⟩ := hpasses.names _ hplace
          exact ⟨n, congrArg Lexeme.token (hordered.eq_of_offset hl hn rfl)⟩
        exact ((List.forall₂_and_left _ _).mpr ⟨hnames, htokens⟩).imp fun l l' h =>
          ⟨h.1.1, h.2, h.1.2⟩
      obtain ⟨_, -, f', hread', hrereading⟩ := hrereads _ hrenamed fun _ _ _ => Iff.rfl
      refine ⟨{ f' with pragmas := stream'.pragmas }, ?_, ?_⟩
      · unfold Code.File.ofStream
        rw [hsource.diagnostics]
        have hread' : Code.Scope.file { finish := stream'.finish } stream'.lexemes = .ok f' := hread'
        simp [hread']
      · cases hparse
        exact ⟨forall₂_of_map_eq hsource.pragmas, hrereading.typedefs, hrereading.funcs⟩

/-- **Names of variables are bound by their scopes.** -/
theorem renamed_kernels_run_alike (hbuild : Program.build source = .built p)
    (hparse : Code.File.parse Program.fileName source = .ok file)
    (hfresh : ρ.Fresh (TokenStream.ofText Program.fileName source))
    (hsource : ρ.Source file (TokenStream.ofText Program.fileName source)
      (TokenStream.ofText Program.fileName source')) :
    ∃ p', Program.build source' = .built p' ∧
      (∀ name, p.kernel? name = none → p'.kernel? name = none) ∧
      ∀ name k, p.kernel? name = some k → ∃ d ∈ file.funcs, ∃ k', p'.kernel? name = some k' ∧
        k.params.map Prod.fst = d.params.map (·.name.name) ∧
        k'.params.map Prod.fst = d.params.map (fun f => ρ.declared f.name) ∧
        ∀ crew rounds args offset extent st, p'.runBy crew rounds k' args offset extent st =
          ((p.runBy crew rounds k args offset extent st).1.mapError
            (List.map (RunError.called (k'.params.map Prod.fst))),
            (p.runBy crew rounds k args offset extent st).2) := by
  have hclean : (TokenStream.ofText Program.fileName source).diagnostics = [] := by
    rw [Code.File.parse, Code.File.ofStream] at hparse
    by_contra hne
    simp [hne] at hparse
  obtain ⟨file', hparse', h⟩ :=
    exists_file hparse (TokenStream.increasing_ofText hclean) hfresh hsource
  obtain ⟨p', hbuild', hfns⟩ := h.built hparse hparse' hbuild
  refine ⟨p', hbuild', fun name hnone => ?_, fun name k hk => ?_⟩
  · have hrel := hfns.kernel? name
    rw [hnone] at hrel
    generalize p'.kernel? name = k'? at hrel ⊢
    cases hrel
    rfl
  · have hrel := hfns.kernel? name
    rw [hk] at hrel
    generalize p'.kernel? name = k'? at hrel
    cases hrel with
    | some hd =>
      obtain ⟨d, hmem, hfn⟩ := hd
      exact ⟨d, hmem, _, rfl, hfn.params, hfn.called, fun crew rounds args offset extent st =>
        hfn.runBy_eq hfns crew rounds args offset extent st⟩

end Renaming

/-! ### A kernel -/

section Store

open Token (spaced scans_spaced)
open Code.Scope

/-- The lexemes of a block that stores one where a pointer points to. -/
def storeBody (n : String) (o : Nat → Nat) : Code.Lexemes :=
  [⟨o 10, .name n⟩, ⟨o 11, .op .lbrack⟩, ⟨o 12, .int "0"⟩, ⟨o 13, .op .rbrack⟩, ⟨o 14, .op .assign⟩,
    ⟨o 15, .int "1"⟩, ⟨o 16, .op .semicolon⟩, ⟨o 17, .op .rbrace⟩]

/-- The lexemes of a kernel that stores one where its argument points to, at some offsets. -/
def storeLexemes (n : String) (o : Nat → Nat) : Code.Lexemes :=
  ⟨o 0, .name "__kernel"⟩ :: ⟨o 1, .name "void"⟩ :: ⟨o 2, .name "k"⟩ :: ⟨o 3, .op .lparen⟩ ::
    ⟨o 4, .name "__global"⟩ :: ⟨o 5, .name "int"⟩ :: ⟨o 6, .op .mul⟩ :: ⟨o 7, .name n⟩ ::
    ⟨o 8, .op .rparen⟩ :: ⟨o 9, .op .lbrace⟩ :: storeBody n o

def storeTokens (n : String) : List Token := (storeLexemes n id).map Lexeme.token

def storeSource (n : String) : SourceText := SourceText.ofChars (spaced (storeTokens n))

/-- What is read from them. -/
def storeFile (n : String) (o : Nat → Nat) : Code.File where
  funcs := [{
    isKernel := true
    result := { offset := o 1, name := "void" }
    name := ⟨o 2, "k"⟩
    params := [⟨{ offset := o 4, name := "int", space := .global, pointer := true }, ⟨o 7, n⟩⟩]
    brace := o 9
    body := [.simple (.assign (.index (.ident ⟨o 10, n⟩) (o 11) (.number (o 12) .int "0")) (o 14) .assign
      (.number (o 15) .int "1"))] }]

/-- The kernel as it is checked. -/
def storeFn (n : String) : CheckedFn where
  name := "k"
  isKernel := true
  result := .void
  params := [(n, .pointer (.scalar .int) .global false)]
  slots := 1
  body := .seq (.assign (.deref (.scalar .int) (.var 0)
    (.cast .long (.const .int32 (.atom (BitVec.ofInt 32 0)))))
    (.const .int32 (.atom (BitVec.ofInt 32 1)))) .skip

/-- Of the source only the offsets are open. -/
theorem exists_stream_store {n : String} (hn : n = "a" ∨ n = "b") : ∃ o finish map,
    TokenStream.ofText Program.fileName (storeSource n) =
      { lexemes := storeLexemes n o, finish, pragmas := [], map, diagnostics := [] } := by
  have hlegible : ∀ t ∈ storeTokens n, t.isLegible = true := by rcases hn with rfl | rfl <;> decide
  exact exists_stream (scans_spaced hlegible) Program.fileName

theorem ofStream_store {n : String} (hn : n = "a" ∨ n = "b") (o : Nat → Nat) (finish : Nat)
    (map : Source.Map) : Code.File.ofStream
      { lexemes := storeLexemes n o, finish, pragmas := [], map, diagnostics := [] } =
        .ok (storeFile n o) := by
  rcases hn with rfl | rfl <;> with_unfolding_all rfl

theorem build_store {n : String} (hn : n = "a" ∨ n = "b") :
    Program.build (storeSource n) = .built ⟨storeSource n, false, [storeFn n]⟩ := by
  obtain ⟨o, finish, map, hstream⟩ := exists_stream_store hn
  unfold Program.build
  simp only [hstream, ofStream_store hn]
  rcases hn with rfl | rfl <;> rfl

/-- The parameter of the first kernel gets the name that it has in the second, where it is declared and
where it is used. -/
theorem exists_renamed_store : ∃ o,
    Code.File.parse Program.fileName (storeSource "a") = .ok (storeFile "a" o) ∧
      Renaming.Fresh ⟨⟨o 7, "a"⟩, "b"⟩ (TokenStream.ofText Program.fileName (storeSource "a")) ∧
      Renaming.Source ⟨⟨o 7, "a"⟩, "b"⟩ (storeFile "a" o)
        (TokenStream.ofText Program.fileName (storeSource "a"))
        (TokenStream.ofText Program.fileName (storeSource "b")) := by
  obtain ⟨o, finish, map, hstream⟩ := exists_stream_store (Or.inl rfl)
  obtain ⟨o', finish', map', hstream'⟩ := exists_stream_store (Or.inr rfl)
  have hincreasing := TokenStream.increasing_ofText (congrArg TokenStream.diagnostics hstream)
  rw [Code.File.parse, hstream, hstream'] at *
  have hlt : ((List.range 18).map o).Pairwise (· < ·) := (List.pairwise_append.mp hincreasing).1
  have hinj : ∀ i < 18, ∀ j < 18, o i = o j → i = j := fun i hi j hj heq =>
    List.inj_on_of_nodup_map (hlt.imp fun h => Nat.ne_of_lt h) (List.mem_range.mpr hi)
      (List.mem_range.mpr hj) heq
  have hplaces : Renaming.occurrences ⟨⟨o 7, "a"⟩, "b"⟩ (storeFile "a" o) = [o 7, o 10] := by
    have hdeclared : Renaming.declaredAt ⟨⟨o 7, "a"⟩, "b"⟩ ⟨o 7, "a"⟩ = [o 7] := if_pos rfl
    have hused : Renaming.usedAt ⟨⟨o 7, "a"⟩, "b"⟩ [[], [⟨o 7, "a"⟩]] ⟨o 10, "a"⟩ = [o 10] := if_pos rfl
    simp only [Renaming.occurrences, storeFile, Renaming.inFunc, Renaming.inStmts, Renaming.inStmt,
      Renaming.inSimple, Renaming.inExpr, Renaming.afterParams, List.flatMap_cons, List.flatMap_nil,
      hdeclared, List.append_nil, List.cons_append, List.nil_append]
    exact congrArg (o 7 :: ·) hused
  have hunused : Token.name "b" ∉ storeTokens "a" := by decide
  have htokens : (storeLexemes "a" o).map Lexeme.token = storeTokens "a" := rfl
  refine ⟨o, ofStream_store (Or.inl rfl) .., ⟨fun l hl heq => ?_, ?_, ?_, ?_⟩, rfl, ?_, rfl⟩
  · rw [← htokens, ← heq] at hunused
    exact hunused (List.mem_map_of_mem hl)
  · exact (by decide : Ty.isTypeName "b" = false)
  · exact (by decide : "b" ∉ qualifierWords)
  · exact (by decide : "b" ∉ Renaming.grammarWords)
  · rw [hplaces]
    have hmem : ∀ i < 18, (o i ∈ [o 7, o 10] ↔ i = 7 ∨ i = 10) := fun i hi => by
      simp only [List.mem_cons, List.not_mem_nil, or_false]
      exact or_congr ⟨hinj i hi 7 (by decide), congrArg o⟩ ⟨hinj i hi 10 (by decide), congrArg o⟩
    simp (disch := decide) [storeLexemes, storeBody, Renaming.renamedToken, hmem]

/-- A kernel without a buffer says which parameter needs one. -/
theorem runBy_store (p : Program) (n : String) (crew : Crew) (rounds : Nat) (st : Store) :
    p.runBy crew rounds (storeFn n) [{ bytes := [1, 0, 0, 0] }] 0 1 st =
      (.failed [.noBuffer "k" 0 n], st) := rfl

theorem errors_name_parameters : ¬ ∀ (source source' : SourceText) (p : Program) (file : Code.File)
    (ρ : Renaming), Program.build source = .built p →
      Code.File.parse Program.fileName source = .ok file →
      ρ.Fresh (TokenStream.ofText Program.fileName source) →
      ρ.Source file (TokenStream.ofText Program.fileName source)
        (TokenStream.ofText Program.fileName source') →
      ∃ p', Program.build source' = .built p' ∧ ∀ name k, p.kernel? name = some k →
        ∃ k', p'.kernel? name = some k' ∧ ∀ crew rounds args offset extent st,
          p'.runBy crew rounds k' args offset extent st = p.runBy crew rounds k args offset extent st := by
  intro h
  obtain ⟨o, hparse, hfresh, hsource⟩ := exists_renamed_store
  obtain ⟨p', hbuild, hruns⟩ := h _ _ _ _ _ (build_store (Or.inl rfl)) hparse hfresh hsource
  obtain rfl := BuildResult.built.inj ((build_store (Or.inr rfl)).symm.trans hbuild)
  obtain ⟨k', hk', hrun⟩ := hruns "k" (storeFn "a") rfl
  obtain rfl : storeFn "b" = k' := Option.some.inj hk'
  have hsame := hrun .alone 0 [{ bytes := [1, 0, 0, 0] }] 0 1 #[]
  rw [runBy_store, runBy_store] at hsame
  exact absurd hsame (by simp)

theorem store_runs_alike : ∃ p', Program.build (storeSource "b") = .built p' ∧
    ∃ k', p'.kernel? "k" = some k' ∧ k'.params.map Prod.fst = ["b"] ∧
      ∀ crew rounds args offset extent st,
        let p : Program := ⟨storeSource "a", false, [storeFn "a"]⟩
        p'.runBy crew rounds k' args offset extent st =
          ((p.runBy crew rounds (storeFn "a") args offset extent st).1.mapError
            (List.map (RunError.called ["b"])),
            (p.runBy crew rounds (storeFn "a") args offset extent st).2) := by
  obtain ⟨o, hparse, hfresh, hsource⟩ := exists_renamed_store
  obtain ⟨p', hbuild, -, hruns⟩ := Renaming.renamed_kernels_run_alike (build_store (Or.inl rfl))
    hparse hfresh hsource
  obtain ⟨d, hd, k', hk', -, hcalled, hrun⟩ := hruns "k" (storeFn "a") rfl
  obtain rfl := List.mem_singleton.mp hd
  have hnames : k'.params.map Prod.fst = ["b"] := by
    rw [hcalled]
    exact congrArg (fun n => [n]) (if_pos rfl)
  rw [hnames] at hrun
  exact ⟨p', hbuild, k', hk', hnames, hrun⟩

end Store

end KernelForge
