/-
Statements, functions and programs of the source.

A checked statement is an action that keeps types, from a scope that the environment agrees
with to one that the environment after the statement agrees with.  New variables get slots that
were not in use, so the declarations of a function give each slot one type; that type is what
the invariant of runs is about.  A program that has been built has no objection in its log, so
every function that is known has been checked.
-/
import KernelForge.Program.Build
import KernelForge.Proofs.Code.TypeUses
import KernelForge.Proofs.Program.Actions
import KernelForge.Proofs.Program.CheckedExprs

namespace KernelForge

namespace Env

/-! ### Scopes -/

/-- An environment follows a scope: it agrees with it, and no slot of the scope is yet to be
given away. -/
structure Tracks (sigs : Signatures) (result : Ty) (scope : Scope) (env : Env) : Prop where
  agrees : env.Agrees sigs scope
  bound : ∀ slot t, scope slot = some t → slot < env.slots
  resultTy : env.result.ty = result
  resultNamed : env.result.Named

variable {sigs : Signatures} {result : Ty} {scope : Scope} {env env' inner : Env}

theorem find?_openScope (env : Env) (name : String) : env.openScope.find? name = env.find? name := by
  simp [find?, openScope, List.findSome?_cons]

theorem Tracks.openScope (h : env.Tracks sigs result scope) :
    env.openScope.Tracks sigs result scope := by
  refine ⟨⟨h.agrees.structs, fun name v hv => ?_, h.agrees.funcs⟩, h.bound, h.resultTy, h.resultNamed⟩
  rw [find?_openScope] at hv
  exact h.agrees.vars name v hv

theorem Tracks.inLoop (h : env.Tracks sigs result scope) :
    { env with inLoop := true }.Tracks sigs result scope :=
  ⟨⟨h.agrees.structs, h.agrees.vars, h.agrees.funcs⟩, h.bound, h.resultTy, h.resultNamed⟩

theorem Tracks.closeTo (h : env.Tracks sigs result scope) (hle : env.slots ≤ inner.slots) :
    (env.closeTo inner).Tracks sigs result scope := by
  refine ⟨⟨h.agrees.structs, h.agrees.vars, h.agrees.funcs⟩, fun slot t hslot => ?_, h.resultTy,
    h.resultNamed⟩
  have := h.bound slot t hslot
  show slot < inner.slots
  omega

theorem find?_declare {id : Code.Ident} {t : NamedTy} {readOnly : Bool} {slot : Nat}
    (h : env.declare id t readOnly = .ok (slot, env')) (name : String) :
    env'.find? name =
      if name = id.name then some { slot, type := t, readOnly } else env.find? name := by
  unfold declare at h
  simp only at h
  split at h
  · cases h
  · cases h
    unfold find?
    cases hscopes : env.scopes with
    | nil => by_cases hname : name = id.name <;> simp [hname]
    | cons s ss =>
      by_cases hname : name = id.name
      · simp [hname]
      · have hne : (name == id.name) = false := by simpa using hname
        simp [hname, List.findSome?_cons, List.lookup_cons, hne]

/-- A new variable gets a slot that was not in use. -/
theorem Tracks.declare (h : env.Tracks sigs result scope) {id : Code.Ident} {t : NamedTy}
    {readOnly : Bool} {slot : Nat} (ht : t.Named)
    (hd : env.declare id t readOnly = .ok (slot, env')) :
    slot = env.slots ∧ env'.slots = env.slots + 1 ∧
      env'.Tracks sigs result (scope.with slot t.ty) := by
  have hfind := find?_declare hd
  unfold Env.declare at hd
  simp only at hd
  split at hd
  · cases hd
  · cases hd
    refine ⟨rfl, rfl, ⟨h.agrees.structs, fun name v hv => ?_, h.agrees.funcs⟩, ?_, h.resultTy,
      h.resultNamed⟩
    · rw [hfind] at hv
      split at hv
      · cases hv
        exact ⟨ht, if_pos rfl⟩
      · obtain ⟨hnamed, hslot⟩ := h.agrees.vars name v hv
        have hlt := h.bound _ _ hslot
        refine ⟨hnamed, ?_⟩
        unfold Scope.with
        rw [if_neg (by omega), hslot]
    · intro slot' t' hslot'
      unfold Scope.with at hslot'
      split at hslot'
      · rename_i heq
        show slot' < env.slots + 1
        omega
      · have := h.bound slot' t' hslot'
        show slot' < env.slots + 1
        omega

end Env

/-! ### Statements -/

/-- Declarations of variables that take new slots, one each, from `lo` up to `hi`. -/
structure Fresh (lo hi : Nat) (ds : List (Nat × Ty)) : Prop where
  le : lo ≤ hi
  within : ∀ d ∈ ds, lo ≤ d.1 ∧ d.1 < hi
  nodup : (ds.map Prod.fst).Nodup
  valued : ∀ d ∈ ds, d.2 ≠ .void

namespace Fresh

variable {lo mid hi : Nat} {ds es : List (Nat × Ty)}

theorem nil (h : lo ≤ hi) : Fresh lo hi [] := ⟨h, nofun, List.nodup_nil, nofun⟩

theorem append (hds : Fresh lo mid ds) (hes : Fresh mid hi es) : Fresh lo hi (ds ++ es) := by
  refine ⟨Nat.le_trans hds.le hes.le, fun d hd => ?_, ?_, fun d hd => ?_⟩
  · rcases List.mem_append.mp hd with hd | hd
    · have h := hds.within d hd
      have := hes.le
      omega
    · have h := hes.within d hd
      have := hds.le
      omega
  · rw [List.map_append, List.nodup_append]
    refine ⟨hds.nodup, hes.nodup, fun a ha b hb => ?_⟩
    obtain ⟨d, hd, rfl⟩ := List.mem_map.mp ha
    obtain ⟨e, he, rfl⟩ := List.mem_map.mp hb
    have h := hds.within d hd
    have h' := hes.within e he
    omega
  · rcases List.mem_append.mp hd with hd | hd
    · exact hds.valued d hd
    · exact hes.valued d hd

end Fresh

/-- What checking a statement gives: an action that takes new slots and keeps types. -/
structure Env.Steps (env : Env) (a : Action) (env' : Env) : Prop where
  fresh : Fresh env.slots env'.slots a.declared
  typed : ∀ {sigs : Signatures} {result : Ty} {scope declared : Scope},
    env.Tracks sigs result scope → (∀ d ∈ a.declared, declared d.1 = some d.2) →
    ∃ after, a.Typed sigs declared result scope after ∧ env'.Tracks sigs result after

namespace Env

open Checked

variable {env env' env'' inner : Env} {a b : Action}

/-- An action that declares nothing and leaves the environment as it is. -/
theorem Steps.of_typed (hnone : a.declared = [])
    (h : ∀ {sigs : Signatures} {result : Ty} {scope declared : Scope},
      env.Tracks sigs result scope → a.Typed sigs declared result scope scope) : env.Steps a env :=
  ⟨by rw [hnone]; exact .nil (Nat.le_refl _), fun ht _ => ⟨_, h ht, ht⟩⟩

theorem Steps.skip (env : Env) : env.Steps .skip env := .of_typed rfl fun _ => .skip

theorem Steps.seq (ha : env.Steps a env') (hb : env'.Steps b env'') :
    env.Steps (.seq a b) env'' := by
  refine ⟨ha.fresh.append hb.fresh, fun ht hd => ?_⟩
  obtain ⟨mid, hfirst, ht'⟩ := ha.typed ht fun d hmem => hd d (List.mem_append_left _ hmem)
  obtain ⟨after, hsecond, ht''⟩ := hb.typed ht' fun d hmem => hd d (List.mem_append_right _ hmem)
  exact ⟨after, .seq hfirst hsecond, ht''⟩

/-- A statement with a scope of its own. -/
theorem Steps.block (h : env.openScope.Steps a inner) : env.Steps a (env.closeTo inner) := by
  refine ⟨h.fresh, fun ht hd => ?_⟩
  obtain ⟨after, htyped, -⟩ := h.typed ht.openScope hd
  exact ⟨_, .close htyped, ht.closeTo h.fresh.le⟩

/-! ### Single statements -/

theorem typed_checkInit {sigs : Signatures} {result : Ty} {scope : Scope}
    (ht : env.Tracks sigs result scope) {t : NamedTy} (hnamed : t.Named) {readOnly : Bool}
    {id : Code.Ident} {e? : Option Code.Expr} {init : Option Term}
    (h : env.checkInit t readOnly id e? = .ok init) :
    ∀ x, init = some x → Typed sigs scope none (.term x) t.ty := by
  intro x hx
  subst hx
  cases e? with
  | none =>
    rw [checkInit] at h
    cases readOnly with
    | true => cases h
    | false => cases h
  | some e =>
    obtain ⟨y, hy, h⟩ := bind_eq_ok.mp h
    obtain ⟨z, hz, h⟩ := bind_eq_ok.mp h
    cases h
    have hgood : Good sigs scope none y := good_checkExpr ht.agrees hy
    obtain ⟨hnew, hty⟩ := good_convert hgood hnamed hz
    have hterm := hnew.term
    rw [hty] at hterm
    exact hterm

theorem slots_declare {t : NamedTy} {readOnly : Bool} {id : Code.Ident} {slot : Nat}
    (hd : env.declare id t readOnly = .ok (slot, env')) :
    slot = env.slots ∧ env'.slots = env.slots + 1 := by
  unfold Env.declare at hd
  simp only at hd
  split at hd
  · cases hd
  · cases hd
    exact ⟨rfl, rfl⟩

theorem fresh_declare {t : NamedTy} (hvoid : t.ty ≠ .void) {readOnly : Bool} {id : Code.Ident}
    {init : Option Term} {slot : Nat} (hd : env.declare id t readOnly = .ok (slot, env')) :
    Fresh env.slots env'.slots (Action.declare slot t.ty init).declared := by
  have hslots := slots_declare hd
  simp only [Action.declared]
  refine ⟨by omega, ?_, by simp, ?_⟩
  · intro d hmem
    cases List.mem_singleton.mp hmem
    exact ⟨by omega, by omega⟩
  · intro d hmem
    cases List.mem_singleton.mp hmem
    exact hvoid

theorem fresh_checkVariables {t : NamedTy} (hvoid : t.ty ≠ .void) {readOnly : Bool}
    {vars : List (Code.Ident × Option Code.Expr)}
    (h : env.checkVariables t readOnly vars = .ok (a, env')) :
    Fresh env.slots env'.slots a.declared := by
  induction vars generalizing env a with
  | nil =>
    cases h
    exact .nil (Nat.le_refl _)
  | cons q vars ih =>
    obtain ⟨id, e?⟩ := q
    obtain ⟨init, hinit, h⟩ := bind_eq_ok.mp h
    obtain ⟨⟨slot, mid⟩, hd, h⟩ := bind_eq_ok.mp h
    obtain ⟨⟨rest, env''⟩, hrest, h⟩ := bind_eq_ok.mp h
    cases h
    exact (fresh_declare hvoid hd).append (ih hrest)

theorem typed_checkVariables {sigs : Signatures} {result : Ty} {scope declared : Scope}
    {t : NamedTy} (hnamed : t.Named) {readOnly : Bool}
    {vars : List (Code.Ident × Option Code.Expr)} (ht : env.Tracks sigs result scope)
    (h : env.checkVariables t readOnly vars = .ok (a, env'))
    (hdeclared : ∀ d ∈ a.declared, declared d.1 = some d.2) :
    ∃ after, a.Typed sigs declared result scope after ∧ env'.Tracks sigs result after := by
  induction vars generalizing env a scope with
  | nil =>
    cases h
    exact ⟨scope, .skip, ht⟩
  | cons q vars ih =>
    obtain ⟨id, e?⟩ := q
    obtain ⟨init, hinit, h⟩ := bind_eq_ok.mp h
    obtain ⟨⟨slot, mid⟩, hd, h⟩ := bind_eq_ok.mp h
    obtain ⟨⟨rest, env''⟩, hrest, h⟩ := bind_eq_ok.mp h
    cases h
    obtain ⟨-, -, ht'⟩ := ht.declare hnamed hd
    obtain ⟨after, hafter, hlast⟩ :=
      ih ht' hrest fun d hmem => hdeclared d (List.mem_append_right _ hmem)
    have hslot := hdeclared (slot, t.ty) (by simp [Action.declared])
    exact ⟨after, .seq (.declare (typed_checkInit ht hnamed hinit) hslot) hafter, hlast⟩

theorem typed_assignable {sigs : Signatures} {scope : Scope} {here? : Option Ty} {offset : Nat}
    {x : Checked} {p : Place} (hx : Good sigs scope here? x) (h : assignable offset x = .ok p) :
    Typed sigs scope here? (.place p) x.type.ty := by
  unfold assignable at h
  split at h
  · cases h
  · rename_i q hq
    split at h
    · cases h
    · cases h
      exact hx.place p hq

theorem steps_checkUpdate {offset : Nat} {lhs rhs : Checked} {op : Operator}
    (hlhs : ∀ {sigs : Signatures} {scope : Scope} {here? : Option Ty},
      env.Agrees sigs scope → Good sigs scope here? lhs)
    (hrhs : ∀ {sigs : Signatures} {scope : Scope} {here? : Option Ty},
      env.Agrees sigs scope → Good sigs scope here? rhs)
    (h : checkUpdate offset lhs op rhs = .ok a) : env.Steps a env := by
  obtain ⟨p, hp, h⟩ := bind_eq_ok.mp h
  obtain ⟨next, hnext, h⟩ := bind_eq_ok.mp h
  obtain ⟨next', hnext', h⟩ := bind_eq_ok.mp h
  cases h
  refine .of_typed rfl fun {sigs result scope declared} ht => ?_
  have hgood : Good sigs scope none lhs := hlhs ht.agrees
  have hcurrent : Good sigs scope (some lhs.type.ty) { type := lhs.type, term := .current } :=
    good_value hgood.named (.current rfl)
  obtain ⟨hnew, hty⟩ := good_convert (good_binary hcurrent (hrhs ht.agrees) hnext) hgood.named hnext'
  have hterm := hnew.term
  rw [hty] at hterm
  exact .update (typed_assignable hgood hp) hterm

theorem steps_checkSimple {s : Code.Simple}
    (h : env.checkSimple s = .ok (a, env')) : env.Steps a env' := by
  cases s with
  | decl spec vars =>
    obtain ⟨t, ht, h⟩ := bind_eq_ok.mp h
    split at h
    · cases h
    · rename_i hvoid
      refine ⟨fresh_checkVariables hvoid h, fun htracks hdeclared => ?_⟩
      exact typed_checkVariables (named_resolve htracks.agrees.structs ht) htracks h hdeclared
  | expr e =>
    obtain ⟨x, hx, h⟩ := bind_eq_ok.mp h
    cases h
    exact .of_typed rfl fun ht => .eval (good_checkExpr ht.agrees hx).term
  | assign lhs offset op rhs =>
    obtain ⟨x, hx, h⟩ := bind_eq_ok.mp h
    obtain ⟨y, hy, h⟩ := bind_eq_ok.mp h
    split at h
    · obtain ⟨act, hact, h⟩ := bind_eq_ok.mp h
      cases h
      exact steps_checkUpdate (fun henv => good_checkExpr henv hx)
        (fun henv => good_checkExpr henv hy) hact
    · obtain ⟨p, hp, h⟩ := bind_eq_ok.mp h
      obtain ⟨z, hz, h⟩ := bind_eq_ok.mp h
      cases h
      refine .of_typed rfl fun {sigs result scope declared} ht => ?_
      have hgood : Good sigs scope none x := good_checkExpr ht.agrees hx
      have hright : Good sigs scope none y := good_checkExpr ht.agrees hy
      obtain ⟨hnew, hty⟩ := good_convert hright hgood.named hz
      have hterm := hnew.term
      rw [hty] at hterm
      exact .assign (typed_assignable hgood hp) hterm
  | step e offset op =>
    obtain ⟨x, hx, h⟩ := bind_eq_ok.mp h
    obtain ⟨act, hact, h⟩ := bind_eq_ok.mp h
    cases h
    have hone : (Constant.ofInt 1).Fits := rfl
    exact steps_checkUpdate (fun henv => good_checkExpr henv hx)
      (fun _ => good_ofConstant hone) hact

theorem steps_checkReturn {offset : Nat} {e? : Option Code.Expr}
    (h : env.checkReturn offset e? = .ok a) : env.Steps a env := by
  cases e? with
  | none =>
    rw [checkReturn] at h
    split at h
    · rename_i hvoid
      cases h
      exact .of_typed rfl fun ht => .leave (ht.resultTy.symm.trans hvoid)
    · cases h
  | some e =>
    rw [checkReturn] at h
    split at h
    · cases h
    · obtain ⟨x, hx, h⟩ := bind_eq_ok.mp h
      obtain ⟨y, hy, h⟩ := bind_eq_ok.mp h
      cases h
      refine .of_typed rfl fun {sigs result scope declared} ht => ?_
      have hgood : Good sigs scope none x := good_checkExpr ht.agrees hx
      obtain ⟨hnew, hty⟩ := good_convert hgood ht.resultNamed hy
      have hterm := hnew.term
      rw [hty, ht.resultTy] at hterm
      exact .ret hterm

theorem steps_checkOptional {s? : Option Code.Simple}
    (h : env.checkOptional s? = .ok (a, env')) : env.Steps a env' := by
  cases s? with
  | none =>
    cases h
    exact .skip env
  | some s => exact steps_checkSimple h

theorem typed_checkTest {sigs : Signatures} {scope : Scope} (henv : env.Agrees sigs scope)
    {e : Code.Expr} {x : Term} (h : env.checkTest e = .ok x) :
    Typed sigs scope none (.term x) (.scalar .bool) := by
  obtain ⟨y, hy, h⟩ := bind_eq_ok.mp h
  obtain ⟨z, hz, h⟩ := bind_eq_ok.mp h
  cases h
  exact good_truth (good_checkExpr henv hy) hz

/-! ### Statements within statements -/

/-- A branch: both arms have scopes of their own. -/
theorem Steps.branch {test : Term} {yes no : Action} {mid last : Env}
    (htest : ∀ {sigs : Signatures} {scope : Scope}, env.Agrees sigs scope →
      Typed sigs scope none (.term test) (.scalar .bool))
    (hyes : env.openScope.Steps yes mid) (hno : (env.closeTo mid).openScope.Steps no last) :
    env.Steps (.branch test yes no) ((env.closeTo mid).closeTo last) := by
  refine ⟨hyes.fresh.append hno.fresh, fun ht hd => ?_⟩
  have ht' := ht.closeTo hyes.fresh.le
  obtain ⟨afterYes, hy, -⟩ := hyes.typed ht.openScope fun d hmem => hd d (List.mem_append_left _ hmem)
  obtain ⟨afterNo, hn, -⟩ := hno.typed ht'.openScope fun d hmem => hd d (List.mem_append_right _ hmem)
  exact ⟨_, .branch (htest ht.agrees) hy hn, ht'.closeTo hno.fresh.le⟩

/-- A loop: what runs after its body is checked before the body. -/
theorem Steps.loop {test : Option Term} {post body : Action} {mid last : Env}
    (htest : ∀ {sigs : Signatures} {scope : Scope}, env.Agrees sigs scope →
      ∀ x, test = some x → Typed sigs scope none (.term x) (.scalar .bool))
    (hpost : env.openScope.Steps post mid)
    (hbody : { (env.closeTo mid).openScope with inLoop := true }.Steps body last) :
    env.Steps (.loop test post body) (env.closeTo last) := by
  have hle := hpost.fresh.le
  have hle' := hbody.fresh.le
  refine ⟨hpost.fresh.append hbody.fresh, fun ht hd => ?_⟩
  have ht' := ht.closeTo hpost.fresh.le
  obtain ⟨afterPost, hp, -⟩ :=
    hpost.typed ht.openScope fun d hmem => hd d (List.mem_append_left _ hmem)
  obtain ⟨afterBody, hb, -⟩ :=
    hbody.typed ht'.openScope.inLoop fun d hmem => hd d (List.mem_append_right _ hmem)
  exact ⟨_, .loop (htest ht.agrees) hp hb, ht.closeTo (Nat.le_trans hle hle')⟩

/-- The parts of a loop that has been checked. -/
theorem checkStmt_loop {offset : Nat} {init post : Option Code.Simple} {test : Option Code.Expr}
    {body : Code.Stmt} (h : env.checkStmt (.loop offset init test post body) = .ok (a, env')) :
    ∃ i head test' p mid b last, env.openScope.checkOptional init = .ok (i, head) ∧
      (∀ x, test' = some x → ∃ e, test = some e ∧ head.checkTest e = .ok x) ∧
      head.openScope.checkOptional post = .ok (p, mid) ∧
      { (head.closeTo mid).openScope with inLoop := true }.checkStmt body = .ok (b, last) ∧
      a = .seq i (.loop test' p b) ∧ env' = env.closeTo last := by
  rw [checkStmt] at h
  obtain ⟨⟨i, head⟩, hi, h⟩ := bind_eq_ok.mp h
  have hrest : ∃ test', (∀ x, test' = some x → ∃ e, test = some e ∧ head.checkTest e = .ok x) ∧
      (do let next ← head.openScope.checkOptional post
          let round ← { (head.closeTo next.2).openScope with inLoop := true }.checkStmt body
          return (Action.seq i (.loop test' next.1 round.1), env.closeTo round.2)) =
        Except.ok (a, env') := by
    cases test with
    | none => exact ⟨none, by simp, h⟩
    | some e =>
      obtain ⟨test', ht, h⟩ := bind_eq_ok.mp h
      refine ⟨test', fun x hx => ⟨e, rfl, ?_⟩, h⟩
      subst hx
      cases he : head.checkTest e with
      | ok y =>
        rw [he] at ht
        cases ht
        rfl
      | error c =>
        rw [he] at ht
        cases ht
  obtain ⟨test', htest, h⟩ := hrest
  obtain ⟨⟨p, mid⟩, hp, h⟩ := bind_eq_ok.mp h
  obtain ⟨⟨b, last⟩, hb, h⟩ := bind_eq_ok.mp h
  cases h
  exact ⟨i, head, test', p, mid, b, last, hi, htest, hp, hb, rfl, rfl⟩

/-! ### What all rules for statements keep -/

/-- The rules for statements keep `I` of environments and give actions of the kind `A`, where types are
used as in `U` and variables are declared as in `D`. -/
structure Upholds (U : List (Code.TypeUse × Code.TypeSpec) → Prop) (I : Env → Prop)
    (D : Nat × Ty → Prop) (A : Action → Prop) : Prop where
  uses : ∀ {us vs}, U (us ++ vs) → U us ∧ U vs
  openScope : ∀ {env}, I env → I env.openScope
  closeTo : ∀ {env} inner, I env → I (env.closeTo inner)
  inLoop : ∀ {env}, I env → I { env with inLoop := true }
  simple : ∀ {env s a env'}, I env → U s.typeUses → env.checkSimple s = .ok (a, env') →
    (∀ d ∈ a.declared, D d) → A a ∧ I env'
  ret : ∀ {env offset e? a}, I env → U (Code.optionTypeUses Code.Expr.typeUses e?) →
    env.checkReturn offset e? = .ok a → A a
  skip : A .skip
  brk : A .brk
  cont : A .cont
  seq : ∀ {a b}, A a → A b → A (.seq a b)
  branch : ∀ {env e x a b}, I env → U e.typeUses → env.checkTest e = .ok x → A a → A b →
    A (.branch x a b)
  loop : ∀ {env test test' a b}, I env → U (Code.optionTypeUses Code.Expr.typeUses test) →
    (∀ x, test' = some x → ∃ e, test = some e ∧ env.checkTest e = .ok x) → A a → A b →
    A (.loop test' a b)

namespace Upholds

variable {U : List (Code.TypeUse × Code.TypeSpec) → Prop} {I : Env → Prop} {D : Nat × Ty → Prop}
  {A : Action → Prop}

theorem checkOptional (hk : Upholds U I D A) {s? : Option Code.Simple} {env env' : Env} {a : Action}
    (henv : I env) (huses : U (Code.optionTypeUses Code.Simple.typeUses s?))
    (h : env.checkOptional s? = .ok (a, env')) (hd : ∀ d ∈ a.declared, D d) : A a ∧ I env' := by
  cases s? with
  | none =>
    cases h
    exact ⟨hk.skip, henv⟩
  | some s => exact hk.simple henv huses h hd

mutual

/-- **What all rules keep is kept by every statement that is accepted.** -/
theorem checkStmt (hk : Upholds U I D A) : ∀ {s : Code.Stmt} {env env' : Env} {a : Action}, I env →
    U s.typeUses → env.checkStmt s = .ok (a, env') → (∀ d ∈ a.declared, D d) → A a ∧ I env'
  | .simple s, env, env', a, henv, huses, h, hd => by
    rw [Env.checkStmt] at h
    exact hk.simple henv huses h hd
  | .block offset body, env, env', a, henv, huses, h, hd => by
    rw [Env.checkStmt] at h
    obtain ⟨⟨b, inner⟩, hb, h⟩ := bind_eq_ok.mp h
    cases h
    exact ⟨(checkStmts hk (hk.openScope henv) huses hb hd).1, hk.closeTo inner henv⟩
  | .empty offset, env, env', a, henv, huses, h, hd => by
    rw [Env.checkStmt] at h
    cases h
    exact ⟨hk.skip, henv⟩
  | .ifThen offset test yes, env, env', a, henv, huses, h, hd => by
    rw [Env.checkStmt] at h
    obtain ⟨t, ht, h⟩ := bind_eq_ok.mp h
    obtain ⟨⟨y, inner⟩, hy, h⟩ := bind_eq_ok.mp h
    cases h
    rw [Code.Stmt.typeUses] at huses
    obtain ⟨htest, hrest⟩ := hk.uses huses
    have hyes := checkStmt hk (hk.openScope henv) hrest hy
      fun d hmem => hd d (List.mem_append_left _ hmem)
    exact ⟨hk.branch henv htest ht hyes.1 hk.skip, hk.closeTo inner henv⟩
  | .ifElse offset test yes no, env, env', a, henv, huses, h, hd => by
    rw [Env.checkStmt] at h
    obtain ⟨t, ht, h⟩ := bind_eq_ok.mp h
    obtain ⟨⟨y, inner⟩, hy, h⟩ := bind_eq_ok.mp h
    obtain ⟨⟨n, last⟩, hn, h⟩ := bind_eq_ok.mp h
    cases h
    rw [Code.Stmt.typeUses] at huses
    obtain ⟨htest, hrest⟩ := hk.uses huses
    have hmid := hk.closeTo inner henv
    have hyes := checkStmt hk (hk.openScope henv) (hk.uses hrest).1 hy
      fun d hmem => hd d (List.mem_append_left _ hmem)
    have hno := checkStmt hk (hk.openScope hmid) (hk.uses hrest).2 hn
      fun d hmem => hd d (List.mem_append_right _ hmem)
    exact ⟨hk.branch henv htest ht hyes.1 hno.1, hk.closeTo last hmid⟩
  | .loop offset init test post body, env, env', a, henv, huses, h, hd => by
    obtain ⟨i, head, test', p, mid, b, last, hi, htest, hp, hb, rfl, rfl⟩ := checkStmt_loop h
    rw [Code.Stmt.typeUses] at huses
    obtain ⟨huses₁, huses⟩ := hk.uses huses
    obtain ⟨huses₂, huses⟩ := hk.uses huses
    have hrest : ∀ d ∈ p.declared ++ b.declared, D d :=
      fun d hmem => hd d (List.mem_append_right _ hmem)
    obtain ⟨hinit, hhead⟩ := checkOptional hk (hk.openScope henv) huses₁ hi
      fun d hmem => hd d (List.mem_append_left _ hmem)
    have hpost := checkOptional hk (hk.openScope hhead) (hk.uses huses).1 hp
      fun d hmem => hrest d (List.mem_append_left _ hmem)
    have hbody := checkStmt hk (hk.inLoop (hk.openScope (hk.closeTo mid hhead))) (hk.uses huses).2 hb
      fun d hmem => hrest d (List.mem_append_right _ hmem)
    exact ⟨hk.seq hinit (hk.loop hhead huses₂ htest hpost.1 hbody.1), hk.closeTo last henv⟩
  | .brk offset, env, env', a, henv, huses, h, hd => by
    rw [Env.checkStmt] at h
    split at h
    · cases h
      exact ⟨hk.brk, henv⟩
    · cases h
  | .cont offset, env, env', a, henv, huses, h, hd => by
    rw [Env.checkStmt] at h
    split at h
    · cases h
      exact ⟨hk.cont, henv⟩
    · cases h
  | .ret offset e?, env, env', a, henv, huses, h, hd => by
    rw [Env.checkStmt] at h
    obtain ⟨b, hb, h⟩ := bind_eq_ok.mp h
    cases h
    exact ⟨hk.ret henv huses hb, henv⟩

theorem checkStmts (hk : Upholds U I D A) : ∀ {ss : List Code.Stmt} {env env' : Env} {a : Action},
    I env → U (Code.Stmt.allTypeUses ss) → env.checkStmts ss = .ok (a, env') →
    (∀ d ∈ a.declared, D d) → A a ∧ I env'
  | [], env, env', a, henv, huses, h, hd => by
    rw [Env.checkStmts] at h
    cases h
    exact ⟨hk.skip, henv⟩
  | s :: ss, env, env', a, henv, huses, h, hd => by
    rw [Env.checkStmts] at h
    obtain ⟨⟨b, mid⟩, hb, h⟩ := bind_eq_ok.mp h
    obtain ⟨⟨c, last⟩, hc, h⟩ := bind_eq_ok.mp h
    cases h
    rw [Code.Stmt.allTypeUses] at huses
    obtain ⟨hfirst, hmid⟩ := checkStmt hk henv (hk.uses huses).1 hb
      fun d hmem => hd d (List.mem_append_left _ hmem)
    obtain ⟨hsecond, hlast⟩ := checkStmts hk hmid (hk.uses huses).2 hc
      fun d hmem => hd d (List.mem_append_right _ hmem)
    exact ⟨hk.seq hfirst hsecond, hlast⟩

end

end Upholds

mutual

/-- **A checked statement keeps types**, and takes new slots for its variables. -/
theorem steps_checkStmt : ∀ {s : Code.Stmt} {env env' : Env} {a : Action},
    env.checkStmt s = .ok (a, env') → env.Steps a env'
  | .simple s, env, env', a, h => by
    rw [checkStmt] at h
    exact steps_checkSimple h
  | .block offset body, env, env', a, h => by
    rw [checkStmt] at h
    obtain ⟨⟨b, inner⟩, hb, h⟩ := bind_eq_ok.mp h
    cases h
    exact (steps_checkStmts hb).block
  | .empty offset, env, env', a, h => by
    rw [checkStmt] at h
    cases h
    exact .skip env
  | .ifThen offset test yes, env, env', a, h => by
    rw [checkStmt] at h
    obtain ⟨t, ht, h⟩ := bind_eq_ok.mp h
    obtain ⟨⟨y, inner⟩, hy, h⟩ := bind_eq_ok.mp h
    cases h
    have hno := Steps.skip (env.closeTo inner).openScope
    have hbranch := Steps.branch (fun henv => typed_checkTest henv ht) (steps_checkStmt hy) hno
    exact hbranch
  | .ifElse offset test yes no, env, env', a, h => by
    rw [checkStmt] at h
    obtain ⟨t, ht, h⟩ := bind_eq_ok.mp h
    obtain ⟨⟨y, inner⟩, hy, h⟩ := bind_eq_ok.mp h
    obtain ⟨⟨n, last⟩, hn, h⟩ := bind_eq_ok.mp h
    cases h
    exact .branch (fun henv => typed_checkTest henv ht) (steps_checkStmt hy) (steps_checkStmt hn)
  | .loop offset init test post body, env, env', a, h => by
    obtain ⟨i, head, test', p, mid, b, last, hi, htest, hp, hb, rfl, rfl⟩ := checkStmt_loop h
    have hloop := Steps.loop (fun henv x hx => by
      obtain ⟨e, -, he⟩ := htest x hx
      exact typed_checkTest henv he) (steps_checkOptional hp) (steps_checkStmt hb)
    exact ((steps_checkOptional hi).seq hloop).block
  | .brk offset, env, env', a, h => by
    rw [checkStmt] at h
    split at h
    · cases h
      exact .of_typed rfl fun _ => .brk
    · cases h
  | .cont offset, env, env', a, h => by
    rw [checkStmt] at h
    split at h
    · cases h
      exact .of_typed rfl fun _ => .cont
    · cases h
  | .ret offset e?, env, env', a, h => by
    rw [checkStmt] at h
    obtain ⟨b, hb, h⟩ := bind_eq_ok.mp h
    cases h
    exact steps_checkReturn hb

theorem steps_checkStmts : ∀ {ss : List Code.Stmt} {env env' : Env} {a : Action},
    env.checkStmts ss = .ok (a, env') → env.Steps a env'
  | [], env, env', a, h => by
    rw [checkStmts] at h
    cases h
    exact .skip env
  | s :: ss, env, env', a, h => by
    rw [checkStmts] at h
    obtain ⟨⟨b, mid⟩, hb, h⟩ := bind_eq_ok.mp h
    obtain ⟨⟨c, last⟩, hc, h⟩ := bind_eq_ok.mp h
    cases h
    exact (steps_checkStmt hb).seq (steps_checkStmts hc)

end

end Env
end KernelForge
