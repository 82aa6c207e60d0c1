/-
Scripts as the device runs them.

A script is checked to an action, which computes one variable after the other.  The variables of a
script have slots of their own, above those that were in use before it; so a script keeps what was
computed before, and what it computed is kept by the scripts that follow.
-/
import KernelForge.Program.Stmt
import KernelForge.Proofs.Formula.Checking

namespace KernelForge

open Exec (Quiet)

/-! ### Actions -/

namespace Action

/-- An action that changes the variables and then goes on. -/
def Does (a : Action) (f : Vars → Exec Vars) : Prop :=
  ∀ call item rounds vars, a.run call item rounds vars = f vars >>= fun vars => pure (.next, vars)

variable {a b : Action} {f g : Vars → Exec Vars}

theorem does_skip : Action.skip.Does pure := by
  intro call item rounds vars
  rw [Action.run, pure_bind]
  rfl

theorem Does.seq (ha : a.Does f) (hb : b.Does g) : (Action.seq a b).Does fun vars => f vars >>= g := by
  intro call item rounds vars
  rw [Action.run, ha call item rounds, bind_assoc, bind_assoc]
  simp only [pure_bind]
  congr 1
  funext vars
  exact hb call item rounds vars

theorem Does.congr (ha : a.Does f) (hfg : ∀ vars, f vars = g vars) : a.Does g := by
  intro call item rounds vars
  rw [ha call item rounds vars, hfg]

/-- Running one action after two others, however they are grouped. -/
theorem run_seq_assoc (a b c : Action) (call : Caller) (item : WorkItem) (rounds : Nat) (vars : Vars) :
    (Action.seq a (.seq b c)).run call item rounds vars =
      (Action.seq (.seq a b) c).run call item rounds vars := by
  rw [Action.run, Action.run, Action.run]
  simp only [bind_assoc]
  congr 1
  funext r
  obtain ⟨flow, vars⟩ := r
  cases flow with
  | next => simp only [Action.run]
  | _ => simp only [pure_bind]

end Action

/-! ### Trees -/

theorem Env.checkStmts_append {ss₂ : List Code.Stmt} {env₁ env₂ : Env} {b : Action} :
    ∀ {ss₁ : List Code.Stmt} {env : Env} {a : Action}, env.checkStmts ss₁ = .ok (a, env₁) →
      env₁.checkStmts ss₂ = .ok (b, env₂) →
      ∃ c, env.checkStmts (ss₁ ++ ss₂) = .ok (c, env₂) ∧ ∀ call item rounds vars,
        c.run call item rounds vars = (Action.seq a b).run call item rounds vars
  | [], env, a, h₁, h₂ => by
    rw [Env.checkStmts] at h₁
    cases h₁
    refine ⟨b, h₂, fun call item rounds vars => ?_⟩
    rw [Action.run, Action.run]
    rfl
  | s :: ss₁, env, a, h₁, h₂ => by
    rw [Env.checkStmts] at h₁
    obtain ⟨⟨first, env'⟩, hfirst, h₁⟩ := bind_eq_ok.mp h₁
    obtain ⟨⟨rest, env''⟩, hrest, h₁⟩ := bind_eq_ok.mp h₁
    cases h₁
    obtain ⟨c, hc, hrun⟩ := checkStmts_append hrest h₂
    refine ⟨.seq first c, ?_, fun call item rounds vars => ?_⟩
    · rw [List.cons_append, Env.checkStmts, hfirst]
      show (env'.checkStmts (ss₁ ++ ss₂) >>= _) = _
      rw [hc]
      rfl
    · rw [← Action.run_seq_assoc, Action.run, Action.run]
      congr 1
      funext r
      obtain ⟨flow, vars⟩ := r
      cases flow with
      | next => exact hrun call item rounds vars
      | _ => rfl

/-- A single statement. -/
theorem Env.checkStmts_single {env env' : Env} {s : Code.Stmt} {a : Action} {f : Vars → Exec Vars}
    (h : env.checkStmt s = .ok (a, env')) (ha : a.Does f) :
    ∃ b, env.checkStmts [s] = .ok (b, env') ∧ b.Does f := by
  refine ⟨.seq a .skip, ?_, (ha.seq Action.does_skip).congr fun vars => bind_pure _⟩
  have hrest : env'.checkStmts [] = .ok (.skip, env') := by rw [Env.checkStmts]
  rw [Env.checkStmts]
  exact bind_eq_ok.mpr ⟨(a, env'), h, bind_eq_ok.mpr ⟨(.skip, env'), hrest, rfl⟩⟩

theorem Script.trees_append : ∀ {a b : Script} {ss : List Code.Stmt}, (a ++ b).Trees ss →
    ∃ ss₁ ss₂, ss = ss₁ ++ ss₂ ∧ a.Trees ss₁ ∧ b.Trees ss₂
  | .done, b, ss, h => ⟨[], ss, rfl, rfl, h⟩
  | .declare t x r next, b, ss, h => by
    obtain ⟨spec, o, e, ss', rfl, hspec, he, hnext⟩ := h
    obtain ⟨ss₁, ss₂, rfl, h₁, h₂⟩ := trees_append hnext
    exact ⟨_ :: ss₁, ss₂, rfl, ⟨spec, o, e, ss₁, rfl, hspec, he, h₁⟩, h₂⟩
  | .guard negated x body next, b, ss, h => by
    obtain ⟨o, e, o', bs, ss', rfl, he, hbody, hnext⟩ := h
    obtain ⟨ss₁, ss₂, rfl, h₁, h₂⟩ := trees_append hnext
    exact ⟨_ :: ss₁, ss₂, rfl, ⟨o, e, o', bs, ss₁, rfl, he, hbody, h₁⟩, h₂⟩
  | .assign place a next, b, ss, h => by
    obtain ⟨x, o, y, ss', rfl, hx, hy, hnext⟩ := h
    obtain ⟨ss₁, ss₂, rfl, h₁, h₂⟩ := trees_append hnext
    exact ⟨_ :: ss₁, ss₂, rfl, ⟨x, o, y, ss₁, rfl, hx, hy, h₁⟩, h₂⟩

/-! ### Variables -/

namespace Vars

/-- The same values in the first `n` slots. -/
structure Agree (n : Nat) (vars vars' : Vars) : Prop where
  size : vars'.size = vars.size
  same : ∀ i < n, vars'.at i = vars.at i

variable {n m : Nat} {vars vars' vars'' : Vars}

theorem agree_refl (n : Nat) (vars : Vars) : Agree n vars vars := ⟨rfl, fun _ _ => rfl⟩

theorem Agree.trans (h : Agree n vars vars') (h' : Agree m vars' vars'') (hle : n ≤ m) :
    Agree n vars vars'' :=
  ⟨h'.size.trans h.size, fun i hi => (h'.same i (by omega)).trans (h.same i hi)⟩

theorem Agree.mono (h : Agree m vars vars') (hle : n ≤ m) : Agree n vars vars' :=
  ⟨h.size, fun i hi => h.same i (by omega)⟩

theorem agree_set {slot : Nat} (h : n ≤ slot) (vars : Vars) (v : Value) :
    Agree n vars (vars.setIfInBounds slot v) := by
  refine ⟨Array.size_setIfInBounds, fun i hi => ?_⟩
  have hne : slot ≠ i := by omega
  simp only [Vars.at, Array.getD_eq_getD_getElem?, Array.getElem?_setIfInBounds_ne hne]

theorem at_set {slot : Nat} (h : slot < vars.size) (v : Value) :
    Vars.at (vars.setIfInBounds slot v) slot = v := by
  simp [Vars.at, Array.getD_eq_getD_getElem?, Array.getElem?_setIfInBounds_self_of_lt h]

/-- What looks at the first `n` slots, and perhaps at memories, but changes nothing. -/
structure Looks {α : Type} (n : Nat) (g : Vars → Exec α) : Prop where
  quiet : ∀ vars, Quiet (g vars)
  stable : ∀ {vars vars'}, Agree n vars vars' → g vars' = g vars

theorem looks_at {slot : Nat} (h : slot < n) : Looks n fun vars => (pure (vars.at slot) : Exec Value) :=
  ⟨fun _ => Exec.quiet_pure _, fun hagree => by rw [hagree.same slot h]⟩

theorem looks_const {α : Type} {x : Exec α} (hx : Quiet x) : Looks n fun _ => x :=
  ⟨fun _ => hx, fun _ => rfl⟩

theorem Looks.mono {α : Type} {g : Vars → Exec α} (hg : Looks n g) (hle : n ≤ m) : Looks m g :=
  ⟨hg.quiet, fun hagree => hg.stable (hagree.mono hle)⟩

theorem Looks.bind {α β : Type} {g : Vars → Exec α} {k : α → Vars → Exec β} (hg : Looks n g)
    (hk : ∀ a, Looks n (k a)) : Looks n fun vars => g vars >>= fun a => k a vars := by
  refine ⟨fun vars => (hg.quiet vars).bind fun a => (hk a).quiet vars, fun hagree => ?_⟩
  simp only [hg.stable hagree, (hk _).stable hagree]

end Vars

open Vars (Looks)

/-! ### Environments -/

namespace Env

/-- An environment that finds what another one does, and perhaps more. -/
structure Grows (env env' : Env) : Prop where
  structs : env'.structs = env.structs
  fp64 : env'.fp64 = env.fp64
  finds : ∀ {x v}, env.find? x = some v → env'.find? x = some v
  slots : env.slots ≤ env'.slots

/-- Variables have names that are taken and slots that are in use, and hide no function. -/
structure Within (names : Names) (env : Env) : Prop where
  named : ∀ {x v}, env.find? x = some v → x ∈ names.taken
  slotted : ∀ {x v}, env.find? x = some v → v.slot < env.slots
  clear : ∀ fn : Builtin, env.find? fn.name = none

variable {env env' env'' : Env} {names : Names} {x y : String} {t : Ty} {readOnly : Bool}

theorem grows_refl (env : Env) : env.Grows env := ⟨rfl, rfl, id, Nat.le_refl _⟩

theorem Grows.trans (h : env.Grows env') (h' : env'.Grows env'') : env.Grows env'' :=
  ⟨h'.structs.trans h.structs, h'.fp64.trans h.fp64, fun hx => h'.finds (h.finds hx),
    Nat.le_trans h.slots h'.slots⟩

theorem Grows.resolves (h : env.Grows env') (ht : env.Resolves t) : env'.Resolves t := by
  intro spec hspec
  rw [← ht spec hspec, resolve, resolve, typeNamed?, typeNamed?, h.structs, h.fp64]

theorem Grows.integers (h : env.Grows env') (henv : env.KnowsIntegers) : env'.KnowsIntegers :=
  fun s hs => h.resolves (henv s hs)

theorem grows_openScope (env : Env) : env.Grows env.openScope := ⟨rfl, rfl, id, Nat.le_refl _⟩

theorem Within.openScope (h : env.Within names) : env.openScope.Within names :=
  ⟨h.named, h.slotted, h.clear⟩

theorem grows_closeTo {inner : Env} (h : env.slots ≤ inner.slots) : env.Grows (env.closeTo inner) :=
  ⟨rfl, rfl, id, h⟩

/-- An environment with one more variable. -/
def extend (env : Env) (x : String) (t : Ty) (readOnly : Bool) : Env :=
  let v : Variable := { slot := env.slots, type := NamedTy.ofTy t, readOnly }
  { env with scopes := ((x, v) :: env.scopes.head?.getD []) :: env.scopes.tail, slots := env.slots + 1 }

theorem find?_extend_self (env : Env) (x : String) (t : Ty) (readOnly : Bool) :
    (env.extend x t readOnly).find? x =
      some { slot := env.slots, type := NamedTy.ofTy t, readOnly } := by
  simp [find?, extend]

theorem find?_extend_ne (h : y ≠ x) : (env.extend x t readOnly).find? y = env.find? y := by
  have hne : (y == x) = false := beq_eq_false_iff_ne.mpr h
  cases hscopes : env.scopes with
  | nil => simp [find?, extend, hscopes, List.lookup_cons, hne]
  | cons scope scopes => simp [find?, extend, hscopes, List.findSome?_cons, List.lookup_cons, hne]

theorem lookup_scope (h : env.find? x = none) : (env.scopes.head?.getD []).lookup x = none := by
  cases hscopes : env.scopes with
  | nil => rfl
  | cons scope scopes =>
    rw [find?, hscopes, List.findSome?_cons] at h
    cases hscope : scope.lookup x with
    | none => exact hscope
    | some v => rw [hscope] at h; cases h

theorem declare_extend (h : env.find? x = none) (o : Nat) :
    env.declare ⟨o, x⟩ (NamedTy.ofTy t) readOnly = .ok (env.slots, env.extend x t readOnly) := by
  rw [declare]
  simp only [lookup_scope h, Option.isSome_none, Bool.false_eq_true, if_false]
  rfl

theorem grows_extend (h : env.find? x = none) (t : Ty) (readOnly : Bool) :
    env.Grows (env.extend x t readOnly) := by
  refine ⟨rfl, rfl, fun {y v} hy => ?_, Nat.le_succ _⟩
  rw [find?_extend_ne]
  · exact hy
  · rintro rfl
    rw [h] at hy
    cases hy

/-! Types are known in every scope. -/

@[simp] theorem resolve_openScope (env : Env) : env.openScope.resolve = env.resolve := rfl

@[simp] theorem resolve_extend (env : Env) (x : String) (t : Ty) (readOnly : Bool) :
    (env.extend x t readOnly).resolve = env.resolve := rfl

/-- The name of a function is no name that is handed out to a variable. -/
theorem indexed_ne_builtin (names : Names) (fn : Builtin) : (names.indexed "_v").1 ≠ fn.name := by
  intro heq
  have hhead : (names.indexed "_v").1.toList.head? = some '_' := by
    rw [Names.indexed, Names.indexedName, String.toList_append]
    rfl
  rw [heq] at hhead
  revert hhead
  cases fn <;> decide

theorem Within.find?_indexed (h : env.Within names) (root : String) :
    env.find? (names.indexed root).1 = none := by
  cases hfind : env.find? (names.indexed root).1 with
  | none => rfl
  | some v => exact absurd (h.named hfind) (names.indexed_notMem root)

theorem Within.extend (h : env.Within names) (t : Ty) :
    (env.extend (names.indexed "_v").1 t false).Within (names.indexed "_v").2 := by
  refine ⟨fun {y v} hy => ?_, fun {y v} hy => ?_, fun fn => ?_⟩
  · rw [Names.taken_indexed]
    by_cases hyx : y = (names.indexed "_v").1
    · exact hyx ▸ List.mem_cons_self
    · rw [find?_extend_ne hyx] at hy
      exact List.mem_cons_of_mem _ (h.named hy)
  · by_cases hyx : y = (names.indexed "_v").1
    · subst hyx
      rw [find?_extend_self] at hy
      cases hy
      exact Nat.lt_succ_self _
    · rw [find?_extend_ne hyx] at hy
      exact Nat.lt_succ_of_lt (h.slotted hy)
  · rw [find?_extend_ne (indexed_ne_builtin names fn).symm]
    exact h.clear fn

end Env

/-! ### Statements -/

namespace Env

variable {env inner : Env} {t : Ty} {x y z : Checked} {e e' : Code.Expr}

/-- The declaration of a variable with its value. -/
theorem check_declaration {name : String} (hfree : env.find? name = none) {spec : Code.TypeSpec}
    (hspec : env.resolve spec = .ok (NamedTy.ofTy t)) {readOnly : Bool}
    (hread : (spec.readOnly && !spec.pointer) = readOnly) (hvoid : t ≠ .void)
    (hy : env.checkExpr e = .ok y) (hz : y.convert e.offset (NamedTy.ofTy t) = .ok z) (o : Nat) :
    env.checkStmt (.simple (.decl spec [(⟨o, name⟩, some e)])) =
      .ok (.seq (.declare env.slots t (some z.term)) .skip, env.extend name t readOnly) := by
  have hinit : env.checkInit (NamedTy.ofTy t) readOnly ⟨o, name⟩ (some e) = .ok (some z.term) := by
    rw [checkInit, hy]
    show (do let x ← y.convert e.offset (NamedTy.ofTy t); _) = _
    rw [hz]
    rfl
  have hvars : env.checkVariables (NamedTy.ofTy t) readOnly [(⟨o, name⟩, some e)] =
      .ok (.seq (.declare env.slots t (some z.term)) .skip, env.extend name t readOnly) := by
    rw [checkVariables, hinit]
    show (env.declare ⟨o, name⟩ (NamedTy.ofTy t) readOnly >>= _) = _
    rw [declare_extend hfree, NamedTy.ty_ofTy]
    rfl
  rw [checkStmt, checkSimple, hspec]
  show (if (NamedTy.ofTy t).ty = .void then _ else env.checkVariables _ _ _) = _
  rw [NamedTy.ty_ofTy, if_neg hvoid, hread, hvars]

theorem check_assignment (hx : env.checkExpr e = .ok x) {p : Place} (hplace : x.place? = some p)
    (hmutable : x.readOnly = false) (hy : env.checkExpr e' = .ok y) {o : Nat}
    (hz : y.convert o x.type = .ok z) :
    env.checkStmt (.simple (.assign e o .assign e')) = .ok (.assign p z.term, env) := by
  have hassign : assignable o x = .ok p := by
    simp [assignable, hplace, hmutable]
  rw [checkStmt, checkSimple, hx, hy]
  simp only [binaryOf?, hassign, hz, bind, Except.bind]
  rfl

/-- Statements under a condition. -/
theorem check_branch {test : Term} (htest : env.checkTest e = .ok test) {ss : List Code.Stmt}
    {yes : Action} (hyes : env.openScope.openScope.checkStmts ss = .ok (yes, inner)) (o o' : Nat) :
    env.checkStmt (.ifThen o e (.block o' ss)) = .ok (.branch test yes .skip, env.closeTo inner) := by
  rw [checkStmt, htest]
  show (env.openScope.checkStmt (.block o' ss) >>= _) = _
  rw [checkStmt, hyes]
  rfl

end Env

/-! ### Operands as readers -/

section Readers

variable {env env' : Env} {names : Names} {t : Ty} {g : Vars → Exec Value}

theorem Value.quiet_elementAt (t : Ty) (p i : Value) : Quiet (p.elementAt t i) := by
  unfold elementAt
  refine (Exec.quiet_of_spares fun m => spares_toWord _ _ _).bind fun j => ?_
  refine (Exec.quiet_of_spares fun m => spares_toPointer _).bind fun q => ?_
  split
  · exact Exec.quiet_of_spares (P := fun _ _ => True) fun m => Exec.spares_fail _
  · exact Exec.quiet_pure _

theorem Exec.quiet_load (m : Nat) (offset : BitVec 64) (t : Ty) : Quiet (Exec.load m offset t) :=
  fun _ => rfl

theorem Index.Stands.mono {i : Index} (h : i.Stands env g) (henv : env.Grows env') :
    i.Stands env' g := by
  cases h with
  | var hfind htype hs => exact .var (henv.finds hfind) htype hs
  | literal hn => exact .literal hn
  | offset hfind htype hs hn => exact .offset (henv.finds hfind) htype hs hn

theorem Index.quiet_after (s : Scalar) (v : Value) (n : Nat) : Quiet (Index.after s v n) := by
  unfold after
  refine (Value.quiet_convert _ _ _).bind fun v => (Value.quiet_convert _ _ _).bind fun w => ?_
  exact (Exec.quiet_of_spares fun m => Value.spares_binary _ _ _ _).bind fun i =>
    Value.quiet_convert _ _ i

theorem Index.Stands.looks {i : Index} (h : i.Stands env g) (henv : env.Within names) :
    Looks env.slots g := by
  cases h with
  | var hfind htype hs =>
    refine ⟨fun vars => Value.quiet_convert _ _ _, fun hagree => ?_⟩
    rw [hagree.same _ (henv.slotted hfind)]
  | literal hn => exact Vars.looks_const (Exec.quiet_pure _)
  | offset hfind htype hs hn =>
    refine ⟨fun vars => quiet_after _ _ _, fun hagree => ?_⟩
    rw [hagree.same _ (henv.slotted hfind)]

theorem Source.Stands.mono {a : Source} (h : a.Stands env t g) (henv : env.Grows env') :
    a.Stands env' t g := by
  cases h with
  | var hfind htype => exact .var (henv.finds hfind) htype
  | element hfind htype hi => exact .element (henv.finds hfind) htype (hi.mono henv)

theorem Source.Stands.looks {a : Source} (h : a.Stands env t g) (henv : env.Within names) :
    Looks env.slots g := by
  cases h with
  | var hfind htype => exact Vars.looks_at (henv.slotted hfind)
  | element hfind htype hi =>
    have hi := hi.looks henv
    refine ⟨fun vars => ?_, fun {vars vars'} hagree => ?_⟩
    · exact (hi.quiet vars).bind fun j =>
        (Value.quiet_elementAt _ _ _).bind fun l => Exec.quiet_load _ _ _
    · rw [hi.stable hagree, hagree.same _ (henv.slotted hfind)]

theorem Operand.Stands.mono {a : Operand} (h : a.Stands env t g) (henv : env.Grows env') :
    a.Stands env' t g := by
  cases h with
  | source ha => exact .source (ha.mono henv)
  | literal hi hplain => exact .literal hi hplain

theorem Operand.Stands.looks {a : Operand} (h : a.Stands env t g) (henv : env.Within names) :
    Looks env.slots g := by
  cases h with
  | source ha => exact ha.looks henv
  | literal hi hplain => exact Vars.looks_const (Exec.quiet_pure _)

theorem Operand.StandAll.looks {as : List Operand} {ts : List Ty} {gs : List (Vars → Exec Value)}
    (h : StandAll env as ts gs) (henv : env.Within names) : ∀ g ∈ gs, Looks env.slots g := by
  induction h with
  | nil => nofun
  | cons ha has ih => exact List.forall_mem_cons.mpr ⟨ha.looks henv, ih⟩

theorem Operand.StandAll.length_eq {as : List Operand} {ts : List Ty}
    {gs : List (Vars → Exec Value)} (h : StandAll env as ts gs) : gs.length = ts.length := by
  induction h with
  | nil => rfl
  | cons ha has ih => rw [List.length_cons, ih, List.length_cons]

end Readers

/-! ### Scripts -/

/-- A condition: what is true, or what is not. -/
def Value.test (negated : Bool) (v : Value) : Exec Bool :=
  if negated then v.unary .not (.scalar .bool) >>= Value.toBool else v.toBool

theorem Value.quiet_test (negated : Bool) (v : Value) : Quiet (v.test negated) := by
  unfold Value.test
  split
  · exact (Exec.quiet_of_spares fun m => spares_unary _ _ _).bind fun w =>
      Exec.quiet_of_spares fun m => spares_toBool w
  · exact Exec.quiet_of_spares fun m => spares_toBool v

namespace Script

/-- A script as the device runs it: its statements change the variables as `f` does, but none of
the first `n`, and all that was found before is found after it. -/
structure Performs (n : Nat) (env : Env) (script : Script) (env' : Env) (f : Vars → Exec Vars) :
    Prop where
  check : ∀ ss, script.Trees ss → ∃ a, env.checkStmts ss = .ok (a, env') ∧ a.Does f
  quiet : ∀ vars, Quiet (f vars)
  keeps : ∀ {vars vars'}, Exec.Yields (f vars) vars' → Vars.Agree n vars vars'
  grows : env.Grows env'

variable {n m : Nat} {env env' env'' : Env} {a b : Script} {f h : Vars → Exec Vars}

theorem Performs.mono (ha : Performs n env a env' f) (h : m ≤ n) : Performs m env a env' f where
  check := ha.check
  quiet := ha.quiet
  keeps := fun hy => (ha.keeps hy).mono h
  grows := ha.grows

theorem performs_done (n : Nat) (env : Env) : Performs n env done env pure where
  check := by
    rintro _ rfl
    exact ⟨.skip, by rw [Env.checkStmts], Action.does_skip⟩
  quiet := fun _ => Exec.quiet_pure _
  keeps := fun hy => Exec.yields_pure hy ▸ Vars.agree_refl n _
  grows := env.grows_refl

/-- One script after another. -/
theorem Performs.append (ha : Performs n env a env' f) (hb : Performs m env' b env'' h) (hnm : n ≤ m) :
    Performs n env (a ++ b) env'' fun vars => f vars >>= h where
  check := by
    intro ss hss
    obtain ⟨ss₁, ss₂, rfl, hss₁, hss₂⟩ := trees_append hss
    obtain ⟨x, hx, hxf⟩ := ha.check ss₁ hss₁
    obtain ⟨y, hy, hyf⟩ := hb.check ss₂ hss₂
    obtain ⟨z, hz, hrun⟩ := Env.checkStmts_append hx hy
    refine ⟨z, hz, fun call item rounds vars => ?_⟩
    rw [hrun]
    exact hxf.seq hyf call item rounds vars
  quiet := fun vars => (ha.quiet vars).bind hb.quiet
  keeps := by
    intro vars vars'' hy
    obtain ⟨vars', hvars', hvars''⟩ := (ha.quiet vars).yields_bind hy
    exact (ha.keeps hvars').trans (hb.keeps hvars'') hnm
  grows := ha.grows.trans hb.grows

variable {s t : Ty} {x : String} {g : Vars → Exec Value}

/-- The variables after the value of an expression has been put into a slot. -/
def putting (s t : Ty) (g : Vars → Exec Value) (slot : Nat) (vars : Vars) : Exec Vars :=
  g vars >>= fun v => v.convert s t >>= fun v => pure (vars.setIfInBounds slot v)

theorem quiet_putting (hg : ∀ vars, Quiet (g vars)) (slot : Nat) (vars : Vars) :
    Quiet (putting s t g slot vars) :=
  (hg vars).bind fun v => (Value.quiet_convert s t v).bind fun _ => Exec.quiet_pure _

theorem keeps_putting (hg : ∀ vars, Quiet (g vars)) {slot : Nat} (hn : n ≤ slot) {vars vars' : Vars}
    (hy : Exec.Yields (putting s t g slot vars) vars') : Vars.Agree n vars vars' := by
  obtain ⟨v, -, hy⟩ := (hg vars).yields_bind hy
  obtain ⟨w, -, hy⟩ := (Value.quiet_convert s t v).yields_bind hy
  rw [Exec.yields_pure hy]
  exact Vars.agree_set hn vars w

/-- The declaration of a variable. -/
theorem performs_declare (hfree : env.find? x = none) (ht : env.Resolves t) (hvoid : t ≠ .void)
    {r : Operation} (hr : env.Checks r.Tree s g) (hconv : Ty.Converts s t)
    (hg : ∀ vars, Quiet (g vars)) :
    Performs env.slots env (declare t x r done) (env.extend x t false) (putting s t g env.slots) where
  check := by
    rintro _ ⟨spec, o, e, _, rfl, hspec, he, rfl⟩
    obtain ⟨y, hy, hmeans⟩ := hr e he
    obtain ⟨z, hz, hmeans'⟩ := hmeans.convert hconv e.offset
    have hread : (spec.readOnly && !spec.pointer) = false := by
      rw [hspec.readOnly]
      rfl
    refine Env.checkStmts_single (Env.check_declaration hfree (ht spec hspec) hread hvoid hy hz o) ?_
    intro call item rounds vars
    have hz' := hmeans'.value call { item, vars }
    simp only [Action.run, hz', putting, bind_assoc, pure_bind]
    rfl
  quiet := quiet_putting hg env.slots
  keeps := keeps_putting hg (Nat.le_refl _)
  grows := Env.grows_extend hfree t false

theorem performs_assign {v : Variable} (hfind : env.find? x = some v) (htype : v.type = NamedTy.ofTy t)
    (hmutable : v.readOnly = false) {o : Operand} (ho : env.Checks o.Tree s g)
    (hconv : Ty.Converts s t) (hg : ∀ vars, Quiet (g vars)) (hn : n ≤ v.slot) :
    Performs n env (assign (.var x) o done) env (putting s t g v.slot) where
  check := by
    rintro _ ⟨_, offset, e, _, rfl, ⟨o', rfl⟩, he, rfl⟩
    obtain ⟨y, hy, hmeans⟩ := ho e he
    have htype' : (Checked.ofVariable v).type = NamedTy.ofTy t := htype
    obtain ⟨z, hz, hmeans'⟩ := hmeans.convert hconv offset
    rw [← htype'] at hz
    refine Env.checkStmts_single
      (Env.check_assignment (Env.check_ident hfind o') rfl hmutable hy hz) ?_
    intro call item rounds vars
    have hz' := hmeans'.value call { item, vars }
    simp only [Action.run, hz', putting, bind_assoc, pure_bind, Place.locate]
    rfl
  quiet := quiet_putting hg v.slot
  keeps := keeps_putting hg hn
  grows := env.grows_refl

/-- What is done under a condition. -/
def guarding (negated : Bool) (slot : Nat) (f : Vars → Exec Vars) (vars : Vars) : Exec Vars :=
  (vars.at slot).test negated >>= fun b => if b then f vars else pure vars

theorem check_test {v : Variable} (henv : env.KnowsIntegers) (hfind : env.find? x = some v)
    (htype : v.type = .scalar .bool) {negated : Bool} {e : Code.Expr} (he : TestTree negated x e) :
    ∃ test, env.checkTest e = .ok test ∧ ∀ call frame,
      test.eval call frame >>= Value.toBool = (frame.vars.at v.slot).test negated := by
  have hstands : (Operand.source (.var x)).Stands env (.scalar .bool) fun vars => pure (vars.at v.slot) :=
    .source (.var hfind htype)
  obtain ⟨y, g, hy, hmeans, hg⟩ : ∃ y g, env.checkExpr e = .ok y ∧ y.Means (.scalar .bool) g ∧
      ∀ vars : Vars, g vars >>= Value.toBool = (vars.at v.slot).test negated := by
    cases negated with
    | false =>
      obtain ⟨y, hy, hmeans⟩ := hstands.check henv e he
      exact ⟨y, _, hy, hmeans, fun vars => by rw [pure_bind]; rfl⟩
    | true =>
      obtain ⟨o, o', rfl⟩ := he
      have hnot : Formula.unaryTy? .not (.scalar .bool) = some (.scalar .bool) := rfl
      obtain ⟨y, hy, hmeans⟩ := Operation.checks_unary henv hstands hnot
        (.unary o .not (.ident ⟨o', x⟩)) ⟨o, _, rfl, o', rfl⟩
      refine ⟨y, _, hy, hmeans, fun vars => ?_⟩
      simp only [pure_bind, Value.convert_self]
      rfl
  obtain ⟨z, hz, hmeans'⟩ := hmeans.truth e.offset
  refine ⟨z.term, ?_, fun call frame => ?_⟩
  · rw [Env.checkTest, hy]
    show (do return (← y.truth e.offset).term) = _
    rw [hz]
    rfl
  · rw [hmeans'.value, funext (Value.convert_self _), bind_pure]
    exact hg frame.vars

/-- Statements under a condition. -/
theorem performs_guard {v : Variable} {inner : Env} {body : Script} (henv : env.KnowsIntegers)
    (hfind : env.find? x = some v) (htype : v.type = .scalar .bool) (negated : Bool)
    (hbody : Performs n env.openScope.openScope body inner f) :
    Performs n env (guard negated x body done) (env.closeTo inner) (guarding negated v.slot f) where
  check := by
    rintro _ ⟨o, e, o', bs, _, rfl, he, hbs, rfl⟩
    obtain ⟨test, htest, hvalue⟩ := check_test henv hfind htype he
    obtain ⟨yes, hyes, hdoes⟩ := hbody.check bs hbs
    refine Env.checkStmts_single (Env.check_branch htest hyes o o') fun call item rounds vars => ?_
    have hif : ∀ b : Bool, (if b = true then yes.run call item rounds vars
        else Action.skip.run call item rounds vars) =
        (if b then f vars else pure vars) >>= fun vars => pure (.next, vars) := by
      intro b
      cases b with
      | true => exact hdoes call item rounds vars
      | false => exact Action.does_skip call item rounds vars
    rw [Action.run, guarding, ← hvalue call { item, vars }, bind_assoc, bind_assoc]
    simp only [hif]
  quiet := fun vars => (Value.quiet_test _ _).bind fun b => by
    split
    · exact hbody.quiet vars
    · exact Exec.quiet_pure _
  keeps := by
    intro vars vars' hy
    obtain ⟨b, -, hy⟩ := (Value.quiet_test _ _).yields_bind hy
    split at hy
    · exact hbody.keeps hy
    · exact Exec.yields_pure hy ▸ Vars.agree_refl n vars
  grows := Env.grows_closeTo hbody.grows.slots

end Script

end KernelForge
