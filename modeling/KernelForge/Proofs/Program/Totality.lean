/-
Building ends with a program or with a log that says why not.

The checker stops by itself in one case only: the parser read a literal as a vector because its
type is spelled as one, and the name of the type means something else.  The names that types of
the language have are not reserved, so a structure may take one of them.  Everything else that is
wrong with a source is a complaint, which the builder notes before it goes on.
-/
import KernelForge.Proofs.Code.TypeUses
import KernelForge.Proofs.Program.Moments

namespace KernelForge

/-! ### Checks that end -/

/-- A check ends with a result or with a complaint. -/
def Orderly {α : Type} (r : Check α) : Prop := r ≠ .error .collapse

section
variable {α β : Type}

theorem orderly_ok {a : α} : Orderly (.ok a : Check α) := nofun

theorem orderly_complain {offset : Nat} {e : CheckError} :
    Orderly (complain offset e : Check α) := nofun

/-- A sequence of checks ends when each of its steps does. -/
theorem orderly_bind {x : Check α} {f : α → Check β} (hx : Orderly x)
    (hf : ∀ a, x = .ok a → Orderly (f a)) : Orderly (x >>= f) := by
  cases x with
  | ok a => exact hf a rfl
  | error o =>
    intro h
    cases h
    exact hx rfl

end

namespace Checked

variable {offset : Nat} {x y : Checked} {t : NamedTy}

theorem orderly_convert : Orderly (x.convert offset t) := by
  unfold convert
  split
  · exact orderly_ok
  · split
    · exact orderly_ok
    · exact orderly_ok
    · split
      · exact orderly_ok
      · exact orderly_complain
    · exact orderly_complain

theorem orderly_truth : Orderly (x.truth offset) := by
  unfold truth
  split
  · exact orderly_convert
  · exact orderly_complain

theorem orderly_not : Orderly (x.not offset) :=
  orderly_bind orderly_truth fun _ _ => orderly_ok

theorem orderly_unary {op : Operator} : Orderly (x.unary offset op) := by
  have hrest : ∀ (t : NamedTy) (s : Scalar), Orderly (do
      if op = .xor && !s.isInteger then complain offset (.unaryOperand x.type.ty)
      else
        let y ← x.convert offset t
        return ({ type := t, term := .unary op t.ty y.term } : Checked)) := by
    intro t s
    split
    · exact orderly_complain
    · exact orderly_bind orderly_convert fun _ _ => orderly_ok
  unfold unary
  split
  · exact hrest _ _
  · exact hrest _ _
  · exact orderly_complain

theorem orderly_advance {op : Operator} : Orderly (advance offset op x y) := by
  unfold advance
  dsimp only
  split
  · split
    · exact orderly_complain
    · exact orderly_bind orderly_convert fun _ _ => orderly_ok
  · exact orderly_complain

theorem orderly_logical {op : Operator} : Orderly (logical offset op x y) := by
  have hloop : Orderly (forIn [x, y] PUnit.unit fun operand _ => do
      if !operand.type.isScalar then complain offset (.logicalOperand operand.type.ty)
      pure (ForInStep.yield PUnit.unit) : Check PUnit) := by
    cases hx : x.type.isScalar <;> cases hy : y.type.isScalar <;>
      simp [hx, hy, Orderly, complain, bind, Except.bind, pure, Except.pure]
  refine orderly_bind hloop fun _ _ => ?_
  refine orderly_bind orderly_convert fun _ _ => ?_
  exact orderly_bind orderly_convert fun _ _ => orderly_ok

theorem orderly_arithmetic {op : Operator} : Orderly (arithmetic offset op x y) := by
  unfold arithmetic
  split
  · split
    · exact orderly_complain
    · refine orderly_bind orderly_convert fun _ _ => ?_
      exact orderly_bind orderly_convert fun _ _ => orderly_ok
  · split
    · exact orderly_complain
    · split
      · exact orderly_complain
      · refine orderly_bind orderly_convert fun _ _ => ?_
        exact orderly_bind orderly_convert fun _ _ => orderly_ok
  · exact orderly_complain

theorem orderly_binary {op : Operator} : Orderly (binary offset op x y) := by
  unfold binary
  split
  · exact orderly_logical
  · split
    · exact orderly_advance
    · split
      · exact orderly_advance
      · exact orderly_arithmetic

theorem orderly_choose {test : Checked} {offset' : Nat} :
    Orderly (choose test x y offset offset') := by
  have hrest : ∀ common : NamedTy, Orderly (do
      let x ← x.convert offset common
      let y ← y.convert offset' common
      return ({ type := common, term := .cond test.term x.term y.term } : Checked)) := by
    intro common
    refine orderly_bind orderly_convert fun _ _ => ?_
    exact orderly_bind orderly_convert fun _ _ => orderly_ok
  unfold choose
  split
  · exact hrest _
  · split
    · exact hrest _
    · exact orderly_complain

theorem orderly_castTo : Orderly (x.castTo offset t) := by
  unfold castTo
  dsimp only
  split
  · split
    · exact orderly_convert
    · exact orderly_complain
  · exact orderly_convert
  · split
    · split
      · exact orderly_ok
      · exact orderly_complain
    · exact orderly_complain
  · exact orderly_ok
  · split
    · exact orderly_ok
    · exact orderly_complain

theorem orderly_deref : Orderly (x.deref offset y) := by
  unfold deref
  split
  · exact orderly_ok
  · exact orderly_complain

theorem orderly_subscript : Orderly (x.subscript offset y) := by
  unfold subscript
  split
  · split
    · exact orderly_bind orderly_convert fun _ _ => orderly_deref
    · exact orderly_complain
  · exact orderly_complain

theorem orderly_addressOf {form : String} : Orderly (x.addressOf offset form) := by
  unfold addressOf
  split
  · exact orderly_ok
  · exact orderly_complain

theorem orderly_select {id : Code.Ident} : Orderly (x.select id) := by
  unfold select
  split
  · split
    · exact orderly_complain
    · exact orderly_ok
  · split
    · exact orderly_complain
    · dsimp only
      split
      · exact orderly_ok
      · split
        · exact orderly_ok
        · exact orderly_complain
  · exact orderly_complain

theorem orderly_convertAll (os : List Nat) (xs : List Checked) (ts : List NamedTy) :
    Orderly (convertAll os xs ts) := by
  induction os generalizing xs ts with
  | nil => exact orderly_ok
  | cons o os ih =>
    cases xs with
    | nil => exact orderly_ok
    | cons x xs =>
      cases ts with
      | nil => exact orderly_ok
      | cons t ts =>
        refine orderly_bind orderly_convert fun _ _ => ?_
        exact orderly_bind (ih xs ts) fun _ _ => orderly_ok

theorem orderly_vectorPart {vec : Ty} {s : Scalar} : Orderly (vectorPart vec s offset x) := by
  unfold vectorPart
  split
  · exact orderly_bind orderly_convert fun _ _ => orderly_ok
  · split
    · exact orderly_ok
    · exact orderly_complain
  · exact orderly_complain

theorem orderly_vectorOf {s : Scalar} {w : Width} {parts : List (Nat × Checked)} :
    Orderly (vectorOf offset s w parts) := by
  unfold vectorOf
  dsimp only
  split
  · exact orderly_ok
  · exact orderly_complain

/-! ### Calls -/

theorem orderly_requireArgs {fn : Code.Ident} {want got : Nat} :
    Orderly (requireArgs fn offset want got) := by
  unfold requireArgs
  split
  · exact orderly_ok
  · exact orderly_complain

theorem orderly_callWorkItem {f : WorkItemFn} : Orderly (callWorkItem offset f x) :=
  orderly_bind orderly_convert fun _ _ => orderly_ok

theorem orderly_atomicElem {f : AtomicFn} : Orderly (atomicElem offset f x) := by
  unfold atomicElem
  split
  · split
    · exact orderly_complain
    · exact orderly_ok
  · exact orderly_complain
  · exact orderly_complain

theorem orderly_callConvert {dst : Ty} : Orderly (callConvert offset dst x) := by
  unfold callConvert
  split
  · exact orderly_ok
  · split
    · exact orderly_ok
    · exact orderly_complain
  · exact orderly_complain

theorem orderly_callMath {f : Builtin} {offsets : List Nat} {xs : List Checked} :
    Orderly (callMath offset f offsets xs) := by
  unfold callMath
  split
  · exact orderly_complain
  · exact orderly_bind (orderly_convertAll _ _ _) fun _ _ => orderly_ok

/-- An atomic function has an argument. -/
theorem not_requireArgs_nil {fn : Code.Ident} {f : AtomicFn} {u : Unit} :
    requireArgs fn offset f.arity ([] : List Code.Expr).length ≠ .ok u := by
  unfold requireArgs
  rw [if_neg (by cases f <;> decide)]
  exact nofun

end Checked

namespace Env

open Checked Code

variable {env env' : Env}

/-! ### Expressions -/

theorem orderly_resolve {spec : TypeSpec} : Orderly (env.resolve spec) := by
  unfold resolve
  split
  · exact orderly_complain
  · split
    · exact orderly_complain
    · split
      · exact orderly_ok
      · split
        · exact orderly_complain
        · exact orderly_ok

theorem resolve_vector {spec : TypeSpec} {t : NamedTy} (hspec : Scope.isVector spec = true)
    (hfree : env.structs.lookup spec.name = none) (h : env.resolve spec = .ok t) :
    ∃ s w, t = .vector s w := by
  unfold Scope.isVector at hspec
  split at hspec
  · rename_i s w hparse
    have hvoid : spec.name ≠ "void" := by
      intro hname
      rw [hname, show Ty.parse? "void" = none from by decide] at hparse
      cases hparse
    have hname : env.typeNamed? spec.name = some (.vector s w) := by
      rw [typeNamed?, hfree, if_neg hvoid, hparse]
      rfl
    rw [resolve, hname] at h
    dsimp only at h
    split at h
    · cases h
    · cases h
      exact ⟨s, w, rfl⟩
  · cases hspec

/-- The types that are used for vectors are spelled so, and no structure has their names. -/
def Understands (structs : List (String × NamedTy)) (uses : List (TypeUse × TypeSpec)) : Prop :=
  ∀ spec, (.vector, spec) ∈ uses →
    Scope.isVector spec = true ∧ structs.lookup spec.name = none

section
variable {structs : List (String × NamedTy)} {use : TypeUse × TypeSpec}
  {us vs : List (TypeUse × TypeSpec)}

theorem Understands.left (h : Understands structs (us ++ vs)) : Understands structs us :=
  fun spec hspec => h spec (List.mem_append_left _ hspec)

theorem Understands.right (h : Understands structs (us ++ vs)) : Understands structs vs :=
  fun spec hspec => h spec (List.mem_append_right _ hspec)

theorem Understands.tail (h : Understands structs (use :: us)) : Understands structs us :=
  fun spec hspec => h spec (List.mem_cons_of_mem _ hspec)

end

theorem orderly_checkName {id : Ident} : Orderly (env.checkName id) := by
  unfold checkName
  split
  · exact orderly_ok
  · split
    · exact orderly_ok
    · exact orderly_complain

theorem orderly_structNamed {offset : Nat} {spec : TypeSpec} {count : Nat} :
    Orderly (env.structNamed offset spec count) := by
  refine orderly_bind orderly_resolve fun t _ => ?_
  split
  · split
    · exact orderly_complain
    · split
      · exact orderly_complain
      · exact orderly_ok
  · exact orderly_complain

mutual

theorem orderly_checkExpr (e : Expr) (he : Understands env.structs e.typeUses) :
    Orderly (env.checkExpr e) := by
  cases e with
  | ident id =>
    rw [checkExpr]
    exact orderly_checkName
  | number offset kind text =>
    rw [checkExpr]
    split
    · exact orderly_ok
    · exact orderly_complain
  | paren _ x =>
    rw [checkExpr]
    exact orderly_checkExpr x he
  | unary offset op x =>
    rw [checkExpr]
    refine orderly_bind (orderly_checkExpr x he) fun y _ => ?_
    split
    · exact orderly_deref
    · exact orderly_addressOf
    · exact orderly_not
    · exact orderly_unary
  | binary x offset op y =>
    rw [checkExpr]
    refine orderly_bind (orderly_checkExpr x he.left) fun _ _ => ?_
    exact orderly_bind (orderly_checkExpr y he.right) fun _ _ => orderly_binary
  | cond test x y =>
    rw [checkExpr]
    refine orderly_bind (orderly_checkExpr test he.left) fun _ _ => ?_
    refine orderly_bind orderly_truth fun _ _ => ?_
    refine orderly_bind (orderly_checkExpr x he.right.left) fun _ _ => ?_
    exact orderly_bind (orderly_checkExpr y he.right.right) fun _ _ => orderly_choose
  | cast offset spec x =>
    rw [checkExpr]
    refine orderly_bind orderly_resolve fun _ _ => ?_
    exact orderly_bind (orderly_checkExpr x he.tail) fun _ _ => orderly_castTo
  | vectorLit offset spec items =>
    rw [checkExpr]
    refine orderly_bind orderly_resolve fun t ht => ?_
    obtain ⟨hspec, hfree⟩ := he spec List.mem_cons_self
    obtain ⟨s, w, rfl⟩ := resolve_vector hspec hfree ht
    match items, he with
    | [x], he => exact orderly_bind (orderly_checkExpr x he.tail.left) fun _ _ => orderly_convert
    | [], _ => exact orderly_bind orderly_ok fun _ _ => orderly_vectorOf
    | x :: y :: rest, he =>
      exact orderly_bind (orderly_checkParts (.vector s w) s (x :: y :: rest) he.tail)
        fun _ _ => orderly_vectorOf
  | structLit offset spec items =>
    rw [checkExpr]
    refine orderly_bind orderly_structNamed fun p _ => ?_
    exact orderly_bind (orderly_checkFields items p.2 he.tail) fun _ _ => orderly_ok
  | index x bracket i =>
    rw [checkExpr]
    refine orderly_bind (orderly_checkExpr x he.left) fun _ _ => ?_
    exact orderly_bind (orderly_checkExpr i he.right) fun _ _ => orderly_subscript
  | select x id =>
    rw [checkExpr]
    exact orderly_bind (orderly_checkExpr x he) fun _ _ => orderly_select
  | call fn paren args =>
    rw [checkExpr]
    split
    · exact orderly_complain
    · dsimp only
      split
      · refine orderly_bind orderly_requireArgs fun _ _ => ?_
        exact orderly_bind (orderly_checkExprs args he) fun _ _ => orderly_callWorkItem
      · exact orderly_bind orderly_requireArgs fun _ _ => orderly_ok
      · refine orderly_bind orderly_requireArgs fun _ hargs => ?_
        match args, he, hargs with
        | [], _, hargs => exact absurd hargs not_requireArgs_nil
        | ptr :: rest, he, _ =>
          refine orderly_bind (orderly_checkExpr ptr he.left) fun _ _ => ?_
          refine orderly_bind orderly_atomicElem fun _ _ => ?_
          refine orderly_bind (orderly_checkExprs rest he.right) fun _ _ => ?_
          exact orderly_bind (orderly_convertAll _ _ _) fun _ _ => orderly_ok
      · refine orderly_bind orderly_requireArgs fun _ _ => ?_
        split
        · exact orderly_complain
        · exact orderly_bind (orderly_checkExprs args he) fun _ _ => orderly_callConvert
      · exact orderly_bind (orderly_checkExprs args he) fun _ _ => orderly_callMath
      · split
        · exact orderly_complain
        · refine orderly_bind orderly_requireArgs fun _ _ => ?_
          refine orderly_bind (orderly_checkExprs args he) fun _ _ => ?_
          exact orderly_bind (orderly_convertAll _ _ _) fun _ _ => orderly_ok
      · split
        · exact orderly_complain
        · exact orderly_complain

theorem orderly_checkExprs (es : List Expr) (hes : Understands env.structs (Expr.allTypeUses es)) :
    Orderly (env.checkExprs es) := by
  cases es with
  | nil =>
    rw [checkExprs]
    exact orderly_ok
  | cons e es =>
    rw [checkExprs]
    refine orderly_bind (orderly_checkExpr e hes.left) fun _ _ => ?_
    exact orderly_bind (orderly_checkExprs es hes.right) fun _ _ => orderly_ok

theorem orderly_checkParts (vec : Ty) (s : Scalar) (es : List Expr)
    (hes : Understands env.structs (Expr.allTypeUses es)) :
    Orderly (env.checkParts vec s es) := by
  cases es with
  | nil =>
    rw [checkParts]
    exact orderly_ok
  | cons e es =>
    rw [checkParts]
    refine orderly_bind (orderly_checkExpr e hes.left) fun _ _ => ?_
    refine orderly_bind orderly_vectorPart fun _ _ => ?_
    exact orderly_bind (orderly_checkParts vec s es hes.right) fun _ _ => orderly_ok

theorem orderly_checkFields (es : List Expr) (ts : List NamedTy)
    (hes : Understands env.structs (Expr.allTypeUses es)) : Orderly (env.checkFields es ts) := by
  match es, ts, hes with
  | [], ts, _ =>
    rw [checkFields]
    exact orderly_ok
    exact nofun
  | _ :: _, [], _ =>
    rw [checkFields]
    exact orderly_ok
    exact nofun
  | e :: es, t :: ts, hes =>
    rw [checkFields]
    refine orderly_bind (orderly_checkExpr e hes.left) fun _ _ => ?_
    refine orderly_bind orderly_convert fun _ _ => ?_
    exact orderly_bind (orderly_checkFields es ts hes.right) fun _ _ => orderly_ok

end

/-! ### Statements -/

theorem orderly_declare {id : Ident} {t : NamedTy} {readOnly : Bool} :
    Orderly (env.declare id t readOnly) := by
  unfold declare
  dsimp only
  split
  · exact orderly_complain
  · exact orderly_ok

theorem structs_declare {id : Ident} {t : NamedTy} {readOnly : Bool} {slot : Nat}
    (h : env.declare id t readOnly = .ok (slot, env')) : env'.structs = env.structs := by
  unfold declare at h
  dsimp only at h
  split at h
  · cases h
  · cases h
    rfl

/-- A check ends, and what it makes of the environment knows given structures. -/
structure Tidy {α : Type} (structs : List (String × NamedTy)) (r : Check (α × Env)) : Prop where
  orderly : Orderly r
  structs : ∀ a env', r = .ok (a, env') → env'.structs = structs

section
variable {α β : Type} {r : Check (α × Env)} {structs : List (String × NamedTy)}

theorem tidy_ok {a : α} (h : env.structs = structs) : Tidy structs (.ok (a, env)) := by
  refine ⟨orderly_ok, ?_⟩
  rintro _ _ ⟨⟩
  exact h

theorem tidy_complain {offset : Nat} {e : CheckError} :
    Tidy structs (complain offset e : Check (α × Env)) := ⟨orderly_complain, nofun⟩

/-- A check that has no part in the environment comes first. -/
theorem tidy_bind {x : Check α} {f : α → Check (β × Env)} (hx : Orderly x)
    (hf : ∀ a, x = .ok a → Tidy structs (f a)) : Tidy structs (x >>= f) := by
  refine ⟨orderly_bind hx fun a ha => (hf a ha).orderly, fun b env' h => ?_⟩
  obtain ⟨a, ha, h⟩ := bind_eq_ok.mp h
  exact (hf a ha).structs b env' h

theorem Tidy.bind {f : α × Env → Check (β × Env)} (hr : Tidy structs r)
    (hf : ∀ a env', env'.structs = structs → Tidy structs (f (a, env'))) :
    Tidy structs (r >>= f) := by
  refine ⟨orderly_bind hr.orderly fun p hp => (hf p.1 p.2 (hr.structs _ _ hp)).orderly,
    fun b env' h => ?_⟩
  obtain ⟨p, hp, h⟩ := bind_eq_ok.mp h
  exact (hf p.1 p.2 (hr.structs _ _ hp)).structs b env' h

end

theorem tidy_declare {id : Ident} {t : NamedTy} {readOnly : Bool} :
    Tidy env.structs (env.declare id t readOnly) :=
  ⟨orderly_declare, fun _ _ h => structs_declare h⟩

theorem orderly_assignable {offset : Nat} {x : Checked} : Orderly (assignable offset x) := by
  unfold assignable
  split
  · exact orderly_complain
  · split
    · exact orderly_complain
    · exact orderly_ok

theorem orderly_checkUpdate {offset : Nat} {op : Operator} {x y : Checked} :
    Orderly (checkUpdate offset x op y) := by
  refine orderly_bind orderly_assignable fun _ _ => ?_
  refine orderly_bind orderly_binary fun _ _ => ?_
  exact orderly_bind orderly_convert fun _ _ => orderly_ok

theorem orderly_checkInit {t : NamedTy} {readOnly : Bool} {id : Ident} {init : Option Expr}
    (h : Understands env.structs (optionTypeUses Expr.typeUses init)) :
    Orderly (env.checkInit t readOnly id init) := by
  cases init with
  | none =>
    rw [checkInit]
    split
    · exact orderly_complain
    · exact orderly_ok
  | some e =>
    refine orderly_bind (orderly_checkExpr e h) fun _ _ => ?_
    exact orderly_bind orderly_convert fun _ _ => orderly_ok

theorem tidy_checkVariables {t : NamedTy} {readOnly : Bool} {vars : List (Ident × Option Expr)}
    (h : Understands env.structs (initTypeUses vars)) :
    Tidy env.structs (env.checkVariables t readOnly vars) := by
  induction vars generalizing env with
  | nil => exact tidy_ok rfl
  | cons v vars ih =>
    refine tidy_bind (orderly_checkInit h.left) fun init _ => ?_
    refine tidy_declare.bind fun slot env' henv' => ?_
    refine Tidy.bind (henv' ▸ ih (henv' ▸ h.right)) fun after env'' henv'' => ?_
    exact tidy_ok henv''

theorem tidy_checkSimple {st : Simple} (h : Understands env.structs st.typeUses) :
    Tidy env.structs (env.checkSimple st) := by
  cases st with
  | decl spec vars =>
    refine tidy_bind orderly_resolve fun t _ => ?_
    split
    · exact tidy_complain
    · exact tidy_checkVariables h
  | expr x => exact tidy_bind (orderly_checkExpr x h) fun _ _ => tidy_ok rfl
  | assign lhs offset op rhs =>
    refine tidy_bind (orderly_checkExpr lhs h.left) fun _ _ => ?_
    refine tidy_bind (orderly_checkExpr rhs h.right) fun _ _ => ?_
    split
    · exact tidy_bind orderly_checkUpdate fun _ _ => tidy_ok rfl
    · refine tidy_bind orderly_assignable fun _ _ => ?_
      exact tidy_bind orderly_convert fun _ _ => tidy_ok rfl
  | step x offset op =>
    refine tidy_bind (orderly_checkExpr x h) fun _ _ => ?_
    exact tidy_bind orderly_checkUpdate fun _ _ => tidy_ok rfl

theorem orderly_checkReturn {offset : Nat} {result : Option Expr}
    (h : Understands env.structs (optionTypeUses Expr.typeUses result)) :
    Orderly (env.checkReturn offset result) := by
  cases result with
  | none =>
    rw [checkReturn]
    split
    · exact orderly_ok
    · exact orderly_complain
  | some e =>
    rw [checkReturn]
    split
    · exact orderly_complain
    · refine orderly_bind (orderly_checkExpr e h) fun _ _ => ?_
      exact orderly_bind orderly_convert fun _ _ => orderly_ok

theorem tidy_checkOptional (env : Env) {st : Option Simple}
    (h : Understands env.structs (optionTypeUses Simple.typeUses st)) :
    Tidy env.structs (env.checkOptional st) := by
  cases st with
  | none => exact tidy_ok rfl
  | some st => exact tidy_checkSimple h

theorem orderly_checkTest {e : Expr} (h : Understands env.structs e.typeUses) :
    Orderly (env.checkTest e) := by
  refine orderly_bind (orderly_checkExpr e h) fun _ _ => ?_
  exact orderly_bind orderly_truth fun _ _ => orderly_ok

mutual

theorem tidy_checkStmt (env : Env) (st : Stmt) (h : Understands env.structs st.typeUses) :
    Tidy env.structs (env.checkStmt st) := by
  cases st with
  | simple st =>
    rw [checkStmt]
    exact tidy_checkSimple h
  | block _ body =>
    rw [checkStmt]
    exact (tidy_checkStmts env.openScope body h).bind fun _ _ _ => tidy_ok rfl
  | empty _ =>
    rw [checkStmt]
    exact tidy_ok rfl
  | ifThen _ test yes =>
    rw [checkStmt]
    refine tidy_bind (orderly_checkTest h.left) fun _ _ => ?_
    exact (tidy_checkStmt env.openScope yes h.right).bind fun _ _ _ => tidy_ok rfl
  | ifElse _ test yes no =>
    rw [checkStmt]
    refine tidy_bind (orderly_checkTest h.left) fun _ _ => ?_
    refine (tidy_checkStmt env.openScope yes h.right.left).bind fun _ inner _ => ?_
    exact (tidy_checkStmt (env.closeTo inner).openScope no h.right.right).bind fun _ _ _ =>
      tidy_ok rfl
  | loop _ init test post body =>
    rw [checkStmt]
    refine (tidy_checkOptional env.openScope h.left).bind fun _ head hhead => ?_
    have hhead : head.structs = env.structs := hhead
    have hpost : Tidy env.structs (head.openScope.checkOptional post) :=
      hhead ▸ tidy_checkOptional head.openScope (hhead ▸ h.right.right.left)
    have hbody : ∀ inner, Tidy env.structs
        (checkStmt { (head.closeTo inner).openScope with inLoop := true } body) := fun inner =>
      hhead ▸ tidy_checkStmt { (head.closeTo inner).openScope with inLoop := true } body
        (hhead ▸ h.right.right.right)
    cases test with
    | none =>
      refine hpost.bind fun _ inner _ => ?_
      exact (hbody inner).bind fun _ _ _ => tidy_ok rfl
    | some e =>
      refine tidy_bind (orderly_bind (orderly_checkTest (hhead ▸ h.right.left)) fun _ _ =>
        orderly_ok) fun _ _ => ?_
      refine hpost.bind fun _ inner _ => ?_
      exact (hbody inner).bind fun _ _ _ => tidy_ok rfl
  | brk offset =>
    rw [checkStmt]
    split
    · exact tidy_ok rfl
    · exact tidy_complain
  | cont offset =>
    rw [checkStmt]
    split
    · exact tidy_ok rfl
    · exact tidy_complain
  | ret offset result =>
    rw [checkStmt]
    exact tidy_bind (orderly_checkReturn h) fun _ _ => tidy_ok rfl

theorem tidy_checkStmts (env : Env) (body : List Stmt)
    (h : Understands env.structs (Stmt.allTypeUses body)) : Tidy env.structs (env.checkStmts body) := by
  cases body with
  | nil =>
    rw [checkStmts]
    exact tidy_ok rfl
  | cons st body =>
    rw [checkStmts]
    refine (tidy_checkStmt env st h.left).bind fun _ env' henv' => ?_
    exact (henv' ▸ tidy_checkStmts env' body (henv' ▸ h.right)).bind fun _ _ henv'' =>
      tidy_ok henv''

end

/-! ### Declarations -/

theorem orderly_obey {p : Pragma} : Orderly (env.obey p) := by
  unfold obey
  split
  · split
    · dsimp only
      split
      · exact orderly_ok
      · exact orderly_ok
      · exact orderly_complain
    · exact orderly_ok
  · exact orderly_ok

theorem orderly_checkMembers {seen : List String} {fs : List Field} :
    Orderly (env.checkMembers seen fs) := by
  induction fs generalizing seen with
  | nil => exact orderly_ok
  | cons f fs ih =>
    refine orderly_bind orderly_resolve fun t _ => ?_
    split
    · exact orderly_complain
    · split
      · exact orderly_complain
      · exact orderly_bind ih fun _ _ => orderly_ok

theorem orderly_checkTypedef {d : Typedef} : Orderly (env.checkTypedef d) := by
  refine orderly_bind orderly_checkMembers fun p _ => ?_
  dsimp only
  split
  · exact orderly_complain
  · exact orderly_ok

theorem orderly_checkKernelParam {f : Field} {t : NamedTy} : Orderly (checkKernelParam f t) := by
  unfold checkKernelParam
  split
  · exact orderly_complain
  · exact orderly_complain
  · exact orderly_ok

theorem tidy_checkParams {isKernel : Bool} {fs : List Field} :
    Tidy env.structs (env.checkParams isKernel fs) := by
  induction fs generalizing env with
  | nil => exact tidy_ok rfl
  | cons f fs ih =>
    have hrest : ∀ t : NamedTy, Tidy env.structs (do
        let declared ← env.declare f.name t (f.type.readOnly && !f.type.pointer)
        let checked ← checkParams declared.2 isKernel fs
        return (t :: checked.1, checked.2)) := by
      intro t
      refine tidy_declare.bind fun slot env' henv' => ?_
      exact Tidy.bind (henv' ▸ ih) fun ts env'' henv'' => tidy_ok henv''
    refine tidy_bind orderly_resolve fun t _ => ?_
    split
    · exact tidy_complain
    · cases isKernel with
      | false => exact hrest t
      | true => exact tidy_bind orderly_checkKernelParam fun _ _ => hrest t

theorem tidy_checkHeader {d : Func} : Tidy env.structs (env.checkHeader d) := by
  unfold checkHeader
  dsimp only
  split
  · exact tidy_complain
  · split
    · exact tidy_complain
    · refine tidy_bind orderly_resolve fun result _ => ?_
      split
      · exact tidy_complain
      · exact (@tidy_checkParams (env.atHeader d.name.name result) d.isKernel d.params).bind
          fun ts inner hinner => tidy_ok hinner

theorem orderly_checkBody {d : Func} {params : List NamedTy}
    (h : Understands env.structs d.typeUses) : Orderly (env.checkBody d params) :=
  orderly_bind (tidy_checkStmts env.openScope d.body h).orderly fun _ _ => orderly_ok

end Env

/-! ### The builder -/

namespace Builder

open Code

variable {b : Builder} {names : List String}

/-- The structures that are known have some names. -/
def Declares (names : List String) (b : Builder) : Prop :=
  ∀ name, name ∉ names → b.env.structs.lookup name = none

/-- An objection that is a complaint is noted. -/
theorem object_of_orderly {α : Type} {r : Check α} (hr : Orderly r) {o : Objection}
    (h : r = .error o) : ∃ log, b.object o = some { b with log } := by
  cases o with
  | complaint offset e => exact ⟨_, rfl⟩
  | collapse => exact absurd h hr

theorem Declares.learn (hb : b.Declares names) {r : Check Env} (hr : Orderly r)
    (hstructs : ∀ env, r = .ok env → ∀ name, name ∉ names → env.structs.lookup name = none) :
    ∃ b', b.learn r = some b' ∧ b'.Declares names := by
  cases r with
  | ok env => exact ⟨_, rfl, hstructs env rfl⟩
  | error o =>
    obtain ⟨log, hlog⟩ := object_of_orderly (b := b) hr rfl
    exact ⟨_, hlog, hb⟩

theorem Declares.obey (hb : b.Declares names) (p : Pragma) :
    ∃ b', b.learn (b.env.obey p) = some b' ∧ b'.Declares names := by
  refine hb.learn Env.orderly_obey fun env henv name hname => ?_
  rw [(obey_same henv).1]
  exact hb name hname

theorem Declares.checkTypedef (hb : b.Declares names) {d : Typedef} (hd : d.name.name ∈ names) :
    ∃ b', b.learn (b.env.checkTypedef d) = some b' ∧ b'.Declares names := by
  refine hb.learn Env.orderly_checkTypedef fun env henv name hname => ?_
  obtain ⟨p, -, henv⟩ := bind_eq_ok.mp henv
  dsimp only at henv
  split at henv
  · cases henv
  · cases henv
    have hne : (name == d.name.name) = false := by
      rw [beq_eq_false_iff_ne]
      rintro rfl
      exact hname hd
    show List.lookup name ((d.name.name, _) :: b.env.structs) = none
    rw [List.lookup_cons, hne]
    exact hb name hname

theorem Declares.addFunc (hb : b.Declares names) {d : Func} (hspelled : Spelled d.typeUses)
    (hfree : ∀ spec, (.vector, spec) ∈ d.typeUses → spec.name ∉ names) :
    ∃ b', b.addFunc d = some b' ∧ b'.Declares names := by
  have hheader := @Env.tidy_checkHeader b.env d
  unfold Builder.addFunc
  split
  · rename_i o ho
    obtain ⟨log, hlog⟩ := object_of_orderly (b := b) hheader.orderly ho
    exact ⟨_, hlog, hb⟩
  · rename_i params inner hinner
    have hstructs := hheader.structs params inner hinner
    have hbody : Orderly (inner.checkBody d params) := by
      refine Env.orderly_checkBody fun spec hspec => ⟨hspelled spec hspec, ?_⟩
      rw [hstructs]
      exact hb spec.name (hfree spec hspec)
    dsimp only
    split
    · rename_i o ho
      obtain ⟨log, hlog⟩ := object_of_orderly
        (b := { b with env := { b.env with funcs := inner.funcs } }) hbody ho
      exact ⟨_, hlog, hb⟩
    · exact ⟨_, rfl, hb⟩

/-- A run of steps that end ends. -/
theorem Declares.foldlM {α : Type} {step : Builder → α → Option Builder} {xs : List α}
    (hstep : ∀ b x, x ∈ xs → b.Declares names → ∃ b', step b x = some b' ∧ b'.Declares names)
    (hb : b.Declares names) : ∃ b', xs.foldlM step b = some b' ∧ b'.Declares names := by
  induction xs generalizing b with
  | nil => exact ⟨b, rfl, hb⟩
  | cons x xs ih =>
    obtain ⟨mid, hmid, hdeclares⟩ := hstep b x List.mem_cons_self hb
    obtain ⟨b', hb', hdeclares'⟩ :=
      ih (fun b y hy hb => hstep b y (List.mem_cons_of_mem _ hy) hb) hdeclares
    exact ⟨b', by rw [List.foldlM_cons, hmid]; exact hb', hdeclares'⟩

end Builder

/-- A structure has the name of a vector, and a function has a literal of a vector of that name. -/
def Code.File.Clashes (file : Code.File) : Prop :=
  ∃ d ∈ file.typedefs, ∃ fn ∈ file.funcs, ∃ spec, (.vector, spec) ∈ fn.typeUses ∧
    spec.name = d.name.name

theorem Builder.exists_ofFile {file : Code.File} (hspelled : ∀ fn ∈ file.funcs, Code.Spelled fn.typeUses)
    (hclash : ¬ file.Clashes) : ∃ b, Builder.ofFile file = some b := by
  have hfree : ∀ fn ∈ file.funcs, ∀ spec, (.vector, spec) ∈ fn.typeUses →
      spec.name ∉ file.typedefs.map (·.name.name) := by
    intro fn hfn spec hspec hmem
    obtain ⟨d, hd, hname⟩ := List.mem_map.mp hmem
    exact hclash ⟨d, hd, fn, hfn, spec, hspec, hname.symm⟩
  have hempty : Declares (file.typedefs.map (·.name.name)) {} := fun _ _ => rfl
  obtain ⟨b₁, h₁, hb₁⟩ := hempty.foldlM fun b p _ hb => hb.obey p
  have htypedef : ∀ d ∈ file.typedefs, d.name.name ∈ file.typedefs.map (·.name.name) :=
    fun d hd => List.mem_map.mpr ⟨d, hd, rfl⟩
  obtain ⟨b₂, h₂, hb₂⟩ := hb₁.foldlM fun b d hd hb => hb.checkTypedef (htypedef d hd)
  obtain ⟨b₃, h₃, -⟩ := hb₂.foldlM fun b fn hfn hb => hb.addFunc (hspelled fn hfn) (hfree fn hfn)
  refine ⟨b₃, ?_⟩
  unfold Builder.ofFile
  rw [h₁, Option.bind_eq_bind, Option.bind_some, h₂]
  exact h₃

/-! ### Programs -/

namespace Program

/-- What is wrong with a source is a list of complaints that is not empty. -/
theorem ofStream_error {stream : TokenStream} {log : List Diagnostic}
    (h : Code.File.ofStream stream = .error log) : log ≠ [] := by
  unfold Code.File.ofStream at h
  split at h
  · rename_i hdiag
    cases h
    simpa using hdiag
  · split at h
    · cases h
      exact List.cons_ne_nil _ _
    · cases h

theorem build_of_ofFile_none {source : SourceText} {file : Code.File}
    (hparse : Code.File.ofStream (TokenStream.ofText fileName source) = .ok file)
    (hfile : Builder.ofFile file = none) : build source = .crashed := by
  simp only [build, hparse, hfile]

/-- **Building ends with a program and nothing to complain about, or with complaints; it stops by
itself only on a source in which a structure has the name of a vector.** -/
theorem build_ends_or_clashes (source : SourceText) :
    (∃ p file b, build source = .built p ∧
      Code.File.ofStream (TokenStream.ofText fileName source) = .ok file ∧
      Builder.ofFile file = some b ∧ b.log = []) ∨
    (∃ log, build source = .rejected log ∧ log ≠ []) ∨
    (build source = .crashed ∧
      ∃ file, Code.File.ofStream (TokenStream.ofText fileName source) = .ok file ∧ file.Clashes) := by
  cases hparse : Code.File.ofStream (TokenStream.ofText fileName source) with
  | error log =>
    refine Or.inr (Or.inl ⟨log, ?_, ofStream_error hparse⟩)
    simp only [build, hparse]
  | ok file =>
    cases hfile : Builder.ofFile file with
    | none =>
      refine Or.inr (Or.inr ⟨build_of_ofFile_none hparse hfile, file, rfl, ?_⟩)
      refine Classical.byContradiction fun hclash => ?_
      obtain ⟨b, hb⟩ :=
        Builder.exists_ofFile (Code.File.spelled_of_ofStream hparse) hclash
      rw [hfile] at hb
      cases hb
    | some b =>
      cases hlog : b.log with
      | nil =>
        refine Or.inl ⟨{ source, fp64 := b.env.fp64, funcs := b.funcs }, file, b, ?_, rfl,
          hfile, hlog⟩
        simp [build, hparse, hfile, hlog]
      | cons complaint log =>
        refine Or.inr (Or.inl ⟨b.log.map fun c =>
          (TokenStream.ofText fileName source).map.complain c.1 c.2.message, ?_, ?_⟩)
        · simp [build, hparse, hfile, hlog]
        · simp [hlog]

/-! ### A structure with the name of a vector -/

section Clash

open Token (Scans spaced scans_spaced)
open Code.Scope

/-- The tokens of a source that declares a structure `float2` and then writes a vector so. -/
def clashTokens : List Token :=
  [.name "typedef", .keyword .struct, .op .lbrace, .name "int", .name "x", .op .semicolon,
    .op .rbrace, .name "float2", .op .semicolon,
    .name "__kernel", .name "void", .name "k", .op .lparen, .name "__global", .name "int", .op .mul,
    .name "a", .op .rparen, .op .lbrace, .name "float2", .name "v", .op .assign, .op .lparen,
    .name "float2", .op .rparen, .op .lparen, .int "1", .op .rparen, .op .semicolon, .op .rbrace]

def clashSource : SourceText := SourceText.ofChars (spaced clashTokens)

theorem reads_clashTypedef {s : Code.Scope} {us : List Token} (offset : Nat) :
    Reads (s.typedef offset) (.keyword .struct :: .op .lbrace :: .name "int" :: .name "x" ::
        .op .semicolon :: .op .rbrace :: .name "float2" :: .op .semicolon :: us) us
      fun d => d.name.name = "float2" ∧
        ∃ spec o, d.fields = [⟨spec, ⟨o, "x"⟩⟩] ∧ Says [] "int" false spec := by
  have hint : IsTypeWord s "int" := ⟨rfl, by decide, by decide⟩
  have hfields := @reads_fields_cons s _ _ _ "x" _ _ (by simp)
    (@reads_typeSpec s (.name "x" :: .op .semicolon :: .op .rbrace :: .name "float2" ::
      .op .semicolon :: us) [] _ (by simp) hint (by rintro t ⟨⟩; rfl) (by simp))
    reads_fields_nil
  refine (reads_typedef offset hfields).mono ?_
  rintro _ ⟨_, o, rfl, spec, o', _, rfl, hspec, rfl⟩
  exact ⟨rfl, spec, o', rfl, hspec⟩

theorem reads_clashParams {s : Code.Scope} {us : List Token} :
    Reads s.params (.name "__global" :: .name "int" :: .op .mul :: .name "a" :: .op .rparen :: us) us
      fun fs => ∃ spec o, fs = [⟨spec, ⟨o, "a"⟩⟩] ∧ Says [.name "__global"] "int" true spec := by
  have hint : IsTypeWord s "int" := ⟨rfl, by decide, by decide⟩
  exact reads_params_last (by simp)
    (@reads_pointer s _ [.name "__global"] _ (by decide) hint (by rintro t ⟨⟩; rfl) (by simp))

theorem reads_clashBody {s : Code.Scope} :
    Reads s.stmts [.name "float2", .name "v", .op .assign, .op .lparen, .name "float2", .op .rparen,
        .op .lparen, .int "1", .op .rparen, .op .semicolon, .op .rbrace] []
      fun body => ∃ spec o o' spec' items, body = [.simple (.decl spec
        [(⟨o, "v"⟩, some (.vectorLit o' spec' items))])] ∧ Says [] "float2" false spec ∧
        Says [] "float2" false spec' := by
  have hword : IsTypeWord s "float2" := ⟨rfl, by decide, by decide⟩
  have hspec : ∀ {t : Token} {us : List Token}, Code.Scope.isQualifier t = false → t ≠ .op .mul →
      Reads s.typeSpec (.name "float2" :: t :: us) (t :: us) (Says [] "float2" false) :=
    fun hq hmul => @reads_typeSpec s _ [] _ (by simp) hword (by rintro t ⟨⟩; exact hq)
      (by simpa using hmul)
  have hone : ∀ {us}, Reads s.expr (.int "1" :: .op .rparen :: us) (.op .rparen :: us)
      fun e => ∃ o, e = .number o .int "1" :=
    reads_expr_of_unary (reads_plain rfl (by simp) reads_number (by simp) (by simp))
      (.cons (by decide) _)
  have hlit : Reads s.expr [.op .lparen, .name "float2", .op .rparen, .op .lparen, .int "1",
      .op .rparen, .op .semicolon, .op .rbrace] [.op .semicolon, .op .rbrace]
      fun e => ∃ o spec items, e = .vectorLit o spec items ∧ Says [] "float2" false spec := by
    refine reads_expr_of_unary (reads_vectorLit (typeAhead_word hword _) (hspec rfl (by simp)) ?_
      (reads_items_last (by simp) (by simp) hone) ?_) (.cons (by decide) _)
    · rintro spec ⟨hname, -, -, hpointer⟩
      rw [isVector, hname, hpointer]
      rfl
    · rintro o spec items hspec -
      exact (reads_postfixes_nil (by simp) (by simp)).mono fun e he => ⟨o, spec, items, he, hspec⟩
  have hdecl := reads_decl (n := "v") (typeAhead_word hword _) (hspec rfl (by simp)) hlit (by simp)
  have hstmt := reads_simple (by decide) hdecl
  refine (reads_stmts_cons (by simp) hstmt reads_stmts_nil).mono ?_
  rintro _ ⟨_, _, rfl, ⟨_, rfl, spec, o, _, rfl, hspec, o', spec', items, rfl, hspec'⟩, rfl⟩
  exact ⟨spec, o, o', spec', items, rfl, hspec, hspec'⟩

theorem resolve_struct {env : Env} {spec : Code.TypeSpec} {names : List String}
    {fields : List NamedTy} (hname : env.structs.lookup spec.name = some (.struct names fields))
    (hdouble : (NamedTy.struct names fields).ty.usesDouble = false) (hpointer : spec.pointer = false) :
    env.resolve spec = .ok (.struct names fields) := by
  simp [Env.resolve, Env.typeNamed?, hname, hdouble, hpointer]

theorem addFunc_clash {b : Builder} {d : Code.Func} {p : List NamedTy × Env}
    {spec spec' : Code.TypeSpec} {id : Code.Ident} {o : Nat} {items : List Code.Expr}
    {names : List String} {fields : List NamedTy} (hheader : b.env.checkHeader d = .ok p)
    (hbody : d.body = [.simple (.decl spec [(id, some (.vectorLit o spec' items))])])
    (hname : b.env.structs.lookup spec.name = some (.struct names fields))
    (hsame : spec'.name = spec.name)
    (hdouble : (NamedTy.struct names fields).ty.usesDouble = false)
    (hpointer : spec.pointer = false) (hpointer' : spec'.pointer = false) : b.addFunc d = none := by
  obtain ⟨params, inner⟩ := p
  have hstructs := (@Env.tidy_checkHeader b.env d).structs params inner hheader
  have hspec : inner.openScope.resolve spec = .ok (.struct names fields) :=
    resolve_struct (hstructs ▸ hname) hdouble hpointer
  have hspec' : inner.openScope.resolve spec' = .ok (.struct names fields) :=
    resolve_struct (hsame ▸ hstructs ▸ hname) hdouble hpointer'
  have hlit : inner.openScope.checkExpr (.vectorLit o spec' items) = .error .collapse := by
    rw [Env.checkExpr, hspec']
    rfl
  have hvars : ∀ readOnly, inner.openScope.checkVariables (.struct names fields) readOnly
      [(id, some (.vectorLit o spec' items))] = .error .collapse := by
    intro readOnly
    rw [Env.checkVariables, Env.checkInit, hlit]
    rfl
  have hdecl : inner.openScope.checkSimple (.decl spec [(id, some (.vectorLit o spec' items))]) =
      .error .collapse := by
    rw [Env.checkSimple, hspec]
    exact hvars _
  have hcollapse : inner.checkBody d params = .error .collapse := by
    rw [Env.checkBody, hbody, Env.checkStmts, Env.checkStmt, hdecl]
    rfl
  rw [Builder.addFunc, hheader]
  dsimp only
  rw [hcollapse]
  rfl

theorem build_clash : build clashSource = .crashed := by
  have hscans : Scans (spaced clashTokens) clashTokens := scans_spaced (by decide)
  obtain ⟨_, hparse, ⟨_, fields, name⟩, _, rfl, ⟨hname, spec₁, _, hfields, hspec₁⟩,
    ⟨isKernel, result, name', params, _, body⟩, _, rfl, hfn, rfl⟩ :=
    exists_ofStream hscans (fun _ => readsFile_typedef (fun o => reads_clashTypedef o)
      (readsFile_func (by simp) (reads_kernel (n := "k") rfl (by simp) reads_clashParams
        reads_clashBody) readsFile_nil)) fileName
  obtain ⟨hkernel, ⟨hresult, hvalue⟩, hname', ⟨spec₂, _, hparams, hspec₂⟩,
    ⟨spec₃, _, _, spec₄, _, hbody, hspec₃, hspec₄⟩⟩ := hfn
  -- only the offsets stay open, and the outcome does not depend on them
  obtain ⟨_, _⟩ := name
  obtain ⟨_, _⟩ := name'
  obtain ⟨_, _, _, _, _⟩ := result
  obtain ⟨_, _, _, _, _⟩ := spec₁
  obtain ⟨_, _, _, _, _⟩ := spec₂
  obtain ⟨_, _, _, _, _⟩ := spec₃
  obtain ⟨_, _, _, _, _⟩ := spec₄
  obtain ⟨hword₁, hspace₁, hread₁, hpointer₁⟩ := hspec₁
  obtain ⟨hword₂, hspace₂, hread₂, hpointer₂⟩ := hspec₂
  obtain ⟨hword₃, hspace₃, hread₃, hpointer₃⟩ := hspec₃
  obtain ⟨hword₄, hspace₄, hread₄, hpointer₄⟩ := hspec₄
  dsimp only at *
  subst hkernel hresult hvalue hname hname' hparams hbody hfields hword₁ hspace₁ hread₁ hpointer₁
    hword₂ hspace₂ hread₂ hpointer₂ hword₃ hspace₃ hread₃ hpointer₃ hword₄ hspace₄ hread₄ hpointer₄
  refine build_of_ofFile_none hparse ?_
  show (Builder.addFunc { env := { structs := [("float2", .struct ["x"] [.scalar .int])] } } _ >>=
    some) = none
  refine Option.bind_eq_none_iff.mpr fun b hb => ?_
  rw [addFunc_clash (by rfl) (by rfl) (by rfl) (by rfl) (by rfl) (by rfl) (by rfl)] at hb
  cases hb

/-- At this source the third way is the one that is taken. -/
theorem clash_not_total : build clashSource = .crashed ∧
    ∃ file, Code.File.ofStream (TokenStream.ofText fileName clashSource) = .ok file ∧
      file.Clashes := by
  rcases build_ends_or_clashes clashSource with ⟨p, _, _, h, -⟩ | ⟨log, h, -⟩ | h
  · cases build_clash.symm.trans h
  · cases build_clash.symm.trans h
  · exact h

end Clash

end Program
end KernelForge
