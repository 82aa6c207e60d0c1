/-
Listings as the device runs them.

A listing is checked to an action, and what the action does is said by conditions before and after
it: from every point where the one holds, the action goes on at a point where the other holds.
There is one rule for each statement.  The rule for the loop asks for an invariant, which the body
and the step of the counter carry from each number to the next one.
-/
import KernelForge.Proofs.Code.Listings
import KernelForge.Proofs.Formula.Performing
import KernelForge.Proofs.Program.CheckedStmts
import KernelForge.Proofs.Program.Integers

namespace KernelForge

/-! ### Points -/

/-- A point in the run of a work item. -/
structure Point where
  item : WorkItem
  vars : Vars
  store : Store

namespace Point

def frame (p : Point) : Frame := { item := p.item, vars := p.vars }

/-- The same point with a value in a slot. -/
def put (p : Point) (slot : Nat) (v : Value) : Point := { p with vars := p.vars.setIfInBounds slot v }

end Point

/-! ### Expressions -/

/-- The expressions of a kind can be converted to type `t`, and from a point of `pre` they have a value
that `post` admits; they change nothing. -/
def Env.Supplies (env : Env) (P : Code.Expr → Prop) (t : Ty) (pre : Point → Prop)
    (post : Point → Value → Prop) : Prop :=
  ∀ e, P e → ∃ x, env.checkExpr e = .ok x ∧ ∀ o, ∃ y, x.convert o (NamedTy.ofTy t) = .ok y ∧
    ∀ call p, pre p → ∃ v, y.term.eval call p.frame p.store = (.ok v, p.store) ∧ post p v

/-- Expressions whose value is read off the variables. -/
theorem Env.Checks.supplies {env : Env} {P : Code.Expr → Prop} {s t : Ty} {g : Vars → Exec Value}
    (h : env.Checks P s g) (hconv : Ty.Converts s t) {pre : Point → Prop} {post : Point → Value → Prop}
    (hg : ∀ p, pre p → ∃ v, (g p.vars >>= Value.convert s t) p.store = (.ok v, p.store) ∧ post p v) :
    env.Supplies P t pre post := by
  intro e he
  obtain ⟨x, hx, hmeans⟩ := h e he
  refine ⟨x, hx, fun o => ?_⟩
  obtain ⟨y, hy, hmeans'⟩ := hmeans.convert hconv o
  refine ⟨y, hy, fun call p hp => ?_⟩
  rw [hmeans'.value]
  exact hg p hp

/-! ### Actions -/

/-- From each point of `pre` the action goes on at a point of `post`. -/
def Action.Takes (rounds : Nat) (a : Action) (pre post : Point → Prop) : Prop :=
  ∀ call p, pre p → ∃ q, a.run call p.item rounds p.vars p.store = (.ok (.next, q.vars), q.store) ∧
    q.item = p.item ∧ post q

section Actions

variable {rounds : Nat} {a b : Action} {pre mid post : Point → Prop}

theorem Action.takes_skip (h : ∀ p, pre p → post p) : Action.skip.Takes rounds pre post := by
  intro call p hp
  refine ⟨p, ?_, rfl, h p hp⟩
  rw [Action.run]
  rfl

theorem Action.Takes.seq (ha : a.Takes rounds pre mid) (hb : b.Takes rounds mid post) :
    (Action.seq a b).Takes rounds pre post := by
  intro call p hp
  obtain ⟨q, hq, hitem, hmid⟩ := ha call p hp
  obtain ⟨r, hr, hitem', hpost⟩ := hb call q hmid
  refine ⟨r, ?_, hitem'.trans hitem, hpost⟩
  rw [Action.run, Exec.bind_ok hq, ← hitem]
  exact hr

theorem Action.Takes.mono (ha : a.Takes rounds pre mid) (h : ∀ p, mid p → post p) :
    a.Takes rounds pre post := by
  intro call p hp
  obtain ⟨q, hq, hitem, hmid⟩ := ha call p hp
  exact ⟨q, hq, hitem, h q hmid⟩

theorem Action.takes_declare {slot : Nat} {t : Ty} {x : Term}
    (h : ∀ call p, pre p → ∃ v, x.eval call p.frame p.store = (.ok v, p.store) ∧ post (p.put slot v)) :
    (Action.declare slot t (some x)).Takes rounds pre post := by
  intro call p hp
  obtain ⟨v, hv, hpost⟩ := h call p hp
  refine ⟨p.put slot v, ?_, rfl, hpost⟩
  rw [Action.run]
  show (x.eval call p.frame >>= _) p.store = _
  rw [Exec.bind_ok hv]
  rfl

/-- What is done under a condition. -/
theorem Action.takes_branch {test : Term} {yes no : Point → Prop}
    (htest : ∀ call p, pre p → ∃ b, test.eval call p.frame p.store = (.ok (.ofBool b), p.store) ∧
      if b then yes p else no p)
    (hyes : a.Takes rounds yes post) (hno : ∀ p, no p → post p) :
    (Action.branch test a .skip).Takes rounds pre post := by
  intro call p hp
  obtain ⟨b, hb, hcase⟩ := htest call p hp
  have hrun : (Action.branch test a .skip).run call p.item rounds p.vars p.store =
      (if b then a.run call p.item rounds p.vars else Action.skip.run call p.item rounds p.vars)
        p.store := by
    rw [Action.run]
    show (test.eval call p.frame >>= _) p.store = _
    rw [Exec.bind_ok hb, Value.toBool_ofBool]
    rfl
  rw [hrun]
  cases b with
  | true => exact hyes call p hcase
  | false => exact (Action.takes_skip hno : Action.skip.Takes rounds no post) call p hcase

/-- **A loop carries its invariant** from one number to the next, up to the bound.  The number of
rounds that are left is what the induction is on. -/
theorem takes_iterate {test : Vars → Exec Bool} {body step : Step} {n : Nat}
    {inv after : Nat → Vars → Store → Prop}
    (htest : ∀ k ≤ n, ∀ vars st, inv k vars st → test vars st = (.ok (decide (k < n)), st))
    (hbody : ∀ k < n, ∀ vars st, inv k vars st →
      ∃ vars' st', body vars st = (.ok (.next, vars'), st') ∧ after k vars' st')
    (hstep : ∀ k < n, ∀ vars st, after k vars st →
      ∃ vars' st', step vars st = (.ok (.next, vars'), st') ∧ inv (k + 1) vars' st') :
    ∀ (left : Nat) {k budget : Nat} {vars : Vars} {st : Store}, k + left = n → left < budget →
      inv k vars st →
      ∃ vars' st', iterate test body step budget vars st = (.ok (.next, vars'), st') ∧ inv n vars' st'
  | 0, k, budget + 1, vars, st, hk, _, hinv => by
    obtain rfl : k = n := by omega
    have htrue := htest k (Nat.le_refl k) vars st hinv
    rw [decide_eq_false (Nat.lt_irrefl k)] at htrue
    exact ⟨vars, st, by simp only [iterate, htrue], hinv⟩
  | left + 1, k, budget + 1, vars, st, hk, hbudget, hinv => by
    have htrue := htest k (by omega) vars st hinv
    rw [decide_eq_true (by omega)] at htrue
    obtain ⟨vars₁, st₁, hrun₁, hafter⟩ := hbody k (by omega) vars st hinv
    obtain ⟨vars₂, st₂, hrun₂, hinv₂⟩ := hstep k (by omega) vars₁ st₁ hafter
    obtain ⟨vars₃, st₃, hrun₃, hinv₃⟩ :=
      takes_iterate htest hbody hstep left (by omega : k + 1 + left = n) (by omega : left < budget) hinv₂
    exact ⟨vars₃, st₃, by simp only [iterate, htrue, hrun₁, hrun₂, hrun₃], hinv₃⟩

/-- The same of an action: a loop that compares a counter with a bound. -/
theorem Action.takes_loop {test : Term} {step : Action} {inv after : Nat → Point → Prop} {n : Nat}
    (htest : ∀ k ≤ n, ∀ call p, inv k p →
      test.eval call p.frame p.store = (.ok (.ofBool (decide (k < n))), p.store))
    (hbody : ∀ k < n, a.Takes rounds (inv k) (after k))
    (hstep : ∀ k < n, step.Takes rounds (after k) (inv (k + 1))) {k : Nat} (hk : k ≤ n)
    (hrounds : n < rounds) : (Action.loop (some test) step a).Takes rounds (inv k) (inv n) := by
  have hgoes : ∀ {b : Action} {pre post : Point → Prop}, b.Takes rounds pre post →
      ∀ call item vars st, pre ⟨item, vars, st⟩ → ∃ vars' st',
        b.run call item rounds vars st = (.ok (.next, vars'), st') ∧ post ⟨item, vars', st'⟩ := by
    intro b pre post hb call item vars st hp
    obtain ⟨⟨item', vars', st'⟩, hrun, hitem, hpost⟩ := hb call ⟨item, vars, st⟩ hp
    cases hitem
    exact ⟨vars', st', hrun, hpost⟩
  intro call p hp
  have hall := @takes_iterate (fun vars => test.eval call { item := p.item, vars } >>= Value.toBool)
    (fun vars => a.run call p.item rounds vars) (fun vars => step.run call p.item rounds vars) n
    (fun k vars st => inv k ⟨p.item, vars, st⟩) (fun k vars st => after k ⟨p.item, vars, st⟩)
    (fun k hk vars st hinv =>
      (Exec.bind_ok (htest k hk call ⟨p.item, vars, st⟩ hinv) Value.toBool).trans
        (congrFun (Value.toBool_ofBool _) st))
    (fun k hk vars st hinv => hgoes (hbody k hk) call p.item vars st hinv)
    (fun k hk vars st hafter => hgoes (hstep k hk) call p.item vars st hafter)
    (n - k) k rounds p.vars p.store (by omega) (by omega) hp
  obtain ⟨vars, st, hrun, hend⟩ := hall
  exact ⟨⟨p.item, vars, st⟩, by rw [Action.run]; exact hrun, rfl, hend⟩

end Actions

/-! ### Conditions -/

/-- The expressions of a kind are conditions: from a point of `pre` they lead to `yes` or to `no`. -/
def Env.Decides (env : Env) (P : Code.Expr → Prop) (pre yes no : Point → Prop) : Prop :=
  ∀ e, P e → ∃ test, env.checkTest e = .ok test ∧ ∀ call p, pre p →
    ∃ b, test.eval call p.frame p.store = (.ok (.ofBool b), p.store) ∧ if b then yes p else no p

section Conditions

variable {env : Env} {pre yes no : Point → Prop} {P Q : Code.Expr → Prop} {s : Scalar}
  {g h : Vars → Exec Value}

theorem Env.Checks.decides (hP : env.Checks P (.scalar .bool) g)
    (hg : ∀ p, pre p → ∃ b, g p.vars p.store = (.ok (.ofBool b), p.store) ∧ if b then yes p else no p) :
    env.Decides P pre yes no := by
  intro e he
  obtain ⟨x, hx, hmeans⟩ := hP e he
  obtain ⟨y, hy, hmeans'⟩ := hmeans.truth e.offset
  refine ⟨y.term, ?_, fun call p hp => ?_⟩
  · rw [checkTest, hx]
    show (do return (← x.truth e.offset).term) = _
    rw [hy]
    rfl
  · rw [hmeans'.value, funext (Value.convert_self _), bind_pure]
    exact hg p hp

/-- The comparison of two integers of one type. -/
theorem Env.checks_compare (hP : env.Checks P (.scalar s) g) (hQ : env.Checks Q (.scalar s) h)
    {op : Operator} (hop : op.isComparison = true) :
    env.Checks (fun e => ∃ x o y, e = .binary x o op y ∧ P x ∧ Q y) (.scalar .bool) fun vars =>
      g vars >>= fun v => v.convert (.scalar s) (.scalar s.arithmetic) >>= fun v =>
        h vars >>= fun w => w.convert (.scalar s) (.scalar s.arithmetic) >>= fun w =>
          v.binary op (.scalar .bool) w := by
  rintro _ ⟨e, o, e', rfl, he, he'⟩
  obtain ⟨x, hx, hxmeans⟩ := hP e he
  obtain ⟨y, hy, hymeans⟩ := hQ e' he'
  have hlog : op.isLogical = false := by
    cases op <;> first | rfl | cases hop
  have hcommon : Ty.broadcast? (.scalar s) (.scalar s) = some (.scalar s.arithmetic) := by
    rw [Ty.broadcast?, Scalar.promote, if_pos (Nat.le_refl _)]
  rw [Env.checkExpr, hx, hy]
  exact hxmeans.binary hymeans hlog (.truth (.inl hop)) hcommon o

/-- **A comparison of integers decides** by the integers. -/
theorem Env.decides_compare (hP : env.Checks P (.scalar s) g) (hQ : env.Checks Q (.scalar s) h)
    {op : Operator} (hop : op.isComparison = true)
    (hvalues : ∀ p, pre p → ∃ i j, Literal.Sized s i ∧ Literal.Sized s j ∧
      g p.vars p.store = (.ok (s.holding i), p.store) ∧ h p.vars p.store = (.ok (s.holding j), p.store) ∧
      if op.relates i j then yes p else no p) :
    env.Decides (fun e => ∃ x o y, e = .binary x o op y ∧ P x ∧ Q y) pre yes no := by
  refine (checks_compare hP hQ hop).decides fun p hp => ?_
  obtain ⟨i, j, hi, hj, hgi, hhj, hcase⟩ := hvalues p hp
  refine ⟨op.relates i j, ?_, hcase⟩
  rw [Exec.bind_ok hgi, hi.convert hi.arithmetic, pure_bind, Exec.bind_ok hhj, hj.convert hj.arithmetic,
    pure_bind, hi.arithmetic.compare hj.arithmetic hop]
  rfl

theorem Env.supplies_ident {x : String} {v : Variable} {t : Ty} {post : Point → Value → Prop}
    (hfind : env.find? x = some v) (htype : v.type = NamedTy.ofTy t)
    (hpost : ∀ p, pre p → post p (p.vars.at v.slot)) :
    env.Supplies (Snippet.name x).tree t pre post := by
  refine Env.Checks.supplies (Env.checks_ident hfind htype) (.same t) fun p hp => ⟨_, ?_, hpost p hp⟩
  rw [pure_bind, Value.convert_self]
  rfl

/-- A small number. -/
theorem Env.checks_digits {n : Nat} (hn : n < 2 ^ 31) :
    env.Checks (Snippet.digits n).tree (.scalar .int) fun _ => pure (Scalar.int.holding n) := by
  rintro _ ⟨o, rfl⟩
  refine ⟨_, Index.check_natural (by omega) env o, ?_⟩
  have hmeans := Index.means_natural n
  rw [Index.natural_int hn] at hmeans
  rw [Index.natural_int hn]
  exact hmeans

theorem Env.supplies_digits {n : Nat} (hn : n < 2 ^ 31) {post : Point → Value → Prop}
    (hpost : ∀ p, pre p → post p (Scalar.uint.holding n)) :
    env.Supplies (Snippet.digits n).tree (.scalar .uint) pre post := by
  have hint : Literal.Sized .int n := Literal.sized_int_iff.mpr (by omega)
  refine (checks_digits hn).supplies (.scalar ..) fun p hp => ⟨_, ?_, hpost p hp⟩
  rw [pure_bind, hint.convert (Literal.sized_uint (by omega))]
  rfl

end Conditions

/-! ### Comparisons with literals -/

/-- Two integers are compared as they are if the common type of their types holds both. -/
theorem Checked.Means.compare {x y : Checked} {s t : Scalar} {i j : Int}
    (hx : x.Means (.scalar s) fun _ => pure (s.holding i))
    (hy : y.Means (.scalar t) fun _ => pure (t.holding j)) (hi : Literal.Sized s i) (hj : Literal.Sized t j)
    (hi' : Literal.Sized (s.promote t) i) (hj' : Literal.Sized (s.promote t) j) {op : Operator}
    (hop : op.isComparison = true) (o : Nat) :
    ∃ z, x.binary o op y = .ok z ∧ z.Means (.scalar .bool) fun _ => pure (.ofBool (op.relates i j)) := by
  have hlog : op.isLogical = false := by
    cases op <;> first | rfl | cases hop
  have hcommon : Ty.broadcast? (.scalar s) (.scalar t) = some (.scalar (s.promote t)) := rfl
  obtain ⟨z, hz, hmeans⟩ := hx.binary hy hlog (.truth (.inl hop)) hcommon o
  refine ⟨z, hz, hmeans.type, fun call f => ?_⟩
  rw [hmeans.value, pure_bind]
  show ((s.holding i).convert (.scalar s) (.scalar (s.promote t)) >>= fun v =>
    pure (t.holding j) >>= fun w => w.convert (.scalar t) (.scalar (s.promote t)) >>= fun w =>
      v.binary op (.scalar .bool) w) = _
  rw [hi.convert hi', pure_bind, pure_bind, hj.convert hj', pure_bind, hi'.compare hj' hop]

namespace Literal

theorem Holds.means {s : Scalar} {i : Int} {x : Checked} (h : Holds s i x) :
    x.Means (.scalar s) fun _ => pure (s.holding i) := ⟨h.type, h.value⟩

/-- The elements of a type that are not below what a text says are those from an integer on. -/
def Bounds (env : Env) (s : Scalar) (text : String) (v : Int) : Prop :=
  ∃ e y, Code.Expr.parse Program.fileName (SourceText.ofChars text.toList) = .ok e ∧
    env.checkExpr e = .ok y ∧ ∀ i, Sized s i → ∀ (x : Checked) o,
      x.Means (.scalar s) (fun _ => pure (s.holding i)) →
        ∃ z, x.binary o .geq y = .ok z ∧
          z.Means (.scalar .bool) fun _ => pure (.ofBool (decide (v ≤ i)))

/-- **Elements are compared with an integer by its literal, except with the smallest `long`.**  Its
literal is an `ulong`, and so the elements are compared as such. -/
theorem integer_bounds_iff {s : Scalar} {v : Int} (hv : Sized s v) (env : Env)
    (henv : env.structs.lookup s.name = none) :
    Bounds env s (integer s v) v ↔ ¬ (s = .long ∧ v = -0x8000000000000000) := by
  obtain ⟨e, hparse, htree⟩ := parse_integer hv
  cases hsmallest : isSmallest s v with
  | false =>
    have hnot : ¬ (s = .long ∧ v = -0x8000000000000000) := by
      rintro ⟨rfl, rfl⟩
      cases hsmallest
    obtain ⟨y, hy, hholds⟩ :=
      hv.check hsmallest htree fun spec hspec => resolve_scalar hv.integer henv hspec
    refine iff_of_true ⟨e, y, hparse, hy, fun i hi x o hx => ?_⟩ hnot
    have hpromote : s.promote s = s.arithmetic := if_pos (Nat.le_refl _)
    exact hx.compare hholds.means hi hv (hpromote ▸ hi.arithmetic) (hpromote ▸ hv.arithmetic) rfl o
  | true =>
    obtain ⟨y, hy, hholds⟩ :
        ∃ y, env.checkExpr e = .ok y ∧ Holds (beyond s) (residue (beyond s) v) y :=
      check_smallest hsmallest htree
    simp only [isSmallest, Bool.or_eq_true, Bool.and_eq_true, decide_eq_true_eq] at hsmallest
    rcases hsmallest with ⟨rfl, rfl⟩ | ⟨rfl, rfl⟩
    · refine iff_of_true ⟨e, y, hparse, hy, fun i hi x o hx => ?_⟩ (by simp)
      have hrange := sized_int_iff.mp hi
      have hi' : Sized .long i := sized_long_iff.mpr (by omega)
      have hv' : Sized .long (-0x80000000) := sized_long_iff.mpr (by decide)
      exact hx.compare hholds.means hi hv' hi' hv' rfl o
    · refine iff_of_false ?_ (by simp)
      rintro ⟨e', y', hparse', hy', hall⟩
      cases hparse.symm.trans hparse'
      cases hy.symm.trans hy'
      have hzero : Sized .long 0 := sized_long_iff.mpr (by decide)
      have hzero' : Sized .ulong 0 := sized_ulong_iff.mpr (by decide)
      have hv' : Sized .ulong 0x8000000000000000 := sized_ulong_iff.mpr (by decide)
      have hx := (holds_wideConstant .long 0).means
      obtain ⟨z, hz, hmeans⟩ := hall 0 hzero _ 0 hx
      have hgeq : Operator.isComparison .geq = true := rfl
      obtain ⟨z', hz', hmeans'⟩ := hx.compare hholds.means hzero hv' hzero' hv' hgeq 0
      cases hz.symm.trans hz'
      have hsame := (hmeans.value default default).symm.trans (hmeans'.value default default)
      cases congrFun hsame #[]

/-- Zero is not found to be at least the smallest `long`. -/
theorem smallest_long_no_bound :
    ¬ Bounds {} .long (integer .long (-0x8000000000000000)) (-0x8000000000000000) := by
  have hv : Sized .long (-0x8000000000000000) := sized_long_iff.mpr (by decide)
  exact fun h => (integer_bounds_iff hv {} rfl).mp h ⟨rfl, rfl⟩

end Literal

/-! ### Loops -/

namespace Env

attribute [simp] find?_openScope

@[simp] theorem slots_openScope (env : Env) : env.openScope.slots = env.slots := rfl

@[simp] theorem find?_extend (env : Env) (x : String) (t : Ty) (readOnly : Bool) (y : String) :
    (env.extend x t readOnly).find? y =
      if y = x then some { slot := env.slots, type := NamedTy.ofTy t, readOnly } else env.find? y := by
  split
  · subst y
    exact find?_extend_self ..
  · exact find?_extend_ne ‹_›

@[simp] theorem slots_extend (env : Env) (x : String) (t : Ty) (readOnly : Bool) :
    (env.extend x t readOnly).slots = env.slots + 1 := rfl

/-- The environment of the body of a loop, given that of its header. -/
def looped (head : Env) : Env := { (head.closeTo head.openScope).openScope with inLoop := true }.openScope

@[simp] theorem find?_looped (head : Env) (x : String) : head.looped.find? x = head.find? x := rfl

@[simp] theorem slots_looped (head : Env) : head.looped.slots = head.slots := rfl

@[simp] theorem resolve_looped (head : Env) : head.looped.resolve = head.resolve := rfl

/-- The step that adds one to a counter. -/
theorem check_step {env : Env} {i : String} {v : Variable} (hfind : env.find? i = some v)
    (htype : v.type = .scalar .uint) (hmutable : v.readOnly = false) (o o' : Nat) :
    ∃ a, env.checkSimple (.step (.ident ⟨o, i⟩) o' .inc) = .ok (a, env) ∧
      ∀ {rounds k : Nat} {post : Point → Prop}, a.Takes rounds
        (fun p => p.vars.at v.slot = Scalar.uint.holding k ∧
          post (p.put v.slot (Scalar.uint.holding (k + 1 : Nat)))) post := by
  let next : Term := .binary .add (.scalar .uint) .current
    (.cast .uint (Checked.ofConstant (.ofInt 1)).term)
  have hplace : assignable o' (.ofVariable v) = .ok (.var v.slot) := by
    simp [assignable, Checked.ofVariable, hmutable]
  have htype' : (Checked.ofVariable v).type = .scalar .uint := htype
  refine ⟨.update (.var v.slot) next, ?_, fun {rounds k post} call p hp => ?_⟩
  · rw [checkSimple, check_ident hfind]
    show (do let action ← checkUpdate o' (.ofVariable v) .add (.ofConstant (.ofInt 1)); _) = _
    rw [checkUpdate, hplace, htype']
    rfl
  · obtain ⟨hcounter, hpost⟩ := hp
    refine ⟨p.put v.slot (Scalar.uint.holding (k + 1 : Nat)), ?_, rfl, hpost⟩
    have hnext : next.eval call { item := p.item, vars := p.vars, current? := some (.var v.slot) } =
        pure (Scalar.uint.holding (k + 1 : Nat)) := by
      rw [Term.eval, Term.eval, Term.eval, Checked.ofConstant, Term.eval]
      show (pure (p.vars.at v.slot) >>= fun v => _) = _
      rw [hcounter, pure_bind]
      exact Scalar.add_holding (s := .uint) rfl rfl k 1
    rw [Action.run, Place.locate]
    show (next.eval call { item := p.item, vars := p.vars, current? := some (.var v.slot) } >>= _) _ = _
    rw [hnext, pure_bind]
    rfl

/-- A loop whose parts are checked, its header declaring a variable. -/
theorem check_loop {env head inner : Env} {init step body : Action} {test : Term} {s r : Code.Simple}
    {e : Code.Expr} {ss : List Code.Stmt} (hinit : env.openScope.checkSimple s = .ok (init, head))
    (htest : head.checkTest e = .ok test)
    (hstep : head.openScope.checkSimple r = .ok (step, head.openScope))
    (hbody : head.looped.checkStmts ss = .ok (body, inner)) (o o' : Nat) :
    env.checkStmt (.loop o (some s) (some e) (some r) (.block o' ss)) =
      .ok (.seq init (.loop (some test) step body), env.closeTo inner) := by
  have hblock : { (head.closeTo head.openScope).openScope with inLoop := true }.checkStmt (.block o' ss) =
      .ok (body, { (head.closeTo head.openScope).openScope with inLoop := true }.closeTo inner) := by
    rw [checkStmt]
    show (head.looped.checkStmts ss >>= _) = _
    rw [hbody]
    rfl
  rw [checkStmt, checkOptional, hinit]
  show (do let test ← some <$> head.checkTest e; _) = _
  rw [htest]
  show (head.openScope.checkSimple r >>= _) = _
  rw [hstep]
  show ({ (head.closeTo head.openScope).openScope with inLoop := true }.checkStmt (.block o' ss) >>= _) = _
  rw [hblock]
  rfl

end Env

/-! ### Rules -/

namespace Listing

/-- A listing as the device runs it: it is checked, and from each point of `pre` it goes on at a point
of `post`. -/
def Takes (rounds : Nat) (env : Env) (l : Listing) (env' : Env) (pre post : Point → Prop) : Prop :=
  ∀ ss, l.Trees ss → ∃ a, env.checkStmts ss = .ok (a, env') ∧ a.Takes rounds pre post

variable {rounds : Nat} {env env' inner : Env} {pre mid post yes no : Point → Prop} {next body : Listing}

theorem takes_cons {s : Code.Stmt} {ss : List Code.Stmt} {a : Action} {env₁ : Env}
    (h : env.checkStmt s = .ok (a, env₁)) (ha : a.Takes rounds pre mid)
    (hnext : next.Takes rounds env₁ env' mid post) (hss : next.Trees ss) :
    ∃ b, env.checkStmts (s :: ss) = .ok (b, env') ∧ b.Takes rounds pre post := by
  obtain ⟨b, hb, htakes⟩ := hnext ss hss
  refine ⟨.seq a b, ?_, ha.seq htakes⟩
  rw [Env.checkStmts, h]
  show (env₁.checkStmts ss >>= _) = _
  rw [hb]
  rfl

theorem takes_done (h : ∀ p, pre p → post p) : done.Takes rounds env env pre post := by
  rintro _ rfl
  exact ⟨.skip, by rw [Env.checkStmts], Action.takes_skip h⟩

theorem takes_declare {readOnly : Bool} {t : Ty} {x : String} {e : Snippet} (hfree : env.find? x = none)
    (ht : ∀ spec, Code.Scope.Says (qualifierTokens readOnly) t.name false spec →
      env.resolve spec = .ok (NamedTy.ofTy t))
    (hvoid : t ≠ .void) (hnext : next.Takes rounds (env.extend x t readOnly) env' mid post)
    (he : env.Supplies e.tree t pre fun p v => mid (p.put env.slots v)) :
    (declare readOnly t x e next).Takes rounds env env' pre post := by
  rintro _ ⟨spec, o, e', ss, rfl, hspec, he', hss⟩
  obtain ⟨y, hy, hconvert⟩ := he e' he'
  obtain ⟨z, hz, hvalue⟩ := hconvert e'.offset
  have hread : (spec.readOnly && !spec.pointer) = readOnly := by
    rw [hspec.readOnly, hspec.pointer]
    cases readOnly <;> rfl
  exact takes_cons (Env.check_declaration hfree (ht spec hspec) hread hvoid hy hz o)
    ((Action.takes_declare hvalue).seq (Action.takes_skip fun _ h => h)) hnext hss

theorem takes_assign {x : String} {v : Variable} {t : Ty} {e : Snippet} (hfind : env.find? x = some v)
    (htype : v.type = NamedTy.ofTy t) (hmutable : v.readOnly = false)
    (hnext : next.Takes rounds env env' mid post)
    (he : env.Supplies e.tree t pre fun p w => mid (p.put v.slot w)) :
    (assign (.name x) e next).Takes rounds env env' pre post := by
  rintro _ ⟨_, o, e', ss, rfl, ⟨o', rfl⟩, he', hss⟩
  obtain ⟨y, hy, hconvert⟩ := he e' he'
  obtain ⟨z, hz, hvalue⟩ := hconvert o
  have htype' : (Checked.ofVariable v).type = NamedTy.ofTy t := htype
  rw [← htype'] at hz
  refine takes_cons (Env.check_assignment (Env.check_ident hfind o') rfl hmutable hy hz) ?_ hnext hss
  intro call p hp
  obtain ⟨w, hw, hmid⟩ := hvalue call p hp
  refine ⟨p.put v.slot w, ?_, rfl, hmid⟩
  rw [Action.run]
  show (z.term.eval call p.frame >>= _) p.store = _
  rw [Exec.bind_ok hw, Place.locate]
  rfl

theorem takes_store {x : String} {v : Variable} {t : Ty} {e : Snippet} (hfind : env.find? x = some v)
    (htype : v.type = .pointer (NamedTy.ofTy t) .global false)
    (hnext : next.Takes rounds env env' mid post)
    (he : env.Supplies e.tree t pre fun p w => ∃ m st, p.vars.at v.slot = .pointer ⟨some m, 0⟩ ∧
      Exec.store m 0 t w p.store = (.ok (), st) ∧ mid { p with store := st }) :
    (assign (.unary .mul .mul (.name x)) e next).Takes rounds env env' pre post := by
  rintro _ ⟨_, o, e', ss, rfl, ⟨o₁, _, rfl, o₂, rfl⟩, he', hss⟩
  obtain ⟨y, hy, hconvert⟩ := he e' he'
  obtain ⟨z, hz, hvalue⟩ := hconvert o
  let place : Place := .deref t (.var v.slot) (Checked.ofConstant (.ofLong 0)).term
  let target : Checked :=
    { type := NamedTy.ofTy t, term := .load place, place? := some place, memory? := some (.global, false) }
  have hplace : env.checkExpr (.unary o₁ .mul (.ident ⟨o₂, x⟩)) = .ok target := by
    have htype' : (Checked.ofVariable v).type = .pointer (NamedTy.ofTy t) .global false := htype
    rw [Env.checkExpr, Env.check_ident hfind]
    show Checked.deref o₁ (.ofVariable v) _ = _
    unfold Checked.deref
    rw [htype']
    simp only [NamedTy.ty_ofTy]
    rfl
  refine takes_cons (Env.check_assignment hplace rfl rfl hy hz) ?_ hnext hss
  intro call p hp
  obtain ⟨w, hw, m, st, hpointer, hstore, hmid⟩ := hvalue call p hp
  refine ⟨{ p with store := st }, ?_, rfl, hmid⟩
  have hlocate : place.locate call p.frame = pure (.mem m 0 t) := by
    rw [Place.locate, Term.eval, Checked.ofConstant, Term.eval]
    show (pure (p.vars.at v.slot) >>= _) = _
    rw [hpointer]
    have hzero : (0 : BitVec 64) + BitVec.ofInt 64 0 * BitVec.ofNat 64 t.size = 0 := by simp
    exact congrArg (fun o => (pure (.mem m o t) : Exec Loc)) hzero
  rw [Action.run]
  show (z.term.eval call p.frame >>= fun w => place.locate call p.frame >>= _) p.store = _
  rw [Exec.bind_ok hw, hlocate, pure_bind, Loc.store]
  show ((Exec.store m 0 t w >>= fun _ => pure p.vars) >>= _) p.store = _
  rw [bind_assoc, Exec.bind_ok hstore]
  rfl

theorem takes_branch {test : Snippet} (htest : env.Decides test.tree pre yes no)
    (hbody : body.Takes rounds env.openScope.openScope inner yes mid) (hno : ∀ p, no p → mid p)
    (hnext : next.Takes rounds (env.closeTo inner) env' mid post) :
    (branch test body next).Takes rounds env env' pre post := by
  rintro _ ⟨o, e, o', bs, ss, rfl, he, hbs, hss⟩
  obtain ⟨term, hterm, hvalue⟩ := htest e he
  obtain ⟨a, ha, htakes⟩ := hbody bs hbs
  exact takes_cons (Env.check_branch hterm ha o o') (Action.takes_branch hvalue htakes hno) hnext hss

/-- The check of a counter against a bound. -/
theorem decides_count {i bound : String} {v w : Variable} (hi : env.find? i = some v)
    (hitype : v.type = .scalar .uint) (hw : env.find? bound = some w) (hwtype : w.type = .scalar .uint)
    {k n : Nat} (hk : k < 2 ^ 32) (hn : n < 2 ^ 32)
    (hpre : ∀ p, pre p → p.vars.at v.slot = Scalar.uint.holding k ∧
      p.vars.at w.slot = Scalar.uint.holding n) :
    env.Decides (Snippet.binary .lss (.name i) (.name bound)).tree pre (fun p => pre p ∧ k < n)
      (fun p => pre p ∧ ¬ k < n) := by
  refine Env.decides_compare (Env.checks_ident hi hitype) (Env.checks_ident hw hwtype) rfl fun p hp => ?_
  obtain ⟨hcounter, hbound⟩ := hpre p hp
  refine ⟨k, n, Literal.sized_uint hk, Literal.sized_uint hn, ?_, ?_, ?_⟩
  · rw [hcounter]
    rfl
  · rw [hbound]
    rfl
  · simp [Operator.relates, hp]

/-- **The rule for loops.**  The invariant holds of one when the loop starts; the body takes it for a
number below the bound to where adding one to the counter makes it hold of the next number; and it
holds of the bound when the loop ends. -/
theorem takes_count {i bound : String} {w : Variable} (hfree : env.find? i = none)
    (huint : env.Resolves (.scalar .uint)) (hfind : env.find? bound = some w)
    (htype : w.type = .scalar .uint) {n : Nat} (hpos : 1 ≤ n) (hn : n < 2 ^ 32) (hrounds : n < rounds)
    {inv : Nat → Point → Prop}
    (hinv : ∀ k p, inv k p → p.vars.at env.slots = Scalar.uint.holding k ∧
      p.vars.at w.slot = Scalar.uint.holding n)
    (hstart : ∀ p, pre p → inv 1 (p.put env.slots (Scalar.uint.holding 1)))
    (hbody : ∀ k, body.Takes rounds (env.openScope.extend i (.scalar .uint) false).looped inner
      (fun p => inv k p ∧ 1 ≤ k ∧ k < n)
      fun p => p.vars.at env.slots = Scalar.uint.holding k ∧
        inv (k + 1) (p.put env.slots (Scalar.uint.holding (k + 1 : Nat))))
    (hend : ∀ p, inv n p → mid p)
    (hnext : next.Takes rounds (env.closeTo inner) env' mid post) :
    (count i bound body next).Takes rounds env env' pre post := by
  rintro _ ⟨o, spec, oi, one, test, _, ox, o', bs, ss, rfl, hspec, hone, htest, ⟨o₁, rfl⟩, hbs, hss⟩
  let head := env.openScope.extend i (.scalar .uint) false
  let counter : Variable := { slot := env.slots, type := .scalar .uint, readOnly := false }
  have hfree' : env.openScope.find? i = none := hfree
  have hi : head.find? i = some counter := Env.find?_extend_self ..
  have hw : head.find? bound = some w := (Env.grows_extend hfree' _ _).finds hfind
  -- The counter starts at one.
  have hsupplies : env.openScope.Supplies (Snippet.digits 1).tree (.scalar .uint) pre
      fun p v => inv 1 (p.put env.slots v) ∧ 1 ≤ 1 :=
    Env.supplies_digits (by decide) fun p hp => ⟨hstart p hp, Nat.le_refl 1⟩
  obtain ⟨y, hy, hconvert⟩ := hsupplies one hone
  obtain ⟨z, hz, hvalue⟩ := hconvert one.offset
  have hread : (spec.readOnly && !spec.pointer) = false := by
    rw [hspec.readOnly]
    rfl
  have hinit := Env.check_declaration hfree' (huint spec hspec) hread nofun hy hz oi
  rw [Env.checkStmt] at hinit
  have hstarts : (Action.seq (.declare env.slots (.scalar .uint) (some z.term)) .skip).Takes rounds pre
      (fun p => inv 1 p ∧ 1 ≤ 1) := (Action.takes_declare hvalue).seq (Action.takes_skip fun _ h => h)
  -- The condition, the step and the body are checked once, whatever the number is.
  have hdecides : ∀ k ≤ n, _ := fun k hk => decides_count hi rfl hw htype (by omega : k < 2 ^ 32) hn
    (fun p hp => hinv k p hp) test htest
  obtain ⟨term, hterm, -⟩ := hdecides 0 (Nat.zero_le n)
  obtain ⟨a, ha, -⟩ := hbody 0 bs hbs
  have hi' : head.openScope.find? i = some counter := hi
  obtain ⟨step, hstep, hsteps⟩ := Env.check_step hi' rfl rfl o₁ ox
  have hloop : (Action.loop (some term) step a).Takes rounds (fun p => inv 1 p ∧ 1 ≤ 1)
      (fun p => inv n p ∧ 1 ≤ n) := by
    refine @Action.takes_loop rounds a term step (fun k p => inv k p ∧ 1 ≤ k)
      (fun k p => (p.vars.at env.slots = Scalar.uint.holding k ∧
        inv (k + 1) (p.put env.slots (Scalar.uint.holding (k + 1 : Nat)))) ∧ 1 ≤ k + 1) n ?_ ?_ ?_ 1 hpos
      hrounds
    · intro k hk call p hp
      obtain ⟨term', hterm', hdecide⟩ := hdecides k hk
      rw [hterm] at hterm'
      cases hterm'
      obtain ⟨b, hb, hcase⟩ := hdecide call p hp.1
      rw [hb]
      cases b with
      | true => rw [decide_eq_true hcase.2]
      | false => rw [decide_eq_false hcase.2]
    · intro k hk call p hp
      obtain ⟨a', ha', htakes⟩ := hbody k bs hbs
      rw [ha] at ha'
      cases ha'
      obtain ⟨q, hq, hitem, hafter⟩ := htakes call p ⟨hp.1, hp.2, hk⟩
      exact ⟨q, hq, hitem, hafter, by omega⟩
    · intro k hk call p hp
      exact hsteps call p ⟨hp.1.1, hp.1.2, hp.2⟩
  exact takes_cons (Env.check_loop hinit hterm hstep ha o o')
    ((hstarts.seq hloop).mono fun p hp => hend p hp.1) hnext hss

end Listing

end KernelForge
