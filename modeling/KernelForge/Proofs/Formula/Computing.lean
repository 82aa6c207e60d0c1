/-
What is compiled computes the value of the formula.

The script of a formula leaves the value in a variable.  The scripts of operands run before the
operation, whatever the operation does with the operands first; as none of them changes a memory,
and each keeps the variables of those before it, this comes to the same as computing the operands
where the formula has them.
-/
import KernelForge.Proofs.Formula.Performing
import KernelForge.Proofs.Formula.Writing

namespace KernelForge

open Exec (Quiet Alike Yields)
open Vars (Looks)

/-! ### Several values -/

/-- The values of some actions, from left to right. -/
def Exec.all {α : Type} : List (Exec α) → Exec (List α)
  | [] => return []
  | x :: xs => do
    let a ← x
    let as ← all xs
    return a :: as

theorem Exec.quiet_all {α : Type} {xs : List (Exec α)} (h : ∀ x ∈ xs, Quiet x) : Quiet (all xs) := by
  induction xs with
  | nil => exact quiet_pure _
  | cons x xs ih =>
    rw [List.forall_mem_cons] at h
    exact h.1.bind fun a => (ih h.2).bind fun as => quiet_pure _

/-- Values may be converted one by one or when all of them are there. -/
theorem Value.alike_convertEach {ss ts : List Ty} (h : Ty.ConvertAll ss ts) :
    ∀ {xs : List (Exec Value)}, xs.length = ss.length → (∀ x ∈ xs, Quiet x) →
      Alike (convertEach ss ts xs) (Exec.all xs >>= convertAll ss ts) := by
  induction h with
  | nil =>
    intro xs hlen _
    rw [List.length_eq_zero_iff.mp hlen]
    exact Exec.alike_refl _
  | cons hconv hconvs ih =>
    rename_i s t ss ts
    intro xs hlen hquiet
    obtain ⟨x, xs, rfl⟩ := List.exists_cons_of_length_eq_add_one hlen
    rw [List.forall_mem_cons] at hquiet
    rw [convertEach, Exec.all, bind_assoc]
    refine hquiet.1.alike_bind fun v _ => ?_
    have hrest := ih (Nat.succ.inj hlen) hquiet.2
    have hall := Exec.quiet_all hquiet.2
    have hfirst : Alike (v.convert s t >>= fun w => convertEach ss ts xs >>= fun ws => pure (w :: ws))
        (v.convert s t >>= fun w => Exec.all xs >>= fun vs => convertAll ss ts vs >>= fun ws =>
          pure (w :: ws)) := by
      refine (quiet_convert s t v).alike_bind fun w _ => ?_
      rw [← bind_assoc]
      exact hrest.bind (quiet_convertEach ss ts hquiet.2)
        (hall.bind fun vs => quiet_convertAll ss ts vs) fun ws _ => Exec.alike_refl _
    refine hfirst.trans ?_
    have hswap := Exec.alike_swap (quiet_convert s t v) hall
      fun w vs => convertAll ss ts vs >>= fun ws => pure (w :: ws)
    refine hswap.trans ?_
    simp only [bind_assoc, pure_bind]
    exact Exec.alike_refl _

/-- A condition is whether something is true, or the contrary. -/
theorem Value.test_eq {v : Value} (h : v.Fits (.scalar .bool)) (negated : Bool) :
    v.test negated = v.toBool >>= fun b => pure (b != negated) := by
  simp only [Fits] at h
  obtain ⟨x, rfl, hx⟩ := h
  obtain ⟨c, rfl⟩ := Lanes.row?_eq_none hx
  cases negated with
  | false =>
    rw [test, if_neg Bool.false_ne_true]
    simp only [Bool.bne_false, bind_pure]
  | true =>
    show (pure (Truth.value (!Truth.value c).toUInt8) : Exec Bool) = pure (Truth.value c != true)
    rw [Truth.value_toUInt8, Bool.bne_true]

/-! ### Computing -/

/-- A script that computes a value: after it, `g` reads off the variables what `x` gives for the
variables before.  The first `n` of them, which no script changes, are those that `x` speaks of, and
they are as `V` says. -/
structure Script.Computes {α : Type} (n : Nat) (V : Vars → Prop) (env : Env) (script : Script)
    (names : Names) (env' : Env) (f : Vars → Exec Vars) (g : Vars → Exec α) (x : Vars → Exec α) :
    Prop where
  performs : script.Performs env.slots env env' f
  within : env'.Within names
  looks : Looks env'.slots g
  quiet : ∀ vars₀, Quiet (x vars₀)
  gives : ∀ {vars₀ vars}, V vars₀ → Vars.Agree n vars₀ vars → env'.slots ≤ vars.size →
    Alike (f vars >>= g) (x vars₀)

namespace Script

variable {α β γ : Type} {n : Nat} {V : Vars → Prop} {env env₁ env₂ : Env} {a b : Script}
  {names names₁ names₂ : Names} {f f₁ f₂ : Vars → Exec Vars} {g g' x x' : Vars → Exec α}
  {g₂ y : Vars → Exec β}

/-- Where nothing is to be done, the value is there already. -/
theorem computes_done (henv : env.Within names) (hn : n ≤ env.slots) (hg : Looks n g)
    (hx : ∀ vars₀, x vars₀ = g vars₀) : Computes n V env done names env pure g x where
  performs := performs_done env.slots env
  within := henv
  looks := hg.mono hn
  quiet := fun vars₀ => hx vars₀ ▸ hg.quiet vars₀
  gives := fun {vars₀ vars} _ hagree _ => by
    rw [pure_bind, hx, hg.stable hagree]
    exact Exec.alike_refl _

/-- Another way to read off the same value. -/
theorem Computes.congr (h : Computes n V env a names env₁ f g x) (hg : Looks env₁.slots g')
    (hx : ∀ vars₀, Quiet (x' vars₀)) (hgg : ∀ vars, Alike (g' vars) (g vars))
    (hxx : ∀ vars₀, V vars₀ → Alike (x vars₀) (x' vars₀)) :
    Computes n V env a names env₁ f g' x' where
  performs := h.performs
  within := h.within
  looks := hg
  quiet := hx
  gives := fun {vars₀ vars} hV hagree hsize => by
    have hstep := (h.performs.quiet vars).alike_bind fun vars' _ => hgg vars'
    exact hstep.trans ((h.gives hV hagree hsize).trans (hxx vars₀ hV))

/-- A value that is computed from another one. -/
theorem Computes.bind (h : Computes n V env a names env₁ f g x) {k : α → Exec β}
    (hk : ∀ v, Quiet (k v)) :
    Computes n V env a names env₁ f (fun vars => g vars >>= k) (fun vars => x vars >>= k) where
  performs := h.performs
  within := h.within
  looks := h.looks.bind fun v => Vars.looks_const (hk v)
  quiet := fun vars₀ => (h.quiet vars₀).bind hk
  gives := fun {vars₀ vars} hV hagree hsize => by
    rw [← bind_assoc]
    refine (h.gives hV hagree hsize).bind ?_ (h.quiet vars₀) fun v _ => Exec.alike_refl _
    exact (h.performs.quiet vars).bind h.looks.quiet

/-- **A value that is computed from two others.**  The second script keeps the variables of the
first one, so both values are there in the end. -/
theorem Computes.pair (hx : Computes n V env a names₁ env₁ f₁ g x) (hn : n ≤ env.slots)
    (hy : Computes n V env₁ b names₂ env₂ f₂ g₂ y) {k : α → β → Exec γ}
    (hk : ∀ v w, Quiet (k v w)) :
    Computes n V env (a ++ b) names₂ env₂ (fun vars => f₁ vars >>= f₂)
      (fun vars => g vars >>= fun v => g₂ vars >>= fun w => k v w)
      (fun vars => x vars >>= fun v => y vars >>= fun w => k v w) where
  performs := hx.performs.append hy.performs hx.performs.grows.slots
  within := hy.within
  looks := (hx.looks.mono hy.performs.grows.slots).bind fun v =>
    hy.looks.bind fun w => Vars.looks_const (hk v w)
  quiet := fun vars₀ => (hx.quiet vars₀).bind fun v => (hy.quiet vars₀).bind fun w => hk v w
  gives := fun {vars₀ vars} hV hagree hsize => by
    have hquiet₁ := hx.performs.quiet vars
    have hsize₁ := Nat.le_trans hy.performs.grows.slots hsize
    rw [bind_assoc]
    -- the value of the first operand is the same before and after the second script
    have hfirst : Alike (f₁ vars >>= fun vars => f₂ vars >>= fun vars => g vars >>= fun v =>
          g₂ vars >>= fun w => k v w)
        (f₁ vars >>= fun vars₁ => g vars₁ >>= fun v => y vars₀ >>= fun w => k v w) := by
      refine hquiet₁.alike_bind fun vars₁ hvars₁ => ?_
      have hkeep := hx.performs.keeps hvars₁
      have hagree₁ : Vars.Agree n vars₀ vars₁ := hagree.trans hkeep hn
      have hstable : Alike (f₂ vars₁ >>= fun vars => g vars >>= fun v => g₂ vars >>= fun w => k v w)
          (f₂ vars₁ >>= fun vars => g vars₁ >>= fun v => g₂ vars >>= fun w => k v w) := by
        refine (hy.performs.quiet vars₁).alike_bind fun vars₂ hvars₂ => ?_
        rw [hx.looks.stable (hy.performs.keeps hvars₂)]
        exact Exec.alike_refl _
      refine hstable.trans ?_
      refine (Exec.alike_swap (hy.performs.quiet vars₁) (hx.looks.quiet vars₁) fun vars v =>
        g₂ vars >>= fun w => k v w).trans ?_
      refine (hx.looks.quiet vars₁).alike_bind fun v _ => ?_
      rw [← bind_assoc]
      refine (hy.gives hV hagree₁ (hkeep.size ▸ hsize)).bind ?_ (hy.quiet vars₀) fun w _ =>
        Exec.alike_refl _
      exact (hy.performs.quiet vars₁).bind hy.looks.quiet
    refine hfirst.trans ?_
    rw [← bind_assoc]
    refine (hx.gives hV hagree hsize₁).bind ?_ (hx.quiet vars₀) fun v _ => Exec.alike_refl _
    exact hquiet₁.bind hx.looks.quiet

variable {s t : Ty} {h z : Vars → Exec Value}

theorem putting_at {slot : Nat} {vars : Vars} (hslot : slot < vars.size) :
    (putting s t h slot vars >>= fun vars => (pure (vars.at slot) : Exec Value)) =
      h vars >>= Value.convert s t := by
  simp only [putting, bind_assoc, pure_bind, Vars.at_set hslot, bind_pure]

/-- The value of an operation is put into a new variable. -/
theorem Computes.declare (hc : Computes n V env a names env₁ f h z) {r : Operation}
    (hr : env₁.Checks r.Tree s h) (hconv : Ty.Converts s t) (ht : env₁.Resolves t)
    (hvoid : t ≠ .void) :
    Computes n V env (a ++ .declare t (names.indexed "_v").1 r .done) (names.indexed "_v").2
      (env₁.extend (names.indexed "_v").1 t false) (fun vars => f vars >>= putting s t h env₁.slots)
      (fun vars => pure (vars.at env₁.slots)) (fun vars => z vars >>= Value.convert s t) where
  performs := hc.performs.append
    (performs_declare (hc.within.find?_indexed "_v") ht hvoid hr hconv hc.looks.quiet)
    hc.performs.grows.slots
  within := hc.within.extend t
  looks := Vars.looks_at (Nat.lt_succ_self _)
  quiet := fun vars₀ => (hc.quiet vars₀).bind fun v => Value.quiet_convert s t v
  gives := fun {vars₀ vars} hV hagree hsize => by
    have hsize₁ : env₁.slots < vars.size := hsize
    have hquiet := hc.performs.quiet vars
    have hread : Alike (f vars >>= fun vars => putting s t h env₁.slots vars >>= fun vars =>
          pure (vars.at env₁.slots)) (f vars >>= fun vars => h vars >>= Value.convert s t) := by
      refine hquiet.alike_bind fun vars₁ hvars₁ => ?_
      rw [putting_at (by rw [(hc.performs.keeps hvars₁).size]; exact hsize₁)]
      exact Exec.alike_refl _
    rw [bind_assoc]
    refine hread.trans ?_
    rw [← bind_assoc]
    refine (hc.gives hV hagree (Nat.le_of_lt hsize₁)).bind ?_ (hc.quiet vars₀) fun v _ =>
      Exec.alike_refl _
    exact hquiet.bind hc.looks.quiet

/-- What is put into a variable under a condition. -/
theorem Computes.guard {v : Variable} {name : String} {d : Operand} {c : Scalar}
    (hx : Computes n V env a names env₁ f (fun vars => pure (vars.at v.slot)) z)
    (hn : n ≤ env.slots) (hbool : ∀ vars₀, V vars₀ → Exec.Safe (z vars₀) (Value.Fits (.scalar .bool)))
    (henv : env₁.KnowsIntegers) (hfind : env₁.find? name = some v) (htype : v.type = .scalar .bool)
    (hmutable : v.readOnly = false) (hslot : env.slots ≤ v.slot) {w : Vars → Exec Value}
    (hy : Computes n V env₁.openScope.openScope b names₂ env₂ f₂ h w)
    (hd : env₂.Checks d.Tree (.scalar c) h) (negated : Bool) :
    Computes n V env (a ++ .guard negated name (b ++ .assign (.var name) d .done) .done) names₂
      (env₁.closeTo env₂)
      (fun vars => f vars >>= guarding negated v.slot fun vars =>
        f₂ vars >>= putting (.scalar c) (.scalar .bool) h v.slot)
      (fun vars => pure (vars.at v.slot))
      (fun vars => z vars >>= fun v => v.toBool >>= fun b =>
        if b = negated then pure v else w vars >>= Value.convert (.scalar c) (.scalar .bool)) where
  performs := by
    have hused := hx.within.slotted hfind
    have hassign : Performs v.slot env₂ (.assign (.var name) d .done) env₂ _ :=
      performs_assign (t := .scalar .bool) (hy.performs.grows.finds hfind) htype hmutable hd
        (.scalar c .bool) hy.looks.quiet (Nat.le_refl _)
    have hbody := (hy.performs.mono (Nat.le_of_lt hused)).append hassign (Nat.le_refl _)
    exact hx.performs.append (performs_guard henv hfind htype negated hbody) hslot
  within := by
    refine ⟨fun hx => hy.within.named (hy.performs.grows.finds hx), fun hfind => ?_, hx.within.clear⟩
    exact Nat.lt_of_lt_of_le (hx.within.slotted hfind) hy.performs.grows.slots
  looks := Vars.looks_at (Nat.lt_of_lt_of_le (hx.within.slotted hfind) hy.performs.grows.slots)
  quiet := by
    refine fun vars₀ => (hx.quiet vars₀).bind fun v => ?_
    refine (Exec.quiet_of_spares fun m => Value.spares_toBool v).bind fun b => ?_
    split
    · exact Exec.quiet_pure _
    · exact (hy.quiet vars₀).bind fun w => Value.quiet_convert _ _ w
  gives := fun {vars₀ vars} hV hagree hsize => by
    have hused := hx.within.slotted hfind
    have hle : env₁.slots ≤ env₂.slots := hy.performs.grows.slots
    have hsize₂ : env₂.slots ≤ vars.size := hsize
    have hquiet := hx.performs.quiet vars
    have hgives := hx.gives hV hagree (Nat.le_trans hle hsize₂)
    have hbranch : Alike
        (f vars >>= fun vars => guarding negated v.slot (fun vars =>
          f₂ vars >>= putting (.scalar c) (.scalar .bool) h v.slot) vars >>= fun vars =>
            pure (vars.at v.slot))
        (f vars >>= fun vars => (vars.at v.slot).toBool >>= fun b => if b = negated
          then pure (vars.at v.slot) else w vars₀ >>= Value.convert (.scalar c) (.scalar .bool)) := by
      refine hquiet.alike_bind fun vars₁ hvars₁ => ?_
      have hkeep := hx.performs.keeps hvars₁
      have hfits := (hbool vars₀ hV).of_yields (hgives.yields (hquiet.yields_map hvars₁ fun vars => vars.at v.slot))
      have htest := Value.quiet_test negated (vars₁.at v.slot)
      rw [guarding, Value.test_eq hfits, bind_assoc, bind_assoc]
      refine (Exec.quiet_of_spares fun m => Value.spares_toBool _).alike_bind fun b _ => ?_
      rw [pure_bind]
      by_cases hb : b = negated
      · rw [if_pos hb, hb, bne_self_eq_false, if_neg Bool.false_ne_true, pure_bind]
        exact Exec.alike_refl _
      · rw [if_neg hb, if_pos (bne_iff_ne.mpr hb), bind_assoc]
        have hread : Alike
            (f₂ vars₁ >>= fun vars => putting (.scalar c) (.scalar .bool) h v.slot vars >>= fun vars =>
              pure (vars.at v.slot))
            (f₂ vars₁ >>= fun vars => h vars >>= Value.convert (.scalar c) (.scalar .bool)) := by
          refine (hy.performs.quiet vars₁).alike_bind fun vars₂ hvars₂ => ?_
          rw [putting_at (by rw [(hy.performs.keeps hvars₂).size, hkeep.size]; omega)]
          exact Exec.alike_refl _
        refine hread.trans ?_
        rw [← bind_assoc]
        refine (hy.gives hV (hagree.trans hkeep hn) (hkeep.size ▸ hsize₂)).bind ?_ (hy.quiet vars₀)
          fun w _ => Exec.alike_refl _
        exact (hy.performs.quiet vars₁).bind hy.looks.quiet
    rw [bind_assoc]
    refine hbranch.trans ?_
    have hshape : (f vars >>= fun vars => (vars.at v.slot).toBool >>= fun b => if b = negated
          then pure (vars.at v.slot) else w vars₀ >>= Value.convert (.scalar c) (.scalar .bool)) =
        (f vars >>= fun vars => pure (vars.at v.slot)) >>= fun v => v.toBool >>= fun b =>
          if b = negated then pure v else w vars₀ >>= Value.convert (.scalar c) (.scalar .bool) := by
      simp only [bind_assoc, pure_bind]
    rw [hshape]
    exact hgives.bind (hquiet.bind fun _ => Exec.quiet_pure _) (hx.quiet vars₀) fun v _ =>
      Exec.alike_refl _

end Script

/-! ### Formulas -/

namespace Formula

/-- The sources that placeholders stand for, and how their values are read off the first `n`
variables. -/
structure Placed (n : Nat) (env : Env) (types : List Ty) (sources : List Source)
    (reads : List (Vars → Exec Value)) : Prop where
  stands : ∀ {i t}, types[i]? = some t →
    ∃ g, reads[i]? = some g ∧ (sources.getD i default).Stands env t g
  looks : ∀ g ∈ reads, Looks n g

variable {n : Nat} {env env' : Env} {types : List Ty} {sources : List Source}
  {reads : List (Vars → Exec Value)} {V : Vars → Prop}

theorem Placed.mono (h : Placed n env types sources reads) (henv : env.Grows env') :
    Placed n env' types sources reads := by
  refine ⟨fun ht => ?_, h.looks⟩
  obtain ⟨g, hg, hstands⟩ := h.stands ht
  exact ⟨g, hg, hstands.mono henv⟩

/-- Where a formula is compiled: what is in scope there, and what the script will name. -/
structure Scene (n : Nat) (types : List Ty) (sources : List Source)
    (reads : List (Vars → Exec Value)) (names : Names) (env : Env) : Prop where
  within : env.Within names
  base : n ≤ env.slots
  integers : env.KnowsIntegers
  placed : Placed n env types sources reads

theorem Scene.after {α : Type} {names names' : Names} {script : Script} {f : Vars → Exec Vars}
    {g x : Vars → Exec α} (h : Scene n types sources reads names env)
    (hc : script.Computes n V env names' env' f g x) :
    Scene n types sources reads names' env' where
  within := hc.within
  base := Nat.le_trans h.base hc.performs.grows.slots
  integers := hc.performs.grows.integers h.integers
  placed := h.placed.mono hc.performs.grows

theorem Scene.openScope {names : Names} (h : Scene n types sources reads names env) :
    Scene n types sources reads names env.openScope where
  within := h.within.openScope
  base := h.base
  integers := env.grows_openScope.integers h.integers
  placed := h.placed.mono env.grows_openScope

/-- What is compiled is an operand of type `t` that has the value of `x`. -/
def Compiled.Means (n : Nat) (V : Vars → Prop) (env : Env) (c : Compiled Operand) (t : Ty)
    (x : Vars → Exec Value) : Prop :=
  ∃ env' f g, c.script.Computes n V env c.names env' f g x ∧ c.value.Stands env' t g

/-- The same of some operands. -/
def Compiled.MeanAll (n : Nat) (V : Vars → Prop) (env : Env) (c : Compiled (List Operand))
    (ts : List Ty) (x : Vars → Exec (List Value)) : Prop :=
  ∃ env' f gs, c.script.Computes n V env c.names env' f
    (fun vars => Exec.all (gs.map fun g => g vars)) x ∧ Operand.StandAll env' c.value ts gs

theorem means_operation {α : Type} {c : Compiled α} {f : Vars → Exec Vars} {h x : Vars → Exec Value}
    {t : Ty} {r : Operation}
    (hc : c.script.Computes n V env c.names env' f h x) (hr : env'.Checks r.Tree t h)
    (ht : env.Resolves t) (hdata : t.isData = true) :
    (compileOperation t c r).Means n V env t x := by
  have hvoid : t ≠ .void := by
    rintro rfl
    cases hdata
  have hd := hc.declare hr (.same t) (hc.performs.grows.resolves ht) hvoid
  have hself : ∀ y : Exec Value, y >>= Value.convert t t = y := by
    intro y
    rw [funext (Value.convert_self t), bind_pure]
  simp only [hself] at hd
  exact ⟨_, _, _, hd, .source (.var (Env.find?_extend_self ..) rfl)⟩

theorem BinaryTyped.exists_common {op : Operator} {s r t : Ty} (h : BinaryTyped op s r t) :
    ∃ common, Ty.broadcast? s r = some common := by
  cases h with
  | truth _ => exact ⟨_, rfl⟩
  | common _ _ _ hcommon _ => exact ⟨_, hcommon⟩

section Pairs

variable {env₁ env₂ : Env} {c d : Compiled Operand} {f₁ f₂ : Vars → Exec Vars}
  {g₁ g₂ X Y : Vars → Exec Value} {s r t : Ty} {op : Operator}

/-- An operator between two formulas. -/
theorem means_arithmetic (hx : c.script.Computes n V env c.names env₁ f₁ g₁ X)
    (hn : n ≤ env.slots) (hc : c.value.Stands env₁ s g₁)
    (hy : d.script.Computes n V env₁ d.names env₂ f₂ g₂ Y) (hd : d.value.Stands env₂ r g₂)
    (henv : env₂.KnowsIntegers) (hX : ∀ vars, V vars → Exec.Safe (X vars) (Value.Fits s))
    (hY : ∀ vars, V vars → Exec.Safe (Y vars) (Value.Fits r))
    (hlog : op.isLogical = false) (hop : BinaryTyped op s r t) (ht : env.Resolves t)
    (hdata : t.isData = true) :
    (compileOperation t ⟨d.value, c.script ++ d.script, d.names⟩ (.binary op c.value d.value)).Means
      n V env t (fun vars => do
        let v ← X vars
        let w ← Y vars
        let v ← v.meet s ((Ty.broadcast? s r).getD .void)
        let w ← w.meet r ((Ty.broadcast? s r).getD .void)
        v.binary op t w) := by
  obtain ⟨common, hcommon⟩ := hop.exists_common
  have hbinary : ∀ v w : Value, Quiet (v.binary op t w) :=
    fun v w => Exec.quiet_of_spares fun m => Value.spares_binary _ _ _ _
  have hquiet : ∀ v w : Value, Quiet (do
      let v ← v.convert s (s.operand common)
      let w ← w.convert r (r.operand common)
      v.binary op t w) := fun v w =>
    (Value.quiet_convert _ _ _).bind fun v => (Value.quiet_convert _ _ _).bind fun w => hbinary v w
  have hchecks := Operation.checks_binary henv (hc.mono hy.performs.grows) hd hlog hop hcommon
  refine means_operation (c := ⟨d.value, c.script ++ d.script, d.names⟩)
    ((hx.pair hn hy hquiet).congr ?_ ?_ (fun vars => ?_) fun vars hV => ?_) hchecks ht hdata
  · have hg₁ := hx.looks.mono hy.performs.grows.slots
    refine hg₁.bind fun v => (Vars.looks_const (Value.quiet_convert _ _ v)).bind fun v' => ?_
    exact hy.looks.bind fun w => Vars.looks_const
      ((Value.quiet_convert _ _ _).bind fun w => hbinary v' w)
  · refine fun vars => (hx.quiet vars).bind fun v => (hy.quiet vars).bind fun w => ?_
    exact (Value.quiet_meet _ _ _).bind fun v => (Value.quiet_meet _ _ _).bind fun w => hbinary v w
  · -- the left operand is converted before the right one is read
    refine (hx.looks.quiet vars).alike_bind fun v _ => ?_
    exact Exec.alike_swap (Value.quiet_convert _ _ _) (hy.looks.quiet vars) _
  · refine (hx.quiet vars).alike_bind fun v hv => (hy.quiet vars).alike_bind fun w hw => ?_
    rw [hcommon, Option.getD_some,
      Value.binary_operands hcommon ((hX vars hV).of_yields hv) ((hY vars hV).of_yields hw)]
    exact Exec.alike_refl _

/-- `&&` and `||`. -/
theorem means_logical {a b : Scalar} (hx : c.script.Computes n V env c.names env₁ f₁ g₁ X)
    (hn : n ≤ env.slots) (hc : c.value.Stands env₁ (.scalar a) g₁)
    (hX : ∀ vars, V vars → Exec.Safe (X vars) (Value.Fits (.scalar a))) (henv : env₁.KnowsIntegers)
    (hbool : env₁.Resolves (.scalar .bool))
    (hy : d.script.Computes n V (env₁.extend (c.names.indexed "_v").1 (.scalar .bool) false).openScope.openScope
      d.names env₂ f₂ g₂ Y) (hd : d.value.Stands env₂ (.scalar b) g₂) (op : Operator) :
    Compiled.Means n V env
      { value := .source (.var (c.names.indexed "_v").1)
        script := (compileOperation (.scalar .bool) c (.copy c.value)).script ++
          .guard (op = .lor) (c.names.indexed "_v").1
            (d.script ++ .assign (.var (c.names.indexed "_v").1) d.value .done) .done
        names := d.names } (.scalar .bool) (fun vars => do
        let v ← X vars
        let v ← v.convert (.scalar a) (.scalar .bool)
        if (← v.toBool) = decide (op = .lor) then return v
        else
          let w ← Y vars
          w.convert (.scalar b) (.scalar .bool)) := by
  have hcopy : env₁.Checks (Operation.copy c.value).Tree (.scalar a) g₁ := hc.check henv
  have htest := hx.declare hcopy (.scalar a .bool) hbool nofun
  have hgrows := env₁.grows_extend (hx.within.find?_indexed "_v") (.scalar .bool) false
  have henv₂ := ((hgrows.trans (Env.grows_openScope _)).trans (Env.grows_openScope _)).trans
    hy.performs.grows
  have hfind := env₁.find?_extend_self (c.names.indexed "_v").1 (.scalar .bool) false
  have hsafe : ∀ vars, V vars → Exec.Safe (X vars >>= Value.convert (.scalar a) (.scalar .bool))
      (Value.Fits (.scalar .bool)) :=
    fun vars hV => (hX vars hV).bind fun v hv => Value.safe_convert (.scalar a .bool) hv
  have hguard := htest.guard hn hsafe (hgrows.integers henv) hfind rfl rfl hx.performs.grows.slots hy
    (hd.check (henv₂.integers henv)) (decide (op = .lor))
  simp only [bind_assoc] at hguard
  have hstands : (Operand.source (.var (c.names.indexed "_v").1)).Stands _ (.scalar .bool) _ :=
    .source (.var hfind rfl)
  exact ⟨_, _, _, hguard, hstands.mono (Env.grows_closeTo hy.performs.grows.slots)⟩

end Pairs

theorem means_call {env₁ : Env} {c : Compiled (List Operand)} {f : Vars → Exec Vars}
    {gs : List (Vars → Exec Value)} {X : Vars → Exec (List Value)} {ts : List Ty}
    (hc : c.script.Computes n V env c.names env₁ f
      (fun vars => Exec.all (gs.map fun g => g vars)) X)
    (hstands : Operand.StandAll env₁ c.value ts gs) (henv : env₁.KnowsIntegers)
    (hts : Ty.areData ts = true) {fn : Builtin} {sig : Builtin.Signature}
    (hsig : fn.signature ts = .ok sig) (ht : env.Resolves sig.result)
    (hdata : sig.result.isData = true) :
    (compileOperation sig.result c (.call fn.name c.value)).Means n V env sig.result (fun vars => do
      let vs ← X vars
      let ws ← Value.convertAll ts sig.params vs
      Value.math fn sig.result ws) := by
  have hconv := (Builtin.signed_of_signature hsig).converts
  have hmath : ∀ ws, Quiet (Value.math fn sig.result ws) :=
    fun ws => Exec.quiet_of_spares fun m => Value.spares_math _ _ _
  have hquiet : ∀ vars : Vars, ∀ x ∈ gs.map fun g => g vars, Quiet x := fun vars =>
    List.forall_mem_map.mpr fun g hg => (hstands.looks hc.within g hg).quiet vars
  have hvalues := hc.bind fun vs => (Value.quiet_convertAll ts sig.params vs).bind hmath
  have hchecks := Operation.checks_call henv hstands hts (hc.within.clear fn) hsig
  refine means_operation (hvalues.congr ⟨fun vars => ?_, fun hagree => ?_⟩ hvalues.quiet (fun vars => ?_)
    fun vars _ => Exec.alike_refl _) hchecks ht hdata
  · exact (Value.quiet_convertEach ts sig.params (hquiet vars)).bind hmath
  · congr 2
    exact List.map_congr_left fun g hg => (hstands.looks hc.within g hg).stable hagree
  · rw [← bind_assoc]
    refine (Value.alike_convertEach hconv ?_ (hquiet vars)).bind
      (Value.quiet_convertEach _ _ (hquiet vars)) ?_ fun ws _ => Exec.alike_refl _
    · rw [List.length_map, hstands.length_eq]
    · exact (Exec.quiet_all (hquiet vars)).bind fun vs => Value.quiet_convertAll _ _ vs

mutual

/-- **What is compiled for a formula computes its value.** -/
theorem means_compile (hdata : Ty.areData types = true)
    (hsupply : ∀ vars, V vars → Supply types (reads.map fun g => g vars)) :
    ∀ {x : Formula} {t : Ty} {names : Names} {env : Env}, x.isPure = true → x.infer types = .ok t →
      Scene n types sources reads names env →
      (∀ u ∈ (compile types sources names x).script.types, u.isData = true → env.Resolves u) →
      (compile types sources names x).Means n V env t
        fun vars => x.eval types (reads.map fun g => g vars)
  | .literal type value, t, names, env, hpure, h, hscene, _ => by
    obtain ⟨s, i, hi, hplain⟩ := integer_of_isPure hpure
    rw [infer_literal hi] at h
    cases h
    simp only [compile, eval, hi]
    refine ⟨env, pure, fun _ => pure (.ofInt s.register i), ?_, ?_⟩
    · exact Script.computes_done hscene.within hscene.base
        (Vars.looks_const (Exec.quiet_pure _)) fun _ => rfl
    · exact .literal (Literal.sized_of_integer? hi) hplain
  | .arg i, t, names, env, _, h, hscene, _ => by
    obtain ⟨g, hg, hstands⟩ := hscene.placed.stands (infer_arg h)
    simp only [compile, eval]
    refine ⟨env, pure, g, ?_, .source hstands⟩
    refine Script.computes_done hscene.within hscene.base
      (hscene.placed.looks g (List.mem_of_getElem? hg)) fun vars => ?_
    rw [List.getD_eq_getElem?_getD, List.getElem?_map, hg]
    rfl
  | .unary op x, t, names, env, hpure, h, hscene, hknown => by
    have hpure' : x.isPure = true := by simpa only [isPure] using hpure
    obtain ⟨s, hs, ht⟩ := infer_unary h
    have htdata := isData_infer hdata hpure h
    rw [compile] at hknown ⊢
    simp only [compileOperation, Script.types_append, List.forall_mem_append, Script.types,
      List.forall_mem_singleton, typeOf_eq h] at hknown
    obtain ⟨env₁, f, g, hc, hstands⟩ := means_compile hdata hsupply hpure' hs hscene hknown.1
    simp only [eval, typeOf_eq h, typeOf_eq hs]
    refine means_operation (hc.bind fun v => ?_) ?_ (hknown.2 htdata) htdata
    · exact (Value.quiet_convert s t v).bind fun w =>
        Exec.quiet_of_spares fun m => Value.spares_unary _ _ _
    · exact Operation.checks_unary (hscene.after hc).integers hstands ht
  | .binary op x y, t, names, env, hpure, h, hscene, hknown => by
    have hpure' := hpure
    rw [isPure, Bool.and_eq_true] at hpure'
    obtain ⟨s, r, hs, hr, hop⟩ := infer_binary h
    have hop := binaryTyped_of_binaryTy hop
    have htdata := isData_infer hdata hpure h
    have hX := fun vars hV => safe_eval (hsupply vars hV) hpure'.1 hs
    have hY := fun vars hV => safe_eval (hsupply vars hV) hpure'.2 hr
    rw [compile] at hknown ⊢
    simp only [eval, typeOf_eq h, typeOf_eq hs, typeOf_eq hr]
    rw [typeOf_eq h] at hknown
    simp only at hknown ⊢
    cases hlog : op.isLogical with
    | true =>
      cases hop with
      | common _ hlog' _ _ _ => rw [hlog'] at hlog; cases hlog
      | truth _ =>
        simp only [hlog, if_true, compileOperation, Script.types_append, Script.types,
          List.append_nil, List.forall_mem_append, List.forall_mem_singleton] at hknown ⊢
        obtain ⟨⟨hknown₁, hbool⟩, hknown₂⟩ := hknown
        obtain ⟨env₁, f₁, g₁, hx, hc⟩ := means_compile hdata hsupply hpure'.1 hs hscene hknown₁
        have hscene₁ := hscene.after hx
        have hbool₁ := hx.performs.grows.resolves (hbool rfl)
        have htest := hx.declare (r := .copy _) (hc.check hscene₁.integers) (.scalar _ .bool)
          hbool₁ nofun
        have hscene₂ := ((hscene.after htest).openScope).openScope
        have hgrows := (htest.performs.grows.trans (Env.grows_openScope _)).trans
          (Env.grows_openScope _)
        obtain ⟨env₂, f₂, g₂, hy, hd⟩ := means_compile hdata hsupply hpure'.2 hr hscene₂
          fun u hu hudata => hgrows.resolves (hknown₂ u hu hudata)
        exact means_logical hx hscene.base hc hX hscene₁.integers hbool₁ hy hd op
    | false =>
      simp only [hlog, Bool.false_eq_true, if_false, compileOperation, Script.types_append,
        Script.types, List.forall_mem_append, List.forall_mem_singleton] at hknown ⊢
      obtain ⟨env₁, f₁, g₁, hx, hc⟩ := means_compile hdata hsupply hpure'.1 hs hscene hknown.1.1
      have hscene₁ := hscene.after hx
      obtain ⟨env₂, f₂, g₂, hy, hd⟩ := means_compile hdata hsupply hpure'.2 hr hscene₁
        fun u hu hudata => hx.performs.grows.resolves (hknown.1.2 u hu hudata)
      exact means_arithmetic hx hscene.base hc hy hd (hscene₁.after hy).integers hX hY hlog hop
        (hknown.2 htdata) htdata
  | .call name xs, t, names, env, hpure, h, hscene, hknown => by
    have hpure' : arePure xs = true := by simpa only [isPure] using hpure
    obtain ⟨ts, fn, sig, hts, hfn, hsig, hres⟩ := infer_call h
    have htdata := isData_infer hdata hpure h
    have hname := Builtin.name_of_ofName? hfn
    rw [compile] at hknown ⊢
    simp only [compileOperation, Script.types_append, List.forall_mem_append, Script.types,
      List.forall_mem_singleton, typeOf_eq h] at hknown
    obtain ⟨env₁, f, gs, hc, hstands⟩ := means_compileAll hdata hsupply hpure' hts hscene hknown.1
    simp only [eval, typeOf_eq h, map_typeOf hts, hfn, hsig]
    subst hres
    subst hname
    exact means_call hc hstands (hscene.after hc).integers (areData_inferAll hdata hpure' hts) hsig
      (hknown.2 htdata) htdata
  | .get index x, t, names, env, hpure, h, hscene, hknown => by
    have hpure' : x.isPure = true := by simpa only [isPure] using hpure
    obtain ⟨s, hs, helem⟩ := infer_get h
    have htdata := isData_infer hdata hpure h
    obtain ⟨a, ha⟩ := @exists_source sources types x s t index names hs hpure' helem
    rw [compile] at hknown ⊢
    simp only [compileOperation, Script.types_append, List.forall_mem_append, Script.types,
      List.forall_mem_singleton, typeOf_eq h] at hknown
    obtain ⟨env₁, f, g, hc, hstands⟩ := means_compile hdata hsupply hpure' hs hscene hknown.1
    rw [ha] at hstands
    cases hstands with
    | source hstands =>
      simp only [eval, typeOf_eq h, typeOf_eq hs, ha]
      refine means_operation (hc.bind fun v => Value.quiet_get _ _ v) ?_ (hknown.2 htdata) htdata
      exact Operation.checks_select hstands helem
  | .missing, t, names, env, hpure, _, _, _ => by cases hpure
  | .apply fn xs, t, names, env, hpure, _, _, _ => by cases hpure
  | .helper fn, t, names, env, hpure, _, _, _ => by cases hpure
  | .set lhs rhs, t, names, env, hpure, _, _, _ => by cases hpure

theorem means_compileAll (hdata : Ty.areData types = true)
    (hsupply : ∀ vars, V vars → Supply types (reads.map fun g => g vars)) :
    ∀ {xs : List Formula} {ts : List Ty} {names : Names} {env : Env}, arePure xs = true →
      inferAll types xs = .ok ts → Scene n types sources reads names env →
      (∀ u ∈ (compileAll types sources names xs).script.types, u.isData = true → env.Resolves u) →
      (compileAll types sources names xs).MeanAll n V env ts
        fun vars => evalAll types (reads.map fun g => g vars) xs
  | [], ts, names, env, _, h, hscene, _ => by
    rw [inferAll] at h
    cases h
    simp only [compileAll, evalAll]
    refine ⟨env, pure, [], ?_, .nil⟩
    exact Script.computes_done hscene.within hscene.base (Vars.looks_const (Exec.quiet_pure _))
      fun _ => rfl
  | x :: xs, ts, names, env, hpure, h, hscene, hknown => by
    rw [arePure, Bool.and_eq_true] at hpure
    obtain ⟨t, ts', ht, hts', rfl⟩ := inferAll_cons h
    rw [compileAll] at hknown ⊢
    simp only [Script.types_append, List.forall_mem_append] at hknown
    obtain ⟨env₁, f₁, g, hx, hstands⟩ := means_compile hdata hsupply hpure.1 ht hscene hknown.1
    obtain ⟨env₂, f₂, gs, hxs, hstandall⟩ := means_compileAll hdata hsupply hpure.2 hts'
      (hscene.after hx) fun u hu hudata => hx.performs.grows.resolves (hknown.2 u hu hudata)
    simp only [evalAll]
    have hpair := hx.pair hscene.base hxs (k := fun v vs => (pure (v :: vs) : Exec (List Value)))
      fun v vs => Exec.quiet_pure _
    exact ⟨env₂, _, g :: gs, hpair, .cons (hstands.mono hxs.performs.grows) hstandall⟩

end

end Formula

end KernelForge
