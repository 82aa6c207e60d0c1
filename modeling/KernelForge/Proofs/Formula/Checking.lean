/-
Operations as the device checks them.

The operations of a script are checked expressions of the types that formulas have, and their values
are computed from the operands as formulas say.  What an operand is, a variable or an element of a
buffer or a literal, enters only through the function that reads its value off the variables.
-/
import KernelForge.Proofs.Draft.Typedefs
import KernelForge.Proofs.Formula.Meaning
import KernelForge.Proofs.Formula.Trees

namespace KernelForge

/-! ### Checked expressions -/

namespace Checked

/-- An expression of type `t`, whose value `g` reads off the variables. -/
structure Means (t : Ty) (g : Vars → Exec Value) (x : Checked) : Prop where
  type : x.type = NamedTy.ofTy t
  value : ∀ call f, x.term.eval call f = g f.vars

variable {x y : Checked} {s r t : Ty} {g h : Vars → Exec Value} {op : Operator}

theorem Means.ty (hx : x.Means t g) : x.type.ty = t := by
  rw [hx.type, NamedTy.ty_ofTy]

theorem Means.convert (hx : x.Means s g) (hconv : Ty.Converts s t) (o : Nat) :
    ∃ y, x.convert o (NamedTy.ofTy t) = .ok y ∧ y.Means t fun vars => g vars >>= Value.convert s t := by
  by_cases hst : s = t
  · subst hst
    refine ⟨x, ?_, hx.type, fun call f => ?_⟩
    · unfold Checked.convert
      rw [if_pos (by rw [hx.ty, NamedTy.ty_ofTy])]
    · rw [funext (Value.convert_self s), bind_pure]
      exact hx.value call f
  · have hne : ¬ x.type.ty = (NamedTy.ofTy t).ty := by
      rw [hx.ty, NamedTy.ty_ofTy]
      exact hst
    unfold Checked.convert
    rw [if_neg hne, hx.type]
    cases hconv with
    | same t => exact absurd rfl hst
    | scalar a b =>
      refine ⟨_, rfl, rfl, fun call f => ?_⟩
      have hcast : Value.convert (.scalar a) (.scalar b) = Value.cast b :=
        funext fun v => if_neg fun heq => hst (by rw [heq])
      rw [Term.eval, hx.value, hcast]
    | splat a e w =>
      refine ⟨_, rfl, rfl, fun call f => ?_⟩
      rw [Term.eval, Term.evalAll, Term.evalAll, Term.eval, hx.value, bind_assoc, bind_assoc]
      rfl

theorem Means.unary (hx : x.Means s g) (hop : op ≠ .not) (ht : Formula.unaryTy? op s = some t)
    (o : Nat) :
    ∃ y, x.unary o op = .ok y ∧
      y.Means t fun vars => g vars >>= fun v => v.convert s t >>= Value.unary op t := by
  obtain ⟨y, hy, hmeans⟩ := hx.convert (Formula.converts_unaryTy ht).1 o
  have hvalue : ∀ call f, (Term.unary op t y.term).eval call f =
      g f.vars >>= fun v => v.convert s t >>= Value.unary op t := by
    intro call f
    rw [Term.eval, hmeans.value, bind_assoc]
  refine ⟨{ type := NamedTy.ofTy t, term := .unary op t y.term }, ?_, rfl, hvalue⟩
  unfold Checked.unary
  rw [hx.type]
  unfold Formula.unaryTy? at ht
  split at ht
  · cases ht
    simp [NamedTy.ofTy] at hy ⊢
    rw [hy]
    rfl
  · cases ht
    simp [NamedTy.ofTy] at hy ⊢
    rw [hy]
    rfl
  · exact absurd rfl hop
  · rename_i s'
    split at ht
    · rename_i hint
      cases ht
      have hint' : s'.arithmetic.isInteger = true := by
        cases s' <;> first | rfl | cases hint
      simp [NamedTy.ofTy, hint'] at hy ⊢
      rw [hy]
      rfl
    · cases ht
  · split at ht
    · rename_i hint
      cases ht
      simp [NamedTy.ofTy, hint] at hy ⊢
      rw [hy]
      rfl
    · cases ht
  · cases ht

theorem Means.truth {a : Scalar} (hx : x.Means (.scalar a) g) (o : Nat) :
    ∃ y, x.truth o = .ok y ∧
      y.Means (.scalar .bool) fun vars => g vars >>= Value.convert (.scalar a) (.scalar .bool) := by
  obtain ⟨y, hy, hmeans⟩ := hx.convert (.scalar a .bool) o
  refine ⟨y, ?_, hmeans⟩
  rw [Checked.truth, hx.type]
  exact hy

theorem Means.not {a : Scalar} (hx : x.Means (.scalar a) g) (o : Nat) :
    ∃ y, x.not o = .ok y ∧ y.Means (.scalar .bool) fun vars =>
      g vars >>= fun v => v.convert (.scalar a) (.scalar .bool) >>= Value.unary .not (.scalar .bool) := by
  obtain ⟨y, hy, hmeans⟩ := hx.truth o
  refine ⟨{ type := .scalar .bool, term := .unary .not (.scalar .bool) y.term }, ?_, rfl, fun call f => ?_⟩
  · rw [Checked.not, hy]
    rfl
  · rw [Term.eval, hmeans.value, bind_assoc]

theorem isIntegerOp_eq (op : Operator) : isIntegerOp op = Formula.isIntegerOp op := by
  cases op <;> rfl

/-- An operation between two numbers. -/
theorem Means.arithmetic (hx : x.Means s g) (hy : y.Means r h) (hlog : op.isLogical = false)
    (ht : Formula.BinaryTyped op s r t) {common : Ty} (hcommon : Ty.broadcast? s r = some common)
    (o : Nat) :
    ∃ z, x.arithmetic o op y = .ok z ∧ z.Means t fun vars =>
      g vars >>= fun v => v.convert s (s.operand common) >>= fun v =>
        h vars >>= fun w => w.convert r (r.operand common) >>= fun w => v.binary op t w := by
  obtain ⟨hs, hr⟩ := Ty.converts_operand hcommon
  obtain ⟨x', hx', hxmeans⟩ := hx.convert hs o
  obtain ⟨y', hy', hymeans⟩ := hy.convert hr o
  have hvalue : ∀ call f, (Term.binary op t x'.term y'.term).eval call f =
      g f.vars >>= fun v => v.convert s (s.operand common) >>= fun v =>
        h f.vars >>= fun w => w.convert r (r.operand common) >>= fun w => v.binary op t w := by
    intro call f
    rw [Term.eval, hxmeans.value, hymeans.value]
    simp only [bind_assoc]
  refine ⟨{ type := NamedTy.ofTy t, term := .binary op t x'.term y'.term }, ?_, rfl, hvalue⟩
  unfold Checked.arithmetic
  rw [hx.ty, hy.ty, hcommon]
  cases ht with
  | truth hop =>
    cases hcommon
    rw [hlog, or_iff_left Bool.false_ne_true] at hop
    have hint : isIntegerOp op = false := by
      cases op <;> first | rfl | cases hop
    simp only [Ty.operand, NamedTy.ofTy] at hx' hy'
    simp only [hint, Bool.false_and, Bool.false_eq_true, if_false, hx', hy', hop, if_true]
    rfl
  | common hcmp _ _ hcommon' hint =>
    rw [hcommon] at hcommon'
    cases hcommon'
    have hfits : ∀ e, t.element? = some e → (isIntegerOp op && !e.isInteger) = false := by
      intro e he
      rw [he, Option.any_some, ← isIntegerOp_eq] at hint
      cases hop : isIntegerOp op with
      | false => rfl
      | true => rw [hint hop]; rfl
    unfold Ty.broadcast? at hcommon
    split at hcommon
    case h_1 =>
      cases hcommon
      simp only [Ty.operand, NamedTy.ofTy] at hx' hy'
      simp only [hfits _ rfl, Bool.false_eq_true, if_false, hx', hy', hcmp]
      rfl
    case h_2 | h_3 | h_4 =>
      split at hcommon <;> cases hcommon
      simp only [Ty.operand, NamedTy.ofTy] at hx' hy'
      simp only [hfits _ rfl, Bool.false_eq_true, if_false, hcmp, hx.type, hy.type, NamedTy.ofTy,
        operandType, hx', hy']
      rfl
    case h_5 => cases hcommon

theorem Means.binary (hx : x.Means s g) (hy : y.Means r h) (hlog : op.isLogical = false)
    (ht : Formula.BinaryTyped op s r t) {common : Ty} (hcommon : Ty.broadcast? s r = some common)
    (o : Nat) :
    ∃ z, x.binary o op y = .ok z ∧ z.Means t fun vars =>
      g vars >>= fun v => v.convert s (s.operand common) >>= fun v =>
        h vars >>= fun w => w.convert r (r.operand common) >>= fun w => v.binary op t w := by
  obtain ⟨z, hz, hmeans⟩ := hx.arithmetic hy hlog ht hcommon o
  refine ⟨z, ?_, hmeans⟩
  have hpointer : x.type.isPointer = false ∧ y.type.isPointer = false := by
    rw [hx.type, hy.type]
    unfold Ty.broadcast? at hcommon
    split at hcommon
    case h_5 => cases hcommon
    all_goals exact ⟨rfl, rfl⟩
  unfold Checked.binary
  simp only [hlog, hpointer, Bool.false_and, Bool.false_eq_true, if_false]
  exact hz

/-! ### Elements -/

theorem lanes?_elementName (w : Width) : ∀ i < w.lanes,
    Component.lanes? w.lanes ("s" ++ String.ofList (Nat.toDigits 16 i)) = some [i] := by
  cases w <;> decide

theorem findIdx?_fieldNames {n : Nat} : ∀ {ts : List Ty} {k i : Nat}, k + ts.length ≤ n → i < ts.length →
    (NamedTy.fieldNames n k ts).findIdx? (· = Ty.fieldName n (k + i)) = some i
  | [], k, i, _, hi => by cases hi
  | t :: ts, k, i, hn, hi => by
    rw [List.length_cons] at hn hi
    rw [NamedTy.fieldNames, List.findIdx?_cons]
    cases i with
    | zero => simp
    | succ i =>
      have hne : ¬ Ty.fieldName n k = Ty.fieldName n (k + (i + 1)) := by
        intro heq
        have := Ty.fieldName_inj (by omega) (by omega) heq
        omega
      have hmore := @findIdx?_fieldNames n ts (k + 1) i (by omega) (by omega)
      rw [show k + 1 + i = k + (i + 1) by omega] at hmore
      simp [hne, hmore]

theorem getD_ofTys {ts : List Ty} {i : Nat} {t : Ty} (h : ts[i]? = some t) :
    (NamedTy.ofTys ts).getD i .void = NamedTy.ofTy t := by
  induction ts generalizing i with
  | nil => cases h
  | cons u us ih =>
    cases i with
    | zero =>
      cases h
      rfl
    | succ i => exact ih h

/-- An element of a vector or a tuple. -/
theorem Means.select (hx : x.Means s g) {index : Int} (helem : Formula.HasElement index s t) (o : Nat) :
    ∃ y, x.select ⟨o, Formula.elementName index s⟩ = .ok y ∧ y.Means t fun vars =>
      g vars >>= Value.get s index.toNat := by
  unfold Checked.select
  rw [hx.type]
  cases helem with
  | lane hlo hhi =>
    rename_i e w
    have hlanes := lanes?_elementName w index.toNat (by omega)
    simp only [NamedTy.ofTy, Formula.elementName, hlanes]
    refine ⟨_, rfl, rfl, fun call f => ?_⟩
    rw [Term.eval, hx.value]
    rfl
  | field hlo ht =>
    rename_i ts
    have hlt := (List.getElem?_eq_some_iff.mp ht).1
    have hfind : (NamedTy.fieldNames ts.length 0 ts).findIdx?
        (· = Formula.elementName index (.tuple ts)) = some index.toNat := by
      have h := @findIdx?_fieldNames ts.length ts 0 index.toNat (by omega) hlt
      rw [Nat.zero_add] at h
      exact h
    rw [NamedTy.ofTy]
    dsimp only
    rw [hfind]
    refine ⟨_, rfl, getD_ofTys ht, fun call f => ?_⟩
    rw [Term.eval, hx.value]
    rfl

/-! ### Calls -/

/-- Expressions of some types, whose values are read off the variables. -/
inductive MeanAll : List Ty → List (Vars → Exec Value) → List Checked → Prop
  | nil : MeanAll [] [] []
  | cons {t : Ty} {ts : List Ty} {g : Vars → Exec Value} {gs : List (Vars → Exec Value)} {x : Checked}
      {xs : List Checked} (hx : x.Means t g) (hxs : MeanAll ts gs xs) :
      MeanAll (t :: ts) (g :: gs) (x :: xs)

theorem MeanAll.map_ty {ts : List Ty} {gs : List (Vars → Exec Value)} {xs : List Checked}
    (h : MeanAll ts gs xs) : xs.map (fun x => x.type.ty) = ts := by
  induction h with
  | nil => rfl
  | cons hx _ ih => rw [List.map_cons, hx.ty, ih]

theorem MeanAll.convertAll {ss : List Ty} {gs : List (Vars → Exec Value)} {xs : List Checked}
    (h : MeanAll ss gs xs) : ∀ {ts : List Ty} {os : List Nat}, Ty.ConvertAll ss ts →
      (∀ t ∈ ts, t.isPlain = true) → os.length = ss.length →
      ∃ ys, Checked.convertAll os xs (ts.map fun t => (NamedTy.ofPlain? t).getD .void) = .ok ys ∧
        ∀ call f, Term.evalAll call f (ys.map (·.term)) =
          Value.convertEach ss ts (gs.map fun g => g f.vars) := by
  induction h with
  | nil =>
    intro ts os hconv _ hlen
    cases hconv
    rw [List.length_eq_zero_iff.mp hlen]
    refine ⟨[], rfl, fun call f => ?_⟩
    rw [List.map_nil, Term.evalAll]
    rfl
  | cons hx hxs ih =>
    intro ts os hconv hplain hlen
    rename_i s ss g gs x xs
    cases hconv with
    | cons hconv hconvs =>
    rename_i t ts
    obtain ⟨o, os, rfl⟩ := List.exists_cons_of_length_eq_add_one hlen
    obtain ⟨y, hy, hmeans⟩ := hx.convert hconv o
    obtain ⟨ys, hys, hvalues⟩ :=
      ih hconvs (fun u hu => hplain u (List.mem_cons_of_mem _ hu)) (Nat.succ.inj hlen)
    refine ⟨y :: ys, ?_, fun call f => ?_⟩
    · rw [List.map_cons, NamedTy.ofPlain?_of_isPlain (hplain t List.mem_cons_self), Option.getD_some,
        Checked.convertAll, hy, hys]
      rfl
    · rw [List.map_cons, Term.evalAll, hmeans.value, hvalues, List.map_cons, Value.convertEach,
        bind_assoc]

theorem MeanAll.callMath {ss : List Ty} {gs : List (Vars → Exec Value)} {xs : List Checked}
    (h : MeanAll ss gs xs) (hdata : Ty.areData ss = true) {fn : Builtin} {sig : Builtin.Signature}
    (hsig : fn.signature ss = .ok sig) {os : List Nat} (hlen : os.length = ss.length) (paren : Nat) :
    ∃ y, Checked.callMath paren fn os xs = .ok y ∧ y.Means sig.result fun vars =>
      Value.convertEach ss sig.params (gs.map fun g => g vars) >>= Value.math fn sig.result := by
  have hsigned := Builtin.signed_of_signature hsig
  obtain ⟨hresult, hparams⟩ := hsigned.isPlain hdata
  obtain ⟨ys, hys, hvalues⟩ := h.convertAll hsigned.converts hparams hlen
  refine ⟨{ type := NamedTy.ofTy sig.result, term := .math fn sig.result (ys.map (·.term)) }, ?_, rfl,
    fun call f => ?_⟩
  · rw [Checked.callMath, h.map_ty, hsig]
    dsimp only
    rw [hys, NamedTy.ofPlain?_of_isPlain hresult]
    rfl
  · rw [Term.eval, hvalues]

end Checked

/-! ### Operands -/

/-- All trees of a kind are expressions of type `t` whose value `g` reads off the variables. -/
def Env.Checks (env : Env) (P : Code.Expr → Prop) (t : Ty) (g : Vars → Exec Value) : Prop :=
  ∀ e, P e → ∃ x, env.checkExpr e = .ok x ∧ x.Means t g

/-- The value in a slot. -/
def Vars.at (vars : Vars) (slot : Nat) : Value := vars.getD slot .nothing

theorem Env.check_ident {env : Env} {x : String} {v : Variable} (h : env.find? x = some v) (o : Nat) :
    env.checkExpr (.ident ⟨o, x⟩) = .ok (.ofVariable v) := by
  rw [Env.checkExpr, Env.checkName, h]

theorem Checked.means_ofVariable {v : Variable} {t : Ty} (h : v.type = NamedTy.ofTy t) :
    (Checked.ofVariable v).Means t fun vars => pure (vars.at v.slot) :=
  ⟨h, fun call f => by rw [Checked.ofVariable, Term.eval]; rfl⟩

namespace Index

/-- The integer that a number is where it has no suffix. -/
def natural (n : Nat) : Constant := Constant.ofNatural false false true n

/-- The place that is a number of places after an integer.  The sum may wrap in the type that both
are promoted to. -/
def after (s : Scalar) (v : Value) (n : Nat) : Exec Value := do
  let t : Ty := .scalar (s.promote (natural n).type)
  let v ← v.convert (.scalar s) t
  let w ← (Value.lanes (natural n).elem (.atom (natural n).cell)).convert (.scalar (natural n).type) t
  let i ← v.binary .add t w
  i.convert t (.scalar .long)

/-- What an index is in an environment, and how its value is read off the variables. -/
inductive Stands (env : Env) : Index → (Vars → Exec Value) → Prop
  | var {x : String} {v : Variable} {s : Scalar} (hfind : env.find? x = some v)
      (htype : v.type = .scalar s) (hs : s.isInteger = true) :
      Stands env (.var x) fun vars => (vars.at v.slot).convert (.scalar s) (.scalar .long)
  | literal {n : Nat} (hn : n < 2 ^ 64) : Stands env (.literal n) fun _ => pure (.ofInt .int64 n)
  | offset {x : String} {v : Variable} {s : Scalar} {n : Nat} (hfind : env.find? x = some v)
      (htype : v.type = .scalar s) (hs : s.isInteger = true) (hn : n < 2 ^ 64) :
      Stands env (.offset x n) fun vars => after s (vars.at v.slot) n

/-- The number of a literal index, however wide its literal is. -/
theorem convert_natural {n : Nat} (hn : n < 2 ^ 64) (o : Nat) :
    ∃ s y, (Constant.ofNatural false false true n).type = s ∧ s.isInteger = true ∧
      (Checked.ofConstant (Constant.ofNatural false false true n)).convert o (.scalar .long) = .ok y ∧
      ∀ call f, y.term.eval call f = pure (.ofInt .int64 n) := by
  have hnat : Constant.ofNatural false false true n =
      if n < 0x80000000 then .ofInt n else if n < 0x8000000000000000 then .ofLong n else .ofULong n := by
    simp [Constant.ofNatural]
  rw [hnat]
  split
  · have hint : (BitVec.ofInt 32 n).toInt = n := by
      rw [BitVec.toInt_ofInt]
      simp only [Int.bmod_def]
      omega
    refine ⟨.int, _, rfl, rfl, rfl, fun call f => ?_⟩
    rw [Term.eval, Checked.ofConstant, Term.eval]
    exact congrArg (fun i => (pure (.lanes .int64 (.atom (BitVec.ofInt 64 i))) : Exec Value)) hint
  · split
    · refine ⟨.long, _, rfl, rfl, rfl, fun call f => ?_⟩
      rw [Checked.ofConstant, Term.eval]
      rfl
    · have hint : ((BitVec.ofInt 64 n).toNat : Int) = n := by
        rw [BitVec.toNat_ofInt]
        omega
      refine ⟨.ulong, _, rfl, rfl, rfl, fun call f => ?_⟩
      rw [Term.eval, Checked.ofConstant, Term.eval]
      exact congrArg (fun i => (pure (.lanes .int64 (.atom (BitVec.ofInt 64 i))) : Exec Value)) hint

theorem check_natural {n : Nat} (hn : n < 2 ^ 64) (env : Env) (o : Nat) :
    env.checkExpr (.number o .int (toString n)) = .ok (.ofConstant (natural n)) := by
  have htext : toString n = String.ofList ((toString n).toList ++ []) := by
    rw [List.append_nil, String.ofList_toList]
  rw [Env.checkExpr, htext, Numeral.ofText_toString hn (by decide)]
  rfl

theorem natural_cases (n : Nat) :
    natural n = .ofInt n ∨ natural n = .ofLong n ∨ natural n = .ofULong n := by
  unfold natural Constant.ofNatural
  split
  · exact .inl rfl
  · split
    · rename_i h
      cases h
    · split
      · exact .inr (.inl rfl)
      · exact .inr (.inr rfl)

theorem isInteger_natural (n : Nat) : (natural n).type.isInteger = true := by
  rcases natural_cases n with h | h | h <;> rw [h] <;> rfl

theorem means_natural (n : Nat) : (Checked.ofConstant (natural n)).Means (.scalar (natural n).type)
    fun _ => pure (.lanes (natural n).elem (.atom (natural n).cell)) :=
  ⟨rfl, fun call f => by rw [Checked.ofConstant, Term.eval]; rfl⟩

theorem isInteger_promote {s r : Scalar} (hs : s.isInteger = true) (hr : r.isInteger = true) :
    (s.promote r).isInteger = true := by
  revert hs hr
  cases s <;> cases r <;> decide

end Index

/-- All trees of a kind are integers, and `g` reads their value off the variables at the width of an
offset. -/
def Env.Indexes (env : Env) (P : Code.Expr → Prop) (g : Vars → Exec Value) : Prop :=
  ∀ e, P e → ∀ o, ∃ x s y, env.checkExpr e = .ok x ∧ x.type = .scalar s ∧ s.isInteger = true ∧
    x.convert o (.scalar .long) = .ok y ∧ ∀ call f, y.term.eval call f = g f.vars

section

variable {env : Env} {P : Code.Expr → Prop} {s : Scalar} {g : Vars → Exec Value}

theorem Env.Checks.indexes (h : env.Checks P (.scalar s) g) (hs : s.isInteger = true) :
    env.Indexes P fun vars => g vars >>= Value.convert (.scalar s) (.scalar .long) := by
  intro e he o
  obtain ⟨x, hx, hmeans⟩ := h e he
  obtain ⟨y, hy, hvalue⟩ := hmeans.convert (.scalar s .long) o
  exact ⟨x, s, y, hx, hmeans.type, hs, hy, fun call f => hvalue.value call f⟩

theorem Env.Checks.indexes_sum (h : env.Checks P (.scalar s) g) (hs : s.isInteger = true) {n : Nat}
    (hn : n < 2 ^ 64) :
    env.Indexes (fun e => ∃ x o y, e = .binary x o .add y ∧ P x ∧ ∃ o, y = .number o .int (toString n))
      fun vars => g vars >>= fun v => Index.after s v n := by
  rintro _ ⟨e, o', _, rfl, he, o₂, rfl⟩ o
  obtain ⟨x, hx, hmeans⟩ := h e he
  have hcommon : Ty.broadcast? (.scalar s) (.scalar (Index.natural n).type) =
      some (.scalar (s.promote (Index.natural n).type)) := rfl
  have hadd : Formula.BinaryTyped .add (.scalar s) (.scalar (Index.natural n).type)
      (.scalar (s.promote (Index.natural n).type)) := .common rfl rfl rfl hcommon nofun
  obtain ⟨z, hz, hsum⟩ := hmeans.binary (Index.means_natural n) rfl hadd hcommon o'
  obtain ⟨y, hy, hvalue⟩ := hsum.convert (.scalar _ .long) o
  refine ⟨z, _, y, ?_, hsum.type, Index.isInteger_promote hs (Index.isInteger_natural n), hy,
    fun call f => ?_⟩
  · rw [Env.checkExpr, hx, Index.check_natural hn]
    exact hz
  · rw [hvalue.value]
    simp only [Index.after, pure_bind, bind_assoc]
    rfl

end

theorem Env.checks_ident {env : Env} {x : String} {v : Variable} {t : Ty} (hfind : env.find? x = some v)
    (htype : v.type = NamedTy.ofTy t) :
    env.Checks (fun e => ∃ o, e = .ident ⟨o, x⟩) t fun vars => pure (vars.at v.slot) := by
  rintro _ ⟨o, rfl⟩
  exact ⟨_, Env.check_ident hfind o, Checked.means_ofVariable htype⟩

/-- An index is an integer, and is converted to the width of an offset. -/
theorem Index.Stands.indexes {env : Env} {i : Index} {g : Vars → Exec Value} (h : i.Stands env g) :
    env.Indexes i.Tree g := by
  cases h with
  | var hfind htype hs =>
    rename_i x v s
    have hvar := Env.checks_ident (t := .scalar s) hfind htype
    exact hvar.indexes hs
  | literal hn =>
    rintro _ ⟨o', rfl⟩ o
    obtain ⟨s, y, hs, hint, hy, hvalue⟩ := convert_natural hn o
    exact ⟨_, s, y, check_natural hn env o', congrArg NamedTy.scalar hs, hint, hy, hvalue⟩
  | offset hfind htype hs hn =>
    rename_i x v s n
    have hvar := Env.checks_ident (t := .scalar s) hfind htype
    exact hvar.indexes_sum hs hn


theorem Env.check_element {env : Env} {x : String} {v : Variable} {t : Ty} {space : Space}
    {readOnly : Bool} {P : Code.Expr → Prop} {g : Vars → Exec Value} (hfind : env.find? x = some v)
    (htype : v.type = .pointer (NamedTy.ofTy t) space readOnly) (hi : env.Indexes P g) {y : Code.Expr}
    (hy : P y) (o bracket : Nat) :
    ∃ z p, env.checkExpr (.index (.ident ⟨o, x⟩) bracket y) = .ok z ∧ z.type = NamedTy.ofTy t ∧
      z.term = .load p ∧ z.place? = some p ∧ z.readOnly = (readOnly || space = .constant) ∧
      ∀ call f, p.locate call f = (do
        let l ← (f.vars.at v.slot).elementAt t (← g f.vars)
        return .mem l.1 l.2 t) := by
  obtain ⟨j, s, k, hj, hs, hint, hk, hvalue⟩ := hi y hy bracket
  let p : Place := .deref t (.var v.slot) k.term
  refine ⟨{ type := NamedTy.ofTy t, term := .load p, place? := some p
            readOnly := readOnly || space = .constant, memory? := some (space, readOnly) },
    p, ?_, rfl, rfl, rfl, rfl, fun call f => ?_⟩
  · rw [Env.checkExpr, Env.check_ident hfind, hj]
    show Checked.subscript bracket (.ofVariable v) j = _
    unfold Checked.subscript
    rw [hs]
    simp only [hint, if_true, hk]
    show Checked.deref bracket (.ofVariable v) k = _
    have htype' : (Checked.ofVariable v).type = .pointer (NamedTy.ofTy t) space readOnly := htype
    unfold Checked.deref
    rw [htype']
    simp only [NamedTy.ty_ofTy]
    rfl
  · rw [Place.locate, Term.eval, hvalue]
    simp only [Value.elementAt, bind_assoc]
    rw [show (Exec.pure (f.vars.getD v.slot .nothing) : Exec Value) = pure (f.vars.at v.slot) from rfl,
      pure_bind]
    congr 1
    funext i
    congr 1
    funext j
    congr 1
    funext q
    cases q.memory? <;> rfl

namespace Source

/-- What a source is in an environment, and how its value is read off the variables. -/
inductive Stands (env : Env) : Source → Ty → (Vars → Exec Value) → Prop
  | var {x : String} {v : Variable} {t : Ty} (hfind : env.find? x = some v)
      (htype : v.type = NamedTy.ofTy t) : Stands env (.var x) t fun vars => pure (vars.at v.slot)
  | element {x : String} {v : Variable} {t : Ty} {space : Space} {readOnly : Bool} {i : Index}
      {g : Vars → Exec Value} (hfind : env.find? x = some v)
      (htype : v.type = .pointer (NamedTy.ofTy t) space readOnly) (hi : i.Stands env g) :
      Stands env (.element x i) t fun vars => do
        let l ← (vars.at v.slot).elementAt t (← g vars)
        Exec.load l.1 l.2 t

theorem check_element {env : Env} {x : String} {v : Variable} {t : Ty} {space : Space}
    {readOnly : Bool} {i : Index} {g : Vars → Exec Value} (hfind : env.find? x = some v)
    (htype : v.type = .pointer (NamedTy.ofTy t) space readOnly) (hi : i.Stands env g) {e : Code.Expr}
    (he : (Source.element x i).Tree e) :
    ∃ z p, env.checkExpr e = .ok z ∧ z.type = NamedTy.ofTy t ∧ z.term = .load p ∧ z.place? = some p ∧
      z.readOnly = (readOnly || space = .constant) ∧
      ∀ call f, p.locate call f = (do
        let l ← (f.vars.at v.slot).elementAt t (← g f.vars)
        return .mem l.1 l.2 t) := by
  obtain ⟨o, bracket, y, rfl, hy⟩ := he
  exact Env.check_element hfind htype hi.indexes hy o bracket

theorem Stands.check {env : Env} {a : Source} {t : Ty} {g : Vars → Exec Value} (h : a.Stands env t g) :
    env.Checks a.Tree t g := by
  intro e he
  cases h with
  | var hfind htype => exact Env.checks_ident hfind htype e he
  | element hfind htype hi =>
    obtain ⟨z, p, hz, hztype, hterm, -, -, hlocate⟩ := check_element hfind htype hi he
    refine ⟨z, hz, hztype, fun call f => ?_⟩
    rw [hterm, Term.eval, hlocate]
    simp only [bind_assoc, pure_bind]
    rfl

end Source

/-- The name of a type is understood. -/
def Env.Resolves (env : Env) (t : Ty) : Prop :=
  ∀ spec, Code.Scope.Says [] t.name false spec → env.resolve spec = .ok (NamedTy.ofTy t)

theorem Env.Knows.resolves {known : List (List Ty)} {fp64 : Bool} {env : Env}
    (h : env.Knows known fp64) (hordered : Ty.Ordered known) {t : Ty} (ht : t.isData = true)
    (hknown : t.Known known fp64) : env.Resolves t :=
  fun _ hspec => h.resolve hordered ht hknown hspec

/-- The names of integer types are understood. -/
def Env.KnowsIntegers (env : Env) : Prop := ∀ s : Scalar, s.isInteger = true → env.Resolves (.scalar s)

theorem Env.Knows.integers {known : List (List Ty)} {fp64 : Bool} {env : Env}
    (h : env.Knows known fp64) (hordered : Ty.Ordered known) : env.KnowsIntegers := by
  refine fun s hs => h.resolves hordered rfl ⟨by simp, fun hdouble => ?_⟩
  rw [of_decide_eq_true hdouble] at hs
  cases hs

namespace Operand

/-- What an operand is in an environment, and how its value is read off the variables. -/
inductive Stands (env : Env) : Operand → Ty → (Vars → Exec Value) → Prop
  | source {a : Source} {t : Ty} {g : Vars → Exec Value} (ha : a.Stands env t g) :
      Stands env (.source a) t g
  | literal {s : Scalar} {i : Int} (hi : Literal.Sized s i) (hplain : Literal.isSmallest s i = false) :
      Stands env (.literal s i) (.scalar s) fun _ => pure (.ofInt s.register i)

theorem Stands.check {env : Env} (henv : env.KnowsIntegers) {a : Operand} {t : Ty}
    {g : Vars → Exec Value} (h : a.Stands env t g) : env.Checks a.Tree t g := by
  cases h with
  | source ha => exact ha.check
  | literal hi hplain =>
    intro e he
    obtain ⟨x, hx, hholds⟩ := hi.check hplain he (henv _ hi.integer)
    exact ⟨x, hx, hholds.type, fun call f => hholds.value call f⟩

/-- The same of some operands. -/
inductive StandAll (env : Env) : List Operand → List Ty → List (Vars → Exec Value) → Prop
  | nil : StandAll env [] [] []
  | cons {a : Operand} {as : List Operand} {t : Ty} {ts : List Ty} {g : Vars → Exec Value}
      {gs : List (Vars → Exec Value)} (ha : a.Stands env t g) (has : StandAll env as ts gs) :
      StandAll env (a :: as) (t :: ts) (g :: gs)

theorem StandAll.check {env : Env} (henv : env.KnowsIntegers) {as : List Operand} {ts : List Ty}
    {gs : List (Vars → Exec Value)} (h : StandAll env as ts gs) :
    ∀ {es : List Code.Expr}, Operation.Trees as es →
      ∃ xs, env.checkExprs es = .ok xs ∧ Checked.MeanAll ts gs xs ∧ es.length = ts.length := by
  induction h with
  | nil =>
    rintro _ ⟨⟩
    exact ⟨[], by rw [Env.checkExprs], .nil, rfl⟩
  | cons ha has ih =>
    rintro _ ⟨e, es, rfl, he, hes⟩
    obtain ⟨x, hx, hmeans⟩ := ha.check henv e he
    obtain ⟨xs, hxs, hall, hlen⟩ := ih hes
    refine ⟨x :: xs, ?_, .cons hmeans hall, by rw [List.length_cons, hlen, List.length_cons]⟩
    rw [Env.checkExprs, hx, hxs]
    rfl

end Operand

/-! ### Operations -/

namespace Operation

variable {env : Env} {a b : Operand} {s r t : Ty} {g h : Vars → Exec Value} {op : Operator}

theorem checks_unary (henv : env.KnowsIntegers) (ha : a.Stands env s g)
    (ht : Formula.unaryTy? op s = some t) :
    env.Checks (unary op a).Tree t fun vars =>
      g vars >>= fun v => v.convert s t >>= Value.unary op t := by
  rintro _ ⟨o, e, rfl, he⟩
  obtain ⟨x, hx, hmeans⟩ := ha.check henv e he
  rw [Env.checkExpr, hx]
  by_cases hop : op = .not
  · subst hop
    obtain ⟨c, rfl, rfl⟩ : ∃ c, s = .scalar c ∧ t = .scalar .bool := by
      cases s with
      | scalar c =>
        cases ht
        exact ⟨c, rfl, rfl⟩
      | _ => cases ht
    exact hmeans.not _
  · obtain ⟨y, hy, hmeans'⟩ := hmeans.unary hop ht o
    refine ⟨y, ?_, hmeans'⟩
    have hunary : op = .sub ∨ op = .xor := by
      unfold Formula.unaryTy? at ht
      split at ht
      · exact .inl rfl
      · exact .inl rfl
      · exact absurd rfl hop
      · exact .inr rfl
      · exact .inr rfl
      · cases ht
    rcases hunary with rfl | rfl
    · exact hy
    · exact hy

theorem checks_binary (henv : env.KnowsIntegers) (ha : a.Stands env s g) (hb : b.Stands env r h)
    (hlog : op.isLogical = false) (ht : Formula.BinaryTyped op s r t) {common : Ty}
    (hcommon : Ty.broadcast? s r = some common) :
    env.Checks (binary op a b).Tree t fun vars =>
      g vars >>= fun v => v.convert s (s.operand common) >>= fun v =>
        h vars >>= fun w => w.convert r (r.operand common) >>= fun w => v.binary op t w := by
  rintro _ ⟨e, o, e', rfl, he, he'⟩
  obtain ⟨x, hx, hxmeans⟩ := ha.check henv e he
  obtain ⟨y, hy, hymeans⟩ := hb.check henv e' he'
  rw [Env.checkExpr, hx, hy]
  exact hxmeans.binary hymeans hlog ht hcommon o

theorem ofName_builtin (env : Env) (fn : Builtin) :
    Callee.ofName env (Callee.fullName fn.name) = .math fn := by
  cases fn <;> rfl

theorem checks_call (henv : env.KnowsIntegers) {as : List Operand} {ss : List Ty}
    {gs : List (Vars → Exec Value)} (has : Operand.StandAll env as ss gs)
    (hdata : Ty.areData ss = true) {fn : Builtin} (hfree : env.find? fn.name = none)
    {sig : Builtin.Signature} (hsig : fn.signature ss = .ok sig) :
    env.Checks (call fn.name as).Tree sig.result fun vars =>
      Value.convertEach ss sig.params (gs.map fun g => g vars) >>= Value.math fn sig.result := by
  rintro _ ⟨o, paren, es, rfl, hes⟩
  obtain ⟨xs, hxs, hall, hlen⟩ := has.check henv hes
  have hoffsets : (es.map Code.Expr.offset).length = ss.length := by rw [List.length_map, hlen]
  rw [Env.checkExpr]
  simp only [hfree, Option.isSome_none, Bool.false_eq_true, if_false, ofName_builtin, hxs]
  exact hall.callMath hdata hsig hoffsets paren

theorem checks_select {a : Source} (ha : a.Stands env s g) {index : Int}
    (helem : Formula.HasElement index s t) :
    env.Checks (select a (Formula.elementName index s)).Tree t fun vars =>
      g vars >>= Value.get s index.toNat := by
  rintro _ ⟨e, o, rfl, he⟩
  obtain ⟨x, hx, hmeans⟩ := ha.check e he
  rw [Env.checkExpr, hx]
  exact hmeans.select helem o

end Operation

/-! ### Functions of the source -/

/-- The names that the device keeps for itself, and those that start like its own. -/
def isTaken (name : String) : Bool :=
  isDeviceFunction name || (afterStem? "convert_" name).isSome || (afterStem? "atom_" name).isSome

theorem append_of_afterStem? {stem rest name : String} (h : afterStem? stem name = some rest) :
    name.toList = stem.toList ++ rest.toList := by
  unfold afterStem? at h
  split at h
  · rename_i hprefix
    obtain ⟨tail, htail⟩ := List.isPrefixOf_iff_prefix.mp hprefix
    cases h
    rw [← htail, ← String.length_toList]
    simp
  · cases h

namespace Callee

variable {env : Env} {name word : String} {header : Header}

theorem eq_of_source (h : ofName env word = .source name header) :
    name = word ∧ env.funcs.lookup name = some header := by
  unfold ofName at h
  repeat' split at h
  all_goals cases h
  exact ⟨rfl, ‹_›⟩

theorem ofName_of_not_taken (hfn : env.funcs.lookup name = some header) (h : isTaken name = false) :
    ofName env (fullName name) = .source name header := by
  simp only [isTaken, isDeviceFunction, Bool.or_eq_false_iff, decide_eq_false_iff_not,
    Option.isSome_eq_false_iff, Option.isNone_iff_eq_none, List.any_eq_false] at h
  obtain ⟨⟨⟨⟨⟨hdim, hworkItem⟩, hatomic⟩, hmath⟩, hconvert⟩, hatom⟩ := h
  have hworkItem : WorkItemFn.ofName? name = none := List.find?_eq_none.mpr hworkItem
  have hatomic : AtomicFn.ofName? name = none :=
    List.find?_eq_none.mpr fun f hf hname => hatomic f hf (by simp [of_decide_eq_true hname])
  have hmath : Builtin.ofName? name = none := List.find?_eq_none.mpr hmath
  rw [fullName, hatom, ofName, hworkItem, if_neg hdim, hatomic, hconvert, hmath, hfn]

theorem not_taken_of_ofName (h : ofName env (fullName name) = .source name header) :
    isTaken name = false := by
  unfold fullName at h
  split at h
  · -- The long name of an atomic function is another name.
    rename_i rest hatom
    have htext := append_of_afterStem? hatom
    rw [(eq_of_source h).1] at htext
    have hlength := congrArg List.length htext
    simp at hlength
    omega
  · rename_i hatom
    unfold ofName at h
    split at h
    · cases h
    rename_i hworkItem
    split at h
    · cases h
    rename_i hdim
    split at h
    · cases h
    rename_i hatomic
    split at h
    · cases h
    rename_i hconvert
    split at h
    · cases h
    rename_i hmath
    unfold WorkItemFn.ofName? at hworkItem
    unfold AtomicFn.ofName? at hatomic
    unfold Builtin.ofName? at hmath
    rw [List.find?_eq_none] at hworkItem hatomic hmath
    simp only [isTaken, isDeviceFunction, Bool.or_eq_false_iff, decide_eq_false_iff_not, hconvert,
      hatom, Option.isSome_none, List.any_eq_false, and_true]
    refine ⟨⟨⟨hdim, hworkItem⟩, fun f hf hname => ?_⟩, hmath⟩
    rcases (Bool.or_eq_true _ _).mp hname with hname | hname
    · exact hatomic f hf hname
    · have hstem := congrArg (afterStem? "atom_") (of_decide_eq_true hname)
      rw [hatom] at hstem
      revert hstem
      cases f <;> decide

end Callee

namespace Checked

/-- **A function of the source is called by its name exactly if the name is not taken.** -/
theorem called_by_name_iff {env : Env} {fn : Code.Ident} {args : List Code.Expr} {header : Header}
    {xs ys : List Checked} (hfree : env.find? fn.name = none)
    (hfn : env.funcs.lookup fn.name = some header) (hkernel : header.isKernel = false)
    (hlength : args.length = header.params.length) (hxs : env.checkExprs args = .ok xs)
    (hys : convertAll (args.map (·.offset)) xs header.params = .ok ys) (paren : Nat) :
    env.checkExpr (.call fn paren args) =
        .ok { type := header.result, term := .call fn.name (ys.map (·.term)) } ↔
      isTaken fn.name = false := by
  rw [Env.checkExpr]
  simp only [hfree, Option.isSome_none, Bool.false_eq_true, if_false]
  constructor
  · intro h
    have hterm : ∀ {x : Checked}, (.ok x : Check Checked) =
        .ok { type := header.result, term := .call fn.name (ys.map (·.term)) } →
          x.term = .call fn.name (ys.map (·.term)) := fun h => congrArg Checked.term (Except.ok.inj h)
    suffices hsource : Callee.ofName env (Callee.fullName fn.name) = .source fn.name header from
      Callee.not_taken_of_ofName hsource
    split at h
    case h_1 =>
      obtain ⟨_, -, h⟩ := bind_eq_ok.mp h
      obtain ⟨_, -, h⟩ := bind_eq_ok.mp h
      obtain ⟨_, -, h⟩ := bind_eq_ok.mp h
      cases hterm h
    case h_2 =>
      obtain ⟨_, -, h⟩ := bind_eq_ok.mp h
      cases hterm h
    case h_3 =>
      obtain ⟨_, -, h⟩ := bind_eq_ok.mp h
      split at h
      · cases h
      · obtain ⟨_, -, h⟩ := bind_eq_ok.mp h
        obtain ⟨_, -, h⟩ := bind_eq_ok.mp h
        obtain ⟨_, -, h⟩ := bind_eq_ok.mp h
        obtain ⟨_, -, h⟩ := bind_eq_ok.mp h
        cases hterm h
    case h_4 =>
      obtain ⟨_, -, h⟩ := bind_eq_ok.mp h
      split at h
      · cases h
      · obtain ⟨_, -, h⟩ := bind_eq_ok.mp h
        unfold callConvert at h
        split at h
        · cases hterm h
        · split at h
          · cases hterm h
          · cases h
        · cases h
    case h_5 =>
      obtain ⟨_, -, h⟩ := bind_eq_ok.mp h
      unfold callMath at h
      split at h
      · cases h
      · obtain ⟨_, -, h⟩ := bind_eq_ok.mp h
        cases hterm h
    case h_6 name header' hname =>
      split at h
      · cases h
      · obtain ⟨_, -, h⟩ := bind_eq_ok.mp h
        obtain ⟨_, -, h⟩ := bind_eq_ok.mp h
        obtain ⟨_, -, h⟩ := bind_eq_ok.mp h
        injection hterm h with hcalled
        have hheader := (Callee.eq_of_source hname).2
        rw [hcalled, hfn] at hheader
        rw [hname, hcalled, Option.some.inj hheader]
    case h_7 => split at h <;> cases h
  · intro h
    rw [Callee.ofName_of_not_taken hfn h]
    simp only [hkernel, Bool.false_eq_true, if_false, requireArgs, hlength, if_true, hxs]
    exact bind_eq_ok.mpr ⟨(), rfl, bind_eq_ok.mpr ⟨xs, rfl, bind_eq_ok.mpr ⟨ys, hys, rfl⟩⟩⟩

/-- A function may be called `convert_int`, but the call converts. -/
theorem convert_int_not_called :
    let env : Env := { funcs := [("convert_int", ⟨false, .scalar .int, [.scalar .int]⟩)] }
    let five : Term := .const .int32 (.atom 5)
    (HelperFn.make 0 "convert_int" (.binary .add (.arg 0) (.arg 0)) none [.scalar .int]).isOk = true ∧
      env.checkExpr (.call ⟨0, "convert_int"⟩ 11 [.number 12 .int "5"]) ≠
        .ok { type := .scalar .int, term := .call "convert_int" [five] } := by
  intro env five
  refine ⟨by decide, fun h => ?_⟩
  have htaken := (@called_by_name_iff env ⟨0, "convert_int"⟩ [.number 12 .int "5"] _ _
    [{ type := .scalar .int, term := five }] rfl rfl rfl rfl rfl rfl 11).mp h
  exact absurd htaken (by decide)

end Checked

end KernelForge
