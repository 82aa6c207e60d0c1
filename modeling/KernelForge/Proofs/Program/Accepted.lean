/-
What is accepted is made of what was accepted before.

The checker takes an expression apart, checks the parts from left to right, and puts together what came of
them with one of its rules.  A property of checked expressions that each rule keeps is therefore one of all
expressions that are accepted.  The induction is on the expression, with its lists of operands, and it is
made here once.
-/
import KernelForge.Program.Expr
import KernelForge.Proofs.Basic
import Mathlib.Data.List.Forall2

namespace KernelForge

open Code (Expr)

namespace Checked

theorem requireArgs_ok {fn : Code.Ident} {paren want got : Nat} {u : Unit}
    (h : requireArgs fn paren want got = .ok u) : got = want := by
  unfold requireArgs at h
  split at h
  · assumption
  · cases h

end Checked

namespace Env

open Checked

variable {env : Env} {P : Expr → Checked → Prop}

/-- Each rule of the checker keeps a relation between expressions and what comes of them. -/
structure Keeps (env : Env) (P : Expr → Checked → Prop) : Prop where
  ident : ∀ {id x}, env.checkName id = .ok x → P (.ident id) x
  number : ∀ {o kind text c}, Constant.ofText env.fp64 kind text = .ok c →
    P (.number o kind text) (.ofConstant c)
  paren : ∀ {o e x}, P e x → P (.paren o e) x
  deref : ∀ {o e y x}, P e y → y.deref o (.ofConstant (.ofLong 0)) = .ok x → P (.unary o .mul e) x
  addressOf : ∀ {o e y x}, P e y → y.addressOf o e.form = .ok x → P (.unary o .and e) x
  not : ∀ {o e y x}, P e y → y.not e.offset = .ok x → P (.unary o .not e) x
  unary : ∀ {o op e y x}, P e y → y.unary o op = .ok x → P (.unary o op e) x
  binary : ∀ {o op e e' y z x}, P e y → P e' z → y.binary o op z = .ok x → P (.binary e o op e') x
  cond : ∀ {test e e' t t' y z x}, P test t → t.truth test.offset = .ok t' → P e y → P e' z →
    choose t' y z e.offset e'.offset = .ok x → P (.cond test e e') x
  cast : ∀ {o spec e t y x}, env.resolve spec = .ok t → P e y → y.castTo o t = .ok x →
    P (.cast o spec e) x
  spread : ∀ {o spec e s w y x}, env.resolve spec = .ok (.vector s w) → P e y →
    y.convert o (.vector s w) = .ok x → P (.vectorLit o spec [e]) x
  vector : ∀ {o spec es s w parts x}, env.resolve spec = .ok (.vector s w) →
    List.Forall₂ (fun e part => ∃ y, P e y ∧ vectorPart (.vector s w) s e.offset y = .ok part) es parts →
    vectorOf o s w parts = .ok x → P (.vectorLit o spec es) x
  record : ∀ {o spec es t ts ys xs}, env.structNamed o spec es.length = .ok (t, ts) →
    List.Forall₂ P es ys → es.length = ts.length → convertAll (es.map (·.offset)) ys ts = .ok xs →
    P (.structLit o spec es) { type := t, term := .record (xs.map (·.term)) }
  index : ∀ {bracket e e' y z x}, P e y → P e' z → y.subscript bracket z = .ok x →
    P (.index e bracket e') x
  select : ∀ {id e y x}, P e y → y.select id = .ok x → P (.select e id) x
  workItem : ∀ {fn paren f e y x}, Callee.ofName env (Callee.fullName fn.name) = .workItem f → P e y →
    callWorkItem paren f y = .ok x → P (.call fn paren [e]) x
  workDim : ∀ {fn paren}, P (.call fn paren []) (.ofConstant (.ofUInt 1))
  atomic : ∀ {fn paren f e es p s ys xs}, Callee.ofName env (Callee.fullName fn.name) = .atomic f →
    (e :: es).length = f.arity → P e p → atomicElem paren f p = .ok s → List.Forall₂ P es ys →
    convertAll (es.map (·.offset)) ys (es.map fun _ => .scalar s) = .ok xs →
    P (.call fn paren (e :: es)) { type := .scalar s, term := .atomic f s p.term (xs.map (·.term)) }
  convert : ∀ {fn paren target t e y x}, Callee.ofName env (Callee.fullName fn.name) = .convert target →
    P e y → callConvert paren t y = .ok x → P (.call fn paren [e]) x
  math : ∀ {fn paren f es ys x}, Callee.ofName env (Callee.fullName fn.name) = .math f →
    List.Forall₂ P es ys → callMath paren f (es.map (·.offset)) ys = .ok x → P (.call fn paren es) x
  source : ∀ {fn paren name header es ys xs},
    Callee.ofName env (Callee.fullName fn.name) = .source name header →
    es.length = header.params.length → List.Forall₂ P es ys →
    convertAll (es.map (·.offset)) ys header.params = .ok xs →
    P (.call fn paren es) { type := header.result, term := .call name (xs.map (·.term)) }

namespace Keeps

theorem length_of_structNamed {o count : Nat} {spec : Code.TypeSpec} {t : NamedTy} {ts : List NamedTy}
    (h : env.structNamed o spec count = .ok (t, ts)) : count = ts.length := by
  obtain ⟨u, -, h⟩ := bind_eq_ok.mp h
  split at h
  · split at h
    · cases h
    · split at h
      · cases h
      · rename_i hcount
        cases h
        omega
  · cases h

mutual

/-- **What all rules keep is so for every expression that is accepted.** -/
theorem checkExpr (hk : env.Keeps P) : ∀ {e : Expr} {x : Checked}, env.checkExpr e = .ok x → P e x
  | .ident id, x, h => by
    rw [Env.checkExpr] at h
    exact hk.ident h
  | .number o kind text, x, h => by
    rw [Env.checkExpr] at h
    split at h
    · rename_i hc
      cases h
      exact hk.number hc
    · cases h
  | .paren o e, x, h => by
    rw [Env.checkExpr] at h
    exact hk.paren (checkExpr hk h)
  | .unary o op e, x, h => by
    obtain ⟨y, hy, h⟩ := bind_eq_ok.mp h
    have hy := checkExpr hk hy
    split at h
    · exact hk.deref hy h
    · exact hk.addressOf hy h
    · exact hk.not hy h
    · exact hk.unary hy h
  | .binary e o op e', x, h => by
    obtain ⟨y, hy, h⟩ := bind_eq_ok.mp h
    obtain ⟨z, hz, h⟩ := bind_eq_ok.mp h
    exact hk.binary (checkExpr hk hy) (checkExpr hk hz) h
  | .cond test e e', x, h => by
    obtain ⟨t, ht, h⟩ := bind_eq_ok.mp h
    obtain ⟨t', ht', h⟩ := bind_eq_ok.mp h
    obtain ⟨y, hy, h⟩ := bind_eq_ok.mp h
    obtain ⟨z, hz, h⟩ := bind_eq_ok.mp h
    exact hk.cond (checkExpr hk ht) ht' (checkExpr hk hy) (checkExpr hk hz) h
  | .cast o spec e, x, h => by
    obtain ⟨t, ht, h⟩ := bind_eq_ok.mp h
    obtain ⟨y, hy, h⟩ := bind_eq_ok.mp h
    exact hk.cast ht (checkExpr hk hy) h
  | .vectorLit o spec es, x, h => by
    rw [Env.checkExpr] at h
    obtain ⟨t, ht, h⟩ := bind_eq_ok.mp h
    split at h
    · split at h
      · obtain ⟨y, hy, h⟩ := bind_eq_ok.mp h
        exact hk.spread ht (checkExpr hk hy) h
      · obtain ⟨parts, hparts, h⟩ := bind_eq_ok.mp h
        exact hk.vector ht (checkParts hk hparts) h
    · cases h
  | .structLit o spec es, x, h => by
    obtain ⟨⟨t, ts⟩, ht, h⟩ := bind_eq_ok.mp h
    obtain ⟨xs, hxs, h⟩ := bind_eq_ok.mp h
    cases h
    have hlen := length_of_structNamed ht
    obtain ⟨ys, hys, hconvert⟩ := checkFields hk hlen hxs
    exact hk.record ht hys hlen hconvert
  | .index e bracket e', x, h => by
    obtain ⟨y, hy, h⟩ := bind_eq_ok.mp h
    obtain ⟨z, hz, h⟩ := bind_eq_ok.mp h
    exact hk.index (checkExpr hk hy) (checkExpr hk hz) h
  | .select e id, x, h => by
    obtain ⟨y, hy, h⟩ := bind_eq_ok.mp h
    exact hk.select (checkExpr hk hy) h
  | .call fn paren es, x, h => by
    rw [Env.checkExpr] at h
    split at h
    · cases h
    · simp only at h
      split at h
      · rename_i hcallee
        obtain ⟨u, hu, h⟩ := bind_eq_ok.mp h
        obtain ⟨e, rfl⟩ := List.length_eq_one_iff.mp (requireArgs_ok hu)
        obtain ⟨xs, hxs, h⟩ := bind_eq_ok.mp h
        obtain ⟨y, hy, hxs⟩ := bind_eq_ok.mp hxs
        cases hxs
        exact hk.workItem hcallee (checkExpr hk hy) h
      · obtain ⟨u, hu, h⟩ := bind_eq_ok.mp h
        obtain rfl := List.length_eq_zero_iff.mp (requireArgs_ok hu)
        cases h
        exact hk.workDim
      · rename_i hcallee
        obtain ⟨u, hu, h⟩ := bind_eq_ok.mp h
        cases es with
        | nil => cases h
        | cons e es =>
          obtain ⟨p, hp, h⟩ := bind_eq_ok.mp h
          obtain ⟨s, hs, h⟩ := bind_eq_ok.mp h
          obtain ⟨ys, hys, h⟩ := bind_eq_ok.mp h
          obtain ⟨xs, hxs, h⟩ := bind_eq_ok.mp h
          cases h
          exact hk.atomic hcallee (requireArgs_ok hu) (checkExpr hk hp) hs (checkExprs hk hys) hxs
      · rename_i hcallee
        obtain ⟨u, hu, h⟩ := bind_eq_ok.mp h
        obtain ⟨e, rfl⟩ := List.length_eq_one_iff.mp (requireArgs_ok hu)
        split at h
        · cases h
        · obtain ⟨xs, hxs, h⟩ := bind_eq_ok.mp h
          obtain ⟨y, hy, hxs⟩ := bind_eq_ok.mp hxs
          cases hxs
          exact hk.convert hcallee (checkExpr hk hy) h
      · rename_i hcallee
        obtain ⟨xs, hxs, h⟩ := bind_eq_ok.mp h
        exact hk.math hcallee (checkExprs hk hxs) h
      · rename_i hcallee
        split at h
        · cases h
        · obtain ⟨u, hu, h⟩ := bind_eq_ok.mp h
          obtain ⟨ys, hys, h⟩ := bind_eq_ok.mp h
          obtain ⟨xs, hxs, h⟩ := bind_eq_ok.mp h
          cases h
          exact hk.source hcallee (requireArgs_ok hu) (checkExprs hk hys) hxs
      · split at h <;> cases h
termination_by e => sizeOf e
decreasing_by all_goals (subst_vars; simp +arith)

theorem checkExprs (hk : env.Keeps P) : ∀ {es : List Expr} {xs : List Checked},
    env.checkExprs es = .ok xs → List.Forall₂ P es xs
  | [], xs, h => by
    cases h
    exact .nil
  | e :: es, xs, h => by
    obtain ⟨y, hy, h⟩ := bind_eq_ok.mp h
    obtain ⟨ys, hys, h⟩ := bind_eq_ok.mp h
    cases h
    exact .cons (checkExpr hk hy) (checkExprs hk hys)
termination_by es => sizeOf es
decreasing_by all_goals simp +arith

theorem checkParts (hk : env.Keeps P) {vec : Ty} {s : Scalar} :
    ∀ {es : List Expr} {parts : List (Nat × Checked)}, env.checkParts vec s es = .ok parts →
      List.Forall₂ (fun e part => ∃ y, P e y ∧ vectorPart vec s e.offset y = .ok part) es parts
  | [], parts, h => by
    cases h
    exact .nil
  | e :: es, parts, h => by
    obtain ⟨y, hy, h⟩ := bind_eq_ok.mp h
    obtain ⟨part, hpart, h⟩ := bind_eq_ok.mp h
    obtain ⟨parts, hparts, h⟩ := bind_eq_ok.mp h
    cases h
    exact .cons ⟨y, checkExpr hk hy, hpart⟩ (checkParts hk hparts)
termination_by es => sizeOf es
decreasing_by all_goals simp +arith

theorem checkFields (hk : env.Keeps P) : ∀ {es : List Expr} {ts : List NamedTy} {xs : List Checked},
    es.length = ts.length → env.checkFields es ts = .ok xs →
      ∃ ys, List.Forall₂ P es ys ∧ convertAll (es.map (·.offset)) ys ts = .ok xs
  | [], ts, xs, hlen, h => by
    cases h
    exact ⟨[], .nil, by rw [List.eq_nil_of_length_eq_zero hlen.symm]; rfl⟩
  | e :: es, [], xs, hlen, h => by simp at hlen
  | e :: es, t :: ts, xs, hlen, h => by
    obtain ⟨y, hy, h⟩ := bind_eq_ok.mp h
    obtain ⟨x, hx, h⟩ := bind_eq_ok.mp h
    obtain ⟨xs, hxs, h⟩ := bind_eq_ok.mp h
    cases h
    obtain ⟨ys, hys, hconvert⟩ := checkFields hk (Nat.succ.inj hlen) hxs
    refine ⟨y :: ys, .cons (checkExpr hk hy) hys, ?_⟩
    exact bind_eq_ok.mpr ⟨x, hx, bind_eq_ok.mpr ⟨xs, hconvert, rfl⟩⟩
termination_by es => sizeOf es
decreasing_by all_goals simp +arith

end

end Keeps

/-! ### Lists of operands -/

section Operands

variable {α β : Type} {C : α → Prop} {Q : β → Prop} {as : List α} {bs : List β}

/-- What is so for each pair is so for all on the right. -/
theorem forall_mem_of_forall₂ (h : List.Forall₂ (fun _ b => Q b) as bs) :
    bs.length = as.length ∧ ∀ b ∈ bs, Q b := by
  induction h with
  | nil => simp
  | cons hb _ ih => exact ⟨by simp [ih.1], List.forall_mem_cons.mpr ⟨hb, ih.2⟩⟩

/-- The same where it is so under a condition, which all on the left meet. -/
theorem forall_mem_of_imp (h : List.Forall₂ (fun a b => C a → Q b) as bs) (hC : ∀ a ∈ as, C a) :
    bs.length = as.length ∧ ∀ b ∈ bs, Q b :=
  forall_mem_of_forall₂ (((List.forall₂_and_left (p := C) as bs).mpr ⟨hC, h⟩).imp
    fun _ _ hab => hab.2 hab.1)

end Operands

end Env
end KernelForge
