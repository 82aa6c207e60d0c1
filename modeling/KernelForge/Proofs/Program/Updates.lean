/-
Assignments that compute.

A compound assignment finds its place once, and computes from what is kept there.  The assignment
that it abbreviates evaluates the same expression twice, once for its value and once for its
place.  When neither side calls a function or changes a memory the two come to the same: whatever
the expression of a place yields is what its location holds, a field in memory being read in one
case by itself and in the other with the whole structure around it.

Both are built by the same rules from the two operands, and what is built depends on the types
only.  So the rules are followed once, for any relation of terms that they keep.
-/
import KernelForge.Proofs.Program.Closures
import KernelForge.Proofs.Program.Lenses
import KernelForge.Program.Stmt

namespace KernelForge

/-! ### Expressions that change nothing -/

/-- Whether a call may change a memory: an atomic function does, and a function of the source
may. -/
def Callee.acts : Callee → Bool
  | .atomic _ | .source _ _ => true
  | _ => false

namespace Code

mutual

/-- Whether an expression calls no function of the source and no atomic function. -/
def Expr.isPlain (env : Env) : Expr → Bool
  | .ident _ | .number _ _ _ => true
  | .paren _ x | .unary _ _ x | .cast _ _ x | .select x _ => x.isPlain env
  | .binary x _ _ y | .index x _ y => x.isPlain env && y.isPlain env
  | .cond test x y => test.isPlain env && x.isPlain env && y.isPlain env
  | .vectorLit _ _ items | .structLit _ _ items => Expr.arePlain env items
  | .call fn _ args =>
    !(Callee.ofName env (Callee.fullName fn.name)).acts && Expr.arePlain env args

def Expr.arePlain (env : Env) : List Expr → Bool
  | [] => true
  | e :: es => e.isPlain env && Expr.arePlain env es

end

theorem Expr.arePlain_iff {env : Env} {es : List Expr} :
    Expr.arePlain env es = true ↔ ∀ e ∈ es, e.isPlain env = true := by
  induction es with
  | nil => simp [Expr.arePlain]
  | cons e es ih => rw [Expr.arePlain, Bool.and_eq_true, ih, List.forall_mem_cons]

end Code

namespace Term

theorem areCalm_iff {ts : List Term} : areCalm ts = true ↔ ∀ t ∈ ts, t.isCalm = true := by
  induction ts with
  | nil => simp [areCalm]
  | cons t ts ih => rw [areCalm, Bool.and_eq_true, ih, List.forall_mem_cons]

end Term

namespace Checked

/-- The term is calm, and so is the place if there is one. -/
structure Calm (x : Checked) : Prop where
  term : x.term.isCalm = true
  place : ∀ p, x.place? = some p → p.isCalm = true

variable {x y z : Checked} {offset : Nat} {dst : NamedTy}

theorem calm_term {t : NamedTy} {x : Term} (h : x.isCalm = true) : Calm { type := t, term := x } :=
  ⟨h, by simp⟩

theorem calm_ofConstant (c : Constant) : (ofConstant c).Calm := calm_term (by rw [Term.isCalm])

theorem calm_ofVariable (v : Variable) : (ofVariable v).Calm := by
  refine ⟨by rw [ofVariable, Term.isCalm], fun p hp => ?_⟩
  cases hp
  rw [Place.isCalm]

theorem calm_convert (hx : x.Calm) (h : x.convert offset dst = .ok y) : y.Calm := by
  unfold convert at h
  split at h
  · cases h
    exact hx
  · split at h
    · cases h
      exact calm_term (by rw [Term.isCalm, hx.term])
    · cases h
      exact calm_term (by simp [Term.isCalm, Term.areCalm, hx.term])
    · split at h <;> cases h
      exact calm_term hx.term
    · cases h

theorem calm_truth (hx : x.Calm) (h : x.truth offset = .ok y) : y.Calm := by
  unfold truth at h
  split at h
  · exact calm_convert hx h
  · cases h

theorem calm_unary {op : Operator} (hx : x.Calm) (h : x.unary offset op = .ok y) : y.Calm := by
  have hrest : ∀ {t : NamedTy} {s : Scalar}, (if op = .xor && !s.isInteger then
      complain offset (.unaryOperand x.type.ty)
    else do
      let y ← x.convert offset t
      return { type := t, term := .unary op t.ty y.term }) = Except.ok y → y.Calm := by
    intro t s h
    split at h
    · cases h
    · obtain ⟨z, hz, h⟩ := bind_eq_ok.mp h
      cases h
      exact calm_term (by rw [Term.isCalm, (calm_convert hx hz).term])
  unfold unary at h
  split at h
  · exact hrest h
  · exact hrest h
  · cases h

theorem calm_not (hx : x.Calm) (h : x.not offset = .ok y) : y.Calm := by
  obtain ⟨z, hz, h⟩ := bind_eq_ok.mp h
  cases h
  exact calm_term (by rw [Term.isCalm, (calm_truth hx hz).term])

theorem calm_advance {op : Operator} (hx : x.Calm) (hy : y.Calm) (h : advance offset op x y = .ok z) :
    z.Calm := by
  unfold advance at h
  simp only at h
  split at h
  · split at h
    · cases h
    · obtain ⟨n, hn, h⟩ := bind_eq_ok.mp h
      cases h
      exact calm_term (by rw [Term.isCalm, hx.term, (calm_convert hy hn).term]; rfl)
  · cases h

theorem calm_logical {op : Operator} (hx : x.Calm) (hy : y.Calm) (h : logical offset op x y = .ok z) :
    z.Calm := by
  unfold logical at h
  obtain ⟨u, -, h⟩ := bind_eq_ok.mp h
  obtain ⟨x', hx', h⟩ := bind_eq_ok.mp h
  obtain ⟨y', hy', h⟩ := bind_eq_ok.mp h
  cases h
  refine calm_term ?_
  split <;> rw [Term.isCalm, (calm_convert hx hx').term, (calm_convert hy hy').term] <;> rfl

theorem calm_arithmetic {op : Operator} (hx : x.Calm) (hy : y.Calm)
    (h : arithmetic offset op x y = .ok z) : z.Calm := by
  have hrest : ∀ {t t' u : NamedTy} {r : Ty}, (do
      let x ← x.convert offset t
      let y ← y.convert offset t'
      return { type := u, term := .binary op r x.term y.term }) = Except.ok z → z.Calm := by
    intro t t' u r h
    obtain ⟨x', hx', h⟩ := bind_eq_ok.mp h
    obtain ⟨y', hy', h⟩ := bind_eq_ok.mp h
    cases h
    exact calm_term (by rw [Term.isCalm, (calm_convert hx hx').term, (calm_convert hy hy').term]; rfl)
  unfold arithmetic at h
  split at h
  · split at h
    · cases h
    · exact hrest h
  · split at h
    · cases h
    · split at h
      · cases h
      · exact hrest h
  · cases h

theorem calm_binary {op : Operator} (hx : x.Calm) (hy : y.Calm) (h : binary offset op x y = .ok z) :
    z.Calm := by
  unfold binary at h
  split at h
  · exact calm_logical hx hy h
  · split at h
    · exact calm_advance hx hy h
    · split at h
      · exact calm_advance hy hx h
      · exact calm_arithmetic hx hy h

theorem calm_choose {test : Checked} {xOffset yOffset : Nat} (htest : test.Calm) (hx : x.Calm)
    (hy : y.Calm) (h : choose test x y xOffset yOffset = .ok z) : z.Calm := by
  have hrest : ∀ {common : NamedTy}, (do
      let x ← x.convert xOffset common
      let y ← y.convert yOffset common
      return { type := common, term := .cond test.term x.term y.term }) = Except.ok z → z.Calm := by
    intro common h
    obtain ⟨x', hx', h⟩ := bind_eq_ok.mp h
    obtain ⟨y', hy', h⟩ := bind_eq_ok.mp h
    cases h
    exact calm_term (by
      rw [Term.isCalm, htest.term, (calm_convert hx hx').term, (calm_convert hy hy').term]; rfl)
  unfold choose at h
  split at h
  · exact hrest h
  · split at h
    · exact hrest h
    · cases h

theorem calm_castTo (hx : x.Calm) (h : x.castTo offset dst = .ok y) : y.Calm := by
  unfold castTo at h
  simp only at h
  split at h
  · split at h
    · exact calm_convert hx h
    · cases h
  · exact calm_convert hx h
  · split at h
    · split at h <;> cases h
      exact calm_term hx.term
    · cases h
  · cases h
    exact calm_term (by rw [Term.isCalm, hx.term])
  · split at h <;> cases h
    exact hx

theorem calm_deref {ptr index : Checked} (hptr : ptr.Calm) (hindex : index.Calm)
    (h : ptr.deref offset index = .ok y) : y.Calm := by
  unfold deref at h
  split at h <;> cases h
  have hplace : ∀ elem : Ty, (Place.deref elem ptr.term index.term).isCalm = true := fun elem => by
    rw [Place.isCalm, hptr.term, hindex.term]
    rfl
  refine ⟨by rw [Term.isCalm, hplace], fun p hp => ?_⟩
  cases hp
  exact hplace _

theorem calm_subscript {ptr index : Checked} (hptr : ptr.Calm) (hindex : index.Calm)
    (h : ptr.subscript offset index = .ok y) : y.Calm := by
  unfold subscript at h
  split at h
  · split at h
    · obtain ⟨i, hi, h⟩ := bind_eq_ok.mp h
      exact calm_deref hptr (calm_convert hindex hi) h
    · cases h
  · cases h

theorem calm_addressOf {form : String} (hx : x.Calm) (h : x.addressOf offset form = .ok y) : y.Calm := by
  unfold addressOf at h
  split at h <;> cases h
  rename_i hplace
  exact calm_term (by rw [Term.isCalm, hx.place _ hplace])

theorem calm_select {id : Code.Ident} (hx : x.Calm) (h : x.select id = .ok y) : y.Calm := by
  unfold select at h
  split at h
  · split at h <;> cases h
    refine ⟨by rw [Term.isCalm, hx.term], fun p hp => ?_⟩
    obtain ⟨q, hq, rfl⟩ := Option.map_eq_some_iff.mp hp
    rw [Place.isCalm, hx.place q hq]
  · split at h
    · cases h
    · rename_i lanes _
      have hplace : ∀ p,
          (if Component.distinct lanes then x.place?.map (Place.lanes · lanes) else none) = some p →
            p.isCalm = true := by
        intro p hp
        split at hp
        · obtain ⟨q, hq, rfl⟩ := Option.map_eq_some_iff.mp hp
          rw [Place.isCalm, hx.place q hq]
        · cases hp
      generalize (if Component.distinct lanes then x.place?.map (Place.lanes · lanes) else none) = place?
        at h hplace
      have hlanes : (Term.lanes lanes x.term).isCalm = true := by rw [Term.isCalm, hx.term]
      split at h
      · cases h
        exact ⟨hlanes, hplace⟩
      · split at h <;> cases h
        exact ⟨hlanes, hplace⟩
  · cases h

theorem calm_convertAll : ∀ {os : List Nat} {xs ys : List Checked} {ts : List NamedTy},
    (∀ x ∈ xs, x.Calm) → convertAll os xs ts = .ok ys → Term.areCalm (ys.map (·.term)) = true := by
  intro os
  induction os with
  | nil =>
    intro xs ys ts _ h
    cases h
    rfl
  | cons o os ih =>
    intro xs ys ts hxs h
    cases xs with
    | nil =>
      cases h
      rfl
    | cons x xs =>
      cases ts with
      | nil =>
        cases h
        rfl
      | cons t ts =>
        obtain ⟨y, hy, h⟩ := bind_eq_ok.mp h
        obtain ⟨zs, hzs, h⟩ := bind_eq_ok.mp h
        cases h
        obtain ⟨hx, hxs⟩ := List.forall_mem_cons.mp hxs
        rw [List.map_cons, Term.areCalm, (calm_convert hx hy).term, ih hxs hzs]
        rfl

theorem calm_vectorPart {vec : Ty} {s : Scalar} {part : Nat × Checked} (hx : x.Calm)
    (h : vectorPart vec s offset x = .ok part) : part.2.Calm := by
  unfold vectorPart at h
  split at h
  · obtain ⟨y, hy, h⟩ := bind_eq_ok.mp h
    cases h
    exact calm_convert hx hy
  · split at h <;> cases h
    exact hx
  · cases h

theorem calm_vectorOf {s : Scalar} {w : Width} {parts : List (Nat × Checked)}
    (hparts : ∀ part ∈ parts, part.2.Calm) (h : vectorOf offset s w parts = .ok z) : z.Calm := by
  unfold vectorOf at h
  simp only at h
  split at h <;> cases h
  refine calm_term ?_
  rw [Term.isCalm, Term.areCalm_iff]
  intro t ht
  obtain ⟨part, hpart, rfl⟩ := List.mem_map.mp ht
  exact (hparts part hpart).term

theorem calm_callWorkItem {fn : WorkItemFn} (hx : x.Calm) (h : callWorkItem offset fn x = .ok y) :
    y.Calm := by
  obtain ⟨dim, hdim, h⟩ := bind_eq_ok.mp h
  cases h
  exact calm_term (by rw [Term.isCalm, (calm_convert hx hdim).term])

theorem calm_callConvert {t : Ty} (hx : x.Calm) (h : callConvert offset t x = .ok y) : y.Calm := by
  unfold callConvert at h
  split at h
  · cases h
    exact calm_term (by rw [Term.isCalm, hx.term])
  · split at h <;> cases h
    exact calm_term (by rw [Term.isCalm, hx.term])
  · cases h

theorem calm_callMath {fn : Builtin} {offsets : List Nat} {xs : List Checked} (hxs : ∀ x ∈ xs, x.Calm)
    (h : callMath offset fn offsets xs = .ok y) : y.Calm := by
  unfold callMath at h
  split at h
  · cases h
  · obtain ⟨ys, hys, h⟩ := bind_eq_ok.mp h
    cases h
    exact calm_term (by rw [Term.isCalm, calm_convertAll hxs hys])

end Checked

namespace Env

open Checked

variable {env : Env}

theorem calm_checkName {id : Code.Ident} {x : Checked} (h : env.checkName id = .ok x) : x.Calm := by
  unfold checkName at h
  split at h
  · cases h
    exact calm_ofVariable _
  · split at h <;> cases h
    exact calm_ofConstant _

/-- Every rule of the checker makes something calm of what is calm. -/
theorem keeps_calm : env.Keeps fun e x => e.isPlain env = true → x.Calm where
  ident h _ := calm_checkName h
  number _ _ := calm_ofConstant _
  paren hx hplain := hx hplain
  deref hy h hplain := calm_deref (hy hplain) (calm_ofConstant _) h
  addressOf hy h hplain := calm_addressOf (hy hplain) h
  not hy h hplain := calm_not (hy hplain) h
  unary hy h hplain := calm_unary (hy hplain) h
  binary hy hz h hplain := by
    rw [Code.Expr.isPlain, Bool.and_eq_true] at hplain
    exact calm_binary (hy hplain.1) (hz hplain.2) h
  cond ht ht' hy hz h hplain := by
    rw [Code.Expr.isPlain, Bool.and_eq_true, Bool.and_eq_true] at hplain
    exact calm_choose (calm_truth (ht hplain.1.1) ht') (hy hplain.1.2) (hz hplain.2) h
  cast _ hy h hplain := calm_castTo (hy hplain) h
  spread _ hy h hplain := calm_convert (hy (Code.Expr.arePlain_iff.mp hplain _ List.mem_cons_self)) h
  vector _ hparts h hplain := by
    rw [Code.Expr.isPlain, Code.Expr.arePlain_iff] at hplain
    refine calm_vectorOf (forall_mem_of_imp (hparts.imp fun e part hpart he => ?_) hplain).2 h
    obtain ⟨y, hy, hpart⟩ := hpart
    exact calm_vectorPart (hy he) hpart
  record _ hys _ h hplain := by
    rw [Code.Expr.isPlain, Code.Expr.arePlain_iff] at hplain
    exact calm_term (by rw [Term.isCalm, calm_convertAll (forall_mem_of_imp hys hplain).2 h])
  index hy hz h hplain := by
    rw [Code.Expr.isPlain, Bool.and_eq_true] at hplain
    exact calm_subscript (hy hplain.1) (hz hplain.2) h
  select hy h hplain := calm_select (hy hplain) h
  workItem _ hy h hplain := by
    rw [Code.Expr.isPlain, Bool.and_eq_true, Code.Expr.arePlain_iff] at hplain
    exact calm_callWorkItem (hy (hplain.2 _ List.mem_cons_self)) h
  workDim _ := calm_ofConstant _
  atomic hcallee _ _ _ _ _ hplain := by
    rw [Code.Expr.isPlain, hcallee] at hplain
    cases hplain
  convert _ hy h hplain := by
    rw [Code.Expr.isPlain, Bool.and_eq_true, Code.Expr.arePlain_iff] at hplain
    exact calm_callConvert (hy (hplain.2 _ List.mem_cons_self)) h
  math _ hys h hplain := by
    rw [Code.Expr.isPlain, Bool.and_eq_true, Code.Expr.arePlain_iff] at hplain
    exact calm_callMath (forall_mem_of_imp hys hplain.2).2 h
  source hcallee _ _ _ hplain := by
    rw [Code.Expr.isPlain, hcallee] at hplain
    cases hplain

/-- **An expression that calls nothing that acts is calm** when it is evaluated. -/
theorem calm_checkExpr {e : Code.Expr} {x : Checked} (hplain : e.isPlain env = true)
    (h : env.checkExpr e = .ok x) : x.Calm :=
  keeps_calm.checkExpr h hplain

end Env

/-! ### What is kept at a place -/

namespace Place

/-- The elements in memory on the way to a place have sizes that do not wrap. -/
def Small : Place → Prop
  | .var _ => True
  | .deref elem _ _ => elem.size < 2 ^ 63
  | .field p _ _ | .lanes p _ => p.Small

/-- What the term yields is what is kept at the place, a value of the type `t`. -/
def Mirrors (p : Place) (x : Term) (t : Ty) : Prop :=
  p.Small → ∀ {call : Caller} {f : Frame} {st : Store} {v : Value} {l : Loc},
    x.eval call f st = (.ok v, st) → p.locate call f st = (.ok l, st) →
      l.load f.vars st = (.ok v, st) ∧ ∀ m o u, l = .mem m o u → u = t ∧ u.size < 2 ^ 63

theorem located_deref {call : Caller} {f : Frame} {elem : Ty} {ptr index : Term} {l : Loc} {st st' : Store}
    (h : (Place.deref elem ptr index).locate call f st = (.ok l, st')) : ∃ m o, l = .mem m o elem := by
  rw [Place.locate] at h
  obtain ⟨p, st₁, -, h⟩ := Exec.of_bind_ok h
  obtain ⟨v, st₂, -, h⟩ := Exec.of_bind_ok h
  obtain ⟨i, st₃, -, h⟩ := Exec.of_bind_ok h
  obtain ⟨q, st₄, -, h⟩ := Exec.of_bind_ok h
  cases hm : q.memory? with
  | none =>
    rw [hm] at h
    cases h
  | some m =>
    rw [hm] at h
    cases h
    exact ⟨m, _, rfl⟩

end Place

/-- A field of a structure that was read is what its own bytes hold. -/
theorem Value.decodeAt_field {ts : List Ty} {bs : List UInt8} {used i : Nat} {vs : List Value} {v : Value}
    (h : decodeFields ts bs used = .ok vs) (hv : vs[i]? = some v) :
    i < ts.length ∧ decodeAt (ts.getD i .void)
      ((bs.drop ((Ty.offsetsFrom used ts).getD i 0)).take (ts.getD i .void).size) = .ok v := by
  induction ts generalizing used i vs with
  | nil =>
    simp only [decodeFields, Except.ok.injEq] at h
    subst h
    simp at hv
  | cons t ts ih =>
    simp only [decodeFields] at h
    split at h
    · cases h
    rename_i w hw
    split at h
    · cases h
    rename_i ws hws
    cases h
    cases i with
    | zero =>
      cases hv
      exact ⟨by simp, hw⟩
    | succ i =>
      obtain ⟨hi, hfield⟩ := ih hws hv
      exact ⟨by simpa using hi, hfield⟩

namespace Store

/-- A part of an element lies inside when the element does. -/
theorem access_part {n s start used s' : Nat} {o : BitVec 64} (hs : s < 2 ^ 63)
    (h : access n o s = .inside start) (hpart : used + s' ≤ s) :
    access n (o + BitVec.ofNat 64 used) s' = .inside (start + used) := by
  obtain ⟨rfl, hroom⟩ := inside_of_access hs h
  unfold access at h
  simp only at h
  split at h
  · cases h
  split at h
  · cases h
  rename_i hout hwrap
  rw [not_or] at hout
  have ho : 0 ≤ o.toInt := Int.not_lt.mp hout.1
  have hcond := BitVec.toInt_eq_toNat_cond o
  have hfinish := toInt_finish hs ho
  have hused := toInt_finish (o := o) (s := used) (by omega) ho
  have hend : o.toInt = o.toNat ∧ o.toNat + s < 2 ^ 63 := by
    split at hfinish <;> split at hcond <;> omega
  have hstart : (o + BitVec.ofNat 64 used).toInt = o.toNat + used := by
    rw [hused, if_neg (by omega), hend.1]
  have hnat : (o + BitVec.ofNat 64 used).toNat = o.toNat + used := by
    rw [BitVec.toNat_add, BitVec.toNat_ofNat]
    omega
  have hpartEnd := toInt_finish (o := o + BitVec.ofNat 64 used) (s := s') (by omega) (by omega)
  rw [if_neg (by omega)] at hpartEnd
  unfold access
  simp only
  rw [if_neg (by omega), if_neg (by omega), hnat]

/-- A field in memory holds what is read there with the whole structure. -/
theorem load_field {st : Store} {m i : Nat} {o : BitVec 64} {ts : List Ty} {vs : List Value} {v : Value}
    (hsize : (Ty.tuple ts).size < 2 ^ 63) (h : st.load m o (.tuple ts) = .ok (.record vs))
    (hv : vs[i]? = some v) :
    st.load m (o + BitVec.ofNat 64 ((Ty.fieldOffsets ts).getD i 0)) (ts.getD i .void) = .ok v ∧
      (ts.getD i .void).size < 2 ^ 63 := by
  simp only [load] at h
  split at h
  · cases h
  · cases h
  rename_i start hacc
  split at h <;> cases h
  rename_i hdecode
  simp only [Value.decode, Value.decodeAt] at hdecode
  split at hdecode <;> cases hdecode
  rename_i hfields
  obtain ⟨hi, hfield⟩ := Value.decodeAt_field hfields hv
  have hpart := (Ty.offsetsFrom_bounds ts 0 hi).2
  have hend := Ty.fieldsEnd_le_size ts
  rw [Bytes.take_drop_slice _ _ (by omega)] at hfield
  refine ⟨?_, by omega⟩
  simp only [load, Ty.fieldOffsets, access_part hsize hacc (hpart.trans hend), Value.decode, hfield]

end Store

namespace Place

theorem Mirrors.field {p : Place} {x : Term} {ts : List Ty} (hx : x.isCalm = true)
    (hp : p.isCalm = true) (h : p.Mirrors x (.tuple ts)) (i : Nat) :
    (Place.field p ts i).Mirrors (.field i x) (ts.getD i .void) := by
  intro hsmall call f st v l hv hl
  rw [Term.eval] at hv
  obtain ⟨w, hw, hfield⟩ := Term.of_eval_bind hx hv
  rw [Place.locate] at hl
  obtain ⟨l', hl', hl⟩ := Place.of_locate_bind hp hl
  cases hl
  obtain ⟨hload, hmem⟩ := h hsmall hw hl'
  cases w with
  | record vs =>
    rw [Value.field] at hfield
    cases hget : vs[i]? with
    | none =>
      rw [hget] at hfield
      cases hfield
    | some w =>
      rw [hget] at hfield
      cases hfield
      cases l' with
      | mem m o u =>
        obtain ⟨rfl, hsize⟩ := hmem m o u rfl
        have hwhole : st.load m o (.tuple ts) = .ok (.record vs) := congrArg Prod.fst hload
        obtain ⟨hpart, hsize'⟩ := Store.load_field hsize hwhole hget
        refine ⟨Prod.ext hpart rfl, fun m' o' u' heq => ?_⟩
        cases heq
        exact ⟨rfl, hsize'⟩
      | _ =>
        refine ⟨(Exec.bind_ok hload _).trans ?_, by simp [Loc.fieldOf]⟩
        simp only [hget]
        rfl
  | _ => cases hfield

theorem Mirrors.lanes {p : Place} {x : Term} {t u : Ty} (hx : x.isCalm = true)
    (hp : p.isCalm = true) (h : p.Mirrors x t) (is : List Nat) :
    (Place.lanes p is).Mirrors (.lanes is x) u := by
  intro hsmall call f st v l hv hl
  rw [Term.eval] at hv
  obtain ⟨w, hw, hselect⟩ := Term.of_eval_bind hx hv
  rw [Place.locate] at hl
  obtain ⟨l', hl', hl⟩ := Place.of_locate_bind hp hl
  cases hl
  refine ⟨?_, by simp⟩
  rw [Loc.load]
  refine (Exec.bind_ok (h hsmall hw hl').1 _).trans ?_
  cases w with
  | lanes e z => exact hselect
  | _ => cases hselect

end Place

namespace Checked

variable {x y z : Checked} {offset : Nat} {dst : NamedTy}

/-- If the expression has a place, its term yields what is kept there. -/
def Mirrored (x : Checked) : Prop := ∀ p, x.place? = some p → p.Mirrors x.term x.type.ty

theorem mirrored_of_none (h : x.place? = none) : x.Mirrored := by
  intro p hp
  rw [h] at hp
  cases hp

theorem mirrored_ofVariable (v : Variable) : (ofVariable v).Mirrored := by
  intro p hp
  cases hp
  intro _ call f st w l hw hl
  cases hl
  exact ⟨hw, by simp⟩

theorem mirrored_convert (hx : x.Mirrored) (h : x.convert offset dst = .ok y) : y.Mirrored := by
  unfold convert at h
  split at h
  · cases h
    exact hx
  · split at h
    · cases h
      exact mirrored_of_none rfl
    · cases h
      exact mirrored_of_none rfl
    · split at h <;> cases h
      exact mirrored_of_none rfl
    · cases h

theorem mirrored_castTo (hx : x.Mirrored) (h : x.castTo offset dst = .ok y) : y.Mirrored := by
  unfold castTo at h
  simp only at h
  split at h
  · split at h
    · exact mirrored_convert hx h
    · cases h
  · exact mirrored_convert hx h
  · split at h
    · split at h <;> cases h
      exact mirrored_of_none rfl
    · cases h
  · cases h
    exact mirrored_of_none rfl
  · split at h <;> cases h
    exact hx

theorem mirrored_deref {ptr index : Checked} (h : ptr.deref offset index = .ok y) : y.Mirrored := by
  unfold deref at h
  split at h <;> cases h
  intro p hp
  cases hp
  intro hsmall call f st v l hv hl
  rw [Term.eval] at hv
  obtain ⟨l', st₁, hl', hload⟩ := Exec.of_bind_ok hv
  rw [hl] at hl'
  cases hl'
  refine ⟨hload, fun m o u hmem => ?_⟩
  obtain ⟨m', o', rfl⟩ := Place.located_deref hl
  cases hmem
  exact ⟨rfl, hsmall⟩

theorem mirrored_subscript {ptr index : Checked} (h : ptr.subscript offset index = .ok y) :
    y.Mirrored := by
  unfold subscript at h
  split at h
  · split at h
    · obtain ⟨i, -, h⟩ := bind_eq_ok.mp h
      exact mirrored_deref h
    · cases h
  · cases h

theorem mirrored_select {id : Code.Ident} (hcalm : x.Calm) (hx : x.Mirrored) (h : x.select id = .ok y) :
    y.Mirrored := by
  unfold select at h
  split at h
  · rename_i names fields htype
    split at h <;> cases h
    rename_i i _
    intro p hp
    obtain ⟨q, hq, rfl⟩ := Option.map_eq_some_iff.mp hp
    have hmirrors := hx q hq
    rw [htype, NamedTy.ty] at hmirrors
    have hfield := hmirrors.field hcalm.term (hcalm.place q hq) i
    have hty : (fields.getD i .void).ty = (NamedTy.tys fields).getD i .void := by
      rw [NamedTy.tys_eq_map]
      exact (List.getD_map _ _ NamedTy.ty).symm
    rwa [← hty] at hfield
  · split at h
    · cases h
    · rename_i lanes _
      have hplace : ∀ p u,
          (if Component.distinct lanes then x.place?.map (Place.lanes · lanes) else none) = some p →
            p.Mirrors (.lanes lanes x.term) u := by
        intro p u hp
        split at hp
        · obtain ⟨q, hq, rfl⟩ := Option.map_eq_some_iff.mp hp
          exact (hx q hq).lanes hcalm.term (hcalm.place q hq) lanes
        · cases hp
      generalize (if Component.distinct lanes then x.place?.map (Place.lanes · lanes) else none) = place?
        at h hplace
      split at h
      · cases h
        exact fun p hp => hplace p _ hp
      · split at h <;> cases h
        exact fun p hp => hplace p _ hp
  · cases h

end Checked

namespace Env

open Checked

variable {env : Env}

/-- **An expression with a place yields what is kept there.** -/
theorem mirrored_checkExpr {e : Code.Expr} {x : Checked} (hplain : e.isPlain env = true)
    (h : env.checkExpr e = .ok x) : x.Mirrored := by
  cases e with
  | ident id =>
    rw [checkExpr] at h
    unfold checkName at h
    split at h
    · cases h
      exact mirrored_ofVariable _
    · split at h <;> cases h
      exact mirrored_of_none rfl
  | number offset kind text =>
    rw [checkExpr] at h
    split at h <;> cases h
    exact mirrored_of_none rfl
  | paren offset e =>
    rw [Code.Expr.isPlain] at hplain
    rw [checkExpr] at h
    exact mirrored_checkExpr hplain h
  | unary offset op e =>
    obtain ⟨y, -, h⟩ := bind_eq_ok.mp h
    split at h
    · exact mirrored_deref h
    · exact mirrored_of_none (place?_addressOf h)
    · exact mirrored_of_none (place?_not h)
    · exact mirrored_of_none (place?_unary h)
  | binary e offset op e' =>
    obtain ⟨y, -, h⟩ := bind_eq_ok.mp h
    obtain ⟨z, -, h⟩ := bind_eq_ok.mp h
    exact mirrored_of_none (place?_binary h)
  | cond test e e' =>
    obtain ⟨t, -, h⟩ := bind_eq_ok.mp h
    obtain ⟨t', -, h⟩ := bind_eq_ok.mp h
    obtain ⟨y, -, h⟩ := bind_eq_ok.mp h
    obtain ⟨z, -, h⟩ := bind_eq_ok.mp h
    exact mirrored_of_none (place?_choose h)
  | cast offset spec e =>
    rw [Code.Expr.isPlain] at hplain
    obtain ⟨t, -, h⟩ := bind_eq_ok.mp h
    obtain ⟨y, hy, h⟩ := bind_eq_ok.mp h
    exact mirrored_castTo (mirrored_checkExpr hplain hy) h
  | vectorLit offset spec items =>
    rw [Code.Expr.isPlain] at hplain
    rw [checkExpr] at h
    obtain ⟨t, -, h⟩ := bind_eq_ok.mp h
    split at h
    · split at h
      · rw [Code.Expr.arePlain, Bool.and_eq_true] at hplain
        obtain ⟨y, hy, h⟩ := bind_eq_ok.mp h
        exact mirrored_convert (mirrored_checkExpr hplain.1 hy) h
      · obtain ⟨parts, -, h⟩ := bind_eq_ok.mp h
        exact mirrored_of_none (place?_vectorOf h)
    · cases h
  | structLit offset spec items =>
    obtain ⟨⟨t, fields⟩, -, h⟩ := bind_eq_ok.mp h
    obtain ⟨ys, -, h⟩ := bind_eq_ok.mp h
    cases h
    exact mirrored_of_none rfl
  | index e bracket i =>
    obtain ⟨y, -, h⟩ := bind_eq_ok.mp h
    obtain ⟨z, -, h⟩ := bind_eq_ok.mp h
    exact mirrored_subscript h
  | select e id =>
    rw [Code.Expr.isPlain] at hplain
    obtain ⟨y, hy, h⟩ := bind_eq_ok.mp h
    exact mirrored_select (calm_checkExpr hplain hy) (mirrored_checkExpr hplain hy) h
  | call fn paren args => exact mirrored_of_none (place?_call h)
termination_by sizeOf e
decreasing_by all_goals (subst_vars; simp +arith)

end Env

/-! ### The rules of operands -/

/-- A relation of terms that conversions and binary operators keep. -/
structure Term.Congruent (R : Term → Term → Prop) : Prop where
  cast : ∀ {a b : Term} (s : Scalar), R a b → R (.cast s a) (.cast s b)
  concat : ∀ {a b : Term} (s : Scalar) (n : Nat), R a b → R (.concat s n [a]) (.concat s n [b])
  binary : ∀ {a b a' b' : Term} (op : Operator) (t : Ty), R a b → R a' b' →
    R (.binary op t a a') (.binary op t b b')
  advance : ∀ {a b a' b' : Term} (stride : Int), R a b → R a' b' →
    R (.advance stride a a') (.advance stride b b')

namespace Checked

/-- Two checked expressions of one type whose terms are related. -/
structure Alike (R : Term → Term → Prop) (x y : Checked) : Prop where
  type : x.type = y.type
  term : R x.term y.term

section Rules

-- Where an objection would be made does not matter to what is accepted.
variable {R : Term → Term → Prop} (hR : Term.Congruent R) {x x' y y' z : Checked} {offset : Nat}
  (offset' : Nat)
include hR

theorem Alike.convert (hx : Alike R x x') {dst : NamedTy} (h : x.convert offset dst = .ok y) :
    ∃ y', x'.convert offset' dst = .ok y' ∧ Alike R y y' := by
  obtain ⟨t, a, p, r, m⟩ := x
  obtain ⟨t', a', p', r', m'⟩ := x'
  obtain rfl : t = t' := hx.type
  have hterm : R a a' := hx.term
  unfold Checked.convert at h ⊢
  simp only at h ⊢
  split at h
  · rename_i hsame
    cases h
    exact ⟨_, if_pos hsame, rfl, hterm⟩
  · rename_i hsame
    rw [if_neg hsame]
    split at h
    · cases h
      exact ⟨_, rfl, rfl, hR.cast _ hterm⟩
    · cases h
      exact ⟨_, rfl, rfl, hR.concat _ _ (hR.cast _ hterm)⟩
    · split at h <;> cases h
      rename_i hptr
      exact ⟨_, if_pos hptr, rfl, hterm⟩
    · cases h

theorem Alike.advance (hx : Alike R x x') (hy : Alike R y y') {op : Operator}
    (h : advance offset op x y = .ok z) : ∃ z', Checked.advance offset' op x' y' = .ok z' ∧ Alike R z z' := by
  unfold Checked.advance at h ⊢
  simp only [← hx.type, ← hy.type]
  simp only at h
  split at h
  · rename_i elem space readOnly s hptr hn
    split at h
    · cases h
    · rename_i hop
      obtain ⟨n, hconv, h⟩ := bind_eq_ok.mp h
      cases h
      obtain ⟨n', hconv', hlike⟩ := hy.convert hR offset' hconv
      simp only [hptr, hn]
      rw [if_neg hop, hconv']
      exact ⟨_, rfl, rfl, hR.advance _ hx.term hlike.term⟩
  · cases h

theorem Alike.arithmetic (hx : Alike R x x') (hy : Alike R y y') {op : Operator}
    (h : arithmetic offset op x y = .ok z) :
    ∃ z', Checked.arithmetic offset' op x' y' = .ok z' ∧ Alike R z z' := by
  unfold Checked.arithmetic at h ⊢
  simp only [← hx.type, ← hy.type]
  split at h
  · rename_i s hcommon
    split at h
    · cases h
    rename_i hop
    rw [if_neg hop]
    obtain ⟨a, ha, h⟩ := bind_eq_ok.mp h
    obtain ⟨b, hb, h⟩ := bind_eq_ok.mp h
    cases h
    obtain ⟨a', ha', hlike⟩ := hx.convert hR offset' ha
    obtain ⟨b', hb', hlike'⟩ := hy.convert hR offset' hb
    rw [ha', hb']
    exact ⟨_, rfl, rfl, hR.binary _ _ hlike.term hlike'.term⟩
  · rename_i s w hcommon
    split at h
    · cases h
    rename_i hop
    split at h
    · cases h
    rename_i hcmp
    rw [if_neg hop, if_neg hcmp]
    obtain ⟨a, ha, h⟩ := bind_eq_ok.mp h
    obtain ⟨b, hb, h⟩ := bind_eq_ok.mp h
    cases h
    obtain ⟨a', ha', hlike⟩ := hx.convert hR offset' ha
    obtain ⟨b', hb', hlike'⟩ := hy.convert hR offset' hb
    rw [ha', hb']
    exact ⟨_, rfl, rfl, hR.binary _ _ hlike.term hlike'.term⟩
  · cases h

/-- A binary operation follows its operands, unless it is one of conditions. -/
theorem Alike.binary (hx : Alike R x x') (hy : Alike R y y') {op : Operator} (hop : op.isLogical = false)
    (h : binary offset op x y = .ok z) : ∃ z', Checked.binary offset' op x' y' = .ok z' ∧ Alike R z z' := by
  unfold Checked.binary at h ⊢
  rw [← hx.type, ← hy.type]
  simp only [hop, Bool.false_eq_true, if_false] at h ⊢
  split at h
  · rename_i hptr
    rw [if_pos hptr]
    exact hx.advance hR offset' hy h
  · rename_i hptr
    rw [if_neg hptr]
    split at h
    · rename_i hptr'
      rw [if_pos hptr']
      exact hy.advance hR offset' hx h
    · rename_i hptr'
      rw [if_neg hptr']
      exact hx.arithmetic hR offset' hy h

end Rules

end Checked

/-! ### The two assignments -/

/-- A compound assignment, and the assignment that it abbreviates. -/
inductive Code.Simple.Expands : Code.Simple → Code.Simple → Prop where
  | compound {op bop : Operator} (hop : Env.binaryOf? op = some bop) (l e : Code.Expr) (o o₁ o₂ : Nat) :
      Expands (.assign l o op e) (.assign l o₁ .assign (.binary l o₂ bop e))
  | inc (l : Code.Expr) (o o₁ o₂ o₃ : Nat) :
      Expands (.step l o .inc) (.assign l o₁ .assign (.binary l o₂ .add (.number o₃ .int "1")))
  | dec (l : Code.Expr) (o o₁ o₂ o₃ : Nat) :
      Expands (.step l o .dec) (.assign l o₁ .assign (.binary l o₂ .sub (.number o₃ .int "1")))

/-- Whether the two sides of an assignment call nothing that acts. -/
def Code.Simple.isPlain (env : Env) : Code.Simple → Bool
  | .assign l _ _ e => l.isPlain env && e.isPlain env
  | .step l _ _ => l.isPlain env
  | _ => false

/-- The elements in memory on the way to what is updated have sizes that do not wrap. -/
def Action.Small : Action → Prop
  | .update p _ => p.Small
  | _ => True

/-- Whatever the first term yields the second yields as well, the memories being as they are. -/
def Term.Follows (call : Caller) (f g : Frame) (st : Store) (a b : Term) : Prop :=
  a.isCalm = true ∧ ∀ v, a.eval call f st = (.ok v, st) → b.eval call g st = (.ok v, st)

theorem Term.congruent_follows (call : Caller) (f g : Frame) (st : Store) :
    Term.Congruent (Term.Follows call f g st) where
  cast s h := by
    refine ⟨by rw [isCalm, h.1], fun v hv => ?_⟩
    rw [eval] at hv ⊢
    obtain ⟨w, hw, hv⟩ := of_eval_bind h.1 hv
    exact (Exec.bind_ok (h.2 w hw) _).trans hv
  concat s n h := by
    refine ⟨by rw [isCalm, areCalm, areCalm, h.1]; rfl, fun v hv => ?_⟩
    rw [eval] at hv ⊢
    have hall : Exec.Quiet (evalAll call f [_]) := Exec.closed_quiet.evalAll f [_] (.inl (by rw [areCalm, h.1]; rfl))
    obtain ⟨ws, st₁, hws, hv⟩ := Exec.of_bind_ok hv
    rw [evalAll] at hws
    obtain ⟨w, hw, hws⟩ := of_eval_bind h.1 hws
    cases hws
    rw [evalAll]
    exact (Exec.bind_ok ((Exec.bind_ok (h.2 w hw) _).trans rfl) _).trans hv
  binary op t h h' := by
    refine ⟨by rw [isCalm, h.1, h'.1]; rfl, fun v hv => ?_⟩
    rw [eval] at hv ⊢
    obtain ⟨w, hw, hv⟩ := of_eval_bind h.1 hv
    obtain ⟨w', hw', hv⟩ := of_eval_bind h'.1 hv
    exact (Exec.bind_ok (h.2 w hw) _).trans ((Exec.bind_ok (h'.2 w' hw') _).trans hv)
  advance stride h h' := by
    refine ⟨by rw [isCalm, h.1, h'.1]; rfl, fun v hv => ?_⟩
    rw [eval] at hv ⊢
    obtain ⟨w, hw, hv⟩ := of_eval_bind h.1 hv
    obtain ⟨w', hw', hv⟩ := of_eval_bind h'.1 hv
    exact (Exec.bind_ok (h.2 w hw) _).trans ((Exec.bind_ok (h'.2 w' hw') _).trans hv)

theorem Term.congruent_true : Term.Congruent fun _ _ => True where
  cast _ _ := trivial
  concat _ _ _ := trivial
  binary _ _ _ _ := trivial
  advance _ _ _ := trivial

namespace Env

open Checked

variable {env : Env} {x y : Checked} {bop : Operator} {o o₁ o₂ : Nat}

theorem assignable_ok {p : Place} (h : assignable o x = .ok p) :
    x.place? = some p ∧ ∀ o', assignable o' x = .ok p := by
  unfold assignable at h
  split at h
  · cases h
  · rename_i q hq
    split at h <;> cases h
    rename_i hwrite
    refine ⟨hq, fun o' => ?_⟩
    simp only [assignable, hq]
    rw [if_neg hwrite]

/-- What the expanded assignment of a value computed from a place is checked to. -/
def checkExpanded (o₁ o₂ : Nat) (x : Checked) (bop : Operator) (y : Checked) : Check Action := do
  let next ← Checked.binary o₂ bop x y
  let place ← assignable o₁ x
  let next ← next.convert o₁ x.type
  return .assign place next.term

/-- What the expanded assignment computes is what the compound one does, as far as a relation goes
that holds between the value of the place and what is kept there. -/
theorem exists_update {R : Term → Term → Prop} (hR : Term.Congruent R) (hx : R x.term .current)
    (hy : R y.term y.term) (hop : bop.isLogical = false) {b : Action}
    (h : checkExpanded o₁ o₂ x bop y = .ok b) :
    ∃ p n m, b = .assign p n ∧ x.place? = some p ∧ checkUpdate o x bop y = .ok (.update p m) ∧ R n m := by
  obtain ⟨z, hz, h⟩ := bind_eq_ok.mp h
  obtain ⟨p, hp, h⟩ := bind_eq_ok.mp h
  obtain ⟨n, hn, h⟩ := bind_eq_ok.mp h
  cases h
  have hcurrent : Alike R x { type := x.type, term := .current } := ⟨rfl, hx⟩
  have hsame : Alike R y y := ⟨rfl, hy⟩
  obtain ⟨z', hz', hlike⟩ := hcurrent.binary hR o hsame hop hz
  obtain ⟨m, hm, hlike'⟩ := hlike.convert hR o hn
  obtain ⟨hplace, hp⟩ := assignable_ok hp
  refine ⟨p, n.term, m.term, rfl, hplace, ?_, hlike'.term⟩
  exact bind_eq_ok.mpr ⟨p, hp o, bind_eq_ok.mpr ⟨z', hz', bind_eq_ok.mpr ⟨m, hm, rfl⟩⟩⟩

theorem exists_expanded (o₁ o₂ : Nat) (hop : bop.isLogical = false) {a : Action}
    (h : checkUpdate o x bop y = .ok a) :
    ∃ b, checkExpanded o₁ o₂ x bop y = .ok b := by
  obtain ⟨p, hp, h⟩ := bind_eq_ok.mp h
  obtain ⟨z, hz, h⟩ := bind_eq_ok.mp h
  obtain ⟨n, hn, h⟩ := bind_eq_ok.mp h
  cases h
  have hvalue : Alike (fun _ _ => True) { type := x.type, term := .current } x := ⟨rfl, trivial⟩
  have hsame : Alike (fun _ _ => True) y y := ⟨rfl, trivial⟩
  obtain ⟨z', hz', hlike⟩ := hvalue.binary Term.congruent_true o₂ hsame hop hz
  obtain ⟨m, hm, -⟩ := hlike.convert Term.congruent_true o₁ hn
  exact ⟨.assign p m.term, bind_eq_ok.mpr ⟨z', hz', bind_eq_ok.mpr ⟨p, (assignable_ok hp).2 o₁,
    bind_eq_ok.mpr ⟨m, hm, rfl⟩⟩⟩⟩

/-- When the expanded assignment succeeds, the compound one does the same. -/
theorem run_update (hx : x.Calm) (hmirrored : x.Mirrored) (hy : y.Calm) (hop : bop.isLogical = false)
    {a b : Action} (ha : checkUpdate o x bop y = .ok a) (hb : checkExpanded o₁ o₂ x bop y = .ok b)
    (hsmall : a.Small) {call : Caller} {item : WorkItem} {rounds : Nat} {vars : Vars} {st st' : Store}
    {r : Flow × Vars} (h : b.run call item rounds vars st = (.ok r, st')) :
    a.run call item rounds vars st = (.ok r, st') := by
  obtain ⟨z, hz, hb'⟩ := bind_eq_ok.mp hb
  obtain ⟨p, hp, hb'⟩ := bind_eq_ok.mp hb'
  obtain ⟨n, hn, hb'⟩ := bind_eq_ok.mp hb'
  cases hb'
  have hcalm : n.term.isCalm = true := (calm_convert (calm_binary hx hy hz) hn).term
  obtain ⟨hplace, -⟩ := assignable_ok hp
  obtain ⟨q, hq, ha'⟩ := bind_eq_ok.mp ha
  obtain ⟨z', -, ha'⟩ := bind_eq_ok.mp ha'
  obtain ⟨n', -, ha'⟩ := bind_eq_ok.mp ha'
  cases ha'
  obtain rfl : p = q := Option.some.inj (hplace.symm.trans (assignable_ok hq).1)
  rw [Action.run] at h
  obtain ⟨v, hv, h⟩ := Term.of_eval_bind hcalm h
  obtain ⟨l, hl, h⟩ := Place.of_locate_bind (hx.place p hplace) h
  have hcurrent : Term.Follows call { item, vars } { item, vars, current? := some l } st x.term .current := by
    refine ⟨hx.term, fun w hw => ?_⟩
    rw [Term.eval]
    exact (hmirrored p hplace hsmall hw hl).1
  have hsame : Term.Follows call { item, vars } { item, vars, current? := some l } st y.term y.term :=
    ⟨hy.term, fun w hw => by rwa [Term.eval_calm call item vars (some l) none hy.term]⟩
  obtain ⟨p', n'', m, heq, -, hupdate, hfollows⟩ :=
    exists_update (o := o) (Term.congruent_follows _ _ _ _) hcurrent hsame hop hb
  rw [ha] at hupdate
  cases heq
  cases hupdate
  rw [Action.run]
  exact (Exec.bind_ok hl _).trans ((Exec.bind_ok (hfollows.2 v hv) _).trans h)

/-! ### Statements -/

theorem isLogical_of_binaryOf {op : Operator} (h : binaryOf? op = some bop) : bop.isLogical = false := by
  cases op <;> simp only [binaryOf?, reduceCtorEq, Option.some.injEq] at h <;> subst h <;> rfl

theorem check_one (env : Env) (o : Nat) :
    env.checkExpr (.number o .int "1") = .ok (.ofConstant (.ofInt 1)) := by
  rw [checkExpr]
  rfl

/-- Both assignments are refused, or both are made from accepted operands that are calm. -/
def Meets (env : Env) (s t : Code.Simple) : Prop :=
  (∀ r, env.checkSimple s ≠ .ok r ∧ env.checkSimple t ≠ .ok r) ∨
    ∃ o o₁ o₂ x y bop, Checked.Calm x ∧ Checked.Mirrored x ∧ Checked.Calm y ∧ bop.isLogical = false ∧
      env.checkSimple s = (checkUpdate o x bop y).map (·, env) ∧
      env.checkSimple t = (checkExpanded o₁ o₂ x bop y).map (·, env)

theorem meets_assign {l e : Code.Expr} {s : Code.Simple} (hl : l.isPlain env = true)
    (he : e.isPlain env = true) (hop : bop.isLogical = false)
    (hs : env.checkSimple s = (do
      let x ← env.checkExpr l
      let y ← env.checkExpr e
      (checkUpdate o x bop y).map (·, env))) :
    env.Meets s (.assign l o₁ .assign (.binary l o₂ bop e)) := by
  have ht : env.checkSimple (.assign l o₁ .assign (.binary l o₂ bop e)) = (do
      let x ← env.checkExpr l
      let z ← env.checkExpr (.binary l o₂ bop e)
      let p ← assignable o₁ x
      let n ← z.convert o₁ x.type
      return (.assign p n.term, env)) := rfl
  rw [Meets, hs, ht, checkExpr]
  cases hx : env.checkExpr l with
  | error c => exact .inl fun r => ⟨by rintro ⟨⟩, by rintro ⟨⟩⟩
  | ok x =>
    cases hy : env.checkExpr e with
    | error c => exact .inl fun r => ⟨by rintro ⟨⟩, by rintro ⟨⟩⟩
    | ok y =>
      refine .inr ⟨o, o₁, o₂, x, y, bop, calm_checkExpr hl hx, mirrored_checkExpr hl hx,
        calm_checkExpr he hy, hop, rfl, ?_⟩
      show (Checked.binary o₂ bop x y >>= fun z => assignable o₁ x >>= fun p =>
        z.convert o₁ x.type >>= fun n => Except.ok (Action.assign p n.term, env)) = _
      rw [checkExpanded]
      cases Checked.binary o₂ bop x y with
      | error c => rfl
      | ok z =>
        cases assignable o₁ x with
        | error c => rfl
        | ok p => cases hn : z.convert o₁ x.type <;> simp only [bind, Except.bind, hn] <;> rfl

theorem meets_of_expands {s t : Code.Simple} (h : s.Expands t) (hplain : s.isPlain env = true) :
    env.Meets s t := by
  cases h with
  | @compound op bop hop l e o o₁ o₂ =>
    rw [Code.Simple.isPlain, Bool.and_eq_true] at hplain
    refine meets_assign (o := o) hplain.1 hplain.2 (isLogical_of_binaryOf hop) ?_
    rw [checkSimple, hop]
    refine congrArg _ (funext fun x => congrArg _ (funext fun y => ?_))
    show (checkUpdate o x bop y >>= _) = Except.map _ (checkUpdate o x bop y)
    cases checkUpdate o x bop y <;> rfl
  | inc l o o₁ o₂ o₃ =>
    refine meets_assign (o := o) hplain rfl rfl ?_
    rw [checkSimple, check_one]
    refine congrArg _ (funext fun x => ?_)
    show (checkUpdate o x .add (.ofConstant (.ofInt 1)) >>= _) = Except.map _ (checkUpdate o x .add _)
    cases checkUpdate o x .add (.ofConstant (.ofInt 1)) <;> rfl
  | dec l o o₁ o₂ o₃ =>
    refine meets_assign (o := o) hplain rfl rfl ?_
    rw [checkSimple, check_one]
    refine congrArg _ (funext fun x => ?_)
    show (checkUpdate o x .sub (.ofConstant (.ofInt 1)) >>= _) = Except.map _ (checkUpdate o x .sub _)
    cases checkUpdate o x .sub (.ofConstant (.ofInt 1)) <;> rfl

/-- **A compound assignment is the assignment that it abbreviates.**  One is accepted exactly when
the other is, and when the expanded one succeeds, from any variables and memories, the compound
one succeeds too and leaves the same variables and the same memories. -/
theorem compound_is_expanded {s t : Code.Simple} (h : s.Expands t) (hplain : s.isPlain env = true) :
    ((∃ r, env.checkSimple s = .ok r) ↔ ∃ r, env.checkSimple t = .ok r) ∧
    ∀ a b env₁ env₂, env.checkSimple s = .ok (a, env₁) → env.checkSimple t = .ok (b, env₂) →
      env₁ = env ∧ env₂ = env ∧
      (a.Small → ∀ call item rounds vars st r st', b.run call item rounds vars st = (.ok r, st') →
        a.run call item rounds vars st = (.ok r, st')) := by
  rcases meets_of_expands h hplain with hno | ⟨o, o₁, o₂, x, y, bop, hx, hmirrored, hy, hop, hs, ht⟩
  · exact ⟨⟨fun ⟨r, hr⟩ => absurd hr (hno r).1, fun ⟨r, hr⟩ => absurd hr (hno r).2⟩,
      fun a b env₁ env₂ ha => absurd ha (hno _).1⟩
  refine ⟨⟨fun ⟨r, hr⟩ => ?_, fun ⟨r, hr⟩ => ?_⟩, fun a b env₁ env₂ ha hb => ?_⟩
  · rw [hs] at hr
    cases ha : checkUpdate o x bop y with
    | error c =>
      rw [ha] at hr
      cases hr
    | ok a =>
      obtain ⟨b, hb⟩ := exists_expanded o₁ o₂ hop ha
      exact ⟨(b, env), by rw [ht, hb]; rfl⟩
  · rw [ht] at hr
    cases hb : checkExpanded o₁ o₂ x bop y with
    | error c =>
      rw [hb] at hr
      cases hr
    | ok b =>
      obtain ⟨p, n, m, -, -, ha, -⟩ := exists_update (o := o) Term.congruent_true trivial trivial hop hb
      exact ⟨(_, env), by rw [hs, ha]; rfl⟩
  · rw [hs] at ha
    rw [ht] at hb
    cases ha' : checkUpdate o x bop y with
    | error c =>
      rw [ha'] at ha
      cases ha
    | ok a' =>
      cases hb' : checkExpanded o₁ o₂ x bop y with
      | error c =>
        rw [hb'] at hb
        cases hb
      | ok b' =>
        rw [ha'] at ha
        rw [hb'] at hb
        cases ha
        cases hb
        exact ⟨rfl, rfl, fun hsmall call item rounds vars st r st' hrun =>
          run_update hx hmirrored hy hop ha' hb' hsmall hrun⟩

/-- A pointer to a structure of a narrow and a wide integer, in the first slot. -/
def structEnv : Env where
  scopes := [[("p", ⟨0, .pointer (.struct ["c", "n"] [.scalar .char, .scalar .int]) .global false, false⟩)]]
  slots := 1

/-- The second field of what the pointer points to. -/
def pointedField : Code.Expr := .select pointed ⟨0, "n"⟩

def pointedPlace : Place :=
  .field (.deref (.tuple [.scalar .char, .scalar .int]) (.var 0) (.const .int64 (.atom 0)))
    [.scalar .char, .scalar .int] 1

def raised : Action := .update pointedPlace (.binary .add (.scalar .int) .current (.const .int32 (.atom 2)))

theorem field_update_is_expanded : ∃ b,
    structEnv.checkSimple (.assign pointedField 0 .addAssign (.number 0 .int "2")) =
      .ok (raised, structEnv) ∧
    structEnv.checkSimple (.assign pointedField 0 .assign (.binary pointedField 0 .add (.number 0 .int "2"))) =
      .ok (b, structEnv) ∧
    raised.Small ∧ ∀ call item rounds,
      b.run call item rounds #[.pointer ⟨some 0, 0⟩] #[#[1, 0, 0, 0, 5, 0, 0, 0]] =
        (.ok (.next, #[.pointer ⟨some 0, 0⟩]), #[#[1, 0, 0, 0, 7, 0, 0, 0]]) ∧
      raised.run call item rounds #[.pointer ⟨some 0, 0⟩] #[#[1, 0, 0, 0, 5, 0, 0, 0]] =
        (.ok (.next, #[.pointer ⟨some 0, 0⟩]), #[#[1, 0, 0, 0, 7, 0, 0, 0]]) := by
  have hs : structEnv.checkSimple (.assign pointedField 0 .addAssign (.number 0 .int "2")) =
      .ok (raised, structEnv) := rfl
  have ht : structEnv.checkSimple
      (.assign pointedField 0 .assign (.binary pointedField 0 .add (.number 0 .int "2"))) = .ok (_, structEnv) := rfl
  have hsmall : raised.Small := by
    show (Ty.tuple [.scalar .char, .scalar .int]).size < 2 ^ 63
    decide
  have h := (compound_is_expanded (.compound rfl pointedField (.number 0 .int "2") 0 0 0) rfl).2 _ _ _ _ hs ht
  exact ⟨_, hs, ht, hsmall, fun call item rounds =>
    ⟨rfl, h.2.2 hsmall call item rounds _ _ _ _ rfl⟩⟩

end Env

end KernelForge
