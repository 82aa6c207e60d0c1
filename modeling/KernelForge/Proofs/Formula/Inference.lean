/-
What it takes for a formula to have a type.

The type of a formula tells the types of its parts, and which rule gave it.  Formulas over data
have types of data.
-/
import KernelForge.Proofs.Formula.Script
import KernelForge.Proofs.Program.Operations

namespace KernelForge

/-! ### Conversions and signatures -/

/-- The types that a value can be converted to without being asked. -/
inductive Ty.Converts : Ty → Ty → Prop
  | same (t : Ty) : Converts t t
  | scalar (a b : Scalar) : Converts (.scalar a) (.scalar b)
  | splat (a e : Scalar) (w : Width) : Converts (.scalar a) (.vector e w)

/-- The same of some types, one by one. -/
inductive Ty.ConvertAll : List Ty → List Ty → Prop
  | nil : ConvertAll [] []
  | cons {s t : Ty} {ss ts : List Ty} (h : Ty.Converts s t) (hs : ConvertAll ss ts) :
      ConvertAll (s :: ss) (t :: ts)

/-- Operands can be converted to their common type. -/
theorem Ty.converts_broadcast {s r t : Ty} (h : Ty.broadcast? s r = some t) :
    Ty.Converts s t ∧ Ty.Converts r t := by
  unfold Ty.broadcast? at h
  split at h
  · cases h
    exact ⟨.scalar .., .scalar ..⟩
  · split at h
    · cases h
      exact ⟨.splat .., .same _⟩
    · cases h
  · split at h
    · cases h
      exact ⟨.same _, .splat ..⟩
    · cases h
  · split at h
    · rename_i heq
      cases h
      rw [heq.1, heq.2]
      exact ⟨.same _, .same _⟩
    · cases h
  · cases h

namespace Builtin

/-- The functions that words have as well. -/
def onWords : Builtin → Bool
  | abs | min | max | clamp => true
  | _ => false

/-- A function can be applied to values of a type. -/
structure Admits (f : Builtin) (t : Ty) : Prop where
  numeric : t.isNumeric = true
  floating : f.onWords = false → ∃ s, t.element? = some s ∧ s.isFloat = true

/-- What a call is: the types of its arguments, and its signature. -/
inductive Signed (f : Builtin) : List Ty → Signature → Prop
  | keeps {x : Ty} (hk : f.kind = .one) (hx : f.Admits x) : Signed f [x] ⟨[x], x⟩
  | joins {x y t : Ty} (hk : f.kind = .two) (ht : Ty.broadcast? x y = some t) (hx : f.Admits t) :
      Signed f [x, y] ⟨[t, t], t⟩
  | clamps {x lo hi l h : Ty} (hk : f.kind = .clamp) (hx : f.Admits x)
      (hl : clampBound? lo x = some l) (hh : clampBound? hi x = some h) :
      Signed f [x, lo, hi] ⟨[x, l, h], x⟩
  | dots {x : Ty} {s : Scalar} (hk : f.kind = .dot) (hx : f.Admits x) (hs : x.element? = some s) :
      Signed f [x, x] ⟨[x, x], .scalar s⟩
  | measures {x : Ty} {s : Scalar} (hk : f.kind = .length) (hx : f.Admits x)
      (hs : x.element? = some s) : Signed f [x] ⟨[x], .scalar s⟩

theorem admits_of_numeric {f : Builtin} {t : Ty} (hf : f.onWords = true)
    (h : requireNumeric f.name t = .ok ()) : f.Admits t := by
  unfold requireNumeric at h
  split at h
  · rename_i hnum
    exact ⟨hnum, fun hwords => by rw [hf] at hwords; cases hwords⟩
  · cases h

theorem admits_of_floating {f : Builtin} {t : Ty} {s : Scalar}
    (h : requireFloating f.name t = .ok s) : f.Admits t := by
  have hs := requireFloating_ok h
  have hfloat : s.isFloat = true := by
    unfold requireFloating at h
    rw [hs] at h
    simp only at h
    split at h
    · assumption
    · cases h
  refine ⟨?_, fun _ => ⟨s, hs, hfloat⟩⟩
  rcases Ty.element?_eq_some hs with rfl | ⟨w, rfl⟩
  · cases s <;> first | rfl | cases hfloat
  · rfl

theorem admits_of_map {f : Builtin} {t : Ty}
    (h : (requireFloating f.name t).map (fun _ => ()) = .ok ()) : f.Admits t := by
  cases hr : requireFloating f.name t with
  | error c => rw [hr] at h; cases h
  | ok s => exact admits_of_floating hr

theorem signed_preserving {f : Builtin} {check : Ty → Except SignatureError Unit} {x : Ty}
    {sig : Signature} (hk : f.kind = .one) (hcheck : ∀ t, check t = .ok () → f.Admits t)
    (h : preserving check x = .ok sig) : f.Signed [x] sig := by
  obtain ⟨hx, rfl⟩ := preserving_ok h
  exact .keeps hk (hcheck x hx)

theorem signed_promoting {f : Builtin} {check : Ty → Except SignatureError Unit} {x y : Ty}
    {sig : Signature} (hk : f.kind = .two) (hcheck : ∀ t, check t = .ok () → f.Admits t)
    (h : promoting f.name check x y = .ok sig) : f.Signed [x, y] sig := by
  unfold promoting at h
  split at h
  · cases h
  · rename_i t ht
    obtain ⟨⟨⟩, hx, h⟩ := bind_eq_ok.mp h
    cases h
    exact .joins hk ht (hcheck t hx)

/-- The signature of a call, by the kind of its function. -/
theorem signed_of_signature {f : Builtin} {args : List Ty} {sig : Signature}
    (h : f.signature args = .ok sig) : f.Signed args sig := by
  unfold signature at h
  split at h
  case h_1 => exact signed_preserving rfl (fun _ => admits_of_numeric rfl) h
  case h_18 x lo hi =>
    obtain ⟨⟨⟩, hx, h⟩ := bind_eq_ok.mp h
    split at h
    · cases h
    · rename_i l hl
      split at h
      · cases h
      · rename_i r hr
        cases h
        exact .clamps rfl (admits_of_numeric rfl hx) hl hr
  case h_19 x y =>
    obtain ⟨s, hs, h⟩ := bind_eq_ok.mp h
    split at h
    · rename_i hxy
      subst hxy
      cases h
      exact .dots rfl (admits_of_floating hs) (requireFloating_ok hs)
    · cases h
  case h_20 x =>
    obtain ⟨s, hs, h⟩ := bind_eq_ok.mp h
    cases h
    exact .measures rfl (admits_of_floating hs) (requireFloating_ok hs)
  case h_21 => cases h
  case h_16 | h_17 => exact signed_promoting rfl (fun _ => admits_of_numeric rfl) h
  case h_13 | h_14 | h_15 => exact signed_promoting rfl (fun _ => admits_of_map) h
  all_goals exact signed_preserving rfl (fun _ => admits_of_map) h

theorem converts_clampBound {bound x l : Ty} (h : clampBound? bound x = some l) :
    Ty.Converts bound l := by
  unfold clampBound? at h
  split at h
  · rename_i heq
    cases h
    rw [heq]
    exact .same _
  · split at h
    · split at h
      · cases h
        exact .scalar ..
      · cases h
    · cases h

/-- The arguments of a call can be converted to the types of the parameters. -/
theorem Signed.converts {f : Builtin} {args : List Ty} {sig : Signature} (h : f.Signed args sig) :
    Ty.ConvertAll args sig.params := by
  cases h with
  | keeps _ _ => exact .cons (.same _) .nil
  | joins _ ht _ =>
    obtain ⟨hx, hy⟩ := Ty.converts_broadcast ht
    exact .cons hx (.cons hy .nil)
  | clamps _ _ hl hh =>
    exact .cons (.same _) (.cons (converts_clampBound hl) (.cons (converts_clampBound hh) .nil))
  | dots _ _ _ => exact .cons (.same _) (.cons (.same _) .nil)
  | measures _ _ _ => exact .cons (.same _) .nil

/-- Functions of data give scalars and vectors of numbers, and take such. -/
theorem Admits.isPlain {f : Builtin} {t : Ty} (h : f.Admits t) (ht : t.isData = true) :
    t.isPlain = true := by
  rcases Ty.isData_cases ht with hplain | ⟨ts, rfl, -⟩
  · exact hplain
  · cases h.numeric

theorem isPlain_clampBound {bound x l : Ty} (h : clampBound? bound x = some l)
    (hx : x.isPlain = true) : l.isPlain = true := by
  unfold clampBound? at h
  split at h
  · cases h
    exact hx
  · split at h
    · split at h
      · cases h
        rfl
      · cases h
    · cases h

theorem isPlain_broadcast {s r t : Ty} (h : Ty.broadcast? s r = some t) (hs : s.isData = true)
    (hr : r.isData = true) : t.isPlain = true := by
  unfold Ty.broadcast? at h
  split at h
  · cases h
    rfl
  · split at h
    · cases h
      exact Ty.isPlain_vector hr
    · cases h
  · split at h
    · cases h
      exact Ty.isPlain_vector hs
    · cases h
  · split at h
    · cases h
      exact Ty.isPlain_vector hs
    · cases h
  · cases h

theorem Signed.isPlain {f : Builtin} {args : List Ty} {sig : Signature} (h : f.Signed args sig)
    (hargs : Ty.areData args = true) :
    sig.result.isPlain = true ∧ ∀ t ∈ sig.params, t.isPlain = true := by
  rw [Ty.areData_iff] at hargs
  cases h with
  | keeps _ hx =>
    have hplain := hx.isPlain (hargs _ (by simp))
    exact ⟨hplain, by simp [hplain]⟩
  | joins _ ht hx =>
    have hplain := isPlain_broadcast ht (hargs _ (by simp)) (hargs _ (by simp))
    exact ⟨hplain, by simp [hplain]⟩
  | clamps _ hx hl hh =>
    have hplain := hx.isPlain (hargs _ (by simp))
    exact ⟨hplain, by simp [hplain, isPlain_clampBound hl hplain, isPlain_clampBound hh hplain]⟩
  | dots _ hx _ =>
    have hplain := hx.isPlain (hargs _ (by simp))
    exact ⟨rfl, by simp [hplain]⟩
  | measures _ hx _ =>
    have hplain := hx.isPlain (hargs _ (by simp))
    exact ⟨rfl, by simp [hplain]⟩

theorem name_of_ofName? {name : String} {fn : Builtin} (h : ofName? name = some fn) :
    fn.name = name := by
  have hfound := List.find?_some h
  exact of_decide_eq_true hfound

end Builtin

namespace Formula

variable {types : List Ty} {t : Ty} {op : Operator} {x y : Formula}

/-! ### Types of parts -/

theorem integer_of_isPure {type : Option HostTy} {value : HostValue}
    (h : (literal type value).isPure = true) :
    ∃ s i, Literal.integer? type value = some (s, i) ∧ Literal.isSmallest s i = false := by
  rw [isPure, Option.any_eq_true] at h
  obtain ⟨⟨s, i⟩, hi, hsmall⟩ := h
  exact ⟨s, i, hi, by simpa using hsmall⟩

theorem infer_literal {type : Option HostTy} {value : HostValue} {s : Scalar} {i : Int}
    (h : Literal.integer? type value = some (s, i)) :
    (literal type value).infer types = .ok (.scalar s) := by
  rw [infer, Literal.ofHost_of_integer? h]

theorem infer_unary (h : (unary op x).infer types = .ok t) :
    ∃ s, x.infer types = .ok s ∧ unaryTy? op s = some t := by
  rw [infer] at h
  obtain ⟨s, hs, h⟩ := bind_eq_ok.mp h
  refine ⟨s, hs, ?_⟩
  cases hop : isUnary op with
  | false =>
    rw [hop] at h
    cases h
  | true =>
    rw [hop] at h
    cases hr : unaryTy? op s with
    | none =>
      rw [hr] at h
      cases h
    | some r =>
      rw [hr] at h
      cases h
      rfl

theorem infer_binary (h : (binary op x y).infer types = .ok t) :
    ∃ s r, x.infer types = .ok s ∧ y.infer types = .ok r ∧ binaryTy (binary op x y) op s r = .ok t := by
  rw [infer] at h
  obtain ⟨s, hs, h⟩ := bind_eq_ok.mp h
  obtain ⟨r, hr, h⟩ := bind_eq_ok.mp h
  exact ⟨s, r, hs, hr, h⟩

theorem infer_call {name : String} {xs : List Formula} (h : (call name xs).infer types = .ok t) :
    ∃ ts f sig, inferAll types xs = .ok ts ∧ Builtin.ofName? name = some f ∧
      f.signature ts = .ok sig ∧ sig.result = t := by
  rw [infer] at h
  obtain ⟨ts, hts, h⟩ := bind_eq_ok.mp h
  unfold callTy at h
  split at h
  · cases h
  · rename_i f hf
    split at h
    · rename_i sig hsig
      cases h
      exact ⟨ts, f, sig, hts, hf, hsig, rfl⟩
    · cases h

/-- An element of a vector or a tuple has the type of a lane or of a field. -/
inductive HasElement (index : Int) : Ty → Ty → Prop
  | lane {s : Scalar} {w : Width} (hlo : 0 ≤ index) (hhi : index < w.lanes) :
      HasElement index (.vector s w) (.scalar s)
  | field {ts : List Ty} {t : Ty} (hlo : 0 ≤ index) (ht : ts[index.toNat]? = some t) :
      HasElement index (.tuple ts) t

theorem infer_get {index : Int} (h : (get index x).infer types = .ok t) :
    ∃ s, x.infer types = .ok s ∧ HasElement index s t := by
  rw [infer] at h
  obtain ⟨s, hs, h⟩ := bind_eq_ok.mp h
  refine ⟨s, hs, ?_⟩
  unfold elementTy at h
  split at h
  · split at h
    · cases h
    · rename_i hrange
      cases h
      exact .lane (by omega) (by omega)
  · split at h
    · rename_i ts t' ht
      cases h
      by_cases hneg : index < 0
      · simp [hneg] at ht
      · rw [if_neg hneg] at ht
        exact .field (by omega) ht
    · cases h
  · cases h

theorem infer_arg {index : Int} (h : (arg index).infer types = .ok t) :
    types[index.toNat]? = some t := by
  rw [infer, argTy] at h
  split at h
  · rename_i t' ht
    cases h
    by_cases hneg : index < 0
    · simp [hneg] at ht
    · rw [if_neg hneg] at ht
      exact ht
  · cases h

theorem inferAll_cons {xs : List Formula} {ts : List Ty} (h : inferAll types (x :: xs) = .ok ts) :
    ∃ t ts', x.infer types = .ok t ∧ inferAll types xs = .ok ts' ∧ ts = t :: ts' := by
  rw [inferAll] at h
  obtain ⟨t, ht, h⟩ := bind_eq_ok.mp h
  obtain ⟨ts', hts', h⟩ := bind_eq_ok.mp h
  cases h
  exact ⟨t, ts', ht, hts', rfl⟩

/-! ### Types of operations -/

/-- What the operands of a binary operator are: two scalars that are compared or joined, or two
types with a common one. -/
inductive BinaryTyped (op : Operator) : Ty → Ty → Ty → Prop
  | truth {a b : Scalar} (hop : op.isComparison = true ∨ op.isLogical = true) :
      BinaryTyped op (.scalar a) (.scalar b) (.scalar .bool)
  | common {s r t : Ty} (hcmp : op.isComparison = false) (hlog : op.isLogical = false)
      (harith : isArithmetic op = true) (ht : Ty.broadcast? s r = some t)
      (hint : isIntegerOp op = true → t.element?.any Scalar.isInteger = true) : BinaryTyped op s r t

theorem binaryTyped_of_binaryTy {n : Formula} {s r : Ty} (h : binaryTy n op s r = .ok t) :
    BinaryTyped op s r t := by
  unfold binaryTy at h
  split at h
  · rename_i hop
    split at h
    · cases h
      exact .truth (Bool.or_eq_true_iff.mp hop)
    · cases h
  · rename_i hop
    rw [Bool.or_eq_true, not_or, Bool.not_eq_true, Bool.not_eq_true] at hop
    split at h
    · cases h
    · rename_i harith
      split at h
      · cases h
      · rename_i t' ht
        split at h
        · cases h
        · rename_i hint
          cases h
          refine .common hop.1 hop.2 (by simpa using harith) ht fun hop => ?_
          rw [hop, Bool.true_and, Bool.not_eq_true, Bool.not_eq_false'] at hint
          exact hint

/-! ### Data -/

theorem isPlain_unaryTy {s : Ty} (h : unaryTy? op s = some t) (hs : s.isData = true) :
    t.isPlain = true := by
  unfold unaryTy? at h
  split at h
  · cases h
    rfl
  · cases h
    exact Ty.isPlain_vector hs
  · cases h
    rfl
  · split at h
    · cases h
      rfl
    · cases h
  · split at h
    · cases h
      exact Ty.isPlain_vector hs
    · cases h
  · cases h

theorem BinaryTyped.isPlain {s r : Ty} (h : BinaryTyped op s r t) (hs : s.isData = true)
    (hr : r.isData = true) : t.isPlain = true := by
  cases h with
  | truth _ => rfl
  | common _ _ _ ht _ => exact Builtin.isPlain_broadcast ht hs hr

theorem HasElement.isData {index : Int} {s : Ty} (h : HasElement index s t) (hs : s.isData = true) :
    t.isData = true := by
  cases h with
  | lane _ _ => rfl
  | field _ ht =>
    rw [Ty.isData, Ty.areData_iff] at hs
    exact hs t (List.mem_of_getElem? ht)

mutual

theorem isData_infer (htypes : Ty.areData types = true) :
    ∀ {n : Formula} {t : Ty}, n.isPure = true → n.infer types = .ok t → t.isData = true
  | .literal type value, t, hpure, h => by
    obtain ⟨s, i, hi, -⟩ := integer_of_isPure hpure
    rw [infer_literal hi] at h
    cases h
    rfl
  | .arg i, t, _, h => by
    exact Ty.areData_iff.mp htypes t (List.mem_of_getElem? (infer_arg h))
  | .unary op x, t, hpure, h => by
    rw [isPure] at hpure
    obtain ⟨s, hs, ht⟩ := infer_unary h
    exact Ty.isData_of_isPlain (isPlain_unaryTy ht (isData_infer htypes hpure hs))
  | .binary op x y, t, hpure, h => by
    rw [isPure, Bool.and_eq_true] at hpure
    obtain ⟨s, r, hs, hr, ht⟩ := infer_binary h
    exact Ty.isData_of_isPlain ((binaryTyped_of_binaryTy ht).isPlain
      (isData_infer htypes hpure.1 hs) (isData_infer htypes hpure.2 hr))
  | .call name xs, t, hpure, h => by
    rw [isPure] at hpure
    obtain ⟨ts, f, sig, hts, -, hsig, rfl⟩ := infer_call h
    have hplain := (Builtin.signed_of_signature hsig).isPlain (areData_inferAll htypes hpure hts)
    exact Ty.isData_of_isPlain hplain.1
  | .get index x, t, hpure, h => by
    rw [isPure] at hpure
    obtain ⟨s, hs, ht⟩ := infer_get h
    exact ht.isData (isData_infer htypes hpure hs)
  | .missing, t, hpure, h => by cases hpure
  | .apply fn xs, t, hpure, h => by cases hpure
  | .helper fn, t, hpure, h => by cases hpure
  | .set lhs rhs, t, hpure, h => by cases hpure

theorem areData_inferAll (htypes : Ty.areData types = true) :
    ∀ {ns : List Formula} {ts : List Ty}, arePure ns = true → inferAll types ns = .ok ts →
      Ty.areData ts = true
  | [], ts, _, h => by
    rw [inferAll] at h
    cases h
    rfl
  | n :: ns, ts, hpure, h => by
    rw [arePure, Bool.and_eq_true] at hpure
    obtain ⟨t, ts', ht, hts', rfl⟩ := inferAll_cons h
    rw [Ty.areData, isData_infer htypes hpure.1 ht, areData_inferAll htypes hpure.2 hts']
    rfl

end

end Formula
end KernelForge
