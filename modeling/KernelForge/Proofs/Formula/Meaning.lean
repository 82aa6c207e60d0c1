/-
The meaning of formulas.

A formula has a value of its own, given the values of its arguments: operands are computed from the
left to the right and converted to the types that the types of the operands ask for, and the right
operand of `&&` and `||` is computed only when the left one does not decide.  No source is written
and nothing is run on the device; what the device does with the source of a formula is compared
with this.

A scalar that meets a vector is converted to its element and repeated in every lane.  An argument
of a function is converted even where it has the type of the element already, which the operands of
an operator are not; for numbers that are not numbers this makes a difference.
-/
import KernelForge.Proofs.Formula.Inference
import KernelForge.Proofs.Program.Quiet

namespace KernelForge

open Exec

/-! ### Conversions -/

namespace Value

/-- A value of one type as a value of another: a scalar becomes another scalar, or every lane of a
vector. -/
def convert : Ty → Ty → Value → Exec Value
  | .scalar a, .scalar b, v => if a = b then return v else v.cast b
  | .scalar _, .vector e w, v => do
    let c ← v.cast e
    concat e w.lanes [c]
  | _, _, v => return v

/-- Some values, each as a value of a type of its own. -/
def convertAll : List Ty → List Ty → List Value → Exec (List Value)
  | s :: ss, t :: ts, v :: vs => do
    let w ← v.convert s t
    let ws ← convertAll ss ts vs
    return w :: ws
  | _, _, _ => return []

/-- Some values, each converted as soon as it is there. -/
def convertEach : List Ty → List Ty → List (Exec Value) → Exec (List Value)
  | s :: ss, t :: ts, x :: xs => do
    let v ← x
    let w ← v.convert s t
    let ws ← convertEach ss ts xs
    return w :: ws
  | _, _, _ => return []

/-- An operand as a value of the common type of the operands. -/
def meet : Ty → Ty → Value → Exec Value
  | .scalar a, .vector e w, v => do
    let c ← v.convert (.scalar a) (.scalar e)
    concat e w.lanes [c]
  | s, t, v => v.convert s t

/-- An element of a value of a type: a field of a tuple, or a lane of a vector. -/
def get (t : Ty) (index : Nat) (v : Value) : Exec Value :=
  match t with
  | .tuple _ => v.field index
  | _ => v.select [index]

/-- Where an element of what a pointer points to is: in which memory, and at which offset. -/
def elementAt (t : Ty) (p i : Value) : Exec (Nat × BitVec 64) := do
  let i ← i.toWord .w64 true
  let p ← p.toPointer
  match p.memory? with
  | none => .fail .nullPointer
  | some m => return (m, p.offset + i * BitVec.ofNat 64 t.size)

variable {v w : Value} {s r t : Ty}

@[simp] theorem convert_self (t : Ty) (v : Value) : v.convert t t = return v := by
  cases t <;> simp [convert]

theorem quiet_convert (s t : Ty) (v : Value) : Quiet (v.convert s t) := by
  unfold convert
  split
  · split
    · exact quiet_pure _
    · exact quiet_of_spares fun m => spares_cast _ _
  · refine (quiet_of_spares fun m => spares_cast _ _).bind fun c => ?_
    exact quiet_of_spares fun m => spares_concat _ _ _
  · exact quiet_pure _

theorem quiet_meet (s t : Ty) (v : Value) : Quiet (v.meet s t) := by
  unfold meet
  split
  · refine (quiet_convert _ _ _).bind fun c => ?_
    exact quiet_of_spares fun m => spares_concat _ _ _
  · exact quiet_convert _ _ _

theorem quiet_get (t : Ty) (index : Nat) (v : Value) : Quiet (v.get t index) := by
  unfold get
  split
  · exact quiet_of_spares fun m => spares_field (b := true) _ nofun
  · exact quiet_of_spares fun m => spares_select _ _

theorem quiet_convertAll : ∀ (ss ts : List Ty) (vs : List Value), Quiet (convertAll ss ts vs)
  | s :: ss, t :: ts, v :: vs => by
    rw [convertAll]
    exact (quiet_convert s t v).bind fun w =>
      (quiet_convertAll ss ts vs).bind fun ws => quiet_pure _
  | [], _, _ => by
    rw [convertAll]
    · exact quiet_pure _
    · simp
  | _ :: _, [], _ => by
    rw [convertAll]
    · exact quiet_pure _
    · simp
  | _ :: _, _ :: _, [] => by
    rw [convertAll]
    · exact quiet_pure _
    · simp

theorem quiet_convertEach : ∀ (ss ts : List Ty) {xs : List (Exec Value)}, (∀ x ∈ xs, Quiet x) →
    Quiet (convertEach ss ts xs)
  | s :: ss, t :: ts, x :: xs, h => by
    rw [List.forall_mem_cons] at h
    rw [convertEach]
    exact h.1.bind fun v => (quiet_convert s t v).bind fun w =>
      (quiet_convertEach ss ts h.2).bind fun ws => quiet_pure _
  | [], _, _, _ => by
    rw [convertEach]
    · exact quiet_pure _
    · simp
  | _ :: _, [], _, _ => by
    rw [convertEach]
    · exact quiet_pure _
    · simp
  | _ :: _, _ :: _, [], _ => by
    rw [convertEach]
    · exact quiet_pure _
    · simp

/-- A number in all lanes. -/
theorem safe_splat {e : Scalar} {w : Width} {c : Value} (hc : Fits (.scalar e) c) :
    Safe (concat e w.lanes [c]) (Fits (.vector e w)) := by
  have hone : FitsAll [.scalar e] [c] := by
    rw [FitsAll, FitsAll]
    exact ⟨hc, trivial⟩
  exact safe_concat (by simp [Ty.element?]) (.inr rfl) hone

/-- A conversion gives a value of the other type. -/
theorem safe_convert (h : Ty.Converts s t) (hv : Fits s v) : Safe (v.convert s t) (Fits t) := by
  cases h with
  | same t =>
    rw [convert_self]
    exact safe_pure hv
  | scalar a b =>
    rw [convert]
    split
    · rename_i hab
      subst hab
      exact safe_pure hv
    · exact safe_cast (t := .scalar a) (u := .scalar b) rfl rfl rfl hv
  | splat a e w =>
    rw [convert]
    refine (safe_cast (t := .scalar a) (u := .scalar e) rfl rfl rfl hv).bind fun c hc => ?_
    exact safe_splat hc

theorem safe_convertAll : ∀ {ss ts : List Ty} {vs : List Value}, Ty.ConvertAll ss ts →
    FitsAll ss vs → Safe (convertAll ss ts vs) (FitsAll ts)
  | [], _, vs, .nil, _ => by
    rw [convertAll]
    · exact safe_pure (by rw [FitsAll]; exact trivial)
    · simp
  | s :: ss, t :: ts, [], .cons h hs, hvs => by cases hvs
  | s :: ss, t :: ts, v :: vs, .cons h hs, hvs => by
    rw [FitsAll] at hvs
    rw [convertAll]
    refine (safe_convert h hvs.1).bind fun w hw => ?_
    refine (safe_convertAll hs hvs.2).bind fun ws hws => safe_pure ?_
    rw [FitsAll]
    exact ⟨hw, hws⟩

/-- An operand that meets the other one has their common type. -/
theorem safe_meet (h : Ty.Converts s t) (hv : Fits s v) : Safe (v.meet s t) (Fits t) := by
  unfold meet
  split
  · rename_i a e w
    refine (safe_convert (.scalar a e) hv).bind fun c hc => ?_
    exact safe_splat hc
  · exact safe_convert h hv

end Value

/-! ### Scalars that meet vectors

Between a vector and a scalar the device leaves the scalar as it is, converted to the element of the
vector, and lets it stand in every lane.
-/

namespace Lanes

variable {e r : Elem}

/-- A repeated cell and one that stands in every lane give the same. -/
theorem zip_replicate_left (f : e.Cell → e.Cell → Except LaneError r.Cell) (c : e.Cell)
    (cs : List e.Cell) :
    zip f (row (List.replicate cs.length c)) (row cs) = zip f (atom c) (row cs) := by
  have hzip : (List.replicate cs.length c).zip cs = cs.map fun d => (c, d) := by
    induction cs with
    | nil => rfl
    | cons d cs ih => rw [List.length_cons, List.replicate_succ, List.zip_cons_cons, ih, List.map_cons]
  simp only [zip, List.length_replicate, if_true, hzip, List.mapM_map]
  rfl

theorem zip_replicate_right (f : e.Cell → e.Cell → Except LaneError r.Cell) (c : e.Cell)
    (cs : List e.Cell) :
    zip f (row cs) (row (List.replicate cs.length c)) = zip f (row cs) (atom c) := by
  have hzip : cs.zip (List.replicate cs.length c) = cs.map fun d => (d, c) := by
    induction cs with
    | nil => rfl
    | cons d cs ih => rw [List.length_cons, List.replicate_succ, List.zip_cons_cons, ih, List.map_cons]
  simp only [zip, List.length_replicate, if_true, hzip, List.mapM_map]
  rfl

theorem binary_replicate_left (op : Operator) (c : e.Cell) (cs : List e.Cell) :
    binary op (row (List.replicate cs.length c)) (row cs) = binary op (atom c) (row cs) := by
  unfold binary
  simp only [zip_replicate_left]

theorem binary_replicate_right (op : Operator) (c : e.Cell) (cs : List e.Cell) :
    binary op (row cs) (row (List.replicate cs.length c)) = binary op (row cs) (atom c) := by
  unfold binary
  simp only [zip_replicate_right]

theorem concat_atom {n : Nat} (hn : 0 < n) (c : e.Cell) :
    concat n [atom c] = .ok (row (List.replicate n c)) := by
  obtain ⟨n, rfl⟩ : ∃ m, n = m + 1 := ⟨n - 1, by omega⟩
  simp [concat, cells, List.replicate_succ]

end Lanes

/-- The type that the device converts an operand to, given the common type of the operands. -/
def Ty.operand : Ty → Ty → Ty
  | .scalar _, .vector e _ => .scalar e
  | _, t => t

theorem Ty.converts_operand {s r common : Ty} (h : Ty.broadcast? s r = some common) :
    Ty.Converts s (s.operand common) ∧ Ty.Converts r (r.operand common) := by
  unfold Ty.broadcast? at h
  split at h
  · cases h
    exact ⟨.scalar .., .scalar ..⟩
  · split at h <;> cases h
    exact ⟨.scalar .., .same _⟩
  · split at h <;> cases h
    exact ⟨.same _, .scalar ..⟩
  · split at h
    · rename_i heq
      cases h
      rw [heq.1, heq.2]
      exact ⟨.same _, .same _⟩
    · cases h
  · cases h

namespace Value

variable {v w : Value} {s r t : Ty}

theorem convert_scalar {a b : Scalar} (h : Fits (.scalar a) v) :
    ∃ c, v.convert (.scalar a) (.scalar b) = Pure.pure (.lanes b.register (.atom c)) := by
  simp only [Fits] at h
  obtain ⟨x, rfl, hx⟩ := h
  obtain ⟨c, rfl⟩ := Lanes.row?_eq_none hx
  rw [convert]
  split
  · rename_i hab
    subst hab
    exact ⟨c, rfl⟩
  · obtain ⟨y, hy, hrow⟩ := castTo_ok b (Lanes.atom c)
    obtain ⟨d, rfl⟩ := Lanes.row?_eq_none hrow
    refine ⟨d, ?_⟩
    rw [cast, hy]
    rfl

theorem concat_atom (s : Scalar) (width : Width) (c : s.register.Cell) :
    concat s width.lanes [.lanes s.register (.atom c)] =
      Pure.pure (.lanes s.register (.row (List.replicate width.lanes c))) := by
  have hlanes : lanesOf s.register [.lanes s.register (.atom c)] = Pure.pure [.atom c] := by
    simp only [lanesOf, dite_true]
    rfl
  rw [concat, hlanes, pure_bind, Lanes.concat_atom width.lanes_pos]
  rfl

/-- **Standing in every lane is being repeated in every lane.**  So the device computes with
operands of the common type, although it never makes the vector that a scalar would be. -/
theorem binary_operands {common : Ty} (hcommon : Ty.broadcast? s r = some common) (hv : Fits s v)
    (hw : Fits r w) (op : Operator) (t : Ty) :
    (do let v ← v.convert s (s.operand common)
        let w ← w.convert r (r.operand common)
        v.binary op t w) =
      (do let v ← v.meet s common
          let w ← w.meet r common
          v.binary op t w) := by
  unfold Ty.broadcast? at hcommon
  split at hcommon
  · cases hcommon
    rfl
  · rename_i a e width
    split at hcommon
    · cases hcommon
      obtain ⟨c, hc⟩ := convert_scalar (b := e) hv
      simp only [Fits] at hw
      obtain ⟨y, rfl, hy⟩ := hw
      obtain ⟨cs, rfl, hlen⟩ := Lanes.row?_eq_some hy
      simp only [Ty.operand, meet, hc, pure_bind, concat_atom, convert_self]
      simp only [binary, dite_true, ← hlen, Lanes.binary_replicate_left]
    · cases hcommon
  · rename_i e width b
    split at hcommon
    · cases hcommon
      obtain ⟨c, hc⟩ := convert_scalar (b := e) hw
      simp only [Fits] at hv
      obtain ⟨x, rfl, hx⟩ := hv
      obtain ⟨cs, rfl, hlen⟩ := Lanes.row?_eq_some hx
      simp only [Ty.operand, meet, hc, pure_bind, concat_atom, convert_self]
      simp only [binary, dite_true, ← hlen, Lanes.binary_replicate_right]
    · cases hcommon
  · split at hcommon
    · cases hcommon
      rfl
    · cases hcommon
  · cases hcommon

end Value

/-! ### Values of formulas -/

namespace Formula

mutual

/-- The value of a formula, given the types of its arguments and what gives their values. -/
def eval (types : List Ty) (args : List (Exec Value)) (n : Formula) : Exec Value :=
  match n with
  | literal type value =>
    match Literal.integer? type value with
    | some (s, i) => return .ofInt s.register i
    | none => .crash
  | arg i => args.getD i.toNat .crash
  | unary op x => do
    let v ← eval types args x
    let v ← v.convert (x.typeOf types) ((unary op x).typeOf types)
    v.unary op ((unary op x).typeOf types)
  | binary op x y =>
    if op.isLogical then do
      let v ← eval types args x
      let v ← v.convert (x.typeOf types) (.scalar .bool)
      -- a disjunction is decided by what is true, a conjunction by what is not
      if (← v.toBool) = decide (op = .lor) then return v
      else
        let w ← eval types args y
        w.convert (y.typeOf types) (.scalar .bool)
    else do
      let v ← eval types args x
      let w ← eval types args y
      let common := (Ty.broadcast? (x.typeOf types) (y.typeOf types)).getD .void
      let v ← v.meet (x.typeOf types) common
      let w ← w.meet (y.typeOf types) common
      v.binary op ((binary op x y).typeOf types) w
  | call name xs => do
    let vs ← evalAll types args xs
    match Builtin.ofName? name with
    | none => .crash
    | some f =>
      match f.signature (xs.map (typeOf types)) with
      | .error _ => .crash
      | .ok sig => do
        let ws ← Value.convertAll (xs.map (typeOf types)) sig.params vs
        Value.math f sig.result ws
  | get index x => do
    let v ← eval types args x
    v.get (x.typeOf types) index.toNat
  | _ => .crash

/-- The values of some formulas, from left to right. -/
def evalAll (types : List Ty) (args : List (Exec Value)) (ns : List Formula) : Exec (List Value) :=
  match ns with
  | [] => return []
  | n :: ns => do
    let v ← eval types args n
    let vs ← evalAll types args ns
    return v :: vs

end

variable {types : List Ty} {args : List (Exec Value)}

theorem map_typeOf {xs : List Formula} {ts : List Ty} (h : inferAll types xs = .ok ts) :
    xs.map (typeOf types) = ts := by
  induction xs generalizing ts with
  | nil =>
    rw [inferAll] at h
    cases h
    rfl
  | cons x xs ih =>
    obtain ⟨t, ts', ht, hts', rfl⟩ := inferAll_cons h
    rw [List.map_cons, typeOf_eq ht, ih hts']

theorem converts_unaryTy {op : Operator} {s t : Ty} (h : unaryTy? op s = some t) :
    Ty.Converts s t ∧ ∃ e, t.element? = some e := by
  unfold unaryTy? at h
  split at h
  · cases h
    exact ⟨.scalar .., _, rfl⟩
  · cases h
    exact ⟨.same _, _, rfl⟩
  · cases h
    exact ⟨.scalar .., _, rfl⟩
  · split at h
    · cases h
      exact ⟨.scalar .., _, rfl⟩
    · cases h
  · split at h
    · cases h
      exact ⟨.same _, _, rfl⟩
    · cases h
  · cases h

theorem safe_binary {op : Operator} {s r t : Ty} (ht : BinaryTyped op s r t)
    (hlog : op.isLogical = false) {v w : Value} (hv : Value.Fits s v) (hw : Value.Fits r w) :
    Safe (do
        let v ← v.meet s ((Ty.broadcast? s r).getD .void)
        let w ← w.meet r ((Ty.broadcast? s r).getD .void)
        v.binary op t w) (Value.Fits t) := by
  cases ht with
  | truth hop =>
    rw [hlog, or_iff_left Bool.false_ne_true] at hop
    refine (Value.safe_meet (.scalar ..) hv).bind fun v hv => ?_
    refine (Value.safe_meet (.scalar ..) hw).bind fun w hw => ?_
    exact Value.safe_binary_truth hop hv hw
  | common hcmp _ _ hcommon _ =>
    obtain ⟨hs, hr⟩ := Ty.converts_broadcast hcommon
    obtain ⟨e, he⟩ : ∃ e, t.element? = some e := by
      unfold Ty.broadcast? at hcommon
      split at hcommon
      · cases hcommon
        exact ⟨_, rfl⟩
      · split at hcommon <;> cases hcommon
        exact ⟨_, rfl⟩
      · split at hcommon <;> cases hcommon
        exact ⟨_, rfl⟩
      · split at hcommon <;> cases hcommon
        exact ⟨_, rfl⟩
      · cases hcommon
    rw [hcommon, Option.getD_some]
    refine (Value.safe_meet hs hv).bind fun v hv => (Value.safe_meet hr hw).bind fun w hw => ?_
    exact Value.safe_binary_same hcmp hlog he he he (Lanes.joined_self _) hv hw

/-- The arguments give values of their types. -/
def Supply (types : List Ty) (args : List (Exec Value)) : Prop :=
  ∀ (i : Nat) (t : Ty), types[i]? = some t → ∃ x, args[i]? = some x ∧ Safe x (Value.Fits t)

mutual

/-- **A formula that has a type gives values of this type**, or fails as operations of the device
do. -/
theorem safe_eval (hargs : Supply types args) : ∀ {n : Formula} {t : Ty}, n.isPure = true →
    n.infer types = .ok t → Safe (eval types args n) (Value.Fits t)
  | .literal type value, t, hpure, h => by
    obtain ⟨s, i, hi, -⟩ := integer_of_isPure hpure
    rw [infer_literal hi] at h
    cases h
    rw [eval, hi]
    exact safe_pure (Value.fits_scalar s _)
  | .arg i, t, _, h => by
    obtain ⟨x, hx, hsafe⟩ := hargs _ _ (infer_arg h)
    rw [eval, List.getD_eq_getElem?_getD, hx]
    exact hsafe
  | .unary op x, t, hpure, h => by
    rw [isPure] at hpure
    obtain ⟨s, hs, ht⟩ := infer_unary h
    obtain ⟨hconv, e, he⟩ := converts_unaryTy ht
    rw [eval, typeOf_eq h, typeOf_eq hs]
    refine (safe_eval hargs hpure hs).bind fun v hv => ?_
    exact (Value.safe_convert hconv hv).bind fun w hw => Value.safe_unary op he hw
  | .binary op x y, t, hpure, h => by
    rw [isPure, Bool.and_eq_true] at hpure
    obtain ⟨s, r, hs, hr, ht⟩ := infer_binary h
    have ht := binaryTyped_of_binaryTy ht
    have hx := safe_eval hargs hpure.1 hs
    have hy := safe_eval hargs hpure.2 hr
    rw [eval, typeOf_eq h, typeOf_eq hs, typeOf_eq hr]
    split
    · rename_i hlog
      cases ht with
      | truth _ =>
        refine hx.bind fun v hv => (Value.safe_convert (.scalar ..) hv).bind fun v hv => ?_
        refine (Value.safe_toBool hv).bind fun b _ => ?_
        split
        · exact safe_pure hv
        · exact hy.bind fun w hw => Value.safe_convert (.scalar ..) hw
      | common _ hlog' _ _ _ =>
        rw [hlog'] at hlog
        cases hlog
    · rename_i hlog
      exact hx.bind fun v hv => hy.bind fun w hw =>
        safe_binary ht (Bool.not_eq_true _ ▸ hlog) hv hw
  | .call name xs, t, hpure, h => by
    rw [isPure] at hpure
    obtain ⟨ts, f, sig, hts, hf, hsig, rfl⟩ := infer_call h
    obtain ⟨e, hwf⟩ := Builtin.signature_wellFormed hsig
    rw [eval]
    simp only [hf, map_typeOf hts, hsig]
    refine (safe_evalAll hargs hpure hts).bind fun vs hvs => ?_
    refine (Value.safe_convertAll (Builtin.signed_of_signature hsig).converts hvs).bind fun ws hws => ?_
    exact Value.safe_math hwf hws
  | .get index x, t, hpure, h => by
    rw [isPure] at hpure
    obtain ⟨s, hs, helem⟩ := infer_get h
    rw [eval, typeOf_eq hs]
    refine (safe_eval hargs hpure hs).bind fun v hv => ?_
    cases helem with
    | lane hlo hhi =>
      refine Value.safe_select ⟨?_, .inl ⟨rfl, rfl⟩⟩ hv
      rw [List.forall_mem_singleton]
      omega
    | field hlo ht => exact Value.safe_field ht hv
  | .missing, t, hpure, h => by cases hpure
  | .apply fn xs, t, hpure, h => by cases hpure
  | .helper fn, t, hpure, h => by cases hpure
  | .set lhs rhs, t, hpure, h => by cases hpure

theorem safe_evalAll (hargs : Supply types args) : ∀ {ns : List Formula} {ts : List Ty},
    arePure ns = true → inferAll types ns = .ok ts → Safe (evalAll types args ns) (Value.FitsAll ts)
  | [], ts, _, h => by
    rw [inferAll] at h
    cases h
    rw [evalAll]
    exact safe_pure (by rw [Value.FitsAll]; exact trivial)
  | n :: ns, ts, hpure, h => by
    rw [arePure, Bool.and_eq_true] at hpure
    obtain ⟨t, ts', ht, hts', rfl⟩ := inferAll_cons h
    rw [evalAll]
    refine (safe_eval hargs hpure.1 ht).bind fun v hv => ?_
    refine (safe_evalAll hargs hpure.2 hts').bind fun vs hvs => safe_pure ?_
    rw [Value.FitsAll]
    exact ⟨hv, hvs⟩

end

end Formula

end KernelForge
