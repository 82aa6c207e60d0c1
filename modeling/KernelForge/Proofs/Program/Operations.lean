/-
The operations of values on values that fit.

Each operation of the machine is safe on operands that fit the types which the checker asks of
them, and its result fits the type which the checker gives it.  The types enter only through
their elements and their numbers of lanes, so one lemma serves scalars and vectors alike.
-/
import KernelForge.Program.Call
import KernelForge.Proofs.Program.Fits
import Mathlib.Algebra.Order.Ring.Nat

namespace KernelForge

/-! ### Signatures -/

namespace Builtin

/-- What kind of function a function of the device is. -/
def kind : Builtin → Lanes.CellFn.Kind
  | pow | fmin | fmax | min | max => .two
  | clamp => .clamp
  | dot => .dot
  | length => .length
  | _ => .one

theorem kind_cellFn? {e : Elem} {f : Builtin} {fn : Lanes.CellFn e}
    (h : Lanes.cellFn? e f.name = some fn) : fn.kind = f.kind := by
  cases e <;> cases f <;>
    simp [Lanes.cellFn?, Lanes.wordFn?, Lanes.realFn?, Lanes.doubleFn?, name] at h <;>
    subst h <;> rfl

/-- The types of the arguments and of the result of a function of a kind. -/
inductive Takes : Lanes.CellFn.Kind → List Ty → Ty → Prop
  | one (t : Ty) : Takes .one [t] t
  | two (t : Ty) : Takes .two [t, t] t
  | clamp {t lo hi : Ty} (hlo : Lanes.joined t.row? lo.row? = some t.row?)
      (hhi : Lanes.joined t.row? hi.row? = some t.row?) : Takes .clamp [t, lo, hi] t
  | dot (t : Ty) (s : Scalar) : Takes .dot [t, t] (.scalar s)
  | length (t : Ty) (s : Scalar) : Takes .length [t] (.scalar s)

theorem Takes.params_eq_cons {k : Lanes.CellFn.Kind} {ts : List Ty} {t : Ty} (h : Takes k ts t) :
    ∃ u us, ts = u :: us := by
  cases h <;> exact ⟨_, _, rfl⟩

/-- The arguments and the result have one element. -/
structure WellFormed (f : Builtin) (sig : Signature) (s : Scalar) : Prop where
  params : ∀ t ∈ sig.params, t.element? = some s
  result : sig.result.element? = some s
  takes : Takes f.kind sig.params sig.result

theorem requireNumeric_ok {fn : String} {t : Ty} (h : requireNumeric fn t = .ok ()) :
    ∃ s, t.element? = some s := by
  cases t <;> simp [requireNumeric, Ty.isNumeric] at h <;> exact ⟨_, rfl⟩

theorem requireFloating_ok {fn : String} {t : Ty} {s : Scalar} (h : requireFloating fn t = .ok s) :
    t.element? = some s := by
  unfold requireFloating at h
  split at h
  · rename_i s' hs'
    split at h
    · cases h; exact hs'
    · cases h
  · cases h

theorem preserving_ok {check : Ty → Except SignatureError Unit} {x : Ty} {sig : Signature}
    (h : preserving check x = .ok sig) : check x = .ok () ∧ sig = ⟨[x], x⟩ := by
  unfold preserving at h
  cases hc : check x with
  | error e => rw [hc] at h; cases h
  | ok u => rw [hc] at h; cases h; exact ⟨rfl, rfl⟩

theorem promoting_ok {fn : String} {check : Ty → Except SignatureError Unit} {x y : Ty}
    {sig : Signature} (h : promoting fn check x y = .ok sig) :
    ∃ t, check t = .ok () ∧ sig = ⟨[t, t], t⟩ := by
  unfold promoting at h
  split at h
  · cases h
  · rename_i t _
    cases hc : check t with
    | error e => rw [hc] at h; cases h
    | ok u => rw [hc] at h; cases h; exact ⟨t, hc, rfl⟩

theorem clampBound?_ok {bound x l : Ty} {s : Scalar} (hx : x.element? = some s)
    (h : clampBound? bound x = some l) :
    l.element? = some s ∧ Lanes.joined x.row? l.row? = some x.row? := by
  unfold clampBound? at h
  split at h
  · cases h; exact ⟨hx, Lanes.joined_self _⟩
  · rw [hx] at h
    split at h
    · rename_i e hx' _
      cases hx'
      split at h
      · cases h
        refine ⟨rfl, ?_⟩
        cases x.row? <;> rfl
      · cases h
    · cases h

theorem floating_ok {fn : String} {t : Ty}
    (h : (requireFloating fn t).map (fun _ => ()) = .ok ()) : ∃ s, t.element? = some s := by
  cases hr : requireFloating fn t with
  | error e => rw [hr] at h; cases h
  | ok s => exact ⟨s, requireFloating_ok hr⟩

/-- A function of one argument that keeps its type. -/
theorem wellFormed_preserving {f : Builtin} {check : Ty → Except SignatureError Unit} {x : Ty}
    {sig : Signature} (hk : f.kind = .one)
    (hcheck : ∀ t, check t = .ok () → ∃ s, t.element? = some s)
    (h : preserving check x = .ok sig) : ∃ s, WellFormed f sig s := by
  obtain ⟨hx, rfl⟩ := preserving_ok h
  obtain ⟨s, hs⟩ := hcheck x hx
  exact ⟨s, by simpa using hs, hs, hk ▸ .one x⟩

theorem wellFormed_promoting {f : Builtin} {fn : String} {check : Ty → Except SignatureError Unit}
    {x y : Ty} {sig : Signature} (hk : f.kind = .two)
    (hcheck : ∀ t, check t = .ok () → ∃ s, t.element? = some s)
    (h : promoting fn check x y = .ok sig) : ∃ s, WellFormed f sig s := by
  obtain ⟨t, ht, rfl⟩ := promoting_ok h
  obtain ⟨s, hs⟩ := hcheck t ht
  exact ⟨s, by simpa using hs, hs, hk ▸ .two t⟩

/-- **Signatures are well formed**: all arguments and the result have one element. -/
theorem signature_wellFormed {f : Builtin} {args : List Ty} {sig : Signature}
    (h : f.signature args = .ok sig) : ∃ s, WellFormed f sig s := by
  unfold signature at h
  split at h
  case h_1 => exact wellFormed_preserving rfl (fun _ => requireNumeric_ok) h
  case h_18 x lo hi =>
    cases hn : requireNumeric clamp.name x with
    | error e => rw [hn] at h; cases h
    | ok u =>
      rw [hn] at h
      obtain ⟨s, hs⟩ := requireNumeric_ok hn
      simp only [bind, Except.bind] at h
      split at h
      · cases h
      · rename_i l hl
        split at h
        · cases h
        · rename_i h' hh
          cases h
          obtain ⟨hle, hlj⟩ := clampBound?_ok hs hl
          obtain ⟨hhe, hhj⟩ := clampBound?_ok hs hh
          exact ⟨s, by simp [hs, hle, hhe], hs, .clamp hlj hhj⟩
  case h_19 x y =>
    cases hf : requireFloating dot.name x with
    | error e => rw [hf] at h; cases h
    | ok s =>
      rw [hf] at h
      have hs := requireFloating_ok hf
      simp only [bind, Except.bind] at h
      split at h
      · rename_i hxy
        cases h
        subst hxy
        exact ⟨s, by simp [hs], rfl, .dot x s⟩
      · cases h
  case h_20 x =>
    cases hf : requireFloating length.name x with
    | error e => rw [hf] at h; cases h
    | ok s =>
      rw [hf] at h
      have hs := requireFloating_ok hf
      cases h
      exact ⟨s, by simp [hs], rfl, .length x s⟩
  case h_21 => cases h
  case h_16 | h_17 => exact wellFormed_promoting rfl (fun _ => requireNumeric_ok) h
  case h_13 | h_14 | h_15 => exact wellFormed_promoting rfl (fun _ => floating_ok) h
  all_goals exact wellFormed_preserving rfl (fun _ => floating_ok) h

end Builtin

/-! ### Scalars and vectors -/

namespace Value

open Exec

variable {v w : Value}

theorem safe_toWord {s : Scalar} {width : WordWidth} {signed : Bool}
    (hs : s.register = .word width signed) (h : Fits (.scalar s) v) :
    Safe (v.toWord width signed) fun _ => True := by
  simp only [Fits] at h
  obtain ⟨x, rfl, hx⟩ := h
  revert x
  rw [hs]
  intro x hx
  obtain ⟨c, rfl⟩ := Lanes.row?_eq_none hx
  simp only [toWord, and_self, dite_true]
  have hatom : Safe (ofLanes (Lanes.atom c).toAtom) fun _ => True :=
    safe_ofLanes_ok ⟨c, rfl, trivial⟩
  exact hatom.bind fun _ _ => safe_pure trivial

theorem safe_toBool (h : Fits (.scalar .bool) v) : Safe v.toBool fun _ => True := by
  simp only [Fits] at h
  obtain ⟨x, rfl, hx⟩ := h
  obtain ⟨c, rfl⟩ := Lanes.row?_eq_none hx
  exact safe_ofLanes_ok ⟨_, rfl, trivial⟩

theorem toBool_ofBool (b : Bool) : (ofBool b).toBool = pure b :=
  congrArg pure (Truth.value_toUInt8 b)

theorem fits_ofBool (b : Bool) : Fits (.scalar .bool) (ofBool b) := fits_scalar .bool b.toUInt8

theorem safe_toPointer {t : Ty} {space : Space} {readOnly : Bool}
    (h : Fits (.pointer t space readOnly) v) : Safe v.toPointer fun _ => True := by
  simp only [Fits] at h
  obtain ⟨p, rfl⟩ := h
  exact safe_pure trivial

/-- A conversion changes the element and keeps the form. -/
theorem safe_cast {t u : Ty} {s s' : Scalar} (ht : t.element? = some s') (hu : u.element? = some s)
    (hrow : u.row? = t.row?) (h : Fits t v) : Safe (v.cast s) (Fits u) := by
  obtain ⟨x, rfl, hx⟩ := (fits_iff_lanes ht v).mp h
  refine (safe_ofLanes_ok (castTo_ok s x)).bind fun z hz => safe_pure ?_
  exact fits_lanes hu (by rw [hz, hx, hrow])

theorem lanesOf_ok {s : Scalar} {ts : List Ty} (hts : ∀ t ∈ ts, t.element? = some s)
    {vs : List Value} (h : FitsAll ts vs) :
    ∃ xs : List (Lanes s.register), lanesOf s.register vs = Exec.pure xs ∧
      xs.map Lanes.row? = ts.map Ty.row? := by
  induction ts generalizing vs with
  | nil =>
    cases vs with
    | nil => exact ⟨[], rfl, rfl⟩
    | cons v vs => simp [FitsAll] at h
  | cons t ts ih =>
    cases vs with
    | nil => simp [FitsAll] at h
    | cons v vs =>
      simp only [FitsAll] at h
      obtain ⟨x, rfl, hx⟩ := (fits_iff_lanes (hts t (by simp)) v).mp h.1
      obtain ⟨xs, hxs, hrows⟩ := ih (fun u hu => hts u (by simp [hu])) h.2
      refine ⟨x :: xs, ?_, by rw [List.map_cons, List.map_cons, hx, hrows]⟩
      simp only [lanesOf, dite_true, hxs]
      rfl

/-- The number of lanes that a value of a type adds to a vector. -/
def laneCount (t : Ty) : Nat := t.row?.getD 1

theorem length_flatMap_cells {e : Elem} {xs : List (Lanes e)} {ts : List Ty}
    (h : xs.map Lanes.row? = ts.map Ty.row?) :
    (xs.flatMap Lanes.cells).length = (ts.map laneCount).sum := by
  induction xs generalizing ts with
  | nil =>
    cases ts with
    | nil => rfl
    | cons t ts => simp at h
  | cons x xs ih =>
    cases ts with
    | nil => simp at h
    | cons t ts =>
      simp only [List.map_cons, List.cons.injEq] at h
      have hx : x.cells.length = laneCount t := by
        cases x with
        | atom c => simp only [Lanes.row?_atom] at h; simp [Lanes.cells, laneCount, ← h.1]
        | row cs => simp only [Lanes.row?_row] at h; simp [Lanes.cells, laneCount, ← h.1]
      rw [List.flatMap_cons, List.length_append, List.map_cons, List.sum_cons, ih h.2, hx]

/-- Parts with as many lanes as a vector make it, and so does one lane that is repeated. -/
theorem safe_concat {s : Scalar} {width : Width} {ts : List Ty}
    (hts : ∀ t ∈ ts, t.element? = some s)
    (hcount : (ts.map laneCount).sum = width.lanes ∨ (ts.map laneCount).sum = 1)
    {vs : List Value} (h : FitsAll ts vs) :
    Safe (concat s width.lanes vs) (Fits (.vector s width)) := by
  obtain ⟨xs, hxs, hrows⟩ := lanesOf_ok hts h
  rw [← length_flatMap_cells hrows] at hcount
  unfold concat
  rw [hxs]
  refine (safe_pure (Q := (· = xs)) rfl).bind fun ys hys => ?_
  subst hys
  refine (safe_ofLanes_ok (Lanes.concat_ok width.lanes_pos hcount)).bind fun z hz => safe_pure ?_
  exact fits_lanes (t := .vector s width) rfl hz

theorem safe_unary (op : Operator) {t : Ty} {s : Scalar} (ht : t.element? = some s)
    (h : Fits t v) : Safe (v.unary op t) (Fits t) := by
  obtain ⟨x, rfl, hx⟩ := (fits_iff_lanes ht v).mp h
  refine (safe_ofLanes (Lanes.yields_unary op x)).bind fun y hy => ?_
  refine (safe_ofLanes_ok (wrapTo_ok ht y)).bind fun u hu => safe_pure ?_
  exact fits_lanes ht (by rw [hu, hy, hx])

theorem safe_binary_same {op : Operator} (hcmp : op.isComparison = false)
    (hlog : op.isLogical = false) {t a b : Ty} {s : Scalar} (ht : t.element? = some s)
    (ha : a.element? = some s) (hb : b.element? = some s)
    (hrow : Lanes.joined a.row? b.row? = some t.row?) (hv : Fits a v) (hw : Fits b w) :
    Safe (v.binary op t w) (Fits t) := by
  obtain ⟨x, rfl, hx⟩ := (fits_iff_lanes ha v).mp hv
  obtain ⟨y, rfl, hy⟩ := (fits_iff_lanes hb w).mp hw
  simp only [binary, dite_true]
  refine (safe_ofLanes (Lanes.yields_binary_same hcmp hlog (x := x) (y := y)
    (by rw [hx, hy, hrow]))).bind fun z hz => ?_
  obtain ⟨u, rfl, hu⟩ := hz
  refine (safe_ofLanes_ok (wrapTo_ok ht u)).bind fun r hr => safe_pure ?_
  exact fits_lanes ht (by rw [hr, hu])

theorem safe_binary_truth {op : Operator} (hcmp : op.isComparison = true) {s : Scalar}
    (hv : Fits (.scalar s) v) (hw : Fits (.scalar s) w) :
    Safe (v.binary op (.scalar .bool) w) (Fits (.scalar .bool)) := by
  obtain ⟨x, rfl, hx⟩ := (fits_iff_lanes (t := .scalar s) rfl v).mp hv
  obtain ⟨y, rfl, hy⟩ := (fits_iff_lanes (t := .scalar s) rfl w).mp hw
  have hjoin : Lanes.joined x.row? y.row? = some none := by
    rw [hx, hy]
    rfl
  simp only [binary, dite_true]
  refine (safe_ofLanes (Lanes.yields_binary_truths hcmp hjoin)).bind fun z hz => ?_
  obtain ⟨u, rfl, hu⟩ := hz
  refine (safe_ofLanes_ok (wrapTo_ok (t := .scalar .bool) rfl u)).bind fun r hr => safe_pure ?_
  exact fits_lanes (t := .scalar .bool) rfl (hr.trans hu)

theorem safe_field {ts : List Ty} {i : Nat} {t : Ty} (hi : ts[i]? = some t)
    (h : Fits (.tuple ts) v) : Safe (v.field i) (Fits t) := by
  simp only [Fits] at h
  obtain ⟨vs, rfl, hvs⟩ := h
  obtain ⟨w, hw, hfit⟩ := hvs.getElem? hi
  simp only [field, hw]
  exact safe_pure hfit

/-- The lanes of a vector that make a value of a type: one for a scalar, or a row of them. -/
structure Picks (s : Scalar) (n : Nat) (is : List Nat) (t : Ty) : Prop where
  inside : ∀ i ∈ is, i < n
  form : (is.length = 1 ∧ t = .scalar s) ∨
    ∃ width : Width, is.length = width.lanes ∧ t = .vector s width

theorem Width.one_lt_lanes (w : Width) : 1 < w.lanes := by
  cases w <;> decide

theorem selectLanes_picks {s : Scalar} {n : Nat} {is : List Nat} {t : Ty} (hp : Picks s n is t)
    {x : Lanes s.register} (hx : x.row? = some n) :
    ∃ y, selectLanes x is = .ok y ∧ Fits t (.lanes s.register y) := by
  rcases hp.form with ⟨hlen, rfl⟩ | ⟨width, hlen, rfl⟩
  · obtain ⟨i, rfl⟩ := List.length_eq_one_iff.mp hlen
    obtain ⟨y, hy, hrow⟩ := selectLanes_one hx (hp.inside i (by simp))
    exact ⟨y, hy, fits_lanes (t := .scalar s) rfl hrow⟩
  · obtain ⟨y, hy, hrow⟩ := selectLanes_many hx hp.inside (by rw [hlen]; exact Width.one_lt_lanes width)
    exact ⟨y, hy, fits_lanes (t := .vector s width) rfl (by rw [hrow, hlen]; rfl)⟩

theorem setLanes_picks {s : Scalar} {n : Nat} {is : List Nat} {t : Ty} (hp : Picks s n is t)
    {x : Lanes s.register} (hx : x.row? = some n) {v : Value} (hv : Fits t v) :
    ∃ y z, v = .lanes s.register y ∧ setLanes x is y = .ok z ∧ z.row? = some n := by
  rcases hp.form with ⟨hlen, rfl⟩ | ⟨width, hlen, rfl⟩
  · obtain ⟨i, rfl⟩ := List.length_eq_one_iff.mp hlen
    simp only [Fits] at hv
    obtain ⟨y, rfl, hy⟩ := hv
    obtain ⟨z, hz, hrow⟩ := setLanes_one hx (hp.inside i (by simp)) hy
    exact ⟨y, z, rfl, hz, hrow⟩
  · simp only [Fits] at hv
    obtain ⟨y, rfl, hy⟩ := hv
    obtain ⟨z, hz, hrow⟩ := setLanes_many hx hp.inside
      (by rw [hlen]; exact Width.one_lt_lanes width) (by rw [hy, hlen])
    exact ⟨y, z, rfl, hz, hrow⟩

theorem safe_select {s : Scalar} {width : Width} {is : List Nat} {t : Ty}
    (hp : Picks s width.lanes is t) (h : Fits (.vector s width) v) :
    Safe (v.select is) (Fits t) := by
  simp only [Fits] at h
  obtain ⟨x, rfl, hx⟩ := h
  obtain ⟨y, hy, hfit⟩ := selectLanes_picks hp hx
  exact (safe_ofLanes_ok ⟨y, hy, hfit⟩).bind fun z hz => safe_pure hz

/-! ### Functions of the device -/

theorem yields_math {f : Builtin} {sig : Builtin.Signature} {s : Scalar}
    (hsig : Builtin.WellFormed f sig s) {e : Elem} {xs : List (Lanes e)}
    (hrows : xs.map Lanes.row? = sig.params.map Ty.row?) :
    Lanes.Yields (Lanes.math f.name xs) fun z => z.row? = sig.result.row? := by
  refine Lanes.yields_math_of_kind (fun fn => Builtin.kind_cellFn?) fun fn hfn => ?_
  have htakes := hsig.takes
  revert htakes hfn hrows
  generalize sig.params = ts
  generalize sig.result = t
  generalize f.kind = k
  intro hrows hfn htakes
  cases htakes with
  | one =>
    obtain ⟨x, rfl, hx⟩ := List.map_eq_singleton_iff.mp hrows
    rw [← hx]
    exact Lanes.yields_apply_one hfn x
  | two =>
    obtain ⟨x, xs, rfl, hx, hrest⟩ := List.map_eq_cons_iff.mp hrows
    obtain ⟨y, rfl, hy⟩ := List.map_eq_singleton_iff.mp hrest
    exact Lanes.yields_apply_two hfn (by rw [hx, hy, Lanes.joined_self])
  | clamp hlo hhi =>
    obtain ⟨x, xs, rfl, hx, hrest⟩ := List.map_eq_cons_iff.mp hrows
    obtain ⟨lo, ys, rfl, hlo', hrest⟩ := List.map_eq_cons_iff.mp hrest
    obtain ⟨hi, rfl, hhi'⟩ := List.map_eq_singleton_iff.mp hrest
    rw [← hx, ← hlo'] at hlo
    rw [← hx, ← hhi'] at hhi
    rw [← hx]
    exact Lanes.yields_apply_clamp hfn hlo hhi
  | dot =>
    obtain ⟨x, xs, rfl, hx, hrest⟩ := List.map_eq_cons_iff.mp hrows
    obtain ⟨y, rfl, hy⟩ := List.map_eq_singleton_iff.mp hrest
    exact Lanes.yields_apply_dot hfn (hx.trans hy.symm)
  | length =>
    obtain ⟨x, rfl, -⟩ := List.map_eq_singleton_iff.mp hrows
    exact Lanes.yields_apply_length hfn x

/-- The first argument of a function is there, and has lanes. -/
theorem head_lanes {f : Builtin} {sig : Builtin.Signature} {s : Scalar}
    (hsig : Builtin.WellFormed f sig s) {vs : List Value} (h : FitsAll sig.params vs) :
    ∃ x ws, vs = .lanes s.register x :: ws := by
  have hlen := h.length_eq
  obtain ⟨t, ts, hparams⟩ := hsig.takes.params_eq_cons
  rw [hparams] at h hlen
  cases vs with
  | nil => simp at hlen
  | cons v vs =>
    simp only [FitsAll] at h
    obtain ⟨x, rfl, -⟩ := (fits_iff_lanes (hsig.params t (by simp [hparams])) v).mp h.1
    exact ⟨x, vs, rfl⟩

theorem safe_math {f : Builtin} {sig : Builtin.Signature} {s : Scalar}
    (hsig : Builtin.WellFormed f sig s) {vs : List Value} (h : FitsAll sig.params vs) :
    Safe (math f sig.result vs) (Fits sig.result) := by
  obtain ⟨xs, hxs, hrows⟩ := lanesOf_ok hsig.params h
  obtain ⟨x, ws, rfl⟩ := head_lanes hsig h
  simp only [math, hxs]
  refine (safe_pure (Q := (· = xs)) rfl).bind fun ys hys => ?_
  subst hys
  refine (safe_ofLanes (yields_math hsig hrows)).bind fun y hy => ?_
  refine (safe_ofLanes_ok (wrapTo_ok hsig.result y)).bind fun z hz => safe_pure ?_
  exact fits_lanes hsig.result (hz.trans hy)

/-! ### Atomic functions -/

/-- Integers that fill their registers, which are those that atomic functions change. -/
def IsWord (s : Scalar) : Prop := s.isInteger = true ∧ s.isNarrow = false

/-- Operators between words that no operand makes fail. -/
def isTotalOp : Operator → Bool
  | .add | .sub | .and | .or | .xor => true
  | _ => false

theorem binary_word_ok {s : Scalar} (hs : IsWord s) {op : Operator} (hop : isTotalOp op = true)
    {v w : Value} (hv : Fits (.scalar s) v) (hw : Fits (.scalar s) w) :
    ∃ z, binary op (.scalar s) v w = Exec.pure z ∧ Fits (.scalar s) z := by
  simp only [Fits] at hv hw
  obtain ⟨x, rfl, hx⟩ := hv
  obtain ⟨y, rfl, hy⟩ := hw
  obtain ⟨a, rfl⟩ := Lanes.row?_eq_none hx
  obtain ⟨b, rfl⟩ := Lanes.row?_eq_none hy
  obtain ⟨hint, hnarrow⟩ := hs
  cases s <;> simp [Scalar.isInteger, Scalar.isNarrow] at hint hnarrow
  all_goals
    cases op <;> simp [isTotalOp] at hop
    all_goals exact ⟨_, rfl, fits_scalar _ _⟩

theorem math_word_ok {s : Scalar} (hs : IsWord s) {fn : Builtin} (hfn : fn = .min ∨ fn = .max)
    {v w : Value} (hv : Fits (.scalar s) v) (hw : Fits (.scalar s) w) :
    ∃ z, math fn (.scalar s) [v, w] = Exec.pure z ∧ Fits (.scalar s) z := by
  simp only [Fits] at hv hw
  obtain ⟨x, rfl, hx⟩ := hv
  obtain ⟨y, rfl, hy⟩ := hw
  obtain ⟨a, rfl⟩ := Lanes.row?_eq_none hx
  obtain ⟨b, rfl⟩ := Lanes.row?_eq_none hy
  obtain ⟨hint, hnarrow⟩ := hs
  rcases hfn with rfl | rfl
  all_goals
    cases s <;> simp [Scalar.isInteger, Scalar.isNarrow] at hint hnarrow
    all_goals exact ⟨_, rfl, fits_scalar _ _⟩

theorem eql_word_ok {s : Scalar} (hs : IsWord s)
    {v w : Value} (hv : Fits (.scalar s) v) (hw : Fits (.scalar s) w) :
    ∃ b, binary .eql (.scalar .bool) v w = Exec.pure (ofBool b) := by
  simp only [Fits] at hv hw
  obtain ⟨x, rfl, hx⟩ := hv
  obtain ⟨y, rfl, hy⟩ := hw
  obtain ⟨a, rfl⟩ := Lanes.row?_eq_none hx
  obtain ⟨b, rfl⟩ := Lanes.row?_eq_none hy
  obtain ⟨hint, hnarrow⟩ := hs
  cases s <;> simp [Scalar.isInteger, Scalar.isNarrow] at hint hnarrow
  all_goals exact ⟨_, rfl⟩

theorem atomicNext_ok {fn : AtomicFn} {s : Scalar} (hs : IsWord s) {old : Value} {args : List Value}
    (hold : Fits (.scalar s) old) (hcount : args.length + 1 = fn.arity)
    (hargs : ∀ v ∈ args, Fits (.scalar s) v) :
    ∃ v, atomicNext fn s old args = Exec.pure v ∧ Fits (.scalar s) v := by
  have hone : Fits (.scalar s) (ofInt s.register 1) := fits_scalar s _
  match args, hcount with
  | [], hcount =>
    cases fn <;> simp [AtomicFn.arity] at hcount
    all_goals exact binary_word_ok hs rfl hold hone
  | [x], hcount =>
    have hx := hargs x (by simp)
    cases fn <;> simp [AtomicFn.arity] at hcount
    case min => exact math_word_ok hs (Or.inl rfl) hold hx
    case max => exact math_word_ok hs (Or.inr rfl) hold hx
    case xchg => exact ⟨x, rfl, hx⟩
    all_goals exact binary_word_ok hs rfl hold hx
  | [expected, x], hcount =>
    have hx := hargs x (by simp)
    cases fn <;> simp [AtomicFn.arity] at hcount
    obtain ⟨b, hb⟩ := eql_word_ok hs hold (hargs expected (by simp))
    refine ⟨if b then x else old, ?_, by cases b <;> assumption⟩
    simp only [atomicNext, hb]
    cases b <;> rfl
  | _ :: _ :: _ :: _, hcount => cases fn <;> simp [AtomicFn.arity] at hcount

end Value
end KernelForge
