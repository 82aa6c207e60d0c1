/-
What operations on lanes do to the form of a value.

A value is an atom or a row of so many cells.  Whether an operation has a result, and which
form the result has, depends on the forms of the operands alone, never on the cells.  The
only exceptions are a division by zero and an operator or a function that the element type
does not have.  Every other complaint is about the form of an operand: such a complaint is a
*misfit*, and the lemmas here say that operands of the right form raise none.
-/
import KernelForge.Lanes.Arithmetic

namespace KernelForge

/-- A complaint about the form of a value, as opposed to what the value is. -/
def LaneError.isMisfit : LaneError → Bool
  | .divisionByZero | .boolOperator _ | .operator _ _ | .boolFunction _ | .function _ _ => false
  | _ => true

namespace Lanes

variable {e r : Elem}

/-- The number of cells of a row; none for an atom. -/
def row? (x : Lanes e) : Option Nat := x.shape.row?

@[simp] theorem row?_atom (c : e.Cell) : (atom c).row? = none := rfl

@[simp] theorem row?_row (cs : List e.Cell) : (row cs).row? = some cs.length := rfl

theorem row?_eq_none {x : Lanes e} (h : x.row? = none) : ∃ c, x = atom c := by
  cases x with
  | atom c => exact ⟨c, rfl⟩
  | row cs => simp at h

theorem row?_eq_some {x : Lanes e} {n : Nat} (h : x.row? = some n) :
    ∃ cs : List e.Cell, x = row cs ∧ cs.length = n := by
  cases x with
  | atom c => simp at h
  | row cs => exact ⟨cs, rfl, by simpa using h⟩

/-- The result of an operation: a value of a known form, or a complaint that is no misfit. -/
def Yields {α : Type} (r : Except LaneError α) (Q : α → Prop) : Prop :=
  match r with
  | .ok a => Q a
  | .error c => c.isMisfit = false

theorem Yields.of_ok {α : Type} {r : Except LaneError α} {Q : α → Prop}
    (h : ∃ a, r = .ok a ∧ Q a) : Yields r Q := by
  obtain ⟨a, rfl, ha⟩ := h
  exact ha

theorem Yields.map {α β : Type} {r : Except LaneError α} {P : α → Prop} {Q : β → Prop}
    {f : α → β} (h : Yields r P) (hf : ∀ a, P a → Q (f a)) : Yields (r.map f) Q := by
  cases r with
  | ok a => exact hf a h
  | error c => exact h

theorem Yields.bind {α β : Type} {r : Except LaneError α} {P : α → Prop} {Q : β → Prop}
    {f : α → Except LaneError β} (h : Yields r P) (hf : ∀ a, P a → Yields (f a) Q) :
    Yields (r >>= f) Q := by
  cases r with
  | ok a => exact hf a h
  | error c => exact h

/-- Doing one thing for each of some cells keeps their number. -/
theorem yields_mapM {α β : Type} {f : α → Except LaneError β} (hf : ∀ a, Yields (f a) fun _ => True)
    (as : List α) : Yields (as.mapM f) fun bs => bs.length = as.length := by
  induction as with
  | nil => exact rfl
  | cons a as ih =>
    rw [List.mapM_cons]
    refine (hf a).bind fun b _ => ?_
    refine ih.bind fun bs hbs => ?_
    exact congrArg (· + 1) hbs

/-! ### Lane by lane -/

@[simp] theorem row?_map (f : e.Cell → r.Cell) (x : Lanes e) : (x.map f).row? = x.row? := by
  cases x <;> simp [map]

@[simp] theorem row?_cast (x : Lanes e) : (x.cast r).row? = x.row? := row?_map ..

/-- The form of a value that two values make lane by lane; none when they do not go together. -/
def joined : Option Nat → Option Nat → Option (Option Nat)
  | none, none => some none
  | none, some n => some (some n)
  | some n, none => some (some n)
  | some m, some n => if m = n then some (some m) else none

theorem yields_zip {f : e.Cell → e.Cell → Except LaneError r.Cell}
    (hf : ∀ a b, Yields (f a b) fun _ => True) {x y : Lanes e} {n? : Option Nat}
    (h : joined x.row? y.row? = some n?) : Yields (zip f x y) fun z => z.row? = n? := by
  cases x with
  | atom a =>
    cases y with
    | atom b =>
      simp only [row?_atom, joined, Option.some.injEq] at h
      exact (hf a b).map fun _ _ => h
    | row bs =>
      simp only [row?_atom, row?_row, joined, Option.some.injEq] at h
      refine (yields_mapM (fun b => hf a b) bs).map fun cs hcs => ?_
      rw [row?_row, hcs, h]
  | row as =>
    cases y with
    | atom b =>
      simp only [row?_atom, row?_row, joined, Option.some.injEq] at h
      refine (yields_mapM (fun a => hf a b) as).map fun cs hcs => ?_
      rw [row?_row, hcs, h]
    | row bs =>
      by_cases hlen : as.length = bs.length
      · simp only [row?_row, joined, hlen, if_true, Option.some.injEq] at h
        simp only [zip, if_pos hlen]
        refine (yields_mapM (fun p => hf p.1 p.2) (as.zip bs)).map fun cs hcs => ?_
        rw [row?_row, hcs, List.length_zip, hlen, Nat.min_self, h]
      · simp [joined, hlen] at h

/-! ### Operators -/

/-- An operation between cells raises no misfit: only a division by zero is refused. -/
theorem yields_arith {op : Operator} {f : e.Cell → e.Cell → Except LaneError e.Cell}
    (h : cellOp? e op = some (.arith f)) (a b : e.Cell) : Yields (f a b) fun _ => True := by
  cases e with
  | bool => cases op <;> simp [cellOp?, boolOp?] at h
  | word w signed =>
    cases op <;> simp only [cellOp?, wordOp?, Option.some.injEq, CellOp.arith.injEq, reduceCtorEq] at h
    all_goals subst h
    all_goals first
      | exact trivial
      | (show Yields (if _ then _ else _) _
         split
         · exact rfl
         · exact trivial)
  | float32 =>
    cases op <;> simp only [cellOp?, realOp?, Option.some.injEq, CellOp.arith.injEq, reduceCtorEq] at h
    all_goals subst h; exact trivial
  | float64 =>
    cases op <;> simp only [cellOp?, realOp?, Option.some.injEq, CellOp.arith.injEq, reduceCtorEq] at h
    all_goals subst h; exact trivial

theorem isMisfit_unsupported (e : Elem) (op : Operator) : (unsupported e op).isMisfit = false := by
  cases e <;> rfl

/-- The operators that compare give truth values, and those that compute do not. -/
theorem cellOp?_arith {op : Operator} (hcmp : op.isComparison = false) (hlog : op.isLogical = false)
    {o : CellOp e} (h : cellOp? e op = some o) : ∃ f, o = .arith f := by
  cases e <;> cases op <;> simp_all [cellOp?, boolOp?, wordOp?, realOp?, Operator.isComparison,
    Operator.isLogical] <;> subst h <;> exact ⟨_, rfl⟩

theorem cellOp?_test {op : Operator} (hcmp : op.isComparison = true)
    {o : CellOp e} (h : cellOp? e op = some o) : ∃ f, o = .test f := by
  cases e <;> cases op <;> simp_all [cellOp?, boolOp?, wordOp?, realOp?, Operator.isComparison] <;>
    subst h <;> exact ⟨_, rfl⟩

/-- An operator that computes gives a value of the type of its operands. -/
theorem yields_binary_same {op : Operator} (hcmp : op.isComparison = false)
    (hlog : op.isLogical = false) {x y : Lanes e} {n? : Option Nat}
    (h : joined x.row? y.row? = some n?) :
    Yields (binary op x y) fun z => ∃ w, z = .same w ∧ w.row? = n? := by
  unfold binary
  cases hop : cellOp? e op with
  | none => exact isMisfit_unsupported e op
  | some o =>
    obtain ⟨f, rfl⟩ := cellOp?_arith hcmp hlog hop
    exact (yields_zip (yields_arith hop) h).map fun w hw => ⟨w, rfl, hw⟩

theorem yields_binary_truths {op : Operator} (hcmp : op.isComparison = true) {x y : Lanes e}
    {n? : Option Nat} (h : joined x.row? y.row? = some n?) :
    Yields (binary op x y) fun z => ∃ w, z = .truths w ∧ w.row? = n? := by
  unfold binary
  cases hop : cellOp? e op with
  | none => exact isMisfit_unsupported e op
  | some o =>
    obtain ⟨f, rfl⟩ := cellOp?_test hcmp hop
    refine (yields_zip (r := .bool) (fun a b => ?_) h).map fun w hw => ⟨w, rfl, hw⟩
    exact trivial

theorem yields_unary (op : Operator) (x : Lanes e) :
    Yields (unary op x) fun y => y.row? = x.row? := by
  unfold unary
  split
  · exact isMisfit_unsupported e op
  · exact row?_map ..

/-! ### Narrow registers -/

/-- The registers that narrow integers live in. -/
def IsNarrowRegister (e : Elem) : Prop := ∃ signed, e = .word .w32 signed

theorem wrap_ok {bits : Int} (hlo : 0 < bits) (hhi : bits < 32) (he : IsNarrowRegister e)
    (x : Lanes e) : ∃ y, wrap bits x = .ok y ∧ y.row? = x.row? := by
  obtain ⟨signed, rfl⟩ := he
  unfold wrap
  rw [if_neg (by omega)]
  exact ⟨_, rfl, row?_map ..⟩

/-! ### Single lanes -/

theorem length_cells {x : Lanes e} {n : Nat} (h : x.row? = some n) : x.cells.length = n := by
  obtain ⟨cs, rfl, hlen⟩ := row?_eq_some h
  exact hlen

theorem lane_ok {x : Lanes e} {i : Nat} (h : i < x.cells.length) :
    ∃ c, x.lane i = .ok (atom c) := by
  unfold lane
  rw [if_neg (by omega), Int.toNat_natCast, List.getElem?_eq_getElem h]
  exact ⟨_, rfl⟩

theorem setLane_ok {x y : Lanes e} {i : Nat} (h : i < x.cells.length) (hy : y.row? = none) :
    ∃ z, x.setLane i y = .ok z ∧ z.row? = x.row? := by
  obtain ⟨c, rfl⟩ := row?_eq_none hy
  unfold setLane
  rw [if_neg (by omega)]
  cases x with
  | atom d => exact ⟨_, rfl, rfl⟩
  | row cs => exact ⟨_, rfl, by simp⟩

/-- Cells as many as wanted make a row, and so does one cell that is repeated. -/
theorem concat_ok {n : Nat} {xs : List (Lanes e)} (hn : 0 < n)
    (h : (xs.flatMap cells).length = n ∨ (xs.flatMap cells).length = 1) :
    ∃ z, concat n xs = .ok z ∧ z.row? = some n := by
  unfold concat
  generalize xs.flatMap cells = cs at h
  match cs, h with
  | [c], _ =>
    have hlen : (c :: List.replicate (n - 1) c).length = n := by
      rw [List.length_cons, List.length_replicate]
      omega
    exact ⟨_, if_pos hlen, by rw [row?_row, hlen]⟩
  | [], h => exact absurd h (by simp; omega)
  | c :: d :: cs, h =>
    have hlen : (c :: d :: cs).length = n := by
      rcases h with h | h
      · exact h
      · simp at h
    exact ⟨_, if_pos hlen, by rw [row?_row, hlen]⟩

/-! ### Functions -/

theorem isMisfit_unknownFunction (e : Elem) (name : String) :
    (unknownFunction e name).isMisfit = false := by
  cases e <;> rfl

theorem yields_zipTotal {f : e.Cell → e.Cell → e.Cell} {x y : Lanes e} {n? : Option Nat}
    (h : joined x.row? y.row? = some n?) : Yields (zipTotal f x y) fun z => z.row? = n? :=
  yields_zip (r := e) (f := fun a b => .ok (f a b)) (fun _ _ => trivial) h

/-- What kind of function a name stands for: this fixes the number of its arguments. -/
inductive CellFn.Kind where
  | one
  | two
  | clamp
  | dot
  | length
deriving DecidableEq

def CellFn.kind : CellFn e → CellFn.Kind
  | .one _ => .one
  | .two _ => .two
  | .clamp _ _ => .clamp
  | .dot _ => .dot
  | .length _ => .length

theorem yields_math_of_kind {name : String} {k : CellFn.Kind} {xs : List (Lanes e)}
    {Q : Lanes e → Prop} (hk : ∀ fn, cellFn? e name = some fn → fn.kind = k)
    (happly : ∀ fn : CellFn e, fn.kind = k → Yields (apply fn xs) Q) :
    Yields (math name xs) Q := by
  unfold math
  cases hfn : cellFn? e name with
  | none => exact isMisfit_unknownFunction e name
  | some fn => exact happly fn (hk fn hfn)

theorem yields_apply_one {fn : CellFn e} (hk : fn.kind = .one) (x : Lanes e) :
    Yields (apply fn [x]) fun z => z.row? = x.row? := by
  cases fn <;> simp [CellFn.kind] at hk
  exact row?_map ..

theorem yields_apply_two {fn : CellFn e} (hk : fn.kind = .two) {x y : Lanes e} {n? : Option Nat}
    (h : joined x.row? y.row? = some n?) : Yields (apply fn [x, y]) fun z => z.row? = n? := by
  cases fn <;> simp [CellFn.kind] at hk
  exact yields_zipTotal h

theorem joined_self (n? : Option Nat) : joined n? n? = some n? := by
  cases n? <;> simp [joined]

theorem yields_apply_clamp {fn : CellFn e} (hk : fn.kind = .clamp) {x lo hi : Lanes e}
    (hlo : joined x.row? lo.row? = some x.row?) (hhi : joined x.row? hi.row? = some x.row?) :
    Yields (apply fn [x, lo, hi]) fun z => z.row? = x.row? := by
  cases fn with
  | clamp lower upper =>
    show Yields (zipTotal lower x lo >>= fun y => zipTotal upper y hi) _
    refine (yields_zipTotal hlo).bind fun y hy => yields_zipTotal ?_
    rw [hy]
    exact hhi
  | _ => simp [CellFn.kind] at hk

theorem yields_apply_dot {fn : CellFn e} (hk : fn.kind = .dot) {x y : Lanes e}
    (h : x.row? = y.row?) : Yields (apply fn [x, y]) fun z => z.row? = none := by
  have hcount : x.shape.count = y.shape.count := congrArg (·.getD 1) h
  cases fn with
  | dot f => simp [apply, hcount, Yields]
  | _ => simp [CellFn.kind] at hk

theorem yields_apply_length {fn : CellFn e} (hk : fn.kind = .length) (x : Lanes e) :
    Yields (apply fn [x]) fun z => z.row? = none := by
  cases fn with
  | length f => exact row?_atom _
  | _ => simp [CellFn.kind] at hk

end Lanes
end KernelForge
