/-
Places are lenses.

The checker lets an expression be assigned to when it has a place.  Such a place selects no lane of a
vector twice: a component that repeats a lane has no place.  So the location of a place that is found
obeys the laws of a lens.

A store that fails has one gap.  A structure with a field that memory does not hold is written field by
field, and the fields before that one stay written.
-/
import KernelForge.Proofs.Program.CheckedExprs
import KernelForge.Proofs.Program.Locations

namespace KernelForge

/-! ### Places that the checker makes -/

/-- No lanes are selected twice on the way to a place. -/
def Place.Distinct : Place → Prop
  | .var _ | .deref _ _ _ => True
  | .field p _ _ => p.Distinct
  | .lanes p is => is.Nodup ∧ p.Distinct

theorem Component.nodup_of_distinct : ∀ {is : List Nat}, distinct is = true → is.Nodup
  | [], _ => .nil
  | i :: is, h => by
    rw [distinct, Bool.and_eq_true] at h
    exact List.nodup_cons.mpr ⟨by simpa using h.1, nodup_of_distinct h.2⟩

theorem Loc.Distinct.fieldOf {l : Loc} (h : l.Distinct) (ts : List Ty) (i : Nat) :
    (l.fieldOf ts i).Distinct := by
  cases l with
  | mem m o t => exact trivial
  | var slot => exact h
  | field p j => exact h
  | lanes p is => exact h

theorem Place.Distinct.located {call : Caller} {f : Frame} : ∀ {p : Place} {l : Loc} {st st' : Store},
    p.Distinct → p.locate call f st = (.ok l, st') → l.Distinct
  | .var slot, l, st, st', _, h => by
    cases h
    exact trivial
  | .deref elem ptr index, l, st, st', _, h => by
    obtain ⟨p, st₁, -, h⟩ := Exec.of_bind_ok h
    obtain ⟨v, st₂, -, h⟩ := Exec.of_bind_ok h
    obtain ⟨i, st₃, -, h⟩ := Exec.of_bind_ok h
    obtain ⟨q, st₄, -, h⟩ := Exec.of_bind_ok h
    cases hm : q.memory? with
    | none =>
      rw [hm] at h
      cases h
    | some m =>
      rw [hm] at h
      cases h
      exact trivial
  | .field p fields i, l, st, st', hp, h => by
    obtain ⟨l', st₁, hl', h⟩ := Exec.of_bind_ok h
    cases h
    exact Loc.Distinct.fieldOf (Place.Distinct.located (p := p) hp hl') fields i
  | .lanes p is, l, st, st', hp, h => by
    obtain ⟨l', st₁, hl', h⟩ := Exec.of_bind_ok h
    cases h
    exact ⟨hp.1, Place.Distinct.located (p := p) hp.2 hl'⟩

namespace Checked

/-- The place of an expression, if it has one, selects no lanes twice. -/
def Clear (x : Checked) : Prop := ∀ p, x.place? = some p → p.Distinct

variable {x y z : Checked} {offset : Nat}

theorem clear_of_none (h : x.place? = none) : x.Clear := by
  intro p hp
  rw [h] at hp
  cases hp

theorem clear_convert (hx : x.Clear) {dst : NamedTy} (h : x.convert offset dst = .ok y) : y.Clear := by
  unfold convert at h
  split at h
  · cases h
    exact hx
  · split at h
    · cases h
      exact clear_of_none rfl
    · cases h
      exact clear_of_none rfl
    · split at h <;> cases h
      exact clear_of_none rfl
    · cases h

theorem clear_castTo (hx : x.Clear) {dst : NamedTy} (h : x.castTo offset dst = .ok y) : y.Clear := by
  unfold castTo at h
  simp only at h
  split at h
  · split at h
    · exact clear_convert hx h
    · cases h
  · exact clear_convert hx h
  · split at h
    · split at h <;> cases h
      exact clear_of_none rfl
    · cases h
  · cases h
    exact clear_of_none rfl
  · split at h <;> cases h
    exact hx

theorem clear_deref {ptr index : Checked} (h : ptr.deref offset index = .ok y) : y.Clear := by
  unfold deref at h
  split at h <;> cases h
  intro p hp
  cases hp
  exact trivial

theorem clear_subscript {ptr index : Checked} (h : ptr.subscript offset index = .ok y) : y.Clear := by
  unfold subscript at h
  split at h
  · split at h
    · obtain ⟨i, -, h⟩ := bind_eq_ok.mp h
      exact clear_deref h
    · cases h
  · cases h

theorem clear_select {id : Code.Ident} (hx : x.Clear) (h : x.select id = .ok y) : y.Clear := by
  unfold select at h
  split at h
  · split at h <;> cases h
    intro p hp
    obtain ⟨q, hq, rfl⟩ := Option.map_eq_some_iff.mp hp
    exact hx q hq
  · split at h
    · cases h
    · rename_i lanes _
      have hplace : ∀ p,
          (if Component.distinct lanes then x.place?.map (Place.lanes · lanes) else none) = some p →
            p.Distinct := by
        intro p hp
        split at hp
        · rename_i hdistinct
          obtain ⟨q, hq, rfl⟩ := Option.map_eq_some_iff.mp hp
          exact ⟨Component.nodup_of_distinct hdistinct, hx q hq⟩
        · cases hp
      generalize (if Component.distinct lanes then x.place?.map (Place.lanes · lanes) else none) = place?
        at h hplace
      split at h
      · cases h
        exact hplace
      · split at h <;> cases h
        exact hplace
  · cases h

/-! What is computed has no place. -/

theorem place?_unary {op : Operator} (h : x.unary offset op = .ok y) : y.place? = none := by
  unfold unary at h
  split at h
  · change (if _ then _ else _) = _ at h
    split at h
    · cases h
    · obtain ⟨z, -, h⟩ := bind_eq_ok.mp h
      cases h
      rfl
  · change (if _ then _ else _) = _ at h
    split at h
    · cases h
    · obtain ⟨z, -, h⟩ := bind_eq_ok.mp h
      cases h
      rfl
  · cases h

theorem place?_not (h : x.not offset = .ok y) : y.place? = none := by
  obtain ⟨z, -, h⟩ := bind_eq_ok.mp h
  cases h
  rfl

theorem place?_addressOf {form : String} (h : x.addressOf offset form = .ok y) : y.place? = none := by
  unfold addressOf at h
  split at h <;> cases h
  rfl

theorem place?_advance {op : Operator} (h : advance offset op x y = .ok z) : z.place? = none := by
  unfold advance at h
  simp only at h
  split at h
  · split at h
    · cases h
    · obtain ⟨n, -, h⟩ := bind_eq_ok.mp h
      cases h
      rfl
  · cases h

theorem place?_logical {op : Operator} (h : logical offset op x y = .ok z) : z.place? = none := by
  unfold logical at h
  obtain ⟨u, -, h⟩ := bind_eq_ok.mp h
  obtain ⟨x', -, h⟩ := bind_eq_ok.mp h
  obtain ⟨y', -, h⟩ := bind_eq_ok.mp h
  cases h
  rfl

theorem place?_arithmetic {op : Operator} (h : arithmetic offset op x y = .ok z) : z.place? = none := by
  unfold arithmetic at h
  split at h
  · split at h
    · cases h
    · obtain ⟨x', -, h⟩ := bind_eq_ok.mp h
      obtain ⟨y', -, h⟩ := bind_eq_ok.mp h
      cases h
      rfl
  · split at h
    · cases h
    · split at h
      · cases h
      · obtain ⟨x', -, h⟩ := bind_eq_ok.mp h
        obtain ⟨y', -, h⟩ := bind_eq_ok.mp h
        cases h
        rfl
  · cases h

theorem place?_binary {op : Operator} (h : binary offset op x y = .ok z) : z.place? = none := by
  unfold binary at h
  split at h
  · exact place?_logical h
  · split at h
    · exact place?_advance h
    · split at h
      · exact place?_advance h
      · exact place?_arithmetic h

theorem place?_choose {test : Checked} {xOffset yOffset : Nat}
    (h : choose test x y xOffset yOffset = .ok z) : z.place? = none := by
  have hcommon : ∀ {common : NamedTy}, (do
      let x ← x.convert xOffset common
      let y ← y.convert yOffset common
      return { type := common, term := .cond test.term x.term y.term }) = Except.ok z →
      z.place? = none := by
    intro common h
    obtain ⟨x', -, h⟩ := bind_eq_ok.mp h
    obtain ⟨y', -, h⟩ := bind_eq_ok.mp h
    cases h
    rfl
  unfold choose at h
  split at h
  · exact hcommon h
  · split at h
    · exact hcommon h
    · cases h

theorem place?_vectorOf {s : Scalar} {w : Width} {parts : List (Nat × Checked)}
    (h : vectorOf offset s w parts = .ok z) : z.place? = none := by
  unfold vectorOf at h
  simp only at h
  split at h <;> cases h
  rfl

theorem place?_callConvert {t : Ty} (h : callConvert offset t x = .ok z) : z.place? = none := by
  unfold callConvert at h
  split at h
  · cases h
    rfl
  · split at h <;> cases h
    rfl
  · cases h

theorem place?_callMath {fn : Builtin} {offsets : List Nat} {xs : List Checked}
    (h : callMath offset fn offsets xs = .ok z) : z.place? = none := by
  unfold callMath at h
  split at h
  · cases h
  · obtain ⟨ys, -, h⟩ := bind_eq_ok.mp h
    cases h
    rfl

end Checked

namespace Env

open Checked

variable {env : Env}

/-- A called function gives a value without a place. -/
theorem place?_call {fn : Code.Ident} {paren : Nat} {args : List Code.Expr} {x : Checked}
    (h : env.checkExpr (.call fn paren args) = .ok x) : x.place? = none := by
  rw [checkExpr] at h
  split at h
  · cases h
  simp only at h
  split at h
  · obtain ⟨u, -, h⟩ := bind_eq_ok.mp h
    obtain ⟨xs, -, h⟩ := bind_eq_ok.mp h
    obtain ⟨dim, -, h⟩ := bind_eq_ok.mp h
    cases h
    rfl
  · obtain ⟨u, -, h⟩ := bind_eq_ok.mp h
    cases h
    rfl
  · obtain ⟨u, -, h⟩ := bind_eq_ok.mp h
    cases args with
    | nil => cases h
    | cons ptr rest =>
      obtain ⟨q, -, h⟩ := bind_eq_ok.mp h
      obtain ⟨s, -, h⟩ := bind_eq_ok.mp h
      obtain ⟨xs, -, h⟩ := bind_eq_ok.mp h
      obtain ⟨ys, -, h⟩ := bind_eq_ok.mp h
      cases h
      rfl
  · obtain ⟨u, -, h⟩ := bind_eq_ok.mp h
    split at h
    · cases h
    · obtain ⟨xs, -, h⟩ := bind_eq_ok.mp h
      exact place?_callConvert h
  · obtain ⟨xs, -, h⟩ := bind_eq_ok.mp h
    exact place?_callMath h
  · split at h
    · cases h
    · obtain ⟨u, -, h⟩ := bind_eq_ok.mp h
      obtain ⟨xs, -, h⟩ := bind_eq_ok.mp h
      obtain ⟨ys, -, h⟩ := bind_eq_ok.mp h
      cases h
      rfl
  · split at h <;> cases h

/-- **What the checker lets be assigned to selects no lanes twice.** -/
theorem clear_checkExpr {e : Code.Expr} {x : Checked} (h : env.checkExpr e = .ok x) : x.Clear := by
  cases e with
  | ident id =>
    rw [checkExpr] at h
    unfold checkName at h
    split at h
    · cases h
      intro p hp
      cases hp
      exact trivial
    · split at h <;> cases h
      exact clear_of_none rfl
  | number offset kind text =>
    rw [checkExpr] at h
    split at h <;> cases h
    exact clear_of_none rfl
  | paren offset e =>
    rw [checkExpr] at h
    exact clear_checkExpr h
  | unary offset op e =>
    obtain ⟨y, -, h⟩ := bind_eq_ok.mp h
    split at h
    · exact clear_deref h
    · exact clear_of_none (place?_addressOf h)
    · exact clear_of_none (place?_not h)
    · exact clear_of_none (place?_unary h)
  | binary e offset op e' =>
    obtain ⟨y, -, h⟩ := bind_eq_ok.mp h
    obtain ⟨z, -, h⟩ := bind_eq_ok.mp h
    exact clear_of_none (place?_binary h)
  | cond test e e' =>
    obtain ⟨t, -, h⟩ := bind_eq_ok.mp h
    obtain ⟨t', -, h⟩ := bind_eq_ok.mp h
    obtain ⟨y, -, h⟩ := bind_eq_ok.mp h
    obtain ⟨z, -, h⟩ := bind_eq_ok.mp h
    exact clear_of_none (place?_choose h)
  | cast offset spec e =>
    obtain ⟨t, -, h⟩ := bind_eq_ok.mp h
    obtain ⟨y, hy, h⟩ := bind_eq_ok.mp h
    exact clear_castTo (clear_checkExpr hy) h
  | vectorLit offset spec items =>
    rw [checkExpr] at h
    obtain ⟨t, -, h⟩ := bind_eq_ok.mp h
    split at h
    · split at h
      · obtain ⟨y, hy, h⟩ := bind_eq_ok.mp h
        exact clear_convert (clear_checkExpr hy) h
      · obtain ⟨parts, -, h⟩ := bind_eq_ok.mp h
        exact clear_of_none (place?_vectorOf h)
    · cases h
  | structLit offset spec items =>
    obtain ⟨⟨t, fields⟩, -, h⟩ := bind_eq_ok.mp h
    obtain ⟨ys, -, h⟩ := bind_eq_ok.mp h
    cases h
    exact clear_of_none rfl
  | index e bracket i =>
    obtain ⟨y, -, h⟩ := bind_eq_ok.mp h
    obtain ⟨z, -, h⟩ := bind_eq_ok.mp h
    exact clear_subscript h
  | select e id =>
    obtain ⟨y, hy, h⟩ := bind_eq_ok.mp h
    exact clear_select (clear_checkExpr hy) h
  | call fn paren args => exact clear_of_none (place?_call h)
termination_by sizeOf e
decreasing_by all_goals (subst_vars; simp +arith)

end Env

/-! ### The laws of a lens -/

/-- The laws of a location where values of a type are kept, from some variables and memories on. -/
structure Loc.Lens (scope : Scope) (vars : Vars) (st : Store) (l : Loc) (t : Ty) : Prop where
  /-- What was stored is loaded. -/
  load_stored : ∀ {v : Value} {vars' : Vars} {st' : Store}, v.Proper t →
    l.store vars v st = (.ok vars', st') → l.load vars' st' = (.ok v, st')
  /-- Storing what was loaded changes nothing. -/
  store_loaded : ∀ {v : Value}, (l.load vars st).1 = .ok v →
    l.store vars v st = (.ok vars, st)
  /-- A second store overrides the first. -/
  store_stored : ∀ {v w : Value} {vars' : Vars} {st' : Store}, v.Proper t → w.Proper t →
    l.store vars v st = (.ok vars', st') → l.store vars' w st' = l.store vars w st
  /-- A store keeps the other variables, -/
  others : ∀ {v : Value} {vars' : Vars} {st' : Store}, v.Proper t →
    l.store vars v st = (.ok vars', st') → ∀ slot, l.root ≠ .var slot → vars'[slot]? = vars[slot]?
  /-- the other fields and the other lanes, -/
  parts : ∀ {v : Value} {vars' : Vars} {st' : Store}, v.Proper t →
    l.store vars v st = (.ok vars', st') → ∀ {l' : Loc} {u : Ty}, l'.Typed scope u →
      l.flat.Apart l'.flat → (l'.load vars').value? st' = (l'.load vars).value? st
  /-- and the bytes around the element, however it ends. -/
  bytes : ∀ {v : Value}, v.Proper t → ∀ a, ¬ l.Owns a → (l.store vars v st).2.byte? a = st.byte? a
  /-- A store that fails changes nothing, if memory holds the type of the element. -/
  failure : l.Stored → ∀ {v : Value}, v.Proper t → (∀ vars', (l.store vars v st).1 ≠ .ok vars') →
    (l.store vars v st).2 = st

theorem Loc.Typed.lens {scope : Scope} {vars : Vars} {l : Loc} {t : Ty} (hl : l.Typed scope t)
    (hd : l.Distinct) (hsmall : l.Small) (hvars : vars.Proper scope) (st : Store) :
    l.Lens scope vars st t where
  load_stored hv h := hl.load_stored hd hsmall hvars hv h
  store_loaded h :=
    hl.store_loaded hd hsmall hvars (Prod.ext h (quiet_load vars l st))
  store_stored hv hw h := hl.store_stored hd hsmall hvars hv hw h
  others hv h _ hne := hl.getElem?_stored hd hvars hv h hne
  parts hv h _ _ hl' hap := hl.value?_stored hd hsmall hvars hv h hl' hap
  bytes hv _ ha := hl.byte?_stored hd hsmall hvars hv ha
  failure hstored _ hv h := hl.store_failed hd hsmall hstored hvars hv h

/-- **Places are lenses.**  Whatever the checker lets be assigned to, a variable, an element, a field
or some lanes, nested to any depth: when its location is found, the laws hold there. -/
theorem Env.places_are_lenses {sigs : Signatures} {scope : Scope} {env : Env}
    (henv : env.Agrees sigs scope) {e : Code.Expr} {x : Checked} (hx : env.checkExpr e = .ok x)
    {p : Place} (hp : x.place? = some p) {call : Caller} (hcall : call.Safe sigs) {f : Frame}
    (hvars : f.vars.Proper scope) {st st' : Store} {l : Loc}
    (hl : p.locate call f st = (.ok l, st')) (hsmall : l.Small) :
    l.Lens scope f.vars st' x.type.ty := by
  have hgood : x.Good sigs scope none := good_checkExpr henv hx
  have hlocate : Exec.Safe (p.locate call f) _ := (hgood.place p hp).promises hcall (.start hvars.holds)
  exact (hlocate.of_ok hl).1.lens ((clear_checkExpr hx p hp).located hl) hsmall hvars st'

/-- The element that a pointer to a vector points to. -/
def pointed : Code.Expr := .unary 0 .mul (.ident ⟨0, "p"⟩)

/-- A pointer to a vector of four integers, in the first slot. -/
def pointerEnv : Env where
  scopes := [[("p", ⟨0, .pointer (.vector .int .four) .global false, false⟩)]]
  slots := 1

def pointerScope : Scope := fun slot =>
  if slot = 0 then some (.pointer (.vector .int .four) .global false) else none

theorem agrees_pointerEnv : pointerEnv.Agrees (fun _ => none) pointerScope := by
  refine ⟨nofun, fun name v hv => ?_, nofun⟩
  by_cases hname : name = "p"
  · subst hname
    cases hv
    exact ⟨trivial, rfl⟩
  · simp [pointerEnv, Env.find?, List.lookup_cons, beq_eq_false_iff_ne.mpr hname] at hv

theorem proper_pointer : Vars.Proper pointerScope #[.pointer ⟨some 0, 0⟩] := by
  constructor
  · intro slot t ht
    unfold pointerScope at ht
    split at ht <;> cases ht
    rename_i hslot
    subst hslot
    exact ⟨rfl, _, rfl, by simp [Value.Fits]⟩
  · intro slot t ht
    unfold pointerScope at ht
    split at ht <;> cases ht
    simp [Value.Within]

/-- Two lanes of an element in memory, the other way round, and one of these. -/
theorem swapped_lane_is_lens :
    ∃ x p l, pointerEnv.checkExpr (.select (.select pointed ⟨0, "yx"⟩) ⟨0, "x"⟩) = .ok x ∧
      x.place? = some p ∧
      p.locate (fun _ _ => .crash) { item := default, vars := #[.pointer ⟨some 0, 0⟩] }
        #[Array.replicate 16 0] = (.ok l, #[Array.replicate 16 0]) ∧
      l = .lanes (.lanes (.mem 0 0 (.vector .int .four)) [1, 0]) [0] ∧
      l.Lens pointerScope #[.pointer ⟨some 0, 0⟩] #[Array.replicate 16 0] x.type.ty := by
  refine ⟨_, _, _, rfl, rfl, rfl, rfl, ?_⟩
  have hcall : Caller.Safe (fun _ => none) fun _ _ => .crash := fun _ _ _ _ h => by cases h
  have hlocate : Place.locate (fun _ _ => .crash) { item := default, vars := #[.pointer ⟨some 0, 0⟩] }
      (.lanes (.lanes (.deref (.vector .int .four) (.var 0) (.const .int64 (.atom 0))) [1, 0]) [0])
      #[Array.replicate 16 0] =
      (.ok (.lanes (.lanes (.mem 0 0 (.vector .int .four)) [1, 0]) [0]), #[Array.replicate 16 0]) := rfl
  refine Env.places_are_lenses agrees_pointerEnv (e := .select (.select pointed ⟨0, "yx"⟩) ⟨0, "x"⟩)
    rfl rfl hcall proper_pointer hlocate fun m o t hroot => ?_
  cases hroot
  decide

end KernelForge
