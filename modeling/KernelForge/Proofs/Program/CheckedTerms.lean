/-
What the checker makes of expressions has the type that the checker gives it.

Each rule of the checker is looked at on its own: from operands that have their types it makes
a term that has its type.  A checked expression also carries its place, which has the same type
and, when an address may be taken, lies in memory.  Fields are selected by name, so the types
of structures need as many names as fields; this is part of the invariant too.
-/
import KernelForge.Program.Expr
import KernelForge.Proofs.Basic
import KernelForge.Proofs.Program.Typing

namespace KernelForge

/-! ### Types with names -/

mutual

/-- Structures have a name for each field. -/
def NamedTy.Named (t : NamedTy) : Prop :=
  match t with
  | .struct names fields => names.length = fields.length ∧ NamedTy.AllNamed fields
  | .pointer t _ _ => t.Named
  | _ => True

def NamedTy.AllNamed (ts : List NamedTy) : Prop :=
  match ts with
  | [] => True
  | t :: ts => t.Named ∧ NamedTy.AllNamed ts

end

theorem NamedTy.named_scalar (s : Scalar) : (NamedTy.scalar s).Named := trivial

theorem NamedTy.named_vector (s : Scalar) (w : Width) : (NamedTy.vector s w).Named := trivial

theorem NamedTy.eq_scalar_of_ty {t : NamedTy} {s : Scalar} (h : t.ty = .scalar s) :
    t = .scalar s := by
  cases t <;> simp_all [NamedTy.ty]

theorem NamedTy.eq_vector_of_ty {t : NamedTy} {s : Scalar} {w : Width} (h : t.ty = .vector s w) :
    t = .vector s w := by
  cases t <;> simp_all [NamedTy.ty]

theorem NamedTy.AllNamed.getElem? {ts : List NamedTy} (h : AllNamed ts) {i : Nat} {t : NamedTy}
    (hi : ts[i]? = some t) : t.Named := by
  induction ts generalizing i with
  | nil => simp at hi
  | cons u ts ih =>
    simp only [AllNamed] at h
    cases i with
    | zero =>
      simp only [List.getElem?_cons_zero, Option.some.injEq] at hi
      exact hi ▸ h.1
    | succ i => exact ih h.2 (by simpa using hi)

theorem NamedTy.AllNamed.of_mem {ts : List NamedTy} (h : AllNamed ts) : ∀ t ∈ ts, t.Named := fun t ht => by
  obtain ⟨i, hi, rfl⟩ := List.mem_iff_getElem.mp ht
  exact h.getElem? (List.getElem?_eq_getElem hi)

theorem NamedTy.ofPlain?_ok {t : Ty} {s : Scalar} (h : t.element? = some s) :
    ∃ u, NamedTy.ofPlain? t = some u ∧ u.ty = t ∧ u.Named := by
  rcases Ty.element?_eq_some h with rfl | ⟨w, rfl⟩
  · exact ⟨_, rfl, rfl, trivial⟩
  · exact ⟨_, rfl, rfl, trivial⟩

/-- A constant lives in the register of its type. -/
def Constant.Fits (c : Constant) : Prop := c.elem = c.type.register

/-! ### Checked expressions -/

/-- A checked expression has its type, as a term and as a place. -/
structure Checked.Good (sigs : Signatures) (scope : Scope) (here? : Option Ty) (x : Checked) :
    Prop where
  named : x.type.Named
  term : Typed sigs scope here? (.term x.term) x.type.ty
  place : ∀ p, x.place? = some p → Typed sigs scope here? (.place p) x.type.ty
  memory : ∀ p m, x.place? = some p → x.memory? = some m → p.inMemory = true

namespace Checked

variable {sigs : Signatures} {scope : Scope} {here? : Option Ty} {x y z : Checked} {offset : Nat}

/-- An expression without a place. -/
theorem good_value {t : NamedTy} {e : Term} (hnamed : t.Named)
    (hterm : Typed sigs scope here? (.term e) t.ty) :
    Good sigs scope here? { type := t, term := e } :=
  ⟨hnamed, hterm, nofun, nofun⟩

theorem good_ofConstant {c : Constant} (h : c.Fits) : Good sigs scope here? (ofConstant c) := by
  obtain ⟨type, elem, cell⟩ := c
  replace h : elem = type.register := h
  subst h
  exact good_value trivial (.const rfl)

theorem good_ofVariable {v : Variable} (hnamed : v.type.Named)
    (h : scope v.slot = some v.type.ty) : Good sigs scope here? (ofVariable v) := by
  refine ⟨hnamed, .var h, fun p hp => ?_, nofun⟩
  cases hp
  exact .placeVar h

/-! ### Conversions -/

/-- A conversion gives an expression of the wanted type. -/
theorem good_convert (hx : Good sigs scope here? x) {dst : NamedTy} (hdst : dst.Named)
    (h : x.convert offset dst = .ok y) : Good sigs scope here? y ∧ y.type.ty = dst.ty := by
  have hterm := hx.term
  unfold convert at h
  split at h
  · rename_i hsame
    cases h
    exact ⟨hx, hsame⟩
  · split at h
    · rename_i s s' hty _
      cases h
      rw [hty] at hterm
      exact ⟨good_value trivial (.cast hterm rfl rfl rfl), rfl⟩
    · rename_i s s' w hty _
      cases h
      rw [hty] at hterm
      refine ⟨good_value trivial ?_, rfl⟩
      refine @Typed.concat _ _ _ _ _ _ [.scalar s'] rfl ?_ (by simp [Ty.element?]) (Or.inr rfl)
      intro p hp
      simp only [List.zip_cons_cons, List.zip_nil_right, List.mem_singleton] at hp
      subst hp
      exact .cast hterm rfl rfl rfl
    · rename_i a space readOnly b space' readOnly' hty _
      split at h
      · rename_i hcond
        cases h
        rw [hty, NamedTy.ty, hcond.1] at hterm
        exact ⟨good_value hdst (.retag hterm), rfl⟩
      · cases h
    · cases h

theorem typed_convert_scalar (hx : Good sigs scope here? x) {s : Scalar}
    (h : x.convert offset (.scalar s) = .ok y) :
    Typed sigs scope here? (.term y.term) (.scalar s) := by
  obtain ⟨hy, hty⟩ := good_convert hx (NamedTy.named_scalar s) h
  have hterm := hy.term
  rw [hty] at hterm
  exact hterm

theorem good_truth (hx : Good sigs scope here? x) (h : x.truth offset = .ok y) :
    Typed sigs scope here? (.term y.term) (.scalar .bool) := by
  unfold truth at h
  split at h
  · exact typed_convert_scalar hx h
  · cases h

/-! ### Operators -/

theorem good_unary_of_convert {op : Operator} {t : NamedTy} {s : Scalar}
    (hx : Good sigs scope here? x) (hnamed : t.Named) (ht : t.ty.element? = some s)
    (h : (do let y ← x.convert offset t
             return { type := t, term := .unary op t.ty y.term }) = Except.ok y) :
    Good sigs scope here? y := by
  obtain ⟨z, hz, h⟩ := bind_eq_ok.mp h
  cases h
  obtain ⟨hgood, hty⟩ := good_convert hx hnamed hz
  have hterm := hgood.term
  rw [hty] at hterm
  exact good_value hnamed (.unary hterm ht)

theorem good_unary {op : Operator} (hx : Good sigs scope here? x)
    (h : x.unary offset op = .ok y) : Good sigs scope here? y := by
  unfold unary at h
  split at h
  · change (if _ then _ else _) = _ at h
    split at h
    · cases h
    · exact good_unary_of_convert hx (NamedTy.named_scalar _) rfl h
  · change (if _ then _ else _) = _ at h
    split at h
    · cases h
    · exact good_unary_of_convert hx (NamedTy.named_vector _ _) rfl h
  · cases h

theorem good_not (hx : Good sigs scope here? x) (h : x.not offset = .ok y) :
    Good sigs scope here? y := by
  obtain ⟨z, hz, h⟩ := bind_eq_ok.mp h
  cases h
  exact good_value trivial (.unary (good_truth hx hz) rfl)

theorem good_advance {op : Operator} (hx : Good sigs scope here? x) (hy : Good sigs scope here? y)
    (h : advance offset op x y = .ok z) : Good sigs scope here? z := by
  unfold advance at h
  split at h
  · rename_i elem space readOnly s hty _
    split at h
    · cases h
    · obtain ⟨n, hn, h⟩ := bind_eq_ok.mp h
      cases h
      have hterm := hx.term
      rw [hty] at hterm
      refine good_value hx.named ?_
      rw [hty]
      exact .advance hterm (typed_convert_scalar hy hn)
  · cases h

theorem good_logical {op : Operator} (hx : Good sigs scope here? x) (hy : Good sigs scope here? y)
    (h : logical offset op x y = .ok z) : Good sigs scope here? z := by
  obtain ⟨u, -, h⟩ := bind_eq_ok.mp h
  obtain ⟨x', hx', h⟩ := bind_eq_ok.mp h
  obtain ⟨y', hy', h⟩ := bind_eq_ok.mp h
  cases h
  refine good_value trivial ?_
  split
  · exact .or (typed_convert_scalar hx hx') (typed_convert_scalar hy hy')
  · exact .and (typed_convert_scalar hx hx') (typed_convert_scalar hy hy')

/-- An operand of a vector operation is a vector of the common type or a scalar. -/
theorem broadcast?_vector {a b : Ty} {s : Scalar} {w : Width}
    (h : Ty.broadcast? a b = some (.vector s w)) :
    ((∃ u, a = .scalar u) ∧ b = .vector s w) ∨ (a = .vector s w ∧ ∃ u, b = .scalar u) ∨
      (a = .vector s w ∧ b = .vector s w) := by
  unfold Ty.broadcast? at h
  split at h
  · cases h
  · split at h
    · cases h
      exact Or.inl ⟨⟨_, rfl⟩, rfl⟩
    · cases h
  · split at h
    · cases h
      exact Or.inr (Or.inl ⟨rfl, _, rfl⟩)
    · cases h
  · split at h
    · rename_i hsame
      cases h
      obtain ⟨rfl, rfl⟩ := hsame
      exact Or.inr (Or.inr ⟨rfl, rfl⟩)
    · cases h
  · cases h

theorem typed_operand_scalar (hx : Good sigs scope here? x) {u s : Scalar} {w : Width}
    (hty : x.type.ty = .scalar u)
    (h : x.convert offset (operandType x.type (.vector s w)) = .ok y) :
    Typed sigs scope here? (.term y.term) (.scalar s) := by
  rw [NamedTy.eq_scalar_of_ty hty] at h
  exact typed_convert_scalar hx h

theorem typed_operand_vector (hx : Good sigs scope here? x) {s : Scalar} {w : Width}
    (hty : x.type.ty = .vector s w)
    (h : x.convert offset (operandType x.type (.vector s w)) = .ok y) :
    Typed sigs scope here? (.term y.term) (.vector s w) := by
  rw [NamedTy.eq_vector_of_ty hty] at h
  obtain ⟨hgood, hy⟩ := good_convert hx (NamedTy.named_vector s w) h
  have hterm := hgood.term
  rw [hy] at hterm
  exact hterm

theorem good_arithmetic {op : Operator} (hlog : op.isLogical = false)
    (hx : Good sigs scope here? x) (hy : Good sigs scope here? y)
    (h : arithmetic offset op x y = .ok z) : Good sigs scope here? z := by
  unfold arithmetic at h
  split at h
  · rename_i s _
    split at h
    · cases h
    · obtain ⟨x', hx', h⟩ := bind_eq_ok.mp h
      obtain ⟨y', hy', h⟩ := bind_eq_ok.mp h
      cases h
      have hleft := typed_convert_scalar hx hx'
      have hright := typed_convert_scalar hy hy'
      refine good_value trivial ?_
      cases hcmp : op.isComparison with
      | true => exact .compare hleft hright hcmp
      | false => exact .binary hleft hright hcmp hlog rfl rfl rfl rfl
  · rename_i s w hbroad
    split at h
    · cases h
    · split at h
      · cases h
      · rename_i hcmp
        obtain ⟨x', hx', h⟩ := bind_eq_ok.mp h
        obtain ⟨y', hy', h⟩ := bind_eq_ok.mp h
        cases h
        have hcmp' : op.isComparison = false := by simpa using hcmp
        refine good_value trivial ?_
        rcases broadcast?_vector hbroad with ⟨⟨u, hu⟩, hv⟩ | ⟨hv, u, hu⟩ | ⟨hv, hv'⟩
        · exact .binary (typed_operand_scalar hx hu hx') (typed_operand_vector hy hv hy') hcmp' hlog
            rfl rfl rfl rfl
        · exact .binary (typed_operand_vector hx hv hx') (typed_operand_scalar hy hu hy') hcmp' hlog
            rfl rfl rfl rfl
        · exact .binary (typed_operand_vector hx hv hx') (typed_operand_vector hy hv' hy') hcmp' hlog
            rfl rfl rfl (Lanes.joined_self _)
  · cases h

theorem good_binary {op : Operator} (hx : Good sigs scope here? x) (hy : Good sigs scope here? y)
    (h : binary offset op x y = .ok z) : Good sigs scope here? z := by
  unfold binary at h
  split at h
  · exact good_logical hx hy h
  · rename_i hlog
    split at h
    · exact good_advance hx hy h
    · split at h
      · exact good_advance hy hx h
      · exact good_arithmetic (by simpa using hlog) hx hy h

/-- A choice between expressions of a common type. -/
theorem good_choose_of_common {test : Checked} {common : NamedTy} {xOffset yOffset : Nat}
    (htest : Typed sigs scope here? (.term test.term) (.scalar .bool))
    (hx : Good sigs scope here? x) (hy : Good sigs scope here? y) (hnamed : common.Named)
    (h : (do let x ← x.convert xOffset common
             let y ← y.convert yOffset common
             return { type := common, term := .cond test.term x.term y.term }) = Except.ok z) :
    Good sigs scope here? z := by
  obtain ⟨x', hx', h⟩ := bind_eq_ok.mp h
  obtain ⟨y', hy', h⟩ := bind_eq_ok.mp h
  cases h
  obtain ⟨hgx, htx⟩ := good_convert hx hnamed hx'
  obtain ⟨hgy, hty⟩ := good_convert hy hnamed hy'
  have hleft := hgx.term
  have hright := hgy.term
  rw [htx] at hleft
  rw [hty] at hright
  exact good_value hnamed (.cond htest hleft hright)

theorem element?_broadcast {a b t : Ty} (h : Ty.broadcast? a b = some t) :
    ∃ s, t.element? = some s := by
  unfold Ty.broadcast? at h
  split at h
  · cases h
    exact ⟨_, rfl⟩
  · split at h
    · cases h
      exact ⟨_, rfl⟩
    · cases h
  · split at h
    · cases h
      exact ⟨_, rfl⟩
    · cases h
  · split at h
    · cases h
      exact ⟨_, rfl⟩
    · cases h
  · cases h

theorem good_choose {test : Checked} {xOffset yOffset : Nat}
    (htest : Typed sigs scope here? (.term test.term) (.scalar .bool))
    (hx : Good sigs scope here? x) (hy : Good sigs scope here? y)
    (h : choose test x y xOffset yOffset = .ok z) : Good sigs scope here? z := by
  unfold choose at h
  split at h
  · rename_i t ht
    obtain ⟨s, hs⟩ := element?_broadcast ht
    obtain ⟨u, hu, -, hnamed⟩ := NamedTy.ofPlain?_ok hs
    refine good_choose_of_common htest hx hy ?_ h
    rw [hu]
    exact hnamed
  · split at h
    · exact good_choose_of_common htest hx hy hx.named h
    · cases h

/-! ### Casts, places and components -/

theorem good_castTo (hx : Good sigs scope here? x) {dst : NamedTy} (hdst : dst.Named)
    (h : x.castTo offset dst = .ok y) : Good sigs scope here? y := by
  unfold castTo at h
  split at h
  · split at h
    · exact (good_convert hx hdst h).1
    · cases h
  · exact (good_convert hx hdst h).1
  · rename_i elem space readOnly
    split at h
    · rename_i elem' space' readOnly' hty
      split at h
      · rename_i hsame
        cases h
        have hterm := hx.term
        rw [hty, NamedTy.ty, hsame] at hterm
        exact good_value hdst (.retag hterm)
      · cases h
    · cases h
  · cases h
    exact good_value trivial (.discard hx.term)
  · split at h
    · cases h
      exact hx
    · cases h

theorem good_deref (hx : Good sigs scope here? x)
    (hy : Typed sigs scope here? (.term y.term) (.scalar .long))
    (h : x.deref offset y = .ok z) : Good sigs scope here? z := by
  unfold deref at h
  split at h
  · rename_i elem space readOnly hty
    cases h
    have hterm := hx.term
    have hnamed := hx.named
    rw [hty] at hterm hnamed
    have hplace := Typed.placeDeref hterm hy
    refine ⟨hnamed, .load hplace, fun p hp => ?_, fun p m hp hm => ?_⟩
    · cases hp
      exact hplace
    · cases hp
      rfl
  · cases h

theorem good_subscript (hx : Good sigs scope here? x) (hy : Good sigs scope here? y)
    (h : x.subscript offset y = .ok z) : Good sigs scope here? z := by
  unfold subscript at h
  split at h
  · split at h
    · obtain ⟨i, hi, h⟩ := bind_eq_ok.mp h
      exact good_deref hx (typed_convert_scalar hy hi) h
    · cases h
  · cases h

theorem good_addressOf {form : String} (hx : Good sigs scope here? x)
    (h : x.addressOf offset form = .ok y) : Good sigs scope here? y := by
  unfold addressOf at h
  split at h
  · rename_i space readOnly p hmem hplace
    cases h
    exact good_value hx.named (.address (hx.place p hplace) (hx.memory p _ hplace hmem))
  · cases h

end Checked

theorem Component.lanesIn_lt {alphabet : List Char} {n : Nat} {cs : List Char} {is : List Nat}
    (h : Component.lanesIn alphabet n cs = some is) : ∀ i ∈ is, i < n := by
  induction cs generalizing is with
  | nil =>
    cases h
    simp
  | cons c cs ih =>
    unfold Component.lanesIn at h
    split at h
    · rename_i i js _ hjs
      split at h
      · rename_i hi
        cases h
        intro j hj
        rcases List.mem_cons.mp hj with rfl | hj
        · exact hi
        · exact ih hjs j hj
      · cases h
    · cases h

theorem Component.lanes?_lt {n : Nat} {name : String} {is : List Nat}
    (h : Component.lanes? n name = some is) : ∀ i ∈ is, i < n := by
  unfold Component.lanes? at h
  split at h
  · cases h
    intro i hi
    have := List.mem_range.mp hi
    omega
  · cases h
    intro i hi
    obtain ⟨j, hj, rfl⟩ := List.mem_map.mp hi
    have := List.mem_range.mp hj
    omega
  · cases h
    intro i hi
    exact List.mem_range.mp (List.mem_filter.mp hi).1
  · cases h
    intro i hi
    exact List.mem_range.mp (List.mem_filter.mp hi).1
  · split at h
    · cases h
    · split at h
      · exact Component.lanesIn_lt h
      · intro i hi
        have := Component.lanesIn_lt h i hi
        omega
    · intro i hi
      have := Component.lanesIn_lt h i hi
      omega

namespace Checked

variable {sigs : Signatures} {scope : Scope} {here? : Option Ty} {x y z : Checked} {offset : Nat}

theorem good_field {names : List String} {fields : List NamedTy} {i : Nat} {readOnly : Bool}
    (hx : Good sigs scope here? x) (hty : x.type = .struct names fields) (hi : i < names.length) :
    Good sigs scope here?
      { type := fields.getD i .void
        term := .field i x.term
        place? := x.place?.map fun p => .field p (NamedTy.tys fields) i
        readOnly
        memory? := x.memory? } := by
  have hnamed := hx.named
  have hterm := hx.term
  have hplaces := hx.place
  rw [hty] at hnamed hterm hplaces
  obtain ⟨hlen, hall⟩ := hnamed
  obtain ⟨t, ht⟩ : ∃ t, fields[i]? = some t :=
    ⟨_, List.getElem?_eq_getElem (by omega : i < fields.length)⟩
  have hget : fields.getD i .void = t := by
    rw [List.getD_eq_getElem?_getD, ht]
    rfl
  have htys : (NamedTy.tys fields)[i]? = some t.ty := by
    rw [NamedTy.tys_eq_map, List.getElem?_map, ht]
    rfl
  rw [hget]
  refine ⟨hall.getElem? ht, .field hterm htys, fun p hp => ?_, fun p m hp hm => ?_⟩
  · obtain ⟨q, hq, rfl⟩ := Option.map_eq_some_iff.mp hp
    exact .placeField (hplaces q hq) htys
  · obtain ⟨q, hq, rfl⟩ := Option.map_eq_some_iff.mp hp
    exact hx.memory q m hq hm

theorem good_lanes {s : Scalar} {w : Width} {is : List Nat} {t : NamedTy} {readOnly : Bool}
    {place? : Option Place} (hx : Good sigs scope here? x) (hty : x.type = .vector s w)
    (hnamed : t.Named) (his : Value.Picks s w.lanes is t.ty)
    (hplace : ∀ p, place? = some p → ∃ q, x.place? = some q ∧ p = .lanes q is) :
    Good sigs scope here? { type := t, term := .lanes is x.term, place?, readOnly } := by
  have hterm := hx.term
  have hplaces := hx.place
  rw [hty] at hterm hplaces
  refine ⟨hnamed, .lanes hterm his, fun p hp => ?_, nofun⟩
  obtain ⟨q, hq, rfl⟩ := hplace p hp
  exact .placeLanes (hplaces q hq) his

/-- What is selected is a field of a structure or some lanes of a vector. -/
theorem select_cases {id : Code.Ident} (h : x.select id = .ok y) :
    (∃ names fields i readOnly, x.type = .struct names fields ∧ i < names.length ∧
      y = { type := fields.getD i .void
            term := .field i x.term
            place? := x.place?.map fun p => .field p (NamedTy.tys fields) i
            readOnly
            memory? := x.memory? }) ∨
    ∃ s w is t place? readOnly, x.type = .vector s w ∧ NamedTy.Named t ∧
      Value.Picks s w.lanes is t.ty ∧
      (∀ p, place? = some p → ∃ q, x.place? = some q ∧ p = Place.lanes q is) ∧
      y = { type := t, term := .lanes is x.term, place?, readOnly } := by
  unfold select at h
  split at h
  · rename_i names fields hty
    split at h
    · cases h
    · rename_i i hi
      cases h
      exact .inl ⟨names, fields, i, _, hty, (List.findIdx?_eq_some_iff_getElem.mp hi).1, rfl⟩
  · rename_i s w hty
    split at h
    · cases h
    · rename_i lanes hlanes
      have hlt := Component.lanes?_lt hlanes
      have hplace : ∀ p,
          (if Component.distinct lanes then x.place?.map (Place.lanes · lanes) else none) = some p →
            ∃ q, x.place? = some q ∧ p = Place.lanes q lanes := by
        intro p hp
        split at hp
        · obtain ⟨q, hq, rfl⟩ := Option.map_eq_some_iff.mp hp
          exact ⟨q, hq, rfl⟩
        · cases hp
      generalize (if Component.distinct lanes then x.place?.map (Place.lanes · lanes) else none) = place?
        at h hplace
      split at h
      · cases h
        exact .inr ⟨s, w, _, _, place?, _, hty, NamedTy.named_scalar s, ⟨hlt, Or.inl ⟨rfl, rfl⟩⟩, hplace,
          rfl⟩
      · split at h
        · rename_i v hv
          cases h
          have hlen := (Width.lanes_of_ofLanes? hv).symm
          exact .inr ⟨s, w, lanes, _, place?, _, hty, NamedTy.named_vector s v,
            ⟨hlt, Or.inr ⟨v, hlen, rfl⟩⟩, hplace, rfl⟩
        · cases h
  · cases h

theorem good_select {id : Code.Ident} (hx : Good sigs scope here? x)
    (h : x.select id = .ok y) : Good sigs scope here? y := by
  rcases select_cases h with ⟨names, fields, i, _, hty, hi, rfl⟩ |
    ⟨s, w, is, t, place?, _, hty, hnamed, his, hplace, rfl⟩
  · exact good_field hx hty hi
  · exact good_lanes hx hty hnamed his hplace

/-! ### Lists of expressions -/

/-- Expressions that are converted, each to a type of its own. -/
theorem good_convertAll {os : List Nat} {xs ys : List Checked} {ts : List NamedTy}
    (hos : os.length = xs.length) (hlen : xs.length = ts.length)
    (hxs : ∀ x ∈ xs, Good sigs scope here? x) (hts : ∀ t ∈ ts, t.Named)
    (h : convertAll os xs ts = .ok ys) :
    (ys.map (·.term)).length = ts.length ∧
      ∀ p ∈ (ys.map (·.term)).zip (ts.map (·.ty)), Typed sigs scope here? (.term p.1) p.2 := by
  induction ts generalizing os xs ys with
  | nil =>
    cases xs with
    | nil =>
      cases os with
      | nil =>
        cases h
        simp
      | cons o os => simp at hos
    | cons x xs => simp at hlen
  | cons t ts ih =>
    cases xs with
    | nil => simp at hlen
    | cons x xs =>
      cases os with
      | nil => simp at hos
      | cons o os =>
        obtain ⟨y, hy, h⟩ := bind_eq_ok.mp h
        obtain ⟨zs, hzs, h⟩ := bind_eq_ok.mp h
        cases h
        obtain ⟨hgood, hty⟩ := good_convert (hxs x (by simp)) (hts t (by simp)) hy
        obtain ⟨hcount, hall⟩ := ih (by simpa using hos) (by simpa using hlen)
          (fun x hx => hxs x (by simp [hx])) (fun t ht => hts t (by simp [ht])) hzs
        refine ⟨by simpa using hcount, fun p hp => ?_⟩
        simp only [List.map_cons, List.zip_cons_cons, List.mem_cons] at hp
        rcases hp with rfl | hp
        · exact hty ▸ hgood.term
        · exact hall p hp

end Checked
end KernelForge
