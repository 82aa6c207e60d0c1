/-
The checker obeys the rules for ranges.

A constant of the source has one of the types that fill their registers, and the checker writes
out a conversion wherever a value of one type has to become one of another.  So no constant is ever
taken for a narrow integer, and whatever is passed on keeps its type.  Each rule of the checker is
looked at once more, as for types: most of them make something, and then there is nothing to show
but that the operands obey the rules themselves.

Here the scope is that of all declarations of a function, not of those before a place.  A variable
that is not set yet holds nothing, which is within any type.
-/
import KernelForge.Proofs.Program.Ranged

namespace KernelForge

/-! ### Constants -/

namespace Constant

/-- The constant fills the register of its type. -/
structure Fills (c : Constant) : Prop where
  fits : c.Fits
  wide : c.type.isNarrow = false

theorem fills_ofNatural (unsigned long decimal : Bool) (n : Nat) :
    (ofNatural unsigned long decimal n).Fills := by
  refine ⟨fits_ofNatural _ _ _ _, ?_⟩
  unfold ofNatural
  repeat' split
  all_goals rfl

theorem fills_named {name : String} {c : Constant} (h : named? name = some c) : c.Fills := by
  refine ⟨fits_named h, ?_⟩
  unfold named? at h
  split at h
  all_goals cases h
  all_goals rfl

theorem fills_ofText {fp64 : Bool} {kind : Code.NumberKind} {text : String} {c : Constant}
    (h : ofText fp64 kind text = .ok c) : c.Fills := by
  refine ⟨fits_ofText h, ?_⟩
  unfold ofText at h
  cases kind with
  | float =>
    simp only at h
    split at h
    · cases h
    · cases h
      split <;> rfl
  | int =>
    simp only at h
    split at h
    · cases h
    · cases h
      exact (fills_ofNatural _ _ _ _).wide

end Constant

/-! ### Checked expressions -/

/-- A checked expression obeys the rules, as a term and as a place. -/
structure Checked.Ranged (sigs : Signatures) (scope : Scope) (here? : Option Ty) (x : Checked) :
    Prop where
  good : x.Good sigs scope here?
  term : KernelForge.Ranged sigs scope here? (.term x.term) x.type.ty
  place : ∀ p, x.place? = some p → KernelForge.Ranged sigs scope here? (.place p) x.type.ty

namespace Checked

variable {sigs : Signatures} {scope : Scope} {here? : Option Ty} {x y z : Checked} {offset : Nat}

/-- An expression without a place. -/
theorem ranged_value {t : NamedTy} {e : Term} (hnamed : t.Named)
    (hterm : KernelForge.Ranged sigs scope here? (.term e) t.ty) :
    Ranged sigs scope here? { type := t, term := e } :=
  ⟨good_value hnamed hterm.typed, hterm, fun _ hp => by cases hp⟩

/-- An expression that makes its value, of operands that obey the rules. -/
theorem ranged_makes {t : NamedTy} {e : Term}
    (hgood : Good sigs scope here? { type := t, term := e })
    (hmakes : (Phrase.term e).makes = true)
    (hparts : ∀ q ∈ (Phrase.term e).parts, ∃ u, KernelForge.Ranged sigs scope here? q u) :
    Ranged sigs scope here? { type := t, term := e } :=
  ranged_value hgood.named (.make hgood.term hmakes hparts)

theorem ranged_ofConstant {c : Constant} (h : c.Fills) :
    Ranged sigs scope here? (ofConstant c) := by
  obtain ⟨type, elem, cell⟩ := c
  obtain ⟨hfits, hwide⟩ := h
  replace hfits : elem = type.register := hfits
  subst hfits
  exact ranged_value trivial (.const (Scalar.holds_of_wide hwide cell))

theorem ranged_ofVariable {v : Variable} (hnamed : v.type.Named)
    (h : scope v.slot = some v.type.ty) : Ranged sigs scope here? (ofVariable v) := by
  refine ⟨good_ofVariable hnamed h, .var h, fun p hp => ?_⟩
  cases hp
  exact .placeVar h

/-! ### Conversions -/

theorem ranged_convert (hx : Ranged sigs scope here? x) {dst : NamedTy} (hdst : dst.Named)
    (h : x.convert offset dst = .ok y) : Ranged sigs scope here? y := by
  have hgood := (good_convert hx.good hdst h).1
  unfold convert at h
  split at h
  · cases h
    exact hx
  · split at h
    · cases h
      exact ranged_makes hgood rfl (List.forall_mem_singleton.mpr ⟨_, hx.term⟩)
    · rename_i s s' w hty _
      cases h
      -- The scalar is converted first, and then it is repeated.
      have hterm := hx.good.term
      rw [hty] at hterm
      have hcast : KernelForge.Ranged sigs scope here? (.term (.cast s' x.term)) (.scalar s') :=
        .make (.cast hterm rfl rfl rfl) rfl (List.forall_mem_singleton.mpr ⟨_, hx.term⟩)
      refine ranged_value trivial ?_
      refine @KernelForge.Ranged.concat _ _ _ _ _ _ [.scalar s'] rfl ?_ (by simp [Ty.element?])
        (Or.inr rfl)
      intro p hp
      cases List.mem_singleton.mp hp
      exact hcast
    · rename_i a space readOnly b space' readOnly' hty _
      split at h
      · rename_i hcond
        cases h
        have hterm := hx.term
        rw [hty, NamedTy.ty, hcond.1] at hterm
        exact ranged_value hdst (.retag hterm)
      · cases h
    · cases h

/-- What a conversion gives is of the wanted type. -/
theorem ranged_term_convert (hx : Ranged sigs scope here? x) {dst : NamedTy} (hdst : dst.Named)
    (h : x.convert offset dst = .ok y) :
    KernelForge.Ranged sigs scope here? (.term y.term) dst.ty := by
  have hterm := (ranged_convert hx hdst h).term
  rw [(good_convert hx.good hdst h).2] at hterm
  exact hterm

theorem ranged_truth (hx : Ranged sigs scope here? x) (h : x.truth offset = .ok y) :
    KernelForge.Ranged sigs scope here? (.term y.term) (.scalar .bool) := by
  unfold truth at h
  split at h
  · exact ranged_term_convert hx (NamedTy.named_scalar _) h
  · cases h

/-! ### Operators -/

theorem ranged_unary {op : Operator} (hx : Ranged sigs scope here? x)
    (h : x.unary offset op = .ok y) : Ranged sigs scope here? y := by
  have hgood := good_unary hx.good h
  unfold unary at h
  split at h
  · change (if _ then _ else _) = _ at h
    split at h
    · cases h
    · obtain ⟨z, hz, h⟩ := bind_eq_ok.mp h
      cases h
      have hoperand := ranged_term_convert hx (NamedTy.named_scalar _) hz
      exact ranged_makes hgood rfl (List.forall_mem_singleton.mpr ⟨_, hoperand⟩)
  · change (if _ then _ else _) = _ at h
    split at h
    · cases h
    · obtain ⟨z, hz, h⟩ := bind_eq_ok.mp h
      cases h
      have hoperand := ranged_term_convert hx (NamedTy.named_vector _ _) hz
      exact ranged_makes hgood rfl (List.forall_mem_singleton.mpr ⟨_, hoperand⟩)
  · cases h

theorem ranged_not (hx : Ranged sigs scope here? x) (h : x.not offset = .ok y) :
    Ranged sigs scope here? y := by
  have hgood := good_not hx.good h
  obtain ⟨z, hz, h⟩ := bind_eq_ok.mp h
  cases h
  exact ranged_makes hgood rfl (List.forall_mem_singleton.mpr ⟨_, ranged_truth hx hz⟩)

theorem ranged_advance {op : Operator} (hx : Ranged sigs scope here? x)
    (hy : Ranged sigs scope here? y) (h : advance offset op x y = .ok z) :
    Ranged sigs scope here? z := by
  have hgood := good_advance hx.good hy.good h
  unfold advance at h
  split at h
  · split at h
    · cases h
    · obtain ⟨n, hn, h⟩ := bind_eq_ok.mp h
      cases h
      have hcount := ranged_term_convert hy (NamedTy.named_scalar _) hn
      exact ranged_makes hgood rfl (forall_mem_pair ⟨_, hx.term⟩ ⟨_, hcount⟩)
  · cases h

theorem ranged_logical {op : Operator} (hx : Ranged sigs scope here? x)
    (hy : Ranged sigs scope here? y) (h : logical offset op x y = .ok z) :
    Ranged sigs scope here? z := by
  have hgood := good_logical hx.good hy.good h
  obtain ⟨u, -, h⟩ := bind_eq_ok.mp h
  obtain ⟨x', hx', h⟩ := bind_eq_ok.mp h
  obtain ⟨y', hy', h⟩ := bind_eq_ok.mp h
  cases h
  have hleft := ranged_term_convert hx (NamedTy.named_scalar _) hx'
  have hright := ranged_term_convert hy (NamedTy.named_scalar _) hy'
  by_cases hop : op = .lor
  · simp only [if_pos hop] at hgood ⊢
    exact ranged_makes hgood rfl (forall_mem_pair ⟨_, hleft⟩ ⟨_, hright⟩)
  · simp only [if_neg hop] at hgood ⊢
    exact ranged_makes hgood rfl (forall_mem_pair ⟨_, hleft⟩ ⟨_, hright⟩)

theorem named_operandType (t : NamedTy) (s : Scalar) (w : Width) :
    (operandType t (.vector s w)).Named := by
  cases t <;> exact trivial

theorem ranged_arithmetic {op : Operator} (hlog : op.isLogical = false)
    (hx : Ranged sigs scope here? x) (hy : Ranged sigs scope here? y)
    (h : arithmetic offset op x y = .ok z) : Ranged sigs scope here? z := by
  have hgood := good_arithmetic hlog hx.good hy.good h
  unfold arithmetic at h
  split at h
  · split at h
    · cases h
    · obtain ⟨x', hx', h⟩ := bind_eq_ok.mp h
      obtain ⟨y', hy', h⟩ := bind_eq_ok.mp h
      cases h
      have hleft := ranged_term_convert hx (NamedTy.named_scalar _) hx'
      have hright := ranged_term_convert hy (NamedTy.named_scalar _) hy'
      exact ranged_makes hgood rfl (forall_mem_pair ⟨_, hleft⟩ ⟨_, hright⟩)
  · rename_i s w _
    split at h
    · cases h
    · split at h
      · cases h
      · obtain ⟨x', hx', h⟩ := bind_eq_ok.mp h
        obtain ⟨y', hy', h⟩ := bind_eq_ok.mp h
        cases h
        have hleft := ranged_term_convert hx (named_operandType _ s w) hx'
        have hright := ranged_term_convert hy (named_operandType _ s w) hy'
        exact ranged_makes hgood rfl (forall_mem_pair ⟨_, hleft⟩ ⟨_, hright⟩)
  · cases h

theorem ranged_binary {op : Operator} (hx : Ranged sigs scope here? x)
    (hy : Ranged sigs scope here? y) (h : binary offset op x y = .ok z) :
    Ranged sigs scope here? z := by
  unfold binary at h
  split at h
  · exact ranged_logical hx hy h
  · rename_i hlog
    split at h
    · exact ranged_advance hx hy h
    · split at h
      · exact ranged_advance hy hx h
      · exact ranged_arithmetic (by simpa using hlog) hx hy h

theorem ranged_choose_of_common {test : Checked} {common : NamedTy} {xOffset yOffset : Nat}
    (htest : KernelForge.Ranged sigs scope here? (.term test.term) (.scalar .bool))
    (hx : Ranged sigs scope here? x) (hy : Ranged sigs scope here? y) (hnamed : common.Named)
    (h : (do let x ← x.convert xOffset common
             let y ← y.convert yOffset common
             return { type := common, term := .cond test.term x.term y.term }) = Except.ok z) :
    Ranged sigs scope here? z := by
  obtain ⟨x', hx', h⟩ := bind_eq_ok.mp h
  obtain ⟨y', hy', h⟩ := bind_eq_ok.mp h
  cases h
  exact ranged_value hnamed
    (.cond htest (ranged_term_convert hx hnamed hx') (ranged_term_convert hy hnamed hy'))

theorem ranged_choose {test : Checked} {xOffset yOffset : Nat}
    (htest : KernelForge.Ranged sigs scope here? (.term test.term) (.scalar .bool))
    (hx : Ranged sigs scope here? x) (hy : Ranged sigs scope here? y)
    (h : choose test x y xOffset yOffset = .ok z) : Ranged sigs scope here? z := by
  unfold choose at h
  split at h
  · rename_i t ht
    obtain ⟨s, hs⟩ := element?_broadcast ht
    obtain ⟨u, hu, -, hnamed⟩ := NamedTy.ofPlain?_ok hs
    refine ranged_choose_of_common htest hx hy ?_ h
    rw [hu]
    exact hnamed
  · split at h
    · exact ranged_choose_of_common htest hx hy hx.good.named h
    · cases h

/-! ### Casts, places and components -/

theorem ranged_castTo (hx : Ranged sigs scope here? x) {dst : NamedTy} (hdst : dst.Named)
    (h : x.castTo offset dst = .ok y) : Ranged sigs scope here? y := by
  have hgood := good_castTo hx.good hdst h
  unfold castTo at h
  split at h
  · split at h
    · exact ranged_convert hx hdst h
    · cases h
  · exact ranged_convert hx hdst h
  · split at h
    · rename_i elem' space' readOnly' hty
      split at h
      · rename_i hsame
        cases h
        have hterm := hx.term
        rw [hty, NamedTy.ty, hsame] at hterm
        exact ranged_value hdst (.retag hterm)
      · cases h
    · cases h
  · cases h
    exact ranged_makes hgood rfl (List.forall_mem_singleton.mpr ⟨_, hx.term⟩)
  · split at h
    · cases h
      exact hx
    · cases h

/-- What a pointer points to lies in memory, so it is in range. -/
theorem ranged_deref (hx : Ranged sigs scope here? x)
    (hy : KernelForge.Ranged sigs scope here? (.term y.term) (.scalar .long))
    (h : x.deref offset y = .ok z) : Ranged sigs scope here? z := by
  have hgood := good_deref hx.good hy.typed h
  unfold deref at h
  split at h
  · cases h
    have hplace := KernelForge.Ranged.make (hgood.place _ rfl) rfl
      (forall_mem_pair ⟨_, hx.term⟩ ⟨_, hy⟩)
    refine ⟨hgood, .load hplace, fun p hp => ?_⟩
    cases hp
    exact hplace
  · cases h

theorem ranged_subscript (hx : Ranged sigs scope here? x) (hy : Ranged sigs scope here? y)
    (h : x.subscript offset y = .ok z) : Ranged sigs scope here? z := by
  unfold subscript at h
  split at h
  · split at h
    · obtain ⟨i, hi, h⟩ := bind_eq_ok.mp h
      exact ranged_deref hx (ranged_term_convert hy (NamedTy.named_scalar _) hi) h
    · cases h
  · cases h

theorem ranged_addressOf {form : String} (hx : Ranged sigs scope here? x)
    (h : x.addressOf offset form = .ok y) : Ranged sigs scope here? y := by
  have hgood := good_addressOf hx.good h
  unfold addressOf at h
  split at h
  · rename_i space readOnly p hmem hplace
    cases h
    exact ranged_makes hgood rfl (List.forall_mem_singleton.mpr ⟨_, hx.place p hplace⟩)
  · cases h

theorem ranged_field {names : List String} {fields : List NamedTy} {i : Nat} {readOnly : Bool}
    (hx : Ranged sigs scope here? x) (hty : x.type = .struct names fields) (hi : i < names.length) :
    Ranged sigs scope here?
      { type := fields.getD i .void
        term := .field i x.term
        place? := x.place?.map fun p => .field p (NamedTy.tys fields) i
        readOnly
        memory? := x.memory? } := by
  have hnamed := hx.good.named
  have hterm := hx.term
  have hplaces := hx.place
  rw [hty] at hnamed hterm hplaces
  have hlt : i < fields.length := hnamed.1 ▸ hi
  have htys : (NamedTy.tys fields)[i]? = some (fields.getD i .void).ty := by
    rw [NamedTy.tys_eq_map, List.getElem?_map, List.getD_eq_getElem?_getD,
      List.getElem?_eq_getElem hlt]
    rfl
  refine ⟨good_field hx.good hty hi, .field hterm htys, fun p hp => ?_⟩
  obtain ⟨q, hq, rfl⟩ := Option.map_eq_some_iff.mp hp
  exact .placeField (hplaces q hq) htys

theorem ranged_lanes {s : Scalar} {w : Width} {is : List Nat} {t : NamedTy} {readOnly : Bool}
    {place? : Option Place} (hx : Ranged sigs scope here? x) (hty : x.type = .vector s w)
    (hnamed : t.Named) (his : Value.Picks s w.lanes is t.ty)
    (hplace : ∀ p, place? = some p → ∃ q, x.place? = some q ∧ p = .lanes q is) :
    Ranged sigs scope here? { type := t, term := .lanes is x.term, place?, readOnly } := by
  have hterm := hx.term
  have hplaces := hx.place
  rw [hty] at hterm hplaces
  refine ⟨good_lanes hx.good hty hnamed his hplace, .lanes hterm his, fun p hp => ?_⟩
  obtain ⟨q, hq, rfl⟩ := hplace p hp
  exact .placeLanes (hplaces q hq) his

theorem ranged_select {id : Code.Ident} (hx : Ranged sigs scope here? x)
    (h : x.select id = .ok y) : Ranged sigs scope here? y := by
  rcases select_cases h with ⟨names, fields, i, _, hty, hi, rfl⟩ |
    ⟨s, w, is, t, place?, _, hty, hnamed, his, hplace, rfl⟩
  · exact ranged_field hx hty hi
  · exact ranged_lanes hx hty hnamed his hplace

/-! ### Calls and vectors -/

/-- Expressions that are converted, each to a type of its own. -/
theorem ranged_convertAll {os : List Nat} {xs ys : List Checked} {ts : List NamedTy}
    (hos : os.length = xs.length) (hlen : xs.length = ts.length)
    (hxs : ∀ x ∈ xs, Ranged sigs scope here? x) (hts : ∀ t ∈ ts, t.Named)
    (h : convertAll os xs ts = .ok ys) :
    (ys.map (·.term)).length = ts.length ∧
      ∀ p ∈ (ys.map (·.term)).zip (ts.map (·.ty)),
        KernelForge.Ranged sigs scope here? (.term p.1) p.2 := by
  induction ts generalizing os xs ys with
  | nil =>
    cases List.length_eq_zero_iff.mp hlen
    cases List.length_eq_zero_iff.mp hos
    cases h
    exact ⟨rfl, List.forall_mem_nil _⟩
  | cons t ts ih =>
    cases xs with
    | nil => simp at hlen
    | cons x xs =>
      cases os with
      | nil => simp at hos
      | cons o os =>
        obtain ⟨y, hy, h⟩ := bind_eq_ok.mp h
        obtain ⟨zs, hzs, h⟩ := bind_eq_ok.mp h
        cases h
        have hfirst := ranged_term_convert (hxs x (by simp)) (hts t (by simp)) hy
        obtain ⟨hcount, hall⟩ := ih (by simpa using hos) (by simpa using hlen)
          (fun x hx => hxs x (by simp [hx])) (fun t ht => hts t (by simp [ht])) hzs
        exact ⟨by simpa using hcount, List.forall_mem_cons.mpr ⟨hfirst, hall⟩⟩

/-- Each of the terms that some expressions are converted to obeys the rules. -/
theorem exists_ranged_convertAll {os : List Nat} {xs ys : List Checked} {ts : List NamedTy}
    (hos : os.length = xs.length) (hlen : xs.length = ts.length)
    (hxs : ∀ x ∈ xs, Ranged sigs scope here? x) (hts : ∀ t ∈ ts, t.Named)
    (h : convertAll os xs ts = .ok ys) :
    ∀ q ∈ (ys.map (·.term)).map Phrase.term, ∃ u, KernelForge.Ranged sigs scope here? q u := by
  obtain ⟨hcount, hall⟩ := ranged_convertAll hos hlen hxs hts h
  exact exists_ranged_of_zip (by rw [hcount, List.length_map]) hall

variable {paren : Nat}

theorem ranged_callWorkItem {fn : WorkItemFn} (hx : Ranged sigs scope here? x)
    (h : callWorkItem paren fn x = .ok y) : Ranged sigs scope here? y := by
  have hgood := good_callWorkItem hx.good h
  obtain ⟨dim, hdim, h⟩ := bind_eq_ok.mp h
  cases h
  have hterm := ranged_term_convert hx (NamedTy.named_scalar _) hdim
  exact ranged_makes hgood rfl (List.forall_mem_singleton.mpr ⟨_, hterm⟩)

theorem ranged_callConvert {dst : Ty} (hx : Ranged sigs scope here? x)
    (h : callConvert paren dst x = .ok y) : Ranged sigs scope here? y := by
  have hgood := good_callConvert hx.good h
  unfold callConvert at h
  split at h
  · cases h
    exact ranged_makes hgood rfl (List.forall_mem_singleton.mpr ⟨_, hx.term⟩)
  · split at h
    · cases h
      exact ranged_makes hgood rfl (List.forall_mem_singleton.mpr ⟨_, hx.term⟩)
    · cases h
  · cases h

theorem ranged_callMath {fn : Builtin} {offsets : List Nat} {xs : List Checked}
    (hos : offsets.length = xs.length) (hxs : ∀ x ∈ xs, Ranged sigs scope here? x)
    (h : callMath paren fn offsets xs = .ok y) : Ranged sigs scope here? y := by
  have hgood := good_callMath hos (fun x hx => (hxs x hx).good) h
  unfold callMath at h
  split at h
  · cases h
  · rename_i sig hsig
    obtain ⟨ys, hys, h⟩ := bind_eq_ok.mp h
    cases h
    obtain ⟨s, hwf⟩ := Builtin.signature_wellFormed hsig
    have hlen := Builtin.length_params hsig
    rw [List.length_map] at hlen
    refine ranged_makes hgood rfl
      (exists_ranged_convertAll hos (by rw [List.length_map, hlen]) hxs ?_ hys)
    intro t ht
    obtain ⟨u, hu, rfl⟩ := List.mem_map.mp ht
    obtain ⟨v, hv, -, hnamed⟩ := NamedTy.ofPlain?_ok (hwf.params u hu)
    rw [hv]
    exact hnamed

theorem ranged_atomic {fn : AtomicFn} {s : Scalar} {ptr : Checked} {os : List Nat}
    {xs ys : List Checked} {ts : List NamedTy} (hptr : Ranged sigs scope here? ptr)
    (helem : atomicElem paren fn ptr = .ok s) (hxs : ∀ x ∈ xs, Ranged sigs scope here? x)
    (hos : os.length = xs.length) (hts : ts = List.replicate xs.length (.scalar s))
    (hcount : xs.length + 1 = fn.arity) (h : convertAll os xs ts = .ok ys) :
    Ranged sigs scope here?
      { type := .scalar s, term := .atomic fn s ptr.term (ys.map (·.term)) } := by
  have hgood :=
    Env.good_atomic hptr.good helem (fun x hx => (hxs x hx).good) hos hts hcount h
  subst hts
  refine ranged_makes hgood rfl (List.forall_mem_cons.mpr ⟨⟨_, hptr.term⟩, ?_⟩)
  exact exists_ranged_convertAll hos (List.length_replicate).symm hxs
    (fun t ht => (List.eq_of_mem_replicate ht) ▸ NamedTy.named_scalar s) h

/-- A part of a vector has its element, and as many lanes as it counts for. -/
def RangedPart (sigs : Signatures) (scope : Scope) (here? : Option Ty) (s : Scalar)
    (part : Nat × Checked) : Prop :=
  ∃ t, KernelForge.Ranged sigs scope here? (.term part.2.term) t ∧ t.element? = some s ∧
    Value.laneCount t = part.1

theorem rangedPart_vectorPart {vec : Ty} {s : Scalar} {part : Nat × Checked}
    (hx : Ranged sigs scope here? x) (h : vectorPart vec s paren x = .ok part) :
    RangedPart sigs scope here? s part := by
  unfold vectorPart at h
  split at h
  · obtain ⟨y, hy, h⟩ := bind_eq_ok.mp h
    cases h
    exact ⟨.scalar s, ranged_term_convert hx (NamedTy.named_scalar _) hy, rfl, rfl⟩
  · rename_i s' w hty
    split at h
    · rename_i hsame
      cases h
      subst hsame
      have hterm := hx.term
      rw [hty] at hterm
      exact ⟨_, hterm, rfl, rfl⟩
    · cases h
  · cases h

/-- The types of the parts of a vector. -/
theorem exists_ranged_parts {s : Scalar} {parts : List (Nat × Checked)}
    (h : ∀ part ∈ parts, RangedPart sigs scope here? s part) :
    ∃ ts : List Ty, (parts.map fun p => p.2.term).length = ts.length ∧
      (∀ p ∈ (parts.map fun p => p.2.term).zip ts,
        KernelForge.Ranged sigs scope here? (.term p.1) p.2) ∧
      (∀ t ∈ ts, t.element? = some s) ∧ ts.map Value.laneCount = parts.map Prod.fst := by
  induction parts with
  | nil => exact ⟨[], rfl, List.forall_mem_nil _, List.forall_mem_nil _, rfl⟩
  | cons part parts ih =>
    obtain ⟨t, hterm, helem, hcount⟩ := h part List.mem_cons_self
    obtain ⟨ts, hlen, hall, helems, hcounts⟩ := ih fun q hq => h q (List.mem_cons_of_mem _ hq)
    refine ⟨t :: ts, by simpa using hlen, List.forall_mem_cons.mpr ⟨hterm, hall⟩,
      List.forall_mem_cons.mpr ⟨helem, helems⟩, ?_⟩
    rw [List.map_cons, List.map_cons, hcount, hcounts]

theorem ranged_vectorOf {s : Scalar} {w : Width} {parts : List (Nat × Checked)}
    (hparts : ∀ part ∈ parts, RangedPart sigs scope here? s part)
    (h : vectorOf paren s w parts = .ok y) : Ranged sigs scope here? y := by
  unfold vectorOf at h
  simp only at h
  split at h
  · rename_i hcount
    cases h
    obtain ⟨ts, hlen, hall, helems, hcounts⟩ := exists_ranged_parts hparts
    rw [foldl_add_eq_sum, ← hcounts, Nat.zero_add] at hcount
    exact ranged_value trivial (.concat hlen hall helems (Or.inl hcount))
  · cases h

end Checked

/-! ### Expressions of the source -/

namespace Env

open Checked

variable {sigs : Signatures} {scope : Scope} {env : Env} {here? : Option Ty}

theorem ranged_checkName (henv : env.Agrees sigs scope) {id : Code.Ident} {x : Checked}
    (h : env.checkName id = .ok x) : Checked.Ranged sigs scope here? x := by
  unfold checkName at h
  split at h
  · rename_i v hv
    cases h
    obtain ⟨hnamed, hslot⟩ := henv.vars _ v hv
    exact ranged_ofVariable hnamed hslot
  · split at h
    · rename_i c hc
      cases h
      exact ranged_ofConstant (Constant.fills_named hc)
    · cases h

/-- Every rule of the checker obeys the rules for ranges. -/
theorem keeps_ranged (henv : env.Agrees sigs scope) :
    env.Keeps fun _ x => Checked.Ranged sigs scope here? x where
  ident := ranged_checkName henv
  number h := ranged_ofConstant (Constant.fills_ofText h)
  paren hx := hx
  deref hy h := by
    have hzero : Checked.Ranged sigs scope here? (ofConstant (.ofLong 0)) := ranged_ofConstant ⟨rfl, rfl⟩
    exact ranged_deref hy hzero.term h
  addressOf := ranged_addressOf
  not := ranged_not
  unary := ranged_unary
  binary := ranged_binary
  cond ht ht' hy hz h := ranged_choose (ranged_truth ht ht') hy hz h
  cast ht hy h := ranged_castTo hy (named_resolve henv.structs ht) h
  spread _ hy h := ranged_convert hy (NamedTy.named_vector _ _) h
  vector _ hparts h := by
    refine ranged_vectorOf (forall_mem_of_forall₂ (hparts.imp fun e part hpart => ?_)).2 h
    obtain ⟨y, hy, hpart⟩ := hpart
    exact rangedPart_vectorPart hy hpart
  record hs hys hcount h := by
    obtain ⟨hlen, hall⟩ := forall_mem_of_forall₂ hys
    obtain ⟨hnamed, hty, -, hfields⟩ := structNamed_ok henv hs
    obtain ⟨hlength, hterms⟩ := ranged_convertAll (by rw [List.length_map, hlen]) (by rw [hlen, hcount]) hall
      hfields.of_mem h
    refine ranged_value hnamed ?_
    rw [hty, NamedTy.tys_eq_map]
    exact .record (by rw [hlength, List.length_map]) hterms
  index := ranged_subscript
  select := ranged_select
  workItem _ := ranged_callWorkItem
  workDim := ranged_ofConstant ⟨rfl, rfl⟩
  atomic _ hcount hp hs hys h := by
    obtain ⟨hlen, hall⟩ := forall_mem_of_forall₂ hys
    exact ranged_atomic hp hs hall (by rw [List.length_map, hlen]) (by rw [List.map_const', hlen])
      (by rw [hlen]; exact hcount) h
  convert _ := ranged_callConvert
  math _ hys h := by
    obtain ⟨hlen, hall⟩ := forall_mem_of_forall₂ hys
    exact ranged_callMath (by rw [List.length_map, hlen]) hall h
  source hcallee hcount hys h := by
    obtain ⟨hsig, hresult, hparams⟩ := henv.funcs _ _ (lookup_of_source hcallee)
    obtain ⟨hlen, hall⟩ := forall_mem_of_forall₂ hys
    obtain ⟨hlength, hterms⟩ := ranged_convertAll (by rw [List.length_map, hlen]) (by rw [hlen, hcount]) hall
      hparams h
    exact ranged_value hresult (.call hsig (by rw [hlength, List.length_map]) hterms)

/-- **A checked expression obeys the rules**, wherever it stands. -/
theorem ranged_checkExpr (henv : env.Agrees sigs scope) {e : Code.Expr} {x : Checked}
    (h : env.checkExpr e = .ok x) : Checked.Ranged sigs scope here? x :=
  (keeps_ranged henv).checkExpr h

end Env
end KernelForge
