/-
The checker obeys the rules that keep read-only memory as it is.

A pointer is sealed when its type is read-only or in constant memory; only such pointers may
aim at the memory that is kept.  The checker follows this in three ways: conversions never turn a
sealed pointer into one that is not, the places behind sealed pointers are marked read-only, and
an address is as sealed as the pointer that the place was reached by.  Structures hold no pointers,
so that none can be hidden in a field.

A cast may do what a conversion must not, so code with casts to pointer types is left out.  The
theorem of this file is that every other expression which the checker accepts obeys the rules.
-/
import KernelForge.Proofs.Code.TypeUses
import KernelForge.Proofs.Program.Built
import KernelForge.Proofs.Program.Spares

namespace KernelForge

/-! ### Types whose structures hold no pointers -/

namespace Ty

mutual

/-- There is no pointer in the type. -/
def isPointerFree : Ty → Bool
  | pointer _ _ _ => false
  | tuple ts => allPointerFree ts
  | _ => true

def allPointerFree : List Ty → Bool
  | [] => true
  | t :: ts => t.isPointerFree && allPointerFree ts

end

/-- There is no pointer in any structure of the type. -/
def isFlat : Ty → Bool
  | pointer t _ _ => t.isFlat
  | tuple ts => allPointerFree ts
  | _ => true

theorem isFlat_of_isPointerFree {t : Ty} (h : t.isPointerFree = true) : t.isFlat = true := by
  cases t with
  | pointer t space readOnly => cases h
  | tuple ts => exact h
  | void => rfl
  | scalar s => rfl
  | vector s w => rfl

theorem isSealed_of_isPointerFree {t : Ty} (h : t.isPointerFree = true) : t.isSealed = false := by
  cases t with
  | pointer t space readOnly => cases h
  | tuple ts => rfl
  | void => rfl
  | scalar s => rfl
  | vector s w => rfl

theorem isPointerFree_of_mem {ts : List Ty} (h : allPointerFree ts = true) {t : Ty} (ht : t ∈ ts) :
    t.isPointerFree = true := by
  induction ts with
  | nil => cases ht
  | cons u ts ih =>
    rw [allPointerFree, Bool.and_eq_true] at h
    rcases List.mem_cons.mp ht with rfl | ht
    · exact h.1
    · exact ih h.2 ht

theorem allPointerFree_iff {ts : List Ty} :
    allPointerFree ts = true ↔ ∀ t ∈ ts, t.isPointerFree = true := by
  refine ⟨fun h t ht => isPointerFree_of_mem h ht, fun h => ?_⟩
  induction ts with
  | nil => rfl
  | cons u ts ih =>
    rw [allPointerFree, Bool.and_eq_true]
    exact ⟨h u (by simp), ih fun t ht => h t (by simp [ht])⟩

end Ty

theorem NamedTy.isPointerFree_ofPlain {t : Ty} {u : NamedTy} (h : NamedTy.ofPlain? t = some u) :
    u.ty.isPointerFree = true := by
  unfold NamedTy.ofPlain? at h
  split at h
  all_goals cases h
  all_goals rfl

/-! ### Checked expressions -/

/-- What the checker makes of an expression obeys the rules.  A place that may lie in the memory
is read-only, and so is a pointer to it. -/
structure Checked.Wary (sigs : Signatures) (seals : Nat → Bool) (here : Bool) (x : Checked) :
    Prop where
  flat : x.type.ty.isFlat = true
  term : KernelForge.Wary sigs seals here (.term x.term x.type.ty.isSealed)
  place : ∀ p, x.place? = some p → ∃ inside,
    KernelForge.Wary sigs seals here (.place p inside x.type.ty.isSealed) ∧
      (inside = true → x.readOnly = true) ∧
      ∀ space readOnly, x.memory? = some (space, readOnly) →
        inside = true → (readOnly || space = .constant) = true

namespace Checked

variable {sigs : Signatures} {seals : Nat → Bool} {here : Bool} {x y z : Checked} {offset : Nat}

/-- An expression without a place. -/
theorem wary_value {t : NamedTy} {e : Term} (hflat : t.ty.isFlat = true)
    (hterm : KernelForge.Wary sigs seals here (.term e t.ty.isSealed)) :
    Wary sigs seals here { type := t, term := e } :=
  ⟨hflat, hterm, nofun⟩

/-- Any term may stand where pointers to the memory are no matter. -/
theorem Wary.any (hx : Wary sigs seals here x) : KernelForge.Wary sigs seals here (.term x.term true) := by
  have hterm := hx.term
  cases hseal : x.type.ty.isSealed with
  | true =>
    rw [hseal] at hterm
    exact hterm
  | false =>
    rw [hseal] at hterm
    exact .weaken hterm

theorem wary_ofConstant (c : Constant) : Wary sigs seals here (ofConstant c) :=
  wary_value rfl .const

theorem wary_ofVariable {v : Variable} (hflat : v.type.ty.isFlat = true)
    (hslot : seals v.slot = v.type.ty.isSealed) : Wary sigs seals here (ofVariable v) := by
  have hterm : KernelForge.Wary sigs seals here (.term (.var v.slot) (seals v.slot)) := .var
  have hplace : KernelForge.Wary sigs seals here (.place (.var v.slot) false (seals v.slot)) :=
    .placeVar
  rw [hslot] at hterm hplace
  refine ⟨hflat, hterm, fun p hp => ?_⟩
  cases hp
  exact ⟨false, hplace, nofun, nofun⟩

/-! ### Conversions -/

/-- A conversion gives an expression of the wanted type. -/
theorem ty_convert {dst : NamedTy} (h : x.convert offset dst = .ok y) : y.type.ty = dst.ty := by
  unfold convert at h
  split at h
  · rename_i hsame
    cases h
    exact hsame
  · split at h
    · cases h
      rfl
    · cases h
      rfl
    · split at h
      · cases h
        rfl
      · cases h
    · cases h

/-- A conversion never opens a sealed pointer. -/
theorem wary_convert (hx : Wary sigs seals here x) {dst : NamedTy} (hdst : dst.ty.isFlat = true)
    (h : x.convert offset dst = .ok y) : Wary sigs seals here y := by
  unfold convert at h
  split at h
  · cases h
    exact hx
  · split at h
    · cases h
      exact wary_value rfl (.cast hx.any)
    · cases h
      refine wary_value rfl (.concat fun t ht => ?_)
      rw [List.mem_singleton.mp ht]
      exact .cast hx.any
    · rename_i a space readOnly b space' readOnly' hty _
      split at h
      · rename_i hcond
        obtain ⟨-, rfl, hro⟩ := hcond
        cases h
        refine wary_value hdst ?_
        cases hseal : (NamedTy.pointer b space readOnly').ty.isSealed with
        | true => exact hx.any
        | false =>
          -- The new pointer is not sealed, so the old one was not either.
          have hterm := hx.term
          have hold : x.type.ty.isSealed = false := by
            rw [hty]
            simp only [NamedTy.ty, Ty.isSealed, Bool.or_eq_false_iff] at hseal ⊢
            refine ⟨?_, hseal.2⟩
            rw [hseal.1] at hro
            simpa using hro
          rw [hold] at hterm
          exact hterm
      · cases h
    · cases h

/-- What a conversion gives is as sealed as the wanted type. -/
theorem wary_term_convert (hx : Wary sigs seals here x) {dst : NamedTy}
    (hdst : dst.ty.isFlat = true) (h : x.convert offset dst = .ok y) :
    KernelForge.Wary sigs seals here (.term y.term dst.ty.isSealed) := by
  have hterm := (wary_convert hx hdst h).term
  rw [ty_convert h] at hterm
  exact hterm

theorem wary_truth (hx : Wary sigs seals here x) (h : x.truth offset = .ok y) :
    KernelForge.Wary sigs seals here (.term y.term true) := by
  unfold truth at h
  split at h
  · exact (wary_convert hx rfl h).any
  · cases h

/-! ### Operators -/

theorem wary_unary {op : Operator} (hx : Wary sigs seals here x) (h : x.unary offset op = .ok y) :
    Wary sigs seals here y := by
  unfold unary at h
  split at h
  · change (if _ then _ else _) = _ at h
    split at h
    · cases h
    · obtain ⟨z, hz, h⟩ := bind_eq_ok.mp h
      cases h
      exact wary_value rfl (.unary (wary_convert hx rfl hz).any)
  · change (if _ then _ else _) = _ at h
    split at h
    · cases h
    · obtain ⟨z, hz, h⟩ := bind_eq_ok.mp h
      cases h
      exact wary_value rfl (.unary (wary_convert hx rfl hz).any)
  · cases h

theorem wary_not (hx : Wary sigs seals here x) (h : x.not offset = .ok y) :
    Wary sigs seals here y := by
  obtain ⟨z, hz, h⟩ := bind_eq_ok.mp h
  cases h
  exact wary_value rfl (.unary (wary_truth hx hz))

/-- A pointer that is moved stays sealed. -/
theorem wary_advance {op : Operator} (hx : Wary sigs seals here x) (hy : Wary sigs seals here y)
    (h : advance offset op x y = .ok z) : Wary sigs seals here z := by
  unfold advance at h
  split at h
  · split at h
    · cases h
    · obtain ⟨n, hn, h⟩ := bind_eq_ok.mp h
      cases h
      exact wary_value hx.flat (.advance hx.term (wary_convert hy rfl hn).any)
  · cases h

theorem wary_logical {op : Operator} (hx : Wary sigs seals here x) (hy : Wary sigs seals here y)
    (h : logical offset op x y = .ok z) : Wary sigs seals here z := by
  obtain ⟨u, -, h⟩ := bind_eq_ok.mp h
  obtain ⟨x', hx', h⟩ := bind_eq_ok.mp h
  obtain ⟨y', hy', h⟩ := bind_eq_ok.mp h
  cases h
  have hleft := (wary_convert hx rfl hx').any
  have hright := (wary_convert hy rfl hy').any
  refine wary_value rfl ?_
  split
  · exact .or hleft hright
  · exact .and hleft hright

theorem isFlat_operandType (t : NamedTy) (s : Scalar) (w : Width) :
    (operandType t (.vector s w)).ty.isFlat = true := by
  cases t <;> rfl

theorem wary_arithmetic {op : Operator} (hx : Wary sigs seals here x) (hy : Wary sigs seals here y)
    (h : arithmetic offset op x y = .ok z) : Wary sigs seals here z := by
  unfold arithmetic at h
  split at h
  · split at h
    · cases h
    · obtain ⟨x', hx', h⟩ := bind_eq_ok.mp h
      obtain ⟨y', hy', h⟩ := bind_eq_ok.mp h
      cases h
      exact wary_value rfl (.binary (wary_convert hx rfl hx').any (wary_convert hy rfl hy').any)
  · rename_i s w _
    split at h
    · cases h
    · split at h
      · cases h
      · obtain ⟨x', hx', h⟩ := bind_eq_ok.mp h
        obtain ⟨y', hy', h⟩ := bind_eq_ok.mp h
        cases h
        have hleft := (wary_convert hx (isFlat_operandType _ s w) hx').any
        have hright := (wary_convert hy (isFlat_operandType _ s w) hy').any
        exact wary_value rfl (.binary hleft hright)
  · cases h

theorem wary_binary {op : Operator} (hx : Wary sigs seals here x) (hy : Wary sigs seals here y)
    (h : binary offset op x y = .ok z) : Wary sigs seals here z := by
  unfold binary at h
  split at h
  · exact wary_logical hx hy h
  · split at h
    · exact wary_advance hx hy h
    · split at h
      · exact wary_advance hy hx h
      · exact wary_arithmetic hx hy h

/-- The choice between two pointers of one type is as sealed as they are. -/
theorem wary_choose_of_common {test : Checked} {common : NamedTy} {xOffset yOffset : Nat}
    (htest : KernelForge.Wary sigs seals here (.term test.term true))
    (hx : Wary sigs seals here x) (hy : Wary sigs seals here y)
    (hflat : common.ty.isFlat = true)
    (h : (do let x ← x.convert xOffset common
             let y ← y.convert yOffset common
             return { type := common, term := .cond test.term x.term y.term }) = Except.ok z) :
    Wary sigs seals here z := by
  obtain ⟨x', hx', h⟩ := bind_eq_ok.mp h
  obtain ⟨y', hy', h⟩ := bind_eq_ok.mp h
  cases h
  exact wary_value hflat (.cond htest (wary_term_convert hx hflat hx') (wary_term_convert hy hflat hy'))

theorem wary_choose {test : Checked} {xOffset yOffset : Nat}
    (htest : KernelForge.Wary sigs seals here (.term test.term true))
    (hx : Wary sigs seals here x) (hy : Wary sigs seals here y)
    (h : choose test x y xOffset yOffset = .ok z) : Wary sigs seals here z := by
  unfold choose at h
  split at h
  · rename_i t _
    refine wary_choose_of_common htest hx hy ?_ h
    cases hplain : NamedTy.ofPlain? t with
    | none => exact hx.flat
    | some u => exact Ty.isFlat_of_isPointerFree (NamedTy.isPointerFree_ofPlain hplain)
  · split at h
    · exact wary_choose_of_common htest hx hy hx.flat h
    · cases h

/-! ### Casts, places and components -/

theorem wary_castTo (hx : Wary sigs seals here x) {dst : NamedTy} (hflat : dst.ty.isFlat = true)
    (hdst : dst.isPointer = false) (h : x.castTo offset dst = .ok y) : Wary sigs seals here y := by
  unfold castTo at h
  split at h
  · split at h
    · exact wary_convert hx hflat h
    · cases h
  · exact wary_convert hx hflat h
  · cases hdst
  · cases h
    exact wary_value rfl (.discard hx.any)
  · split at h
    · cases h
      exact hx
    · cases h

/-- The place behind a sealed pointer is read-only. -/
theorem wary_deref (hx : Wary sigs seals here x)
    (hy : KernelForge.Wary sigs seals here (.term y.term true)) (h : x.deref offset y = .ok z) :
    Wary sigs seals here z := by
  unfold deref at h
  split at h
  · rename_i elem space readOnly hty
    cases h
    have hterm := hx.term
    have hflat := hx.flat
    rw [hty] at hterm hflat
    refine ⟨hflat, .load (.placeDeref hterm hy), fun p hp => ?_⟩
    cases hp
    refine ⟨_, .placeDeref hterm hy, id, fun space' readOnly' hmem hin => ?_⟩
    cases hmem
    exact hin
  · cases h

theorem wary_subscript (hx : Wary sigs seals here x) (hy : Wary sigs seals here y)
    (h : x.subscript offset y = .ok z) : Wary sigs seals here z := by
  unfold subscript at h
  split at h
  · split at h
    · obtain ⟨i, hi, h⟩ := bind_eq_ok.mp h
      exact wary_deref hx (wary_convert hy rfl hi).any h
    · cases h
  · cases h

/-- An address is as sealed as the pointer that the place was reached by. -/
theorem wary_addressOf {form : String} (hx : Wary sigs seals here x)
    (h : x.addressOf offset form = .ok y) : Wary sigs seals here y := by
  unfold addressOf at h
  split at h
  · rename_i space readOnly p hmem hplace
    cases h
    obtain ⟨inside, hp, -, hsealed⟩ := hx.place p hplace
    refine wary_value hx.flat ?_
    have haddress : KernelForge.Wary sigs seals here (.term (.address p) inside) := .address hp
    show KernelForge.Wary sigs seals here (.term (.address p) (readOnly || space = .constant))
    cases inside with
    | true =>
      rw [hsealed space readOnly hmem rfl]
      exact haddress
    | false =>
      cases readOnly || space = .constant with
      | true => exact .weaken haddress
      | false => exact haddress
  · cases h

/-- A field holds no pointers, and its place is as read-only as that of its structure. -/
theorem wary_field {names : List String} {fields : List NamedTy} {i : Nat}
    (hx : Wary sigs seals here x) (hty : x.type = .struct names fields) :
    Wary sigs seals here
      { type := fields.getD i .void
        term := .field i x.term
        place? := x.place?.map fun p => .field p (NamedTy.tys fields) i
        readOnly := x.readOnly
        memory? := x.memory? } := by
  have hflat := hx.flat
  have hterm := hx.term
  have hplaces := hx.place
  rw [hty] at hflat hterm hplaces
  have hfree : (fields.getD i .void).ty.isPointerFree = true := by
    rw [List.getD_eq_getElem?_getD]
    cases hi : fields[i]? with
    | none => rfl
    | some t =>
      refine Ty.isPointerFree_of_mem hflat ?_
      rw [NamedTy.tys_eq_map]
      exact List.mem_map.mpr ⟨t, List.mem_of_getElem? hi, rfl⟩
  have hseal := Ty.isSealed_of_isPointerFree hfree
  refine ⟨Ty.isFlat_of_isPointerFree hfree, ?_, fun p hp => ?_⟩
  · rw [hseal]
    exact .field hterm
  · obtain ⟨q, hq, rfl⟩ := Option.map_eq_some_iff.mp hp
    obtain ⟨inside, hwary, hro, hmem⟩ := hplaces q hq
    refine ⟨inside, ?_, hro, hmem⟩
    rw [hseal]
    exact .placeField hwary

theorem wary_lanes {is : List Nat} {t : NamedTy} {place? : Option Place}
    (hx : Wary sigs seals here x) (hfree : t.ty.isPointerFree = true)
    (hplace : ∀ p, place? = some p → ∃ q, x.place? = some q ∧ p = .lanes q is) :
    Wary sigs seals here
      { type := t, term := .lanes is x.term, place?, readOnly := x.readOnly } := by
  refine ⟨Ty.isFlat_of_isPointerFree hfree, .lanes hx.any, fun p hp => ?_⟩
  obtain ⟨q, hq, rfl⟩ := hplace p hp
  obtain ⟨inside, hwary, hro, -⟩ := hx.place q hq
  exact ⟨inside, .placeLanes hwary, hro, nofun⟩

theorem wary_select {id : Code.Ident} (hx : Wary sigs seals here x) (h : x.select id = .ok y) :
    Wary sigs seals here y := by
  unfold select at h
  split at h
  · rename_i names fields hty
    split at h
    · cases h
    · cases h
      exact wary_field hx hty
  · split at h
    · cases h
    · rename_i lanes _
      have hplace : ∀ p,
          (if Component.distinct lanes then x.place?.map (Place.lanes · lanes) else none) = some p →
            ∃ q, x.place? = some q ∧ p = Place.lanes q lanes := by
        intro p hp
        split at hp
        · obtain ⟨q, hq, rfl⟩ := Option.map_eq_some_iff.mp hp
          exact ⟨q, hq, rfl⟩
        · cases hp
      generalize (if Component.distinct lanes then x.place?.map (Place.lanes · lanes) else none) = place?
        at h hplace
      split at h
      · cases h
        exact wary_lanes hx rfl hplace
      · split at h
        · cases h
          exact wary_lanes hx rfl hplace
        · cases h
  · cases h

/-! ### Lists of expressions -/

theorem wary_convertAll {os : List Nat} {xs ys : List Checked} {ts : List NamedTy}
    (hxs : ∀ x ∈ xs, Wary sigs seals here x) (hts : ∀ t ∈ ts, t.ty.isFlat = true)
    (h : convertAll os xs ts = .ok ys) : ∀ y ∈ ys, Wary sigs seals here y := by
  fun_induction convertAll os xs ts generalizing ys with
  | case1 o os x xs t ts ih =>
    obtain ⟨y, hy, h⟩ := bind_eq_ok.mp h
    obtain ⟨zs, hzs, h⟩ := bind_eq_ok.mp h
    cases h
    intro z hz
    rcases List.mem_cons.mp hz with rfl | hz
    · exact wary_convert (hxs x (by simp)) (hts t (by simp)) hy
    · exact ih (fun x hx => hxs x (by simp [hx])) (fun t ht => hts t (by simp [ht])) hzs z hz
  | case2 os xs ts hnone =>
    cases h
    simp

theorem types_convertAll {os : List Nat} {xs ys : List Checked} {ts : List NamedTy}
    (hos : os.length = xs.length) (hlen : xs.length = ts.length)
    (h : convertAll os xs ts = .ok ys) : ys.map (·.type.ty) = ts.map (·.ty) := by
  fun_induction convertAll os xs ts generalizing ys with
  | case1 o os x xs t ts ih =>
    obtain ⟨y, hy, h⟩ := bind_eq_ok.mp h
    obtain ⟨zs, hzs, h⟩ := bind_eq_ok.mp h
    cases h
    rw [List.map_cons, List.map_cons, ty_convert hy,
      ih (by simpa using hos) (by simpa using hlen) hzs]
  | case2 os xs ts hnone =>
    cases h
    cases ts with
    | nil => rfl
    | cons t ts =>
      cases xs with
      | nil => simp at hlen
      | cons x xs =>
        cases os with
        | nil => simp at hos
        | cons o os => exact absurd rfl (hnone o os x xs t ts rfl rfl)

/-- Arguments of the types of the parameters. -/
theorem wary_args {ys : List Checked} {ts : List Ty} (hys : ∀ y ∈ ys, Wary sigs seals here y)
    (hts : ys.map (·.type.ty) = ts) :
    ∀ p ∈ (ys.map (·.term)).zip ts, KernelForge.Wary sigs seals here (.term p.1 p.2.isSealed) := by
  subst hts
  intro p hp
  rw [List.zip_map', List.mem_map] at hp
  obtain ⟨y, hy, rfl⟩ := hp
  exact (hys y hy).term

end Checked

/-! ### Casts -/

namespace Code

/-- No cast is to a pointer type. -/
def NoPointerCasts (uses : List (TypeUse × TypeSpec)) : Prop :=
  ∀ spec, (.cast, spec) ∈ uses → spec.pointer = false

namespace NoPointerCasts

variable {us vs : List (TypeUse × TypeSpec)} {u : TypeUse × TypeSpec}

theorem left (h : NoPointerCasts (us ++ vs)) : NoPointerCasts us :=
  fun spec hspec => h spec (List.mem_append_left _ hspec)

theorem right (h : NoPointerCasts (us ++ vs)) : NoPointerCasts vs :=
  fun spec hspec => h spec (List.mem_append_right _ hspec)

theorem tail (h : NoPointerCasts (u :: us)) : NoPointerCasts us :=
  fun spec hspec => h spec (List.mem_cons_of_mem _ hspec)

theorem of_mem {es : List Expr} (h : NoPointerCasts (Expr.allTypeUses es)) :
    ∀ e ∈ es, NoPointerCasts e.typeUses := by
  induction es with
  | nil => simp
  | cons e es ih => exact List.forall_mem_cons.mpr ⟨h.left, ih h.right⟩

end NoPointerCasts
end Code

/-! ### Environments -/

/-- What an environment knows obeys the rules: structures are free of pointers, variables have the
flags of their types, and functions have the signatures that callers rely on.  `aims` is the flag
of the result. -/
structure Env.Wary (sigs : Signatures) (seals : Nat → Bool) (aims : Bool) (env : Env) : Prop where
  structs : ∀ name t, env.structs.lookup name = some t → t.ty.isPointerFree = true
  vars : ∀ name v, env.find? name = some v →
    v.type.ty.isFlat = true ∧ seals v.slot = v.type.ty.isSealed
  funcs : ∀ name h, env.funcs.lookup name = some h →
    sigs name = some (h.params.map (·.ty), h.result.ty) ∧ h.result.ty.isFlat = true ∧
      ∀ t ∈ h.params, t.ty.isFlat = true
  result : env.result.ty.isFlat = true
  aims : env.result.ty.isSealed = aims

namespace Env

open Checked Code

variable {sigs : Signatures} {seals : Nat → Bool} {aims here : Bool} {env env' inner : Env}

theorem isPointerFree_typeNamed
    (hstructs : ∀ name t, env.structs.lookup name = some t → t.ty.isPointerFree = true)
    {name : String} {t : NamedTy} (h : env.typeNamed? name = some t) :
    t.ty.isPointerFree = true := by
  unfold typeNamed? at h
  split at h
  · rename_i t' ht'
    cases h
    exact hstructs name t ht'
  · split at h
    · cases h
      rfl
    · obtain ⟨u, -, hu⟩ := Option.bind_eq_some_iff.mp h
      exact NamedTy.isPointerFree_ofPlain hu

theorem flat_resolve
    (hstructs : ∀ name t, env.structs.lookup name = some t → t.ty.isPointerFree = true)
    {spec : TypeSpec} {t : NamedTy} (h : env.resolve spec = .ok t) :
    t.ty.isFlat = true ∧ (spec.pointer = false → t.ty.isPointerFree = true) := by
  unfold resolve at h
  split at h
  · cases h
  · rename_i u hu
    have hfree := isPointerFree_typeNamed hstructs hu
    split at h
    · cases h
    · split at h
      · cases h
        exact ⟨Ty.isFlat_of_isPointerFree hfree, fun _ => hfree⟩
      · rename_i hpointer
        split at h
        · cases h
        · cases h
          have hflat : u.ty.isFlat = true := Ty.isFlat_of_isPointerFree hfree
          exact ⟨hflat, fun hnone => by simp [hnone] at hpointer⟩

theorem isPointer_of_isPointerFree {t : NamedTy} (h : t.ty.isPointerFree = true) :
    t.isPointer = false := by
  cases t with
  | pointer t space readOnly => cases h
  | void => rfl
  | scalar s => rfl
  | vector s w => rfl
  | struct names fields => rfl

/-! ### Expressions -/

theorem wary_checkName (henv : env.Wary sigs seals aims) {id : Ident} {x : Checked}
    (h : env.checkName id = .ok x) : Checked.Wary sigs seals here x := by
  unfold checkName at h
  split at h
  · rename_i v hv
    cases h
    obtain ⟨hflat, hslot⟩ := henv.vars _ v hv
    exact wary_ofVariable hflat hslot
  · split at h
    · cases h
      exact wary_ofConstant _
    · cases h

theorem wary_structNamed (henv : env.Wary sigs seals aims) {offset count : Nat} {spec : TypeSpec}
    {t : NamedTy} {fields : List NamedTy}
    (h : env.structNamed offset spec count = .ok (t, fields)) :
    t.ty = .tuple (NamedTy.tys fields) ∧ ∀ u ∈ fields, u.ty.isPointerFree = true := by
  obtain ⟨u, hu, h⟩ := bind_eq_ok.mp h
  have hflat := (flat_resolve henv.structs hu).1
  split at h
  · split at h
    · cases h
    · split at h
      · cases h
      · cases h
        refine ⟨rfl, fun u hu => Ty.isPointerFree_of_mem hflat ?_⟩
        rw [NamedTy.tys_eq_map]
        exact List.mem_map.mpr ⟨u, hu, rfl⟩
  · cases h

/-- The pointer of an atomic function is not sealed. -/
theorem isSealed_atomicElem {paren : Nat} {fn : AtomicFn} {x : Checked} {s : Scalar}
    (h : atomicElem paren fn x = .ok s) : x.type.ty.isSealed = false := by
  unfold atomicElem at h
  split at h
  · rename_i s' space readOnly hty
    split at h
    · cases h
    · rename_i hcond
      rw [hty]
      cases space <;> cases readOnly <;> simp_all [NamedTy.ty, Ty.isSealed]
  · cases h
  · cases h

theorem wary_callMath {paren : Nat} {fn : Builtin} {offsets : List Nat} {xs : List Checked}
    {y : Checked} (hxs : ∀ x ∈ xs, Checked.Wary sigs seals here x)
    (h : callMath paren fn offsets xs = .ok y) : Checked.Wary sigs seals here y := by
  have hplain : ∀ t : Ty, ((NamedTy.ofPlain? t).getD .void).ty.isPointerFree = true := by
    intro t
    cases ht : NamedTy.ofPlain? t with
    | none => rfl
    | some u => exact NamedTy.isPointerFree_ofPlain ht
  unfold callMath at h
  split at h
  · cases h
  · obtain ⟨ys, hys, h⟩ := bind_eq_ok.mp h
    cases h
    have hargs := wary_convertAll hxs
      (by
        intro t ht
        obtain ⟨u, -, rfl⟩ := List.mem_map.mp ht
        exact Ty.isFlat_of_isPointerFree (hplain u)) hys
    refine wary_value (Ty.isFlat_of_isPointerFree (hplain _)) (.math fun t ht => ?_)
    obtain ⟨z, hz, rfl⟩ := List.mem_map.mp ht
    exact (hargs z hz).any

theorem wary_callConvert {paren : Nat} {dst : Ty} {x y : Checked}
    (hx : Checked.Wary sigs seals here x) (h : callConvert paren dst x = .ok y) :
    Checked.Wary sigs seals here y := by
  unfold callConvert at h
  split at h
  · cases h
    exact wary_value rfl (.cast hx.any)
  · split at h
    · cases h
      exact wary_value rfl (.cast hx.any)
    · cases h
  · cases h

theorem wary_vectorPart {vec : Ty} {s : Scalar} {offset : Nat} {x : Checked}
    {part : Nat × Checked} (hx : Checked.Wary sigs seals here x)
    (h : vectorPart vec s offset x = .ok part) :
    KernelForge.Wary sigs seals here (.term part.2.term true) := by
  unfold vectorPart at h
  split at h
  · obtain ⟨y, hy, h⟩ := bind_eq_ok.mp h
    cases h
    exact (wary_convert hx rfl hy).any
  · split at h
    · cases h
      exact hx.any
    · cases h
  · cases h

theorem wary_vectorOf {offset : Nat} {s : Scalar} {w : Width} {parts : List (Nat × Checked)}
    {y : Checked}
    (hparts : ∀ q ∈ parts, KernelForge.Wary sigs seals here (.term q.2.term true))
    (h : vectorOf offset s w parts = .ok y) : Checked.Wary sigs seals here y := by
  unfold vectorOf at h
  simp only at h
  split at h
  · cases h
    refine wary_value rfl (.concat fun t ht => ?_)
    obtain ⟨q, hq, rfl⟩ := List.mem_map.mp ht
    exact hparts q hq
  · cases h

/-- Every rule of the checker obeys the rules, as long as nothing is cast to a pointer. -/
theorem keeps_wary (henv : env.Wary sigs seals aims) :
    env.Keeps fun e x => NoPointerCasts e.typeUses → Checked.Wary sigs seals here x where
  ident h _ := wary_checkName henv h
  number _ _ := wary_ofConstant _
  paren hx huses := hx huses
  deref hy h huses := wary_deref (hy huses) (wary_ofConstant (.ofLong 0)).any h
  addressOf hy h huses := wary_addressOf (hy huses) h
  not hy h huses := wary_not (hy huses) h
  unary hy h huses := wary_unary (hy huses) h
  binary hy hz h huses := wary_binary (hy huses.left) (hz huses.right) h
  cond ht ht' hy hz h huses :=
    wary_choose (wary_truth (ht huses.left) ht') (hy huses.right.left) (hz huses.right.right) h
  cast {o spec e t y x} ht hy h huses := by
    obtain ⟨hflat, hfree⟩ := flat_resolve henv.structs ht
    have hdst := isPointer_of_isPointerFree (hfree (huses spec (by simp [Expr.typeUses])))
    exact wary_castTo (hy huses.tail) hflat hdst h
  spread _ hy h huses := wary_convert (hy (huses.tail.of_mem _ List.mem_cons_self)) rfl h
  vector {o spec es s w parts x} _ hparts h huses := by
    refine wary_vectorOf (forall_mem_of_imp (hparts.imp fun e part hpart he => ?_) huses.tail.of_mem).2 h
    obtain ⟨y, hy, hpart⟩ := hpart
    exact wary_vectorPart (hy he) hpart
  record {o spec es t ts ys xs} hs hys hcount h huses := by
    obtain ⟨hlen, hall⟩ := forall_mem_of_imp hys huses.tail.of_mem
    obtain ⟨hty, hfree⟩ := wary_structNamed henv hs
    have htuple : t.ty.isPointerFree = true := by
      rw [hty, NamedTy.tys_eq_map]
      exact Ty.allPointerFree_iff.mpr (List.forall_mem_map.mpr hfree)
    have htypes := types_convertAll (by rw [List.length_map, hlen]) (by rw [hlen, hcount]) h
    have hfields := wary_convertAll hall (fun u hu => Ty.isFlat_of_isPointerFree (hfree u hu)) h
    refine wary_value (Ty.isFlat_of_isPointerFree htuple) ?_
    rw [Ty.isSealed_of_isPointerFree htuple]
    refine .record (List.forall_mem_map.mpr fun y hy => ?_)
    obtain ⟨u, hu, htype⟩ := List.mem_map.mp (htypes ▸ List.mem_map_of_mem hy)
    have hterm := (hfields y hy).term
    rwa [← htype, Ty.isSealed_of_isPointerFree (hfree u hu)] at hterm
  index hy hz h huses := wary_subscript (hy huses.left) (hz huses.right) h
  select hy h huses := wary_select (hy huses) h
  workItem _ hy h huses := by
    obtain ⟨d, hd, h⟩ := bind_eq_ok.mp h
    cases h
    exact wary_value rfl (.workItem (wary_convert (hy (huses.of_mem _ List.mem_cons_self)) rfl hd).any)
  workDim _ := wary_ofConstant _
  atomic _ _ hp hs hys h huses := by
    obtain ⟨hfirst, hrest⟩ := List.forall_mem_cons.mp huses.of_mem
    have hptr := (hp hfirst).term
    rw [isSealed_atomicElem hs] at hptr
    have hargs := wary_convertAll (forall_mem_of_imp hys hrest).2
      (List.forall_mem_map.mpr fun _ _ => rfl) h
    exact wary_value rfl (.atomic hptr (List.forall_mem_map.mpr fun y hy => (hargs y hy).any))
  convert _ hy h huses := wary_callConvert (hy (huses.of_mem _ List.mem_cons_self)) h
  math _ hys h huses := wary_callMath (forall_mem_of_imp hys huses.of_mem).2 h
  source {fn paren name header es ys xs} hcallee hcount hys h huses := by
    obtain ⟨hsig, hresult, hparams⟩ := henv.funcs _ _ (lookup_of_source hcallee)
    obtain ⟨hlen, hall⟩ := forall_mem_of_imp hys huses.of_mem
    have htypes := types_convertAll (by rw [List.length_map, hlen]) (by rw [hlen, hcount]) h
    have hlength : (xs.map (·.term)).length = (header.params.map (·.ty)).length := by
      rw [← htypes, List.length_map, List.length_map]
    exact wary_value hresult (.call hsig hlength (wary_args (wary_convertAll hall hparams h) htypes))

/-- **A checked expression obeys the rules.** -/
theorem wary_checkExpr (henv : env.Wary sigs seals aims) {e : Expr} {x : Checked}
    (huses : NoPointerCasts e.typeUses) (h : env.checkExpr e = .ok x) : Checked.Wary sigs seals here x :=
  (keeps_wary henv).checkExpr h huses

end Env
end KernelForge
