/-
Expressions of the source.

What is known of the names in scope, the functions and the structures is the environment; an
environment *agrees* with a scope when its variables are where the scope says, with the types
that the scope says.  An expression that is checked in such an environment has its type in the
scope: each rule of the checker keeps that.
-/
import KernelForge.Proofs.Program.Accepted
import KernelForge.Proofs.Program.CheckedTerms

namespace KernelForge

/-! ### Constants -/

namespace Constant

theorem fits_ofNatural (unsigned long decimal : Bool) (n : Nat) :
    (ofNatural unsigned long decimal n).Fits := by
  unfold ofNatural
  repeat' split
  all_goals rfl

theorem fits_named {name : String} {c : Constant} (h : named? name = some c) : c.Fits := by
  unfold named? at h
  split at h
  all_goals cases h
  all_goals rfl

theorem fits_ofText {fp64 : Bool} {kind : Code.NumberKind} {text : String} {c : Constant}
    (h : ofText fp64 kind text = .ok c) : c.Fits := by
  unfold ofText at h
  cases kind with
  | float =>
    simp only at h
    split at h
    · cases h
    · cases h
      split <;> rfl
  | int =>
    simp only at h
    split at h
    · cases h
    · cases h
      exact fits_ofNatural _ _ _ _

end Constant

/-! ### Calls -/

namespace Checked

variable {sigs : Signatures} {scope : Scope} {here? : Option Ty} {x y z : Checked} {paren : Nat}

theorem good_callWorkItem {fn : WorkItemFn} (hx : Good sigs scope here? x)
    (h : callWorkItem paren fn x = .ok y) : Good sigs scope here? y := by
  obtain ⟨dim, hdim, h⟩ := bind_eq_ok.mp h
  cases h
  exact good_value trivial (.workItem (typed_convert_scalar hx hdim))

theorem atomicElem_ok {fn : AtomicFn} {s : Scalar} (h : atomicElem paren fn x = .ok s) :
    Value.IsWord s ∧ ∃ space readOnly, x.type = .pointer (.scalar s) space readOnly := by
  unfold atomicElem at h
  split at h
  · rename_i s' space readOnly hty
    split at h
    · cases h
    · rename_i hcond
      cases h
      simp only [Bool.or_eq_true, not_or, Bool.not_eq_true, Bool.not_eq_false'] at hcond
      exact ⟨⟨hcond.1.1.1, hcond.1.1.2⟩, space, readOnly, hty⟩
  · cases h
  · cases h

theorem good_callConvert {dst : Ty} (hx : Good sigs scope here? x)
    (h : callConvert paren dst x = .ok y) : Good sigs scope here? y := by
  have hterm := hx.term
  unfold callConvert at h
  split at h
  · rename_i s s' hty
    cases h
    rw [hty] at hterm
    exact good_value trivial (.cast hterm rfl rfl rfl)
  · rename_i s w s' v hty
    split at h
    · rename_i hsame
      cases h
      subst hsame
      rw [hty] at hterm
      exact good_value trivial (.cast hterm rfl rfl rfl)
    · cases h
  · cases h

end Checked

theorem Builtin.length_params {f : Builtin} {args : List Ty} {sig : Builtin.Signature}
    (h : f.signature args = .ok sig) : sig.params.length = args.length := by
  unfold Builtin.signature at h
  split at h
  case h_18 x lo hi =>
    obtain ⟨u, -, h⟩ := bind_eq_ok.mp h
    split at h
    · cases h
    · split at h
      · cases h
      · cases h
        rfl
  case h_19 x y =>
    obtain ⟨s, -, h⟩ := bind_eq_ok.mp h
    split at h
    · cases h
      rfl
    · cases h
  case h_20 x =>
    obtain ⟨s, -, h⟩ := bind_eq_ok.mp h
    cases h
    rfl
  case h_21 => cases h
  case h_13 | h_14 | h_15 | h_16 | h_17 =>
    obtain ⟨t, -, rfl⟩ := Builtin.promoting_ok h
    rfl
  all_goals
    obtain ⟨-, rfl⟩ := Builtin.preserving_ok h
    rfl

namespace Checked

variable {sigs : Signatures} {scope : Scope} {here? : Option Ty} {x y z : Checked} {paren : Nat}

theorem good_callMath {fn : Builtin} {offsets : List Nat} {xs : List Checked}
    (hos : offsets.length = xs.length) (hxs : ∀ x ∈ xs, Good sigs scope here? x)
    (h : callMath paren fn offsets xs = .ok y) : Good sigs scope here? y := by
  unfold callMath at h
  split at h
  · cases h
  · rename_i sig hsig
    obtain ⟨ys, hys, h⟩ := bind_eq_ok.mp h
    cases h
    obtain ⟨s, hwf⟩ := Builtin.signature_wellFormed hsig
    have hplain : ∀ t ∈ sig.params, ((NamedTy.ofPlain? t).getD .void).ty = t ∧
        ((NamedTy.ofPlain? t).getD .void).Named := by
      intro t ht
      obtain ⟨u, hu, hty, hnamed⟩ := NamedTy.ofPlain?_ok (hwf.params t ht)
      rw [hu]
      exact ⟨hty, hnamed⟩
    have hback : (sig.params.map fun t => (NamedTy.ofPlain? t).getD .void).map (·.ty) = sig.params := by
      rw [List.map_map]
      exact (List.map_congr_left fun t ht => (hplain t ht).1).trans (List.map_id _)
    have hlen := Builtin.length_params hsig
    rw [List.length_map] at hlen
    obtain ⟨hcount, hall⟩ := good_convertAll hos (by rw [List.length_map, hlen]) hxs
      (by
        intro t ht
        obtain ⟨u, hu, rfl⟩ := List.mem_map.mp ht
        exact (hplain u hu).2) hys
    rw [hback] at hall
    rw [List.length_map (f := fun t => (NamedTy.ofPlain? t).getD .void)] at hcount
    obtain ⟨r, hr, hty, hnamed⟩ := NamedTy.ofPlain?_ok hwf.result
    rw [hr]
    refine good_value hnamed ?_
    show Typed sigs scope here? _ r.ty
    rw [hty]
    exact .math hwf hcount hall

/-! ### Vectors -/

/-- A part of a vector has its element, and as many lanes as it counts for. -/
def PartOf (sigs : Signatures) (scope : Scope) (here? : Option Ty) (s : Scalar)
    (part : Nat × Checked) : Prop :=
  ∃ t, Typed sigs scope here? (.term part.2.term) t ∧ t.element? = some s ∧
    Value.laneCount t = part.1

theorem partOf_vectorPart {vec : Ty} {s : Scalar} {part : Nat × Checked}
    (hx : Good sigs scope here? x) (h : vectorPart vec s paren x = .ok part) :
    PartOf sigs scope here? s part := by
  unfold vectorPart at h
  split at h
  · obtain ⟨y, hy, h⟩ := bind_eq_ok.mp h
    cases h
    exact ⟨.scalar s, typed_convert_scalar hx hy, rfl, rfl⟩
  · rename_i s' w hty
    split at h
    · rename_i hsame
      cases h
      subst hsame
      have hterm := hx.term
      rw [hty] at hterm
      exact ⟨_, hterm, rfl, rfl⟩
    · cases h
  · cases h

theorem exists_types_of_parts {s : Scalar} {parts : List (Nat × Checked)}
    (h : ∀ part ∈ parts, PartOf sigs scope here? s part) :
    ∃ ts : List Ty, (parts.map fun p => p.2.term).length = ts.length ∧
      (∀ p ∈ (parts.map fun p => p.2.term).zip ts, Typed sigs scope here? (.term p.1) p.2) ∧
      (∀ t ∈ ts, t.element? = some s) ∧ ts.map Value.laneCount = parts.map Prod.fst := by
  induction parts with
  | nil => exact ⟨[], rfl, by simp, by simp, rfl⟩
  | cons part parts ih =>
    obtain ⟨t, hterm, helem, hcount⟩ := h part (by simp)
    obtain ⟨ts, hlen, hall, helems, hcounts⟩ := ih fun q hq => h q (by simp [hq])
    refine ⟨t :: ts, by simpa using hlen, ?_, ?_, ?_⟩
    · intro p hp
      simp only [List.map_cons, List.zip_cons_cons, List.mem_cons] at hp
      rcases hp with rfl | hp
      · exact hterm
      · exact hall p hp
    · intro u hu
      rcases List.mem_cons.mp hu with rfl | hu
      · exact helem
      · exact helems u hu
    · rw [List.map_cons, List.map_cons, hcount, hcounts]

theorem foldl_add_eq_sum (parts : List (Nat × Checked)) (n : Nat) :
    parts.foldl (fun n p => n + p.1) n = n + (parts.map Prod.fst).sum := by
  induction parts generalizing n with
  | nil => rfl
  | cons p parts ih =>
    rw [List.foldl_cons, ih, List.map_cons, List.sum_cons]
    omega

theorem good_vectorOf {s : Scalar} {w : Width} {parts : List (Nat × Checked)}
    (hparts : ∀ part ∈ parts, PartOf sigs scope here? s part)
    (h : vectorOf paren s w parts = .ok y) : Good sigs scope here? y := by
  unfold vectorOf at h
  simp only at h
  split at h
  · rename_i hcount
    cases h
    obtain ⟨ts, hlen, hall, helems, hcounts⟩ := exists_types_of_parts hparts
    rw [foldl_add_eq_sum, ← hcounts, Nat.zero_add] at hcount
    exact good_value trivial (.concat hlen hall helems (Or.inl hcount))
  · cases h

end Checked

/-! ### Environments -/

/-- What an environment knows is right: variables are where the scope says, functions have the
signatures that callers rely on, and structures have names for their fields. -/
structure Env.Agrees (sigs : Signatures) (scope : Scope) (env : Env) : Prop where
  structs : ∀ name t, env.structs.lookup name = some t → t.Named
  vars : ∀ name v, env.find? name = some v → v.type.Named ∧ scope v.slot = some v.type.ty
  funcs : ∀ name h, env.funcs.lookup name = some h →
    sigs name = some (h.params.map (·.ty), h.result.ty) ∧ h.result.Named ∧ ∀ t ∈ h.params, t.Named

namespace Env

open Checked

variable {sigs : Signatures} {scope : Scope} {env : Env} {here? : Option Ty}

theorem named_typeNamed (hstructs : ∀ name t, env.structs.lookup name = some t → t.Named)
    {name : String} {t : NamedTy} (h : env.typeNamed? name = some t) : t.Named := by
  unfold typeNamed? at h
  split at h
  · rename_i t' ht'
    cases h
    exact hstructs name t ht'
  · split at h
    · cases h
      trivial
    · obtain ⟨u, -, hu⟩ := Option.bind_eq_some_iff.mp h
      unfold NamedTy.ofPlain? at hu
      split at hu
      all_goals cases hu
      all_goals trivial

/-- Types that are written have names for their fields. -/
theorem named_resolve (hstructs : ∀ name t, env.structs.lookup name = some t → t.Named)
    {spec : Code.TypeSpec} {t : NamedTy} (h : env.resolve spec = .ok t) : t.Named := by
  unfold resolve at h
  split at h
  · cases h
  · rename_i u hu
    have hnamed := named_typeNamed hstructs hu
    split at h
    · cases h
    · split at h
      · cases h
        exact hnamed
      · split at h
        · cases h
        · cases h
          simp only [NamedTy.Named]
          exact hnamed

theorem good_checkName (henv : env.Agrees sigs scope) {id : Code.Ident} {x : Checked}
    (h : env.checkName id = .ok x) : Good sigs scope here? x := by
  unfold checkName at h
  split at h
  · rename_i v hv
    cases h
    obtain ⟨hnamed, hslot⟩ := henv.vars _ v hv
    exact good_ofVariable hnamed hslot
  · split at h
    · rename_i c hc
      cases h
      exact good_ofConstant (Constant.fits_named hc)
    · cases h

theorem structNamed_ok (henv : env.Agrees sigs scope) {offset count : Nat} {spec : Code.TypeSpec}
    {t : NamedTy} {fields : List NamedTy}
    (h : env.structNamed offset spec count = .ok (t, fields)) :
    t.Named ∧ t.ty = .tuple (NamedTy.tys fields) ∧ count = fields.length ∧ NamedTy.AllNamed fields := by
  obtain ⟨u, hu, h⟩ := bind_eq_ok.mp h
  have hnamed := named_resolve henv.structs hu
  split at h
  · split at h
    · cases h
    · split at h
      · cases h
      · rename_i hcount
        cases h
        exact ⟨hnamed, rfl, by omega, hnamed.2⟩
  · cases h

/-- The type of a scalar repeated for each of some arguments. -/
theorem good_atomic {fn : AtomicFn} {s : Scalar} {ptr : Checked} {paren : Nat} {os : List Nat}
    {xs ys : List Checked} {ts : List NamedTy} (hptr : Good sigs scope here? ptr)
    (helem : atomicElem paren fn ptr = .ok s) (hxs : ∀ x ∈ xs, Good sigs scope here? x)
    (hos : os.length = xs.length) (hts : ts = List.replicate xs.length (.scalar s))
    (hcount : xs.length + 1 = fn.arity) (h : convertAll os xs ts = .ok ys) :
    Good sigs scope here?
      { type := .scalar s, term := .atomic fn s ptr.term (ys.map (·.term)) } := by
  subst hts
  obtain ⟨hword, space, readOnly, hty⟩ := atomicElem_ok helem
  have hterm := hptr.term
  rw [hty] at hterm
  obtain ⟨hlen, hall⟩ := good_convertAll hos (List.length_replicate).symm hxs
    (fun t ht => (List.eq_of_mem_replicate ht) ▸ NamedTy.named_scalar s) h
  rw [List.length_replicate] at hlen
  refine good_value trivial (.atomic hterm hword (by rw [hlen]; exact hcount) fun x hx => ?_)
  obtain ⟨i, hi, hget⟩ := List.mem_iff_getElem.mp hx
  refine hall (x, .scalar s) ?_
  rw [List.map_replicate, ← hlen]
  refine List.mem_iff_getElem.mpr ⟨i, by simpa using hi, ?_⟩
  rw [List.getElem_zip, hget, List.getElem_replicate]
  rfl

theorem lookup_of_source {word name : String} {header : Header}
    (h : Callee.ofName env word = .source name header) : env.funcs.lookup name = some header := by
  unfold Callee.ofName at h
  repeat' split at h
  all_goals first
    | (cases h; assumption)
    | cases h

/-- Every rule of the checker gives an expression its type. -/
theorem keeps_good (henv : env.Agrees sigs scope) : env.Keeps fun _ x => Good sigs scope here? x where
  ident := good_checkName henv
  number h := good_ofConstant (Constant.fits_ofText h)
  paren hx := hx
  deref hy h := by
    have hzero : Good sigs scope here? (ofConstant (.ofLong 0)) := good_ofConstant rfl
    exact good_deref hy hzero.term h
  addressOf := good_addressOf
  not := good_not
  unary := good_unary
  binary := good_binary
  cond ht ht' hy hz h := good_choose (good_truth ht ht') hy hz h
  cast ht hy h := good_castTo hy (named_resolve henv.structs ht) h
  spread _ hy h := (good_convert hy (NamedTy.named_vector _ _) h).1
  vector _ hparts h := by
    refine good_vectorOf (forall_mem_of_forall₂ (hparts.imp fun e part hpart => ?_)).2 h
    obtain ⟨y, hy, hpart⟩ := hpart
    exact partOf_vectorPart hy hpart
  record hs hys hcount h := by
    obtain ⟨hlen, hall⟩ := forall_mem_of_forall₂ hys
    obtain ⟨hnamed, hty, -, hfields⟩ := structNamed_ok henv hs
    obtain ⟨hlength, hterms⟩ := good_convertAll (by rw [List.length_map, hlen]) (by rw [hlen, hcount]) hall
      hfields.of_mem h
    refine good_value hnamed ?_
    rw [hty, NamedTy.tys_eq_map]
    exact .record (by rw [hlength, List.length_map]) hterms
  index := good_subscript
  select := good_select
  workItem _ := good_callWorkItem
  workDim := good_ofConstant rfl
  atomic _ hcount hp hs hys h := by
    obtain ⟨hlen, hall⟩ := forall_mem_of_forall₂ hys
    exact good_atomic hp hs hall (by rw [List.length_map, hlen]) (by rw [List.map_const', hlen])
      (by rw [hlen]; exact hcount) h
  convert _ := good_callConvert
  math _ hys h := by
    obtain ⟨hlen, hall⟩ := forall_mem_of_forall₂ hys
    exact good_callMath (by rw [List.length_map, hlen]) hall h
  source hcallee hcount hys h := by
    obtain ⟨hsig, hresult, hparams⟩ := henv.funcs _ _ (lookup_of_source hcallee)
    obtain ⟨hlen, hall⟩ := forall_mem_of_forall₂ hys
    obtain ⟨hlength, hterms⟩ := good_convertAll (by rw [List.length_map, hlen]) (by rw [hlen, hcount]) hall
      hparams h
    exact good_value hresult (.call hsig (by rw [hlength, List.length_map]) hterms)

/-- **A checked expression has its type**, wherever it stands. -/
theorem good_checkExpr (henv : env.Agrees sigs scope) {e : Code.Expr} {x : Checked}
    (h : env.checkExpr e = .ok x) : Good sigs scope here? x :=
  (keeps_good henv).checkExpr h

end Env
end KernelForge
