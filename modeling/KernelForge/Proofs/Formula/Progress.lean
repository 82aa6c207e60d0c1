/-
Writing a formula is all or nothing.

Before the first line is written, the type of the formula is inferred and its assignments are
checked.  While it is written, types are inferred again at each node, places are checked again,
and the bodies of helper functions are checked and written in turn.  What is proved here is
that none of these later checks ever fails: the first two look at all that the later ones look
at, and a helper that was made has a body that can be written.  The induction is on the formula
and goes into the bodies of the helpers that it calls.
-/
import KernelForge.Formula.Lower
import KernelForge.Proofs.Basic

namespace KernelForge

/-! ### Drafting that cannot fail -/

namespace Drafting

variable {α β : Type}

/-- From any draft there is a result. -/
def Succeeds (x : Drafting α) : Prop := ∀ d, ∃ a d', x d = (.ok a, d')

theorem succeeds_pure (a : α) : Succeeds (pure a : Drafting α) := fun d => ⟨a, d, rfl⟩

theorem succeeds_edit (f : Draft → Draft) : Succeeds (edit f) := fun d => ⟨(), f d, rfl⟩

theorem succeeds_take (f : Draft → α × Draft) : Succeeds (take f) :=
  fun d => ⟨(f d).1, (f d).2, rfl⟩

theorem succeeds_current : Succeeds current := fun d => ⟨d, d, rfl⟩

theorem succeeds_ofExcept {r : Except FormulaError α} {a : α} (h : r = .ok a) :
    Succeeds (ofExcept r) := by
  subst h
  exact succeeds_pure a

/-- What comes after drafting that gives a result. -/
theorem bind_ok {x : Drafting α} {a : α} {d d' : Draft} (h : x d = (.ok a, d'))
    (f : α → Drafting β) : (x >>= f) d = f a d' := by
  show (match x d with | (r, d') => (ExceptT.bindCont f r) d') = f a d'
  rw [h]
  rfl

theorem bind_error {x : Drafting α} {c : FormulaError} {d d' : Draft} (h : x d = (.error c, d'))
    (f : α → Drafting β) : (x >>= f) d = (.error c, d') := by
  show (match x d with | (r, d') => (ExceptT.bindCont f r) d') = _
  rw [h]
  rfl

theorem Succeeds.bind {x : Drafting α} {f : α → Drafting β} (hx : Succeeds x)
    (hf : ∀ a, Succeeds (f a)) : Succeeds (x >>= f) := by
  intro d
  obtain ⟨a, d', h⟩ := hx d
  rw [bind_ok h]
  exact hf a d'

theorem tryCatch_ok {x : Drafting α} {a : α} {d d' : Draft} (h : x d = (.ok a, d'))
    (f : FormulaError → Drafting α) : tryCatch x f d = (.ok a, d') := by
  have hbind : ∀ g : Except FormulaError α → StateM Draft (Except FormulaError α),
      (bind (m := StateM Draft) x g) d = g (x d).1 (x d).2 := fun _ => rfl
  simp only [tryCatch, tryCatchThe, MonadExceptOf.tryCatch, ExceptT.tryCatch, ExceptT.mk]
  rw [hbind, h]
  rfl

/-- What is there to deal with failures is not used. -/
theorem Succeeds.guarded {x : Drafting α} (hx : Succeeds x) (f : FormulaError → Drafting α) :
    Succeeds (tryCatch x f) := by
  intro d
  obtain ⟨a, d', h⟩ := hx d
  exact ⟨a, d', tryCatch_ok h f⟩

end Drafting

/-! ### Helpers that were made -/

mutual

/-- Every helper function that a formula calls was made, and so were those in its body. -/
def Formula.Made (n : Formula) : Prop :=
  match n with
  | .missing | .literal _ _ | .arg _ => True
  | .unary _ x => x.Made
  | .binary _ x y => x.Made ∧ y.Made
  | .call _ xs => Formula.AllMade xs
  | .apply fn xs => fn.Made ∧ Formula.AllMade xs
  | .helper fn => fn.Made
  | .get _ x => x.Made
  | .set lhs rhs => lhs.Made ∧ rhs.Made

def Formula.AllMade (ns : List Formula) : Prop :=
  match ns with
  | [] => True
  | n :: ns => n.Made ∧ Formula.AllMade ns

def HelperFn.Made (fn : HelperFn) : Prop :=
  match fn with
  | .mk id name body params result =>
    (∃ result?, HelperFn.make id name body result? params = .ok (.mk id name body params result)) ∧
      body.Made

end

/-- The body of a helper that was made has a type. -/
theorem HelperFn.infer_of_make {id : Nat} {name : String} {body : Formula} {result? : Option Ty}
    {params : List Ty} {fn : HelperFn} (h : make id name body result? params = .ok fn) :
    ∃ t, body.infer params = .ok t := by
  cases hbody : body.infer params with
  | ok t => exact ⟨t, rfl⟩
  | error c =>
    rw [make, hbody] at h
    simp only [bind, Except.bind, throw, throwThe, MonadExceptOf.throw] at h
    split at h
    · cases h
    · split at h
      · cases h
      · cases h

/-! ### Places -/

namespace Formula

theorem checkPlace_get {bs : List Binding} {index : Int} {x : Formula}
    (h : fieldBinding? bs index x = none) : checkPlace bs (get index x) = checkPlace bs x := by
  simp [checkPlace, h]

/-- A place that passed its check can be written. -/
theorem place_succeeds {bs : List Binding} {n : Formula} {t : Ty}
    (htype : n.infer (bs.map (·.type)) = .ok t) (hplace : checkPlace bs n = .ok ()) :
    Drafting.Succeeds (place bs n) := by
  fun_induction place bs n generalizing t with
  | case1 n ih =>
    refine (Drafting.succeeds_ofExcept hplace).bind fun _ => ?_
    split
    · exact Drafting.succeeds_pure _
    · rename_i index x
      cases hfield : fieldBinding? bs index x with
      | some text => exact Drafting.succeeds_pure text
      | none =>
        obtain ⟨s, hs, -⟩ := bind_eq_ok.mp htype
        have hparent : checkPlace bs x = .ok () := by rw [← checkPlace_get hfield, hplace]
        refine (ih hs hparent).bind fun _ => ?_
        exact (Drafting.succeeds_ofExcept hs).bind fun _ => Drafting.succeeds_pure _
    · rename_i hget harg
      rw [checkPlace] at hplace
      · cases hplace
      · exact hget
      · exact harg

/-- What an assignment with a type is made of. -/
theorem infer_set {args : List Ty} {lhs rhs : Formula} {t : Ty}
    (h : infer args (set lhs rhs) = .ok t) :
    lhs.isPlace = true ∧ ∃ s, infer args lhs = .ok s ∧ ∃ u, infer args rhs = .ok u := by
  rw [infer] at h
  cases hplace : lhs.isPlace with
  | false =>
    rw [hplace] at h
    cases h
  | true =>
    rw [hplace] at h
    obtain ⟨s, hs, h⟩ := bind_eq_ok.mp h
    obtain ⟨u, hu, -⟩ := bind_eq_ok.mp h
    exact ⟨rfl, s, hs, u, hu⟩

/-! ### Assignments in helpers -/

/-- Bindings of parameters: none is read-only, and none has its fields apart. -/
def Plain (bs : List Binding) : Prop :=
  ∀ i, (bindingAt bs i).readOnly = false ∧ (bindingAt bs i).fields = []

theorem plain_helperBindings (params : List Ty) : Plain (helperBindings params) := by
  intro i
  have hget : bindingAt (helperBindings params) i =
      ((params.zipIdx.map fun p => ({ type := p.1, expr := argText p.2 } : Binding))[i.toNat]?).getD
        default := List.getD_eq_getElem?_getD ..
  rw [hget, List.getElem?_map]
  cases params.zipIdx[i.toNat]? with
  | none => exact ⟨rfl, rfl⟩
  | some p => exact ⟨rfl, rfl⟩

theorem types_helperBindings (params : List Ty) :
    (helperBindings params).map (·.type) = params := by
  rw [helperBindings, List.map_map]
  exact List.zipIdx_map_fst 0 params

/-- With such bindings every place can be assigned to. -/
theorem checkPlace_of_plain {bs : List Binding} (hbs : Plain bs) {n : Formula}
    (h : n.isPlace = true) : checkPlace bs n = .ok () := by
  fun_induction isPlace n with
  | case1 i => simp [checkPlace, (hbs i).1, (hbs i).2]
  | case2 index x ih =>
    have hfield : fieldBinding? bs index x = none := by
      cases x <;> simp [fieldBinding?, (hbs _).2]
    rw [checkPlace_get hfield, ih h]
  | case3 n => cases h

section

variable {bs : List Binding} {args : List Ty}

mutual

theorem checkAssignments_of_infer (hbs : Plain bs) :
    ∀ {n : Formula} {t : Ty}, infer args n = .ok t → checkAssignments bs n = .ok ()
  | .missing, t, h => rfl
  | .literal type value, t, h => rfl
  | .arg i, t, h => rfl
  | .helper fn, t, h => rfl
  | .unary op x, t, h => by
    obtain ⟨s, hs, -⟩ := bind_eq_ok.mp h
    rw [checkAssignments]
    exact checkAssignments_of_infer hbs hs
  | .binary op x y, t, h => by
    obtain ⟨s, hs, h⟩ := bind_eq_ok.mp h
    obtain ⟨u, hu, -⟩ := bind_eq_ok.mp h
    exact bind_eq_ok.mpr ⟨(), checkAssignments_of_infer hbs hs, checkAssignments_of_infer hbs hu⟩
  | .call name xs, t, h => by
    obtain ⟨ts, hts, -⟩ := bind_eq_ok.mp h
    exact checkAllAssignments_of_infer hbs hts
  | .apply fn xs, t, h => by
    obtain ⟨ts, hts, -⟩ := bind_eq_ok.mp h
    exact checkAllAssignments_of_infer hbs hts
  | .get index x, t, h => by
    obtain ⟨s, hs, -⟩ := bind_eq_ok.mp h
    rw [checkAssignments]
    exact checkAssignments_of_infer hbs hs
  | .set lhs rhs, t, h => by
    obtain ⟨hlhs, s, hs, u, hu⟩ := infer_set h
    exact bind_eq_ok.mpr ⟨(), checkAssignments_of_infer hbs hu, checkPlace_of_plain hbs hlhs⟩

theorem checkAllAssignments_of_infer (hbs : Plain bs) :
    ∀ {ns : List Formula} {ts : List Ty}, inferAll args ns = .ok ts →
      checkAllAssignments bs ns = .ok ()
  | [], ts, h => rfl
  | n :: ns, ts, h => by
    obtain ⟨t, ht, h⟩ := bind_eq_ok.mp h
    obtain ⟨us, hus, -⟩ := bind_eq_ok.mp h
    exact bind_eq_ok.mpr
      ⟨(), checkAssignments_of_infer hbs ht, checkAllAssignments_of_infer hbs hus⟩

end

end

/-! ### Writing -/

open Drafting

theorem declare_succeeds {bs : List Binding} {n : Formula}
    (h : ∃ t, n.infer (bs.map (·.type)) = .ok t) (init : String) : Succeeds (declare bs n init) := by
  obtain ⟨t, ht⟩ := h
  exact (succeeds_ofExcept ht).bind fun _ => succeeds_take _

mutual

theorem write_succeeds : ∀ {n : Formula} {bs : List Binding} {t : Ty}, n.Made →
    n.infer (bs.map (·.type)) = .ok t → checkAssignments bs n = .ok () → Succeeds (write bs n)
  | .missing, bs, t, hmade, htype, hassign => by cases htype
  | .literal type value, bs, t, hmade, htype, hassign => by
    rw [infer] at htype
    rw [write]
    cases hlit : Literal.ofHost type value with
    | ok p => exact (succeeds_edit _).bind fun _ => succeeds_pure _
    | error c =>
      rw [hlit] at htype
      cases htype
  | .arg i, bs, t, hmade, htype, hassign => by
    rw [write]
    exact succeeds_pure _
  | .unary op x, bs, t, hmade, htype, hassign => by
    obtain ⟨s, hs, -⟩ := bind_eq_ok.mp htype
    rw [Made] at hmade
    rw [checkAssignments] at hassign
    rw [write]
    exact (write_succeeds hmade hs hassign).bind fun _ => declare_succeeds ⟨t, htype⟩ _
  | .binary op x y, bs, t, hmade, htype, hassign => by
    obtain ⟨s, hs, htype'⟩ := bind_eq_ok.mp htype
    obtain ⟨u, hu, -⟩ := bind_eq_ok.mp htype'
    rw [Made] at hmade
    obtain ⟨⟨⟩, hx, hy⟩ := bind_eq_ok.mp hassign
    have hleft := write_succeeds hmade.1 hs hx
    have hright := write_succeeds hmade.2 hu hy
    rw [write]
    split
    · refine hleft.bind fun _ => (succeeds_take _).bind fun _ => (succeeds_edit _).bind fun _ => ?_
      exact hright.bind fun _ => (succeeds_edit _).bind fun _ => succeeds_pure _
    · exact hleft.bind fun _ => hright.bind fun _ => declare_succeeds ⟨t, htype⟩ _
  | .call name xs, bs, t, hmade, htype, hassign => by
    obtain ⟨ts, hts, -⟩ := bind_eq_ok.mp htype
    rw [Made] at hmade
    rw [checkAssignments] at hassign
    rw [write]
    exact (writeAll_succeeds hmade hts hassign).bind fun _ => declare_succeeds ⟨t, htype⟩ _
  | .apply fn xs, bs, t, hmade, htype, hassign => by
    obtain ⟨ts, hts, -⟩ := bind_eq_ok.mp htype
    rw [Made] at hmade
    rw [checkAssignments] at hassign
    rw [write]
    refine (writeAll_succeeds hmade.2 hts hassign).bind fun _ => ?_
    exact (define_succeeds hmade.1).bind fun _ => declare_succeeds ⟨t, htype⟩ _
  | .helper fn, bs, t, hmade, htype, hassign => by
    rw [Made] at hmade
    rw [write]
    exact (define_succeeds hmade).bind fun _ => declare_succeeds ⟨t, htype⟩ _
  | .get index x, bs, t, hmade, htype, hassign => by
    obtain ⟨s, hs, -⟩ := bind_eq_ok.mp htype
    rw [Made] at hmade
    rw [checkAssignments] at hassign
    rw [write]
    cases fieldBinding? bs index x with
    | some text => exact succeeds_pure text
    | none =>
      refine (write_succeeds hmade hs hassign).bind fun _ => ?_
      exact (succeeds_ofExcept hs).bind fun _ => declare_succeeds ⟨t, htype⟩ _
  | .set lhs rhs, bs, t, hmade, htype, hassign => by
    obtain ⟨-, s, hs, u, hu⟩ := infer_set htype
    rw [Made] at hmade
    obtain ⟨⟨⟩, hrhs, hplace⟩ := bind_eq_ok.mp hassign
    rw [write]
    refine (write_succeeds hmade.2 hu hrhs).bind fun _ => (place_succeeds hs hplace).bind fun _ => ?_
    exact (succeeds_edit _).bind fun _ => succeeds_pure _

theorem writeAll_succeeds : ∀ {ns : List Formula} {bs : List Binding} {ts : List Ty}, AllMade ns →
    inferAll (bs.map (·.type)) ns = .ok ts → checkAllAssignments bs ns = .ok () →
    Succeeds (writeAll bs ns)
  | [], bs, ts, hmade, htypes, hassign => by
    rw [writeAll]
    exact succeeds_pure _
  | n :: ns, bs, ts, hmade, htypes, hassign => by
    obtain ⟨t, ht, htypes⟩ := bind_eq_ok.mp htypes
    obtain ⟨us, hus, -⟩ := bind_eq_ok.mp htypes
    obtain ⟨⟨⟩, hn, hns⟩ := bind_eq_ok.mp hassign
    rw [AllMade] at hmade
    rw [writeAll]
    refine (write_succeeds hmade.1 ht hn).bind fun _ => ?_
    exact (writeAll_succeeds hmade.2 hus hns).bind fun _ => succeeds_pure _

theorem define_succeeds : ∀ {fn : HelperFn}, fn.Made → Succeeds (define fn)
  | .mk id root body params result, hmade => by
    rw [HelperFn.Made] at hmade
    obtain ⟨⟨result?, hmake⟩, hbody⟩ := hmade
    obtain ⟨t, ht⟩ := HelperFn.infer_of_make hmake
    have htype : body.infer ((helperBindings params).map (·.type)) = .ok t := by
      rw [types_helperBindings, ht]
    have hassign := checkAssignments_of_infer (plain_helperBindings params) htype
    have hcheck : check (helperBindings params) body = .ok () := bind_eq_ok.mpr ⟨t, htype, hassign⟩
    have hvalue : Succeeds (do
        Drafting.ofExcept (check (helperBindings params) body)
        Drafting.edit fun d => (helperBindings params).foldl (fun d b => d.inject b.type) d
        write (helperBindings params) body) :=
      (succeeds_ofExcept hcheck).bind fun _ =>
        (succeeds_edit _).bind fun _ => write_succeeds hbody htype hassign
    rw [define]
    refine succeeds_current.bind fun d => ?_
    split
    · exact succeeds_pure _
    · refine (succeeds_take _).bind fun name => succeeds_current.bind fun outer => ?_
      refine (succeeds_take _).bind fun texts => (hvalue.guarded _).bind fun value => ?_
      exact (succeeds_edit _).bind fun _ => succeeds_pure _

end

/-- A formula that fails its checks is not written at all. -/
theorem lower_of_check_error {bs : List Binding} {n : Formula} {c : FormulaError}
    (h : check bs n = .error c) (d : Draft) : lower bs n d = (.error c, d) := by
  have hcheck : Drafting.ofExcept (check bs n) d = (.error c, d) := by
    rw [h]
    rfl
  exact bind_error hcheck _

theorem lower_of_check_ok {bs : List Binding} {n : Formula} (hn : n.Made)
    (h : check bs n = .ok ()) : Succeeds (lower bs n) := by
  obtain ⟨t, ht, hassign⟩ := bind_eq_ok.mp h
  exact (succeeds_ofExcept h).bind fun _ =>
    (succeeds_edit _).bind fun _ => write_succeeds hn ht hassign

theorem check_error_iff {bs : List Binding} {n : Formula} :
    (∃ c, check bs n = .error c) ↔
      (∃ c, n.infer (bs.map (·.type)) = .error c) ∨ ∃ c, checkAssignments bs n = .error c := by
  cases htype : n.infer (bs.map (·.type)) with
  | error c => simp [check, htype, bind, Except.bind]
  | ok t => simp [check, htype, bind, Except.bind]

/-- **Lowering is all or nothing.**  It fails exactly when the formula has no type or one of its
assignments is refused, and then the draft is as it was: otherwise no later step can fail, from
whatever draft the writing starts. -/
theorem lower_all_or_nothing (bs : List Binding) {n : Formula} (hn : n.Made) :
    (∀ d, (∃ c, (lower bs n d).1 = .error c) ↔
      (∃ c, n.infer (bs.map (·.type)) = .error c) ∨ ∃ c, checkAssignments bs n = .error c) ∧
    (∀ d c, (lower bs n d).1 = .error c → (lower bs n d).2 = d) ∧
    (check bs n = .ok () → Succeeds (write bs n)) := by
  refine ⟨fun d => ?_, fun d c h => ?_, fun h => ?_⟩
  · rw [← check_error_iff]
    constructor
    · rintro ⟨c, hc⟩
      rw [exists_error_iff]
      rintro ⟨⟨⟩, hcheck⟩
      obtain ⟨v, d', hv⟩ := lower_of_check_ok hn hcheck d
      rw [hv] at hc
      cases hc
    · rintro ⟨c, hc⟩
      exact ⟨c, by rw [lower_of_check_error hc]⟩
  · cases hcheck : check bs n with
    | error c' => rw [lower_of_check_error hcheck]
    | ok u =>
      obtain ⟨v, d', hv⟩ := lower_of_check_ok hn hcheck d
      rw [hv] at h
      cases h
  · obtain ⟨t, ht, hassign⟩ := bind_eq_ok.mp h
    exact write_succeeds hn ht hassign

/-- A helper that doubles an integer. -/
def twice : HelperFn :=
  .mk 0 "twice" (.binary .add (.arg 0) (.arg 0)) [.scalar .int] (.scalar .int)

/-- The helper was made, so a call of it with an integer can be written; one with a structure
has no type, and nothing is written. -/
theorem lower_twice :
    (helper twice).Made ∧
      (¬ ∃ c, (lower [{ type := .scalar .int, expr := "x" }] (helper twice) (.ofName "k")).1 =
        .error c) ∧
      (lower [{ type := .tuple [], expr := "x" }] (helper twice) (.ofName "k")).2 = .ofName "k" := by
  have hmade : (helper twice).Made := ⟨⟨none, rfl⟩, trivial, trivial⟩
  refine ⟨hmade, ?_, ?_⟩
  · rw [(lower_all_or_nothing _ hmade).1]
    rintro (⟨c, hc⟩ | ⟨c, hc⟩)
    · cases hc
    · cases hc
  · exact (lower_all_or_nothing _ hmade).2.1 _ _ rfl

end Formula

end KernelForge
