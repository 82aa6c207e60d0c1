/-
The types of terms and places, and what they promise.

The checker leaves no types behind in a term, so they are given by rules, one for each form: a
term has a type when its operands have the types that the machine relies on.  The rules look at
scalars and vectors only through their elements and numbers of lanes.  A pointer may be taken
for one to the same elements in another space, since its representation does not tell.

The theorem of this file is that a term with a type is safe for values that fit the type,
provided that the variables in scope hold values of their types and that calls are safe.
-/
import KernelForge.Proofs.Program.Operations

namespace KernelForge

/-- What callers may rely on: the types of the parameters and of the result of each function. -/
abbrev Signatures := String → Option (List Ty × Ty)

/-- The types of the variables in scope, by slot. -/
abbrev Scope := Nat → Option Ty

/-- A term or a place. -/
inductive Phrase where
  | term (x : Term)
  | place (p : Place)

/-- The place lies in memory, so it has an address. -/
def Place.inMemory : Place → Bool
  | .var _ => false
  | .deref _ _ _ => true
  | .field p _ _ => p.inMemory
  | .lanes _ _ => false

/-- The types of terms and places; `here?` is the type of the place that is being updated. -/
inductive Typed (sigs : Signatures) (scope : Scope) (here? : Option Ty) : Phrase → Ty → Prop
  | const {s : Scalar} {x : Lanes s.register} (hx : x.row? = none) :
      Typed sigs scope here? (.term (.const s.register x)) (.scalar s)
  | var {slot : Nat} {t : Ty} (h : scope slot = some t) :
      Typed sigs scope here? (.term (.var slot)) t
  | current {t : Ty} (h : here? = some t) : Typed sigs scope here? (.term .current) t
  | cast {s s' : Scalar} {t u : Ty} {x : Term} (hx : Typed sigs scope here? (.term x) t)
      (ht : t.element? = some s') (hu : u.element? = some s) (hrow : u.row? = t.row?) :
      Typed sigs scope here? (.term (.cast s x)) u
  | concat {s : Scalar} {w : Width} {xs : List Term} {ts : List Ty} (hlen : xs.length = ts.length)
      (hxs : ∀ p ∈ xs.zip ts, Typed sigs scope here? (.term p.1) p.2)
      (hts : ∀ t ∈ ts, t.element? = some s)
      (hcount : (ts.map Value.laneCount).sum = w.lanes ∨ (ts.map Value.laneCount).sum = 1) :
      Typed sigs scope here? (.term (.concat s w.lanes xs)) (.vector s w)
  | unary {op : Operator} {t : Ty} {s : Scalar} {x : Term}
      (hx : Typed sigs scope here? (.term x) t) (ht : t.element? = some s) :
      Typed sigs scope here? (.term (.unary op t x)) t
  | binary {op : Operator} {t a b : Ty} {s : Scalar} {x y : Term}
      (hx : Typed sigs scope here? (.term x) a) (hy : Typed sigs scope here? (.term y) b)
      (hcmp : op.isComparison = false) (hlog : op.isLogical = false) (ht : t.element? = some s)
      (ha : a.element? = some s) (hb : b.element? = some s)
      (hrow : Lanes.joined a.row? b.row? = some t.row?) :
      Typed sigs scope here? (.term (.binary op t x y)) t
  | compare {op : Operator} {s : Scalar} {x y : Term}
      (hx : Typed sigs scope here? (.term x) (.scalar s))
      (hy : Typed sigs scope here? (.term y) (.scalar s)) (hcmp : op.isComparison = true) :
      Typed sigs scope here? (.term (.binary op (.scalar .bool) x y)) (.scalar .bool)
  | and {x y : Term} (hx : Typed sigs scope here? (.term x) (.scalar .bool))
      (hy : Typed sigs scope here? (.term y) (.scalar .bool)) :
      Typed sigs scope here? (.term (.and x y)) (.scalar .bool)
  | or {x y : Term} (hx : Typed sigs scope here? (.term x) (.scalar .bool))
      (hy : Typed sigs scope here? (.term y) (.scalar .bool)) :
      Typed sigs scope here? (.term (.or x y)) (.scalar .bool)
  | cond {test x y : Term} {t : Ty} (htest : Typed sigs scope here? (.term test) (.scalar .bool))
      (hx : Typed sigs scope here? (.term x) t) (hy : Typed sigs scope here? (.term y) t) :
      Typed sigs scope here? (.term (.cond test x y)) t
  | advance {stride : Int} {ptr n : Term} {t : Ty} {space : Space} {readOnly : Bool}
      (hptr : Typed sigs scope here? (.term ptr) (.pointer t space readOnly))
      (hn : Typed sigs scope here? (.term n) (.scalar .long)) :
      Typed sigs scope here? (.term (.advance stride ptr n)) (.pointer t space readOnly)
  | record {xs : List Term} {ts : List Ty} (hlen : xs.length = ts.length)
      (hxs : ∀ p ∈ xs.zip ts, Typed sigs scope here? (.term p.1) p.2) :
      Typed sigs scope here? (.term (.record xs)) (.tuple ts)
  | load {p : Place} {t : Ty} (hp : Typed sigs scope here? (.place p) t) :
      Typed sigs scope here? (.term (.load p)) t
  | address {p : Place} {t : Ty} {space : Space} {readOnly : Bool}
      (hp : Typed sigs scope here? (.place p) t) (hmem : p.inMemory = true) :
      Typed sigs scope here? (.term (.address p)) (.pointer t space readOnly)
  | field {i : Nat} {x : Term} {ts : List Ty} {t : Ty}
      (hx : Typed sigs scope here? (.term x) (.tuple ts)) (hi : ts[i]? = some t) :
      Typed sigs scope here? (.term (.field i x)) t
  | lanes {is : List Nat} {x : Term} {s : Scalar} {w : Width} {t : Ty}
      (hx : Typed sigs scope here? (.term x) (.vector s w)) (his : Value.Picks s w.lanes is t) :
      Typed sigs scope here? (.term (.lanes is x)) t
  | discard {x : Term} {t : Ty} (hx : Typed sigs scope here? (.term x) t) :
      Typed sigs scope here? (.term (.discard x)) .void
  | workItem {fn : WorkItemFn} {dim : Term}
      (hdim : Typed sigs scope here? (.term dim) (.scalar .uint)) :
      Typed sigs scope here? (.term (.workItem fn dim)) (.scalar .ulong)
  | atomic {fn : AtomicFn} {s : Scalar} {ptr : Term} {args : List Term} {space : Space}
      {readOnly : Bool} (hptr : Typed sigs scope here? (.term ptr) (.pointer (.scalar s) space readOnly))
      (hs : Value.IsWord s) (hcount : args.length + 1 = fn.arity)
      (hargs : ∀ x ∈ args, Typed sigs scope here? (.term x) (.scalar s)) :
      Typed sigs scope here? (.term (.atomic fn s ptr args)) (.scalar s)
  | math {fn : Builtin} {sig : Builtin.Signature} {s : Scalar} {args : List Term}
      (hsig : Builtin.WellFormed fn sig s) (hlen : args.length = sig.params.length)
      (hargs : ∀ p ∈ args.zip sig.params, Typed sigs scope here? (.term p.1) p.2) :
      Typed sigs scope here? (.term (.math fn sig.result args)) sig.result
  | call {fn : String} {params : List Ty} {result : Ty} {args : List Term}
      (hfn : sigs fn = some (params, result)) (hlen : args.length = params.length)
      (hargs : ∀ p ∈ args.zip params, Typed sigs scope here? (.term p.1) p.2) :
      Typed sigs scope here? (.term (.call fn args)) result
  | retag {x : Term} {t : Ty} {space space' : Space} {readOnly readOnly' : Bool}
      (hx : Typed sigs scope here? (.term x) (.pointer t space readOnly)) :
      Typed sigs scope here? (.term x) (.pointer t space' readOnly')
  | placeVar {slot : Nat} {t : Ty} (h : scope slot = some t) :
      Typed sigs scope here? (.place (.var slot)) t
  | placeDeref {elem : Ty} {ptr index : Term} {space : Space} {readOnly : Bool}
      (hptr : Typed sigs scope here? (.term ptr) (.pointer elem space readOnly))
      (hindex : Typed sigs scope here? (.term index) (.scalar .long)) :
      Typed sigs scope here? (.place (.deref elem ptr index)) elem
  | placeField {p : Place} {ts : List Ty} {i : Nat} {t : Ty}
      (hp : Typed sigs scope here? (.place p) (.tuple ts)) (hi : ts[i]? = some t) :
      Typed sigs scope here? (.place (.field p ts i)) t
  | placeLanes {p : Place} {is : List Nat} {s : Scalar} {w : Width} {t : Ty}
      (hp : Typed sigs scope here? (.place p) (.vector s w)) (his : Value.Picks s w.lanes is t) :
      Typed sigs scope here? (.place (.lanes p is)) t

/-! ### Variables -/

/-- A slot holds a value of a type. -/
def Vars.HoldsAt (vars : Vars) (slot : Nat) (t : Ty) : Prop :=
  ∃ v, vars[slot]? = some v ∧ v.Fits t

/-- The variables in scope hold values of their types, which are those they were declared with. -/
def Vars.Holds (declared scope : Scope) (vars : Vars) : Prop :=
  ∀ slot t, scope slot = some t → declared slot = some t ∧ vars.HoldsAt slot t

/-- No variable stops holding a value of the type that it was declared with. -/
structure Vars.Keeps (declared : Scope) (vars vars' : Vars) : Prop where
  size : vars'.size = vars.size
  holds : ∀ slot t, declared slot = some t → vars.HoldsAt slot t → vars'.HoldsAt slot t

namespace Vars

variable {declared scope : Scope} {vars vars' vars'' : Vars}

theorem Keeps.refl : Keeps declared vars vars := ⟨rfl, fun _ _ _ h => h⟩

theorem Keeps.trans (h : Keeps declared vars vars') (h' : Keeps declared vars' vars'') :
    Keeps declared vars vars'' :=
  ⟨h'.size.trans h.size, fun slot t hd hv => h'.holds slot t hd (h.holds slot t hd hv)⟩

theorem Holds.mono (h : Holds declared scope vars) (hk : Keeps declared vars vars') :
    Holds declared scope vars' := by
  intro slot t hslot
  obtain ⟨hd, hv⟩ := h slot t hslot
  exact ⟨hd, hk.holds slot t hd hv⟩

theorem HoldsAt.getD {slot : Nat} {t : Ty} (h : HoldsAt vars slot t) :
    (vars.getD slot .nothing).Fits t := by
  obtain ⟨v, hv, hfits⟩ := h
  rw [Array.getD_eq_getD_getElem?, hv]
  exact hfits

theorem HoldsAt.lt {slot : Nat} {t : Ty} (h : HoldsAt vars slot t) : slot < vars.size := by
  obtain ⟨v, hv, -⟩ := h
  exact (Array.getElem?_eq_some_iff.mp hv).1

theorem holdsAt_set {slot : Nat} {t : Ty} {v : Value} (hlt : slot < vars.size) (hv : v.Fits t) :
    HoldsAt (vars.setIfInBounds slot v) slot t :=
  ⟨v, Array.getElem?_setIfInBounds_self_of_lt hlt, hv⟩

/-- A variable may be set to a value of the type that it was declared with. -/
theorem keeps_set {slot : Nat} {t : Ty} {v : Value} (hd : declared slot = some t) (hv : v.Fits t) :
    Keeps declared vars (vars.setIfInBounds slot v) := by
  refine ⟨Array.size_setIfInBounds, fun slot' t' hd' hold => ?_⟩
  by_cases hslot : slot = slot'
  · subst hslot
    rw [hd] at hd'
    cases hd'
    exact holdsAt_set hold.lt hv
  · obtain ⟨v', hv', hfits⟩ := hold
    exact ⟨v', by rw [Array.getElem?_setIfInBounds_ne hslot, hv'], hfits⟩

end Vars

/-! ### Locations -/

/-- The types of locations. -/
inductive Loc.Typed (scope : Scope) : Loc → Ty → Prop
  | var {slot : Nat} {t : Ty} (h : scope slot = some t) : Loc.Typed scope (.var slot) t
  | mem (memory : Nat) (offset : BitVec 64) (t : Ty) : Loc.Typed scope (.mem memory offset t) t
  | field {l : Loc} {ts : List Ty} {i : Nat} {t : Ty} (hl : Loc.Typed scope l (.tuple ts))
      (hi : ts[i]? = some t) : Loc.Typed scope (.field l i) t
  | lanes {l : Loc} {is : List Nat} {s : Scalar} {w : Width} {t : Ty}
      (hl : Loc.Typed scope l (.vector s w)) (his : Value.Picks s w.lanes is t) :
      Loc.Typed scope (.lanes l is) t

namespace Loc

open Exec

variable {declared scope : Scope} {vars : Vars} {l : Loc} {t : Ty}

theorem Typed.fieldOf {ts : List Ty} {i : Nat} (hl : l.Typed scope (.tuple ts))
    (hi : ts[i]? = some t) : (l.fieldOf ts i).Typed scope t := by
  have hget : ts.getD i .void = t := by rw [List.getD_eq_getElem?_getD, hi]; rfl
  cases l with
  | mem memory offset elem =>
    rw [Loc.fieldOf, hget]
    exact .mem _ _ _
  | var slot => exact .field hl hi
  | field parent j => exact .field hl hi
  | lanes parent is => exact .field hl hi

theorem Typed.safe_load (hl : l.Typed scope t) (hvars : vars.Holds declared scope) :
    Safe (l.load vars) (Value.Fits t) := by
  induction hl with
  | var h => exact safe_pure (hvars _ _ h).2.getD
  | mem memory offset t => exact Exec.safe_load memory offset t
  | @field l ts i t hl hi ih =>
    refine ih.bind fun v hv => ?_
    simp only [Value.Fits] at hv
    obtain ⟨vs, rfl, hvs⟩ := hv
    obtain ⟨w, hw, hfits⟩ := hvs.getElem? hi
    simp only [hw]
    exact safe_pure hfits
  | @lanes l is s w t hl his ih =>
    refine ih.bind fun v hv => ?_
    simp only [Value.Fits] at hv
    obtain ⟨x, rfl, hx⟩ := hv
    refine (safe_ofLanes_ok (Value.selectLanes_picks his hx)).bind fun y hy => ?_
    exact safe_pure hy

theorem Typed.safe_store (hl : l.Typed scope t) (hvars : vars.Holds declared scope) {v : Value}
    (hv : v.Fits t) : Safe (l.store vars v) (vars.Keeps declared) := by
  induction hl generalizing v with
  | var h => exact safe_pure (Vars.keeps_set (hvars _ _ h).1 hv)
  | mem memory offset t =>
    exact (Exec.safe_store memory offset hv).bind fun _ _ => safe_pure .refl
  | @field l ts i t hl hi ih =>
    refine (hl.safe_load hvars).bind fun w hw => ?_
    simp only [Value.Fits] at hw
    obtain ⟨ws, rfl, hws⟩ := hw
    have hlt : i < ws.length := by
      rw [hws.length_eq]
      exact (List.getElem?_eq_some_iff.mp hi).1
    simp only [if_pos hlt]
    refine ih ?_
    simp only [Value.Fits]
    exact ⟨_, rfl, hws.set hi hv⟩
  | @lanes l is s w t hl his ih =>
    refine (hl.safe_load hvars).bind fun u hu => ?_
    simp only [Value.Fits] at hu
    obtain ⟨x, rfl, hx⟩ := hu
    obtain ⟨y, z, rfl, hz, hrow⟩ := Value.setLanes_picks his hx hv
    have hset : Safe (ofLanes (Value.setLanes x is y)) fun z => z.row? = some w.lanes :=
      safe_ofLanes_ok ⟨z, hz, hrow⟩
    simp only [dite_true]
    refine hset.bind fun z' hz' => ih ?_
    exact Value.fits_lanes (t := .vector s w) rfl hz'

end Loc

/-! ### Safety of terms -/

/-- A frame in which terms can be evaluated. -/
structure Frame.Ready (declared scope : Scope) (here? : Option Ty) (f : Frame) : Prop where
  vars : f.vars.Holds declared scope
  current : ∀ t, here? = some t → ∃ l, f.current? = some l ∧ l.Typed scope t

/-- Outside of an update nothing is current. -/
theorem Frame.Ready.start {declared scope : Scope} {f : Frame} (h : f.vars.Holds declared scope) :
    f.Ready declared scope none := ⟨h, nofun⟩

/-- Calls of functions with a signature are safe. -/
def Caller.Safe (sigs : Signatures) (call : Caller) : Prop :=
  ∀ fn params result args, sigs fn = some (params, result) → Value.FitsAll params args →
    Exec.Safe (call fn args) (Value.Fits result)

/-- What the type of a term or a place promises. -/
def Phrase.Promises (call : Caller) (f : Frame) (scope : Scope) : Phrase → Ty → Prop
  | .term x, t => Exec.Safe (x.eval call f) (Value.Fits t)
  | .place p, t => Exec.Safe (p.locate call f) fun l =>
    l.Typed scope t ∧ (p.inMemory = true → ∃ memory offset elem, l = .mem memory offset elem)

open Exec

theorem safe_evalAll {call : Caller} {f : Frame} {xs : List Term} {ts : List Ty}
    (hlen : xs.length = ts.length)
    (h : ∀ p ∈ xs.zip ts, Safe (p.1.eval call f) (Value.Fits p.2)) :
    Safe (Term.evalAll call f xs) (Value.FitsAll ts) := by
  induction xs generalizing ts with
  | nil =>
    cases ts with
    | nil =>
      rw [Term.evalAll]
      exact safe_pure (by simp [Value.FitsAll])
    | cons t ts => simp at hlen
  | cons x xs ih =>
    cases ts with
    | nil => simp at hlen
    | cons t ts =>
      rw [Term.evalAll]
      refine (h (x, t) (by simp)).bind fun v hv => ?_
      have hrest := ih (by simpa using hlen) fun p hp => h p (by simp [hp])
      refine hrest.bind fun vs hvs => safe_pure ?_
      simp only [Value.FitsAll]
      exact ⟨hv, hvs⟩

theorem zip_replicate_mem {α β : Type} {xs : List α} {b : β} {p : α × β}
    (h : p ∈ xs.zip (List.replicate xs.length b)) : p.1 ∈ xs ∧ p.2 = b := by
  obtain ⟨x, y⟩ := p
  exact ⟨(List.of_mem_zip h).1, List.eq_of_mem_replicate (List.of_mem_zip h).2⟩

theorem fitsAll_replicate {n : Nat} {t : Ty} {vs : List Value}
    (h : Value.FitsAll (List.replicate n t) vs) : vs.length = n ∧ ∀ v ∈ vs, v.Fits t := by
  refine ⟨by rw [h.length_eq, List.length_replicate], fun v hv => ?_⟩
  obtain ⟨i, hi⟩ := List.mem_iff_getElem?.mp hv
  have hlt : i < n := by
    have := (List.getElem?_eq_some_iff.mp hi).1
    rwa [h.length_eq, List.length_replicate] at this
  obtain ⟨w, hw, hfits⟩ := h.getElem? (List.getElem?_replicate_of_lt hlt)
  rw [hi] at hw
  cases hw
  exact hfits

theorem safe_atomic {fn : AtomicFn} {s : Scalar} (hs : Value.IsWord s) (p : Pointer)
    {vs : List Value} (hcount : vs.length + 1 = fn.arity) (hvs : ∀ v ∈ vs, v.Fits (.scalar s)) :
    Safe (Value.atomic fn s p vs) (Value.Fits (.scalar s)) := by
  unfold Value.atomic
  cases p.memory? with
  | none => exact safe_fail rfl
  | some m =>
    refine (safe_load m p.offset (.scalar s)).bind fun old hold => ?_
    obtain ⟨next, hnext, hfits⟩ := Value.atomicNext_ok hs hold hcount hvs
    rw [hnext]
    refine (safe_pure (Q := (· = next)) rfl).bind fun w hw => ?_
    subst hw
    exact (safe_store m p.offset hfits).bind fun _ _ => safe_pure hold

/-- **Terms keep the promises of their types.** -/
theorem Typed.promises {sigs : Signatures} {declared scope : Scope} {here? : Option Ty}
    {ph : Phrase} {t : Ty} (h : Typed sigs scope here? ph t) {call : Caller}
    (hcall : call.Safe sigs) {f : Frame} (hf : f.Ready declared scope here?) :
    ph.Promises call f scope t := by
  induction h with
  | @const s x hx =>
    simp only [Phrase.Promises, Term.eval]
    exact safe_pure (Value.fits_lanes (t := .scalar s) rfl hx)
  | var h =>
    simp only [Phrase.Promises, Term.eval]
    exact safe_pure (hf.vars _ _ h).2.getD
  | current h =>
    obtain ⟨l, hl, htyped⟩ := hf.current _ h
    simp only [Phrase.Promises, Term.eval, hl]
    exact htyped.safe_load hf.vars
  | cast hx ht hu hrow ih =>
    simp only [Phrase.Promises, Term.eval]
    exact ih.bind fun v hv => Value.safe_cast ht hu hrow hv
  | concat hlen hxs hts hcount ih =>
    simp only [Phrase.Promises, Term.eval]
    exact (safe_evalAll hlen ih).bind fun vs hvs => Value.safe_concat hts hcount hvs
  | unary hx ht ih =>
    simp only [Phrase.Promises, Term.eval]
    exact ih.bind fun v hv => Value.safe_unary _ ht hv
  | binary hx hy hcmp hlog ht ha hb hrow ihx ihy =>
    simp only [Phrase.Promises, Term.eval]
    refine ihx.bind fun v hv => ihy.bind fun w hw => ?_
    exact Value.safe_binary_same hcmp hlog ht ha hb hrow hv hw
  | compare hx hy hcmp ihx ihy =>
    simp only [Phrase.Promises, Term.eval]
    exact ihx.bind fun v hv => ihy.bind fun w hw => Value.safe_binary_truth hcmp hv hw
  | and hx hy ihx ihy =>
    simp only [Phrase.Promises, Term.eval]
    refine ihx.bind fun v hv => (Value.safe_toBool hv).bind fun b _ => ?_
    split
    · refine ihy.bind fun w hw => (Value.safe_toBool hw).bind fun c _ => ?_
      exact safe_pure (Value.fits_ofBool c)
    · exact safe_pure (Value.fits_ofBool false)
  | or hx hy ihx ihy =>
    simp only [Phrase.Promises, Term.eval]
    refine ihx.bind fun v hv => (Value.safe_toBool hv).bind fun b _ => ?_
    split
    · exact safe_pure (Value.fits_ofBool true)
    · refine ihy.bind fun w hw => (Value.safe_toBool hw).bind fun c _ => ?_
      exact safe_pure (Value.fits_ofBool c)
  | cond htest hx hy ihtest ihx ihy =>
    simp only [Phrase.Promises, Term.eval]
    refine ihtest.bind fun v hv => (Value.safe_toBool hv).bind fun b _ => ?_
    split
    · exact ihx
    · exact ihy
  | advance hptr hn ihptr ihn =>
    simp only [Phrase.Promises, Term.eval]
    refine ihptr.bind fun p hp => ihn.bind fun v hv => ?_
    refine (Value.safe_toWord rfl hv).bind fun i _ => (Value.safe_toPointer hp).bind fun q _ => ?_
    exact safe_pure (by simp only [Value.Fits]; exact ⟨_, rfl⟩)
  | record hlen hxs ih =>
    simp only [Phrase.Promises, Term.eval]
    refine (safe_evalAll hlen ih).bind fun vs hvs => safe_pure ?_
    simp only [Value.Fits]
    exact ⟨vs, rfl, hvs⟩
  | load hp ih =>
    simp only [Phrase.Promises, Term.eval]
    exact ih.bind fun l hl => hl.1.safe_load hf.vars
  | address hp hmem ih =>
    simp only [Phrase.Promises, Term.eval]
    refine ih.bind fun l hl => ?_
    obtain ⟨memory, offset, elem, rfl⟩ := hl.2 hmem
    exact safe_pure (by simp only [Value.Fits]; exact ⟨_, rfl⟩)
  | field hx hi ih =>
    simp only [Phrase.Promises, Term.eval]
    exact ih.bind fun v hv => Value.safe_field hi hv
  | lanes hx his ih =>
    simp only [Phrase.Promises, Term.eval]
    exact ih.bind fun v hv => Value.safe_select his hv
  | discard hx ih =>
    simp only [Phrase.Promises, Term.eval]
    exact ih.bind fun v hv => safe_pure (by simp only [Value.Fits])
  | workItem hdim ih =>
    simp only [Phrase.Promises, Term.eval]
    refine ih.bind fun v hv => (Value.safe_toWord rfl hv).bind fun d _ => ?_
    exact safe_pure (Value.fits_scalar .ulong _)
  | @atomic fn s ptr args space readOnly hptr hs hcount hargs ihptr ihargs =>
    simp only [Phrase.Promises, Term.eval]
    refine ihptr.bind fun p hp => ?_
    have hall : Safe (Term.evalAll call f args)
        (Value.FitsAll (List.replicate args.length (.scalar s))) := by
      refine safe_evalAll (List.length_replicate).symm fun q hq => ?_
      obtain ⟨hmem, hty⟩ := zip_replicate_mem hq
      rw [hty]
      exact ihargs q.1 hmem
    refine hall.bind fun vs hvs => (Value.safe_toPointer hp).bind fun q _ => ?_
    obtain ⟨hlen, hfits⟩ := fitsAll_replicate hvs
    exact safe_atomic hs q (by rw [hlen]; exact hcount) hfits
  | math hsig hlen hargs ih =>
    simp only [Phrase.Promises, Term.eval]
    exact (safe_evalAll hlen ih).bind fun vs hvs => Value.safe_math hsig hvs
  | call hfn hlen hargs ih =>
    simp only [Phrase.Promises, Term.eval]
    exact (safe_evalAll hlen ih).bind fun vs hvs => hcall _ _ _ _ hfn hvs
  | retag hx ih => 
      simp only [Phrase.Promises, Value.Fits] at ih ⊢
      exact ih
  | placeVar h =>
    simp only [Phrase.Promises, Place.locate]
    exact safe_pure ⟨.var h, fun hmem => by simp [Place.inMemory] at hmem⟩
  | placeDeref hptr hindex ihptr ihindex =>
    simp only [Phrase.Promises, Place.locate]
    refine ihptr.bind fun p hp => ihindex.bind fun v hv => ?_
    refine (Value.safe_toWord rfl hv).bind fun i _ => (Value.safe_toPointer hp).bind fun q _ => ?_
    split
    · exact safe_fail rfl
    · exact safe_pure ⟨.mem _ _ _, fun _ => ⟨_, _, _, rfl⟩⟩
  | placeField hp hi ih =>
    simp only [Phrase.Promises, Place.locate]
    refine ih.bind fun l hl => safe_pure ⟨hl.1.fieldOf hi, fun hmem => ?_⟩
    obtain ⟨memory, offset, elem, rfl⟩ := hl.2 hmem
    exact ⟨_, _, _, rfl⟩
  | placeLanes hp his ih =>
    simp only [Phrase.Promises, Place.locate]
    exact ih.bind fun l hl => safe_pure ⟨.lanes hl.1 his, fun hmem => by simp [Place.inMemory] at hmem⟩

end KernelForge
