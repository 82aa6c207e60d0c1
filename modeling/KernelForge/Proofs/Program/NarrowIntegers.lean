/-
Narrow integers never leave their range.

The moments of a run are those of the invariant of types, and the invariant here is kept beside it:
what is done obeys the rules for ranges, and the variables are within the types that they are
declared with.  So whatever a moment evaluates is within its types, the type that the checker gave
being one of them; what was converted or computed is the exact result up to the width; and what is
returned is within the type of the result.

Conversions, operators and functions whose result is narrow compute in registers of 32 bits and
keep the low bits.  So a lane of the result is the exact integer result of its operation, on the
lanes of the operands at the same place, up to a multiple of a power of two: that of the bits of
the narrow type.  A conversion from floating point is the only one that has no exact integer to
compare with.
-/
import KernelForge.Proofs.Program.BuiltRanges

namespace KernelForge

/-! ### Exact results -/

/-- The integer that a value has in a lane. -/
def Value.intAt? : Value → Nat → Option Int
  | .lanes _ x, i => x.intAt? i
  | _, _ => none

/-- The value is made of floating-point numbers. -/
def Value.IsReal : Value → Prop
  | .lanes e _ => e = .float32 ∨ e = .float64
  | _ => False

namespace Term

/-- The bits of the narrow type into whose range a term brings its result. -/
def narrowBits? : Term → Option Nat
  | .cast s _ => Value.narrowBits? (.scalar s)
  | .unary _ t _ | .binary _ t _ _ | .math _ t _ => Value.narrowBits? t
  | _ => none

/-- What a conversion, an operator or a function is applied to. -/
def operands : Term → List Term
  | .cast _ x | .unary _ _ x => [x]
  | .binary _ _ x y => [x, y]
  | .math _ _ xs => xs
  | _ => []

/-- The exact result of a term for the integers of its operands.  Operators of narrow types work on
registers of 32 bits, so of a shift count the low five bits count. -/
def onInts? : Term → List Int → Option Int
  | .cast _ _, [a] => some a
  | .unary op _ _, [a] => op.unaryOnInts? a
  | .binary op _ _ _, [a, b] => op.onInts? 32 a b
  | .math fn _ _, as => fn.onInts? as
  | _, _ => none

/-- The value is exact for values of the operands: in every lane it is the exact result up to a
multiple of a power of two. -/
def ExactFor (bits : Nat) (x : Term) (vs : List Value) (v : Value) : Prop :=
  ∀ i k, v.intAt? i = some k →
    ∃ as r, vs.mapM (·.intAt? i) = some as ∧ x.onInts? as = some r ∧ k ≡ r [ZMOD 2 ^ bits]

/-- The term is a conversion from floating point. -/
def FromReal (x : Term) (vs : List Value) : Prop :=
  (∃ s y, x = .cast s y) ∧ ∀ v ∈ vs, v.IsReal

end Term

/-! ### Operations -/

namespace Value

open Exec Term

variable {t : Ty} {bits : Nat}

/-- Values are brought into the range of a narrow type in words of 32 bits only. -/
theorem exists_word_of_wrap {e : Elem} {n : Int} {x y : Lanes e} (h : x.wrap n = .ok y) :
    ∃ signed, e = .word .w32 signed := by
  unfold Lanes.wrap at h
  split at h
  · cases h
  · split at h
    · exact ⟨_, rfl⟩
    · cases h

/-- What is brought into a narrow range is still right modulo the smaller power of two. -/
theorem exact_wrapTo (ht : narrowBits? t = some bits) {signed : Bool}
    {x y : Lanes (.word .w32 signed)} (h : wrapTo t x = .ok y) {i : Nat} {k : Int}
    (hk : y.intAt? i = some k) :
    ∃ a, x.intAt? i = some a ∧ ∀ r, a ≡ r [ZMOD 2 ^ 32] → k ≡ r [ZMOD 2 ^ bits] := by
  simp only [wrapTo, ht] at h
  obtain ⟨a, ha, hmod⟩ := Lanes.exact_wrap h hk
  have hbits : bits ≤ 32 := by
    have := (Lanes.wrap_eq_ok h).1
    omega
  exact ⟨a, ha, fun r hr => hmod.trans (hr.of_dvd (pow_dvd_pow 2 hbits))⟩

theorem word_of_wrapTo (ht : narrowBits? t = some bits) {e : Elem} {x y : Lanes e}
    (h : wrapTo t x = .ok y) : ∃ signed, e = .word .w32 signed := by
  simp only [wrapTo, ht] at h
  exact exists_word_of_wrap h

/-- Every cell stands for an integer, except floating-point numbers. -/
theorem exists_int_of_cell {e : Elem} (he : ¬(e = .float32 ∨ e = .float64)) (c : e.Cell) :
    ∃ a, e.int? c = some a := by
  cases e with
  | bool => exact ⟨_, rfl⟩
  | word w signed => exact ⟨_, rfl⟩
  | float32 => exact absurd (Or.inl rfl) he
  | float64 => exact absurd (Or.inr rfl) he

theorem exact_convert {e r : Elem} (he : ¬(e = .float32 ∨ e = .float64))
    (ht : narrowBits? t = some bits) {x : Lanes e} {y : Lanes r}
    (h : wrapTo t (x.cast r) = .ok y) {i : Nat} {k : Int} (hk : y.intAt? i = some k) :
    ∃ a, x.intAt? i = some a ∧ k ≡ a [ZMOD 2 ^ bits] := by
  obtain ⟨signed, rfl⟩ := word_of_wrapTo ht h
  obtain ⟨b, hb, hmod⟩ := exact_wrapTo ht h hk
  obtain ⟨d, hd, -⟩ := Option.bind_eq_some_iff.mp hb
  rw [Lanes.cast, Lanes.at?_map] at hd
  obtain ⟨c, hc, -⟩ := Option.map_eq_some_iff.mp hd
  obtain ⟨a, ha⟩ := exists_int_of_cell he c
  have hx : x.intAt? i = some a := Option.bind_eq_some_iff.mpr ⟨c, hc, ha⟩
  exact ⟨a, hx, hmod a (Lanes.exact_cast hx hb)⟩

/-- A conversion to a narrow type is exact, except from floating point. -/
theorem exact_cast {s : Scalar} {x : Term} (hs : narrowBits? (.scalar s) = some bits) (v : Value) :
    Ends (v.cast s) fun w => FromReal (.cast s x) [v] ∨ ExactFor bits (.cast s x) [v] w := by
  unfold cast
  split
  · rename_i e y
    refine (ends_ofLanes _).bind fun z hz => ends_pure ?_
    by_cases he : e = .float32 ∨ e = .float64
    · exact Or.inl ⟨⟨s, x, rfl⟩, List.forall_mem_singleton.mpr he⟩
    · refine Or.inr fun i k hk => ?_
      obtain ⟨a, ha, hmod⟩ := exact_convert he hs hz hk
      exact ⟨[a], a, by simp [intAt?, ha], rfl, hmod⟩
  · exact ends_crash

theorem exact_unary {op : Operator} {x : Term} (ht : narrowBits? t = some bits) (v : Value) :
    Ends (v.unary op t) (ExactFor bits (.unary op t x) [v]) := by
  unfold unary
  split
  · rename_i e y
    refine (ends_ofLanes _).bind fun z hz => (ends_ofLanes _).bind fun w hw => ends_pure ?_
    obtain ⟨signed, rfl⟩ := word_of_wrapTo ht hw
    intro i k hk
    obtain ⟨b, hb, hmod⟩ := exact_wrapTo ht hw hk
    obtain ⟨a, r, ha, hr, hab⟩ := Lanes.exact_unary hz hb
    exact ⟨[a], r, by simp [intAt?, ha], hr, hmod r hab⟩
  · exact ends_crash

theorem exact_binary {op : Operator} {x y : Term} (ht : narrowBits? t = some bits) (v w : Value) :
    Ends (v.binary op t w) (ExactFor bits (.binary op t x y) [v, w]) := by
  unfold binary
  split
  · rename_i e a f b
    split
    · rename_i he
      subst he
      refine (ends_ofLanes _).bind fun r hr => ?_
      split
      · refine (ends_ofLanes _).bind fun z hz => ends_pure ?_
        obtain ⟨signed, rfl⟩ := word_of_wrapTo ht hz
        intro i k hk
        obtain ⟨c, hc, hmod⟩ := exact_wrapTo ht hz hk
        obtain ⟨a', b', r', ha, hb, hr', hab⟩ := Lanes.exact_binary hr hc
        exact ⟨[a', b'], r', by simp [intAt?, ha, hb], hr', hmod r' hab⟩
      · -- Truth values are not brought into a narrow range.
        refine (ends_ofLanes _).bind fun z hz => ?_
        obtain ⟨signed, hword⟩ := word_of_wrapTo ht hz
        cases hword
    · exact ends_crash
  · exact ends_crash

theorem ends_lanes_eq (e : Elem) (vs : List Value) :
    Ends (lanesOf e vs) fun xs => vs = xs.map (.lanes e) := by
  induction vs with
  | nil => exact ends_pure rfl
  | cons v vs ih =>
    unfold lanesOf
    split
    · exact ends_pure (by assumption)
    · rename_i f x ws heq
      cases heq
      split
      · rename_i he
        subst he
        exact ih.bind fun xs hxs => ends_pure (by rw [hxs, List.map_cons])
      · exact ends_crash
    · exact ends_crash

theorem exact_math {fn : Builtin} {xs : List Term} (ht : narrowBits? t = some bits)
    (vs : List Value) : Ends (math fn t vs) (ExactFor bits (.math fn t xs) vs) := by
  unfold math
  split
  · rename_i e x vs
    refine (ends_lanes_eq _ _).bind fun ys hys => ?_
    refine (ends_ofLanes _).bind fun z hz => (ends_ofLanes _).bind fun w hw => ends_pure ?_
    obtain ⟨signed, rfl⟩ := word_of_wrapTo ht hw
    intro i k hk
    obtain ⟨b, hb, hmod⟩ := exact_wrapTo ht hw hk
    obtain ⟨as, r, has, hr, hab⟩ := Lanes.exact_math hz hb
    refine ⟨as, r, ?_, hr, hmod r hab⟩
    rw [hys, List.mapM_map]
    exact has
  · exact ends_crash

end Value

/-! ### Terms -/

namespace Term

open Exec

variable {call : Caller} {f : Frame} {st st' : Store}

theorem evalAll_cons {x : Term} {v : Value} {mid : Store} (hx : x.eval call f st = (.ok v, mid))
    {xs : List Term} {vs : List Value} (hxs : evalAll call f xs mid = (.ok vs, st')) :
    evalAll call f (x :: xs) st = (.ok (v :: vs), st') := by
  rw [evalAll, bind_ok hx, bind_ok hxs]
  rfl

/-- **A narrow term gives exact results up to its width**, for the values that its operands give. -/
theorem exact_eval {x : Term} {bits : Nat} (hbits : x.narrowBits? = some bits) {v : Value}
    (h : x.eval call f st = (.ok v, st')) :
    ∃ vs mid, evalAll call f x.operands st = (.ok vs, mid) ∧
      (x.FromReal vs ∨ x.ExactFor bits vs v) := by
  have hnil : ∀ st, evalAll call f [] st = (.ok [], st) := fun st => by
    rw [evalAll]
    rfl
  cases x with
  | cast s y =>
    rw [eval] at h
    obtain ⟨w, mid, hw, h⟩ := of_bind_ok h
    exact ⟨[w], mid, evalAll_cons hw (hnil mid), Value.exact_cast hbits w _ _ _ h⟩
  | unary op t y =>
    rw [eval] at h
    obtain ⟨w, mid, hw, h⟩ := of_bind_ok h
    exact ⟨[w], mid, evalAll_cons hw (hnil mid), Or.inr (Value.exact_unary hbits w _ _ _ h)⟩
  | binary op t y z =>
    rw [eval] at h
    obtain ⟨w, mid, hw, h⟩ := of_bind_ok h
    obtain ⟨w', last, hw', h⟩ := of_bind_ok h
    exact ⟨[w, w'], last, evalAll_cons hw (evalAll_cons hw' (hnil last)),
      Or.inr (Value.exact_binary hbits w w' _ _ _ h)⟩
  | math fn t xs =>
    rw [eval] at h
    obtain ⟨vs, mid, hvs, h⟩ := of_bind_ok h
    exact ⟨vs, mid, hvs, Or.inr (Value.exact_math hbits vs _ _ _ h)⟩
  | _ => cases hbits

end Term

open Exec

/-! ### Parts of actions -/

section Parts

variable {sigs : Signatures} {declared : Scope} {here? : Option Ty} {result : Ty} {a : Action}

/-- What an action evaluates obeys the rules as the action does. -/
theorem Action.Ranged.phrases (h : a.Ranged sigs declared result) :
    ∀ ph ∈ a.phrases, ∃ t, KernelForge.Ranged sigs declared none ph t := by
  cases a with
  | eval x =>
    obtain ⟨t, hx⟩ := h
    exact List.forall_mem_singleton.mpr ⟨t, hx⟩
  | declare slot t init =>
    cases init with
    | none => exact List.forall_mem_nil _
    | some x => exact List.forall_mem_singleton.mpr ⟨t, h.2 x rfl⟩
  | assign p x =>
    obtain ⟨t, hp, hx⟩ := h
    exact forall_mem_pair ⟨t, hx⟩ ⟨t, hp⟩
  | update p next =>
    obtain ⟨t, hp, -⟩ := h
    exact List.forall_mem_singleton.mpr ⟨t, hp⟩
  | branch test yes no => exact List.forall_mem_singleton.mpr ⟨_, h.1⟩
  | loop test post body =>
    cases test with
    | none => exact List.forall_mem_nil _
    | some x => exact List.forall_mem_singleton.mpr ⟨_, h.1 x rfl⟩
  | ret x? =>
    cases x? with
    | none => exact List.forall_mem_nil _
    | some x => exact List.forall_mem_singleton.mpr ⟨_, h x rfl⟩
  | _ => exact List.forall_mem_nil _

theorem Action.Ranged.parts (h : a.Ranged sigs declared result) :
    ∀ b ∈ a.parts, b.Ranged sigs declared result := by
  cases a with
  | seq first second => exact List.forall_mem_singleton.mpr h.1
  | branch test yes no => exact forall_mem_pair h.2.1 h.2.2
  | loop test post body => exact List.forall_mem_singleton.mpr h.2.2
  | _ => exact List.forall_mem_nil _

theorem Action.Ranged.target (h : a.Ranged sigs declared result) {p : Place}
    (hp : a.target? = some p) : ∃ t, KernelForge.Ranged sigs declared none (.place p) t := by
  cases a with
  | assign q x =>
    cases hp
    obtain ⟨t, hq, -⟩ := h
    exact ⟨t, hq⟩
  | update q next =>
    cases hp
    obtain ⟨t, hq, -⟩ := h
    exact ⟨t, hq⟩
  | _ => cases hp

theorem Ranged.ends_arguments {call : Caller} (hcall : call.Within sigs) {f : Frame}
    (hf : f.Within declared here?) {name : String} {args : List Term} {t : Ty}
    (h : Ranged sigs declared here? (.term (.call name args)) t) :
    ∃ params result, sigs name = some (params, result) ∧
      Ends (Term.evalAll call f args)
        fun vs => vs.length = params.length ∧ Value.AllWithin params vs := by
  generalize hph : Phrase.term (.call name args) = ph at h
  induction h with
  | @call fn params result args' hfn hlen hargs ih =>
    cases hph
    exact ⟨params, result, hfn, ends_evalAll hlen fun q hq => (hargs q hq).ends hcall hf⟩
  | retag hx ih => exact ih hph
  | made h hmakes hparts ih =>
    cases hph
    cases hmakes
  | _ => cases hph

end Parts

/-! ### The invariant -/

/-- What is done obeys the rules for ranges, and the variables are within their types. -/
def Doing.Ranged (sigs : Signatures) (fn : CheckedFn) : Doing → Prop
  | .phrase f ph => ∃ scope here?, (f.Ready fn.declared scope here? ∧
      ∃ t, KernelForge.Typed sigs scope here? ph t) ∧
      f.Within fn.declared here? ∧ ∃ t, KernelForge.Ranged sigs fn.declared here? ph t
  | .access vars l => vars.Within fn.declared ∧ ∃ t, l.Typed fn.declared t
  | .run vars a => vars.Within fn.declared ∧ a.Ranged sigs fn.declared fn.result

/-- The variables of a moment. -/
def Doing.vars : Doing → Vars
  | .phrase f _ => f.vars
  | .access vars _ | .run vars _ => vars

/-- Types and ranges hold together. -/
structure Moment.Ranged (p : Program) (m : Moment) : Prop where
  typed : m.Typed p
  doing : m.doing.Ranged p.signatures m.fn

theorem Doing.Ranged.within {sigs : Signatures} {fn : CheckedFn} {d : Doing}
    (h : d.Ranged sigs fn) : d.vars.Within fn.declared := by
  cases d with
  | phrase f ph =>
    obtain ⟨scope, here?, -, hf, -⟩ := h
    exact hf.vars
  | access vars l => exact h.1
  | run vars a => exact h.1

namespace Program

variable {p : Program} {item : WorkItem} {rounds : Nat} {m m' : Moment}

/-- A function starts with its arguments, and its other variables are not set. -/
theorem ranged_entry (hp : p.Ranged) {g : CheckedFn} (hg : g ∈ p.funcs) {vs : List Value}
    (hlen : vs.length = g.paramTypes.length) (hvs : Value.AllWithin g.paramTypes vs) :
    (Doing.run (g.frame vs) g.body).Ranged p.signatures g :=
  ⟨CheckedFn.within_frame hlen hvs, hp g hg⟩

/-- The place that is updated has a type at which the new value obeys the rules, and this is a
type of the place where it stands. -/
theorem ranged_next {fn : CheckedFn} {scope after : Scope} {place : Place} {next : Term}
    {sigs : Signatures} (hsub : ∀ slot u, scope slot = some u → fn.declared slot = some u)
    (ha : (Action.update place next).Typed sigs fn.declared fn.result scope after)
    (h : (Action.update place next).Ranged sigs fn.declared fn.result) :
    ∃ t, (KernelForge.Typed sigs scope none (.place place) t ∧
        KernelForge.Typed sigs scope (some t) (.term next) t) ∧
      KernelForge.Ranged sigs fn.declared none (.place place) t ∧
      KernelForge.Ranged sigs fn.declared (some t) (.term next) t := by
  obtain ⟨t, hplace, hnext⟩ := h
  obtain ⟨u, hplace', hnext'⟩ := ha.of_update
  refine ⟨t, ⟨.of_declared hsub hplace' hplace.typed,
    hnext.typed.rescope fun slot v huses hv => ?_⟩, hplace, hnext⟩
  obtain ⟨w, hw⟩ := huses.in_scope hnext'
  rw [hsub slot w hw] at hv
  cases hv
  exact hw

/-- One moment after the other keeps the invariant. -/
theorem Leads.ranged (hp : p.Ranged) (htyped : p.Typed) (h : p.Leads item rounds m m')
    (hm : m.Ranged p) : m'.Ranged p := by
  refine ⟨h.typed htyped hm.typed, ?_⟩
  have hcall := hp.within_call item rounds
  obtain ⟨⟨hfn, hdoing⟩, hranged⟩ := hm
  cases h with
  | part hq =>
    obtain ⟨scope, here?, ⟨hready, t, ht⟩, hf, u, hu⟩ := hranged
    exact ⟨scope, here?, ⟨hready, ht.parts _ hq⟩, hf, hu.parts _ hq⟩
  | @load fn depth f place l st st' hl =>
    obtain ⟨scope, here?, -, hf, t, ht⟩ := hranged
    obtain ⟨u, hu⟩ := ht.parts (.place place) List.mem_cons_self
    exact ⟨hf.vars, u, hu.ends (hcall depth) hf _ _ _ hl⟩
  | @current fn depth f l hl =>
    obtain ⟨scope, here?, -, hf, t, ht⟩ := hranged
    obtain ⟨u, hu⟩ := ht.typed.here rfl
    exact ⟨hf.vars, u, hf.current u hu l hl⟩
  | whole hl =>
    obtain ⟨hvars, t, hloc⟩ := hranged
    exact ⟨hvars, hloc.whole hl⟩
  | @call fn g depth f name args vs st st' hvs hg =>
    obtain ⟨scope, here?, -, hf, t, ht⟩ := hranged
    obtain ⟨params, result, hsig, hends⟩ := ht.ends_arguments (hcall (depth + 1)) hf
    rw [signatures, hg] at hsig
    cases hsig
    obtain ⟨hlen, hwithin⟩ := hends _ _ _ hvs
    exact ranged_entry hp (List.mem_of_find?_eq_some hg) hlen hwithin
  | phrase hph =>
    obtain ⟨scope, after, hvars, hroom, ha⟩ := hdoing
    exact ⟨scope, none, ⟨.start hvars, ha.phrases _ hph⟩, .start hranged.1,
      hranged.2.phrases _ hph⟩
  | @next fn depth vars place next l st st' hl =>
    obtain ⟨scope, after, hvars, hroom, ha⟩ := hdoing
    have hsub : ∀ slot u, scope slot = some u → fn.declared slot = some u :=
      fun slot u hslot => (hvars slot u hslot).1
    obtain ⟨t, ⟨hplace, hnext⟩, hplace', hnext'⟩ := ranged_next hsub ha hranged.2
    have hloc : Safe (place.locate (p.call item rounds depth) { item, vars }) _ :=
      hplace.promises (htyped.safe_call item rounds depth) (.start hvars)
    refine ⟨scope, some t, ⟨⟨hvars, fun u hu => ⟨l, rfl, ?_⟩⟩, t, hnext⟩,
      ⟨hranged.1, fun u hu l' hl' => ?_⟩, t, hnext'⟩
    · cases hu
      exact (hloc.of_ok hl).1
    · cases hu
      cases hl'
      exact hplace'.ends (hcall depth) (.start hranged.1) _ _ _ hl
  | @target fn depth vars a place l st st' ha' hl =>
    obtain ⟨t, hplace⟩ := hranged.2.target ha'
    exact ⟨hranged.1, t, hplace.ends (hcall depth) (.start hranged.1) _ _ _ hl⟩
  | within hb => exact ⟨hranged.1, hranged.2.parts _ hb⟩
  | @second fn depth vars vars' first second st st' hfirst =>
    have hend := hranged.2.1.ends_run (hcall depth) item rounds hranged.1 _ _ _ hfirst
    exact ⟨hend.1, hranged.2.2⟩
  | @post fn depth vars vars' test post body flow st st' hbody =>
    have hend := hranged.2.2.2.ends_run (hcall depth) item rounds hranged.1 _ _ _ hbody
    exact ⟨hend.1, hranged.2.2.1⟩
  | @again fn depth vars vars' vars'' test post body flow flow' st st' st'' hbody hpost =>
    have hend := hranged.2.2.2.ends_run (hcall depth) item rounds hranged.1 _ _ _ hbody
    have hround := hranged.2.2.1.ends_run (hcall depth) item rounds hend.1 _ _ _ hpost
    exact ⟨hround.1, hranged.2⟩

/-- So does a whole run. -/
theorem Reached.ranged (hp : p.Ranged) (htyped : p.Typed) {k : CheckedFn} (hk : k ∈ p.funcs)
    {args : List Value} (hfits : Value.FitsAll k.paramTypes args)
    (hargs : Value.AllWithin k.paramTypes args) (h : p.Reached item rounds k args m) :
    m.Ranged p := by
  induction h with
  | start =>
    exact ⟨typed_entry htyped hk maxCallDepth hfits,
      ranged_entry hp hk hfits.length_eq hargs⟩
  | step _ hstep ih => exact hstep.ranged hp htyped ih

/-! ### Arguments -/

theorem within_readArg {kernel param : String} {index : Nat} {t : Ty} {arg : KernelArg} {v : Value}
    (h : readArg kernel index param t arg = .ok v) : v.Within t := by
  unfold readArg at h
  split at h
  · simp only [Value.Within]
  · split at h
    · cases h
    · split at h
      · rename_i hdecode
        cases h
        exact (Value.decodeAt_formed hdecode).within
      · cases h

theorem allWithin_readArgsFrom {kernel : String} : ∀ {index : Nat} {params : List (String × Ty)}
    {args : List KernelArg} {vs : List Value}, readArgsFrom kernel index params args = .ok vs →
    Value.AllWithin (params.map Prod.snd) vs
  | index, (param, t) :: params, arg :: args, vs, h => by
    rw [readArgsFrom] at h
    obtain ⟨v, hv, h⟩ := bind_eq_ok.mp h
    obtain ⟨ws, hws, h⟩ := bind_eq_ok.mp h
    cases h
    simp only [List.map_cons, Value.AllWithin]
    exact ⟨within_readArg hv, allWithin_readArgsFrom hws⟩
  | _, [], _, vs, h => by
    cases h
    simp only [List.map_nil, Value.AllWithin]
  | _, q :: params, [], vs, h => by
    cases h
    simp only [List.map_cons, Value.AllWithin]

theorem allWithin_readArgs {fn : CheckedFn} {args : List KernelArg} {vs : List Value}
    (h : readArgs fn args = .ok vs) : Value.AllWithin fn.paramTypes vs := by
  unfold readArgs at h
  split at h
  · cases h
  · exact allWithin_readArgsFrom h

/-! ### Runs -/

/-- The types of a term of a function that the rules for ranges give it. -/
def RangedType (p : Program) (fn : CheckedFn) (here? : Option Ty) (x : Term) (t : Ty) : Prop :=
  KernelForge.Ranged p.signatures fn.declared here? (.term x) t

theorem evaluates_ranged (hp : p.Ranged) (htyped : p.Typed) (hm : m.Ranged p) {f : Frame} {x : Term}
    (hdoing : m.doing = .phrase f (.term x)) :
    ∃ here?, (∃ t, p.RangedType m.fn here? x t) ∧ ∀ t, p.RangedType m.fn here? x t →
      Ends (x.eval (p.call item rounds m.depth) f) fun v => v.Fits t ∧ v.Within t := by
  have hranged := hm.doing
  rw [hdoing] at hranged
  obtain ⟨scope, here?, ⟨hready, u, hu⟩, hf, t, ht⟩ := hranged
  have hsub : ∀ slot v, scope slot = some v → m.fn.declared slot = some v :=
    fun slot v hslot => (hready.vars slot v hslot).1
  refine ⟨here?, ⟨t, ht⟩, fun w hw st v st' hv => ⟨?_, ?_⟩⟩
  · have hsafe : Safe (x.eval (p.call item rounds m.depth) f) (Value.Fits w) :=
      (Typed.of_declared hsub hu hw.typed).promises (htyped.safe_call item rounds m.depth) hready
    exact hsafe.of_ok hv
  · exact hw.ends (hp.within_call item rounds m.depth) hf st v st' hv

/-- The types that the checker gives are among those that the rules give. -/
theorem rangedType_of_checkExpr {fn : CheckedFn} {env : Env} {scope : Scope}
    (henv : env.Agrees p.signatures scope)
    (hscope : ∀ slot t, scope slot = some t → fn.declared slot = some t) {e : Code.Expr}
    {x : Checked} (h : env.checkExpr e = .ok x) (here? : Option Ty) :
    p.RangedType fn here? x.term x.type.ty := by
  have hdeclared : env.Agrees p.signatures fn.declared := by
    refine ⟨henv.structs, fun name v hv => ?_, henv.funcs⟩
    obtain ⟨hnamed, hslot⟩ := henv.vars name v hv
    exact ⟨hnamed, hscope _ _ hslot⟩
  exact (Env.ranged_checkExpr hdeclared h).term

/-- **Narrow integers never leave their range.**  Whatever work item of whatever kernel of a
program that was built is run on arguments that were accepted: the arguments are within the types
of the parameters; at every moment all variables are within the types that they are declared with,
and those that are read hold values of these types; every evaluation of a term gives a value that
fits its types and is within them, down to the lanes of vectors and the fields of structures, the
type that the checker gave being one of them; whatever is returned is within the type of the
result; and each narrow value that a conversion, an operator or a function made is in every lane the
exact integer result for its operands, up to a multiple of two to the power of its width, unless it
was converted from floating point. -/
theorem narrow_integers_kept {source : SourceText} (hbuild : build source = .built p)
    {k : CheckedFn} (hk : k ∈ p.kernels) {args : List KernelArg} {vs : List Value}
    (hargs : readArgs k args = .ok vs) (item : WorkItem) (rounds : Nat) :
    Value.AllWithin k.paramTypes vs ∧
    (∀ m, p.Reached item rounds k vs m →
      m.doing.vars.Within m.fn.declared ∧
      (∀ vars slot, m.doing.Reads vars slot →
        ∃ t, m.fn.declared slot = some t ∧ vars.HoldsAt slot t) ∧
      (∀ f x, m.doing = .phrase f (.term x) →
        (∃ here?, (∃ t, p.RangedType m.fn here? x t) ∧ ∀ t, p.RangedType m.fn here? x t →
          Ends (x.eval (p.call item rounds m.depth) f) fun v => v.Fits t ∧ v.Within t) ∧
        ∀ bits st v st', x.narrowBits? = some bits →
          x.eval (p.call item rounds m.depth) f st = (.ok v, st') →
          ∃ ws mid, Term.evalAll (p.call item rounds m.depth) f x.operands st = (.ok ws, mid) ∧
            (x.FromReal ws ∨ x.ExactFor bits ws v)) ∧
      (∀ vars a, m.doing = .run vars a →
        Ends (a.run (p.call item rounds m.depth) item rounds vars)
          (Flow.Within m.fn.declared m.fn.result))) ∧
    (∀ fn ∈ p.funcs, ∀ (env : Env) (scope : Scope) (e : Code.Expr) (x : Checked) (here? : Option Ty),
      env.Agrees p.signatures scope →
      (∀ slot t, scope slot = some t → fn.declared slot = some t) →
      env.checkExpr e = .ok x → p.RangedType fn here? x.term x.type.ty) := by
  have hp := ranged_of_build hbuild
  have htyped := (typed_of_build hbuild).1
  have hk' : k ∈ p.funcs := (List.mem_filter.mp hk).1
  have hwithin := allWithin_readArgs hargs
  refine ⟨hwithin, fun m hm => ?_, ?_⟩
  · have hranged := hm.ranged hp htyped hk' (fits_readArgs hargs) hwithin
    refine ⟨hranged.doing.within, fun vars slot hreads => reads_typed hranged.typed hreads,
      fun f x hdoing => ⟨evaluates_ranged hp htyped hranged hdoing, ?_⟩, fun vars a hdoing => ?_⟩
    · exact fun bits st v st' hbits hv => Term.exact_eval hbits hv
    · have hrun := hranged.doing
      rw [hdoing] at hrun
      exact hrun.2.ends_run (hp.within_call item rounds m.depth) item rounds hrun.1
  · intro fn _ env scope e x here? henv hscope hx
    exact rangedType_of_checkExpr henv hscope hx here?

/-! ### A kernel that makes a narrow number -/

section Lower

open Token (spaced scans_spaced)
open Code.Scope

/-- The tokens of a kernel that stores the low byte of its second argument. -/
def lowerTokens : List Token :=
  [.name "__kernel", .name "void", .name "lower", .op .lparen, .name "__global", .name "uchar",
    .op .mul, .name "a", .op .comma, .keyword .const, .name "int", .name "i", .op .rparen,
    .op .lbrace, .name "a", .op .lbrack, .int "0", .op .rbrack, .op .assign, .name "i",
    .op .semicolon, .op .rbrace]

def lowerSource : SourceText := SourceText.ofChars (spaced lowerTokens)

/-- The number is converted before it is stored. -/
def lowerTerm : Term := .cast .uchar (.var 1)

/-- The kernel as it is checked. -/
def lowerFn : CheckedFn where
  name := "lower"
  isKernel := true
  result := .void
  params := [("a", .pointer (.scalar .uchar) .global false), ("i", .scalar .int)]
  slots := 2
  body := .seq (.assign (.deref (.scalar .uchar) (.var 0)
    (.cast .long (.const .int32 (.atom (BitVec.ofInt 32 0))))) lowerTerm) .skip

def lowerProgram : Program where
  source := lowerSource
  fp64 := false
  funcs := [lowerFn]

theorem build_lower : build lowerSource = .built lowerProgram := by
  obtain ⟨o, finish, map, hstream⟩ := exists_stream (@scans_spaced lowerTokens (by decide)) fileName
  -- only the offsets stay open, and nothing that is built depends on them
  rw [build, lowerSource, hstream]
  with_unfolding_all rfl

/-- The arguments: the number is 300. -/
def lowerArgs : List KernelArg := [{ memory? := some 0 }, { bytes := [44, 1, 0, 0] }]

def lowerValues : List Value := [.pointer ⟨some 0, 0⟩, .lanes .int32 (.atom 300)]

def lowerItem : WorkItem := { offset := 0, extent := 1, id := 0 }

/-- The frame in which the number is converted. -/
def lowerFrame : Frame := { item := lowerItem, vars := lowerFn.frame lowerValues }

/-- The low byte of 300 is 44, which is congruent to it. -/
theorem lower_keeps_range :
    build lowerSource = .built lowerProgram ∧ lowerFn ∈ lowerProgram.kernels ∧
      readArgs lowerFn lowerArgs = .ok lowerValues ∧
      lowerProgram.Reached lowerItem 1 lowerFn lowerValues
        ⟨lowerFn, maxCallDepth, .phrase lowerFrame (.term lowerTerm)⟩ ∧
      (∀ st, lowerTerm.eval (lowerProgram.call lowerItem 1 maxCallDepth) lowerFrame st =
        (.ok (.lanes .uint32 (.atom 44)), st)) ∧
      ∀ st, ∃ ws mid, Term.evalAll (lowerProgram.call lowerItem 1 maxCallDepth) lowerFrame
          lowerTerm.operands st = (.ok ws, mid) ∧
        (lowerTerm.FromReal ws ∨ lowerTerm.ExactFor 8 ws (.lanes .uint32 (.atom 44))) := by
  have hk : lowerFn ∈ lowerProgram.kernels := List.mem_singleton.mpr rfl
  have hargs : readArgs lowerFn lowerArgs = .ok lowerValues := rfl
  have hreached : lowerProgram.Reached lowerItem 1 lowerFn lowerValues
      ⟨lowerFn, maxCallDepth, .phrase lowerFrame (.term lowerTerm)⟩ :=
    .step (.step .start (.within List.mem_cons_self)) (.phrase List.mem_cons_self)
  have heval : ∀ st, lowerTerm.eval (lowerProgram.call lowerItem 1 maxCallDepth) lowerFrame st =
      (.ok (.lanes .uint32 (.atom 44)), st) := fun st => rfl
  obtain ⟨-, hmoments, -⟩ := narrow_integers_kept build_lower hk hargs lowerItem 1
  obtain ⟨-, -, hterms, -⟩ := hmoments _ hreached
  exact ⟨build_lower, hk, hargs, hreached, heval, fun st =>
    (hterms lowerFrame lowerTerm rfl).2 8 st _ st rfl (heval st)⟩

end Lower

end Program
end KernelForge
