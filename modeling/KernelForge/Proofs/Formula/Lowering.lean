/-
Lowering keeps the meaning of formulas.

A kernel is drafted whose body is what a formula is lowered to, and which then stores the value.
Its source is built, and running it stores what the formula gives for the arguments of the run; or
the formula gives nothing, and the run fails and stores nothing either.

Why a run fails is not compared: where two operands fail, the formula tells of the left one, but the
kernel may find the right one first, as it reads sources only where they are used.
-/
import KernelForge.Program.Run
import KernelForge.Proofs.Draft.Kernels
import KernelForge.Proofs.Formula.Computing
import KernelForge.Proofs.Formula.Legible
import KernelForge.Proofs.Program.Actions

namespace KernelForge

open Exec (Quiet Alike Yields Safe)
open Vars (Looks)
open Code.Scope (isQualifier)

/-! ### Actions with the same effect -/

/-- Both leave the same memories, and both succeed or both do not. -/
def Exec.Same {α β : Type} (x : Exec α) (y : Exec β) : Prop :=
  ∀ st, (x st).2 = (y st).2 ∧ ((∃ a, (x st).1 = .ok a) ↔ ∃ b, (y st).1 = .ok b)

namespace Exec

variable {α β γ δ : Type} {x : Exec α} {y : Exec β}

theorem same_refl (x : Exec α) : Same x x := fun _ => ⟨rfl, Iff.rfl⟩

/-- What an action gives does not matter. -/
theorem Same.then_pure (h : Same x y) (k : α → γ) :
    Same (x >>= fun a => (Pure.pure (k a) : Exec γ)) y := by
  intro st
  obtain ⟨hst, hok⟩ := h st
  simp only [Bind.bind, Exec.bind]
  rcases hx : x st with ⟨outcome, st'⟩
  rw [hx] at hst hok
  refine ⟨?_, Iff.trans ?_ hok⟩
  · cases outcome <;> exact hst
  · cases outcome with
    | ok a => exact ⟨fun _ => ⟨a, rfl⟩, fun _ => ⟨k a, rfl⟩⟩
    | _ => exact ⟨by simp, by simp⟩

/-- Whatever follows a quiet action that gives no value is not done. -/
theorem Quiet.same_of_no_value (hx : Quiet x) (hy : Quiet y) {f : α → Exec γ} {g : β → Exec δ}
    {st : Store} (h : x.value? st = none) (h' : y.value? st = none) :
    ((x >>= f) st).2 = ((y >>= g) st).2 ∧
      ((∃ c, ((x >>= f) st).1 = .ok c) ↔ ∃ d, ((y >>= g) st).1 = .ok d) := by
  obtain ⟨hst, hnone⟩ := hx.bind_of_no_value h f
  obtain ⟨hst', hnone'⟩ := hy.bind_of_no_value h' g
  exact ⟨hst.trans hst'.symm, fun ⟨c, hc⟩ => absurd hc (hnone c), fun ⟨d, hd⟩ => absurd hd (hnone' d)⟩

/-- A value that is computed in two steps, and what is done with it afterwards. -/
theorem Alike.same {g : α → Exec β} (h : Alike (x >>= g) y) (hx : Quiet x) (hg : ∀ a, Quiet (g a))
    (hy : Quiet y) {k : α → β → Exec γ} {w : β → Exec δ}
    (hk : ∀ a b, Yields x a → Same (k a b) (w b)) :
    Same (x >>= fun a => g a >>= k a) (y >>= w) := by
  intro st
  have hst := h st
  rw [hx.value?_bind] at hst
  cases ha : x.value? st with
  | none =>
    rw [ha] at hst
    exact hx.same_of_no_value hy ha hst.symm
  | some a =>
    rw [ha, Option.bind_some] at hst
    rw [bind_ok (hx.run_of_value? ha)]
    cases hb : (g a).value? st with
    | none => exact (hg a).same_of_no_value hy hb (hst.symm.trans hb)
    | some b =>
      rw [bind_ok ((hg a).run_of_value? hb), bind_ok (hy.run_of_value? (hst.symm.trans hb))]
      exact hk a b ⟨st, ha⟩ st

end Exec

/-! ### Arguments of a run -/

/-- What the arguments of a run are called, their types and their values. -/
abbrev Actuals := List (String × Ty × Value)

/-- The arguments of a drafted kernel with their values. -/
def DraftArg.actuals (args : List DraftArg) (vs : List Value) : Actuals :=
  (args.zip vs).map fun (a, v) => (a.name, a.type, v)

theorem DraftArg.lookup_actuals : ∀ {args : List DraftArg} {vs : List Value} {i : Nat} {a : DraftArg}
    {v : Value}, (args.map (·.name)).Nodup → args[i]? = some a → vs[i]? = some v →
      (actuals args vs).lookup a.name = some (a.type, v)
  | [], _, _, _, _, _, ha, _ => by cases ha
  | _ :: _, [], _, _, _, _, _, hv => by cases hv
  | b :: args, w :: vs, 0, a, v, _, ha, hv => by
    cases ha
    cases hv
    simp [actuals]
  | b :: args, w :: vs, i + 1, a, v, hnodup, ha, hv => by
    rw [List.map_cons, List.nodup_cons] at hnodup
    have hmore := lookup_actuals hnodup.2 ha hv
    have hne : (a.name == b.name) = false := by
      refine beq_eq_false_iff_ne.mpr fun heq => hnodup.1 ?_
      rw [← heq]
      exact List.mem_map_of_mem (List.mem_of_getElem? ha)
    simpa [actuals, List.lookup_cons, hne] using hmore

/-- The number of an index. -/
def Index.read (args : Actuals) : Index → Exec Value
  | var x =>
    match args.lookup x with
    | some (t, v) => v.convert t (.scalar .long)
    | none => .crash
  | literal n => return .ofInt .int64 n
  | offset x n =>
    match args.lookup x with
    | some (.scalar s, v) => after s v n
    | _ => .crash

/-- The place of an element, with its type. -/
def Source.locate (args : Actuals) : Source → Exec (Nat × BitVec 64 × Ty)
  | element x i =>
    match args.lookup x with
    | some (.pointer t _ _, p) => do
      let j ← i.read args
      let l ← p.elementAt t j
      return (l.1, l.2, t)
    | _ => .crash
  | var _ => .crash

/-- The value of a source. -/
def Source.read (args : Actuals) : Source → Exec Value
  | var x =>
    match args.lookup x with
    | some (_, v) => return v
    | none => .crash
  | element x i => do
    let (m, offset, t) ← (Source.element x i).locate args
    Exec.load m offset t

/-- Stores a value in an element of a buffer. -/
def Source.write (args : Actuals) (a : Source) (v : Value) : Exec Unit := do
  let (m, offset, t) ← a.locate args
  Exec.store m offset t v

/-! ### Sources among the arguments -/

/-- An index that is an integer among the arguments, a number, or their sum. -/
inductive Index.Typed (args : List DraftArg) : Index → Prop
  | var {a : DraftArg} {s : Scalar} (ha : a ∈ args) (htype : a.type = .scalar s)
      (hs : s.isInteger = true) : Typed args (.var a.name)
  | literal {n : Nat} (hn : n < 2 ^ 64) : Typed args (.literal n)
  | offset {a : DraftArg} {s : Scalar} {n : Nat} (ha : a ∈ args) (htype : a.type = .scalar s)
      (hs : s.isInteger = true) (hn : n < 2 ^ 64) : Typed args (.offset a.name n)

/-- A source of type `t`: a value among the arguments, or an element of a buffer. -/
inductive Source.Typed (args : List DraftArg) : Source → Ty → Prop
  | var {a : DraftArg} (ha : a ∈ args) (hdata : a.type.isData = true) : Typed args (.var a.name) a.type
  | element {a : DraftArg} {t : Ty} {space : Space} {readOnly : Bool} {i : Index} (ha : a ∈ args)
      (htype : a.type = .pointer t space readOnly) (hi : i.Typed args) :
      Typed args (.element a.name i) t

/-- An element of type `t` that can be assigned to. -/
inductive Source.Writable (args : List DraftArg) : Source → Ty → Prop
  | element {a : DraftArg} {t : Ty} {i : Index} (ha : a ∈ args)
      (htype : a.type = .pointer t .global false) (hi : i.Typed args) (hlead : LeadsPlace a.name) :
      Writable args (.element a.name i) t

/-- The first variables have some values. -/
def Vars.Begin (vs : List Value) (vars : Vars) : Prop :=
  ∀ (i : Nat) (v : Value), vs[i]? = some v → vars.at i = v

section Sources

variable {args : List DraftArg} {env : Env} {vs : List Value} {vars : Vars} {t : Ty}

/-- An argument is found among the variables, and its value where the run has it. -/
theorem Env.Holds.argument (henv : env.Holds args) (hnodup : (args.map (·.name)).Nodup)
    {a : DraftArg} (ha : a ∈ args) :
    ∃ slot, env.find? a.name = some (a.toVariable slot) ∧ ∀ {vs vars},
      Value.FitsAll (args.map (·.type)) vs → Vars.Begin vs vars →
        (DraftArg.actuals args vs).lookup a.name = some (a.type, vars.at slot) ∧
          (vars.at slot).Fits a.type := by
  obtain ⟨i, hi⟩ := List.getElem?_of_mem ha
  refine ⟨i, henv.finds hi, fun {vs vars} hfits hbegin => ?_⟩
  have htype : (args.map (·.type))[i]? = some a.type := by rw [List.getElem?_map, hi]; rfl
  obtain ⟨v, hv, hvfits⟩ := hfits.getElem? htype
  rw [hbegin i v hv]
  exact ⟨DraftArg.lookup_actuals hnodup hi hv, hvfits⟩

theorem Index.fits_natural (n : Nat) :
    (Value.lanes (natural n).elem (.atom (natural n).cell)).Fits (.scalar (natural n).type) := by
  rcases natural_cases n with h | h | h <;> rw [h]
  · exact Value.fits_scalar .int _
  · exact Value.fits_scalar .long _
  · exact Value.fits_scalar .ulong _

theorem Index.safe_after {s : Scalar} {v : Value} (hv : v.Fits (.scalar s)) (n : Nat) :
    Safe (Index.after s v n) (Value.Fits (.scalar .long)) := by
  unfold after
  refine (Value.safe_convert (.scalar ..) hv).bind fun v hv => ?_
  refine (Value.safe_convert (.scalar ..) (fits_natural n)).bind fun w hw => ?_
  refine (Value.safe_binary_same rfl rfl rfl rfl rfl (Lanes.joined_self _) hv hw).bind fun i hi => ?_
  exact Value.safe_convert (.scalar ..) hi

theorem Index.Typed.stands {i : Index} (h : i.Typed args) (henv : env.Holds args)
    (hnodup : (args.map (·.name)).Nodup) :
    ∃ g, i.Stands env g ∧ ∀ {vs vars}, Value.FitsAll (args.map (·.type)) vs → Vars.Begin vs vars →
      g vars = i.read (DraftArg.actuals args vs) ∧ Safe (g vars) (Value.Fits (.scalar .long)) := by
  cases h with
  | var ha htype hs =>
    rename_i a s
    obtain ⟨slot, hfind, hvalue⟩ := henv.argument hnodup ha
    refine ⟨_, .var hfind (s := s) ?_ hs, fun {vs vars} hfits hbegin => ?_⟩
    · rw [DraftArg.toVariable, htype]
      rfl
    · obtain ⟨hlookup, hfit⟩ := hvalue hfits hbegin
      rw [htype] at hlookup hfit
      rw [Index.read, hlookup]
      exact ⟨rfl, Value.safe_convert (.scalar s .long) hfit⟩
  | literal hn =>
    exact ⟨_, .literal hn, fun _ _ => ⟨rfl, Exec.safe_pure (Value.fits_scalar .long _)⟩⟩
  | offset ha htype hs hn =>
    rename_i a s n
    obtain ⟨slot, hfind, hvalue⟩ := henv.argument hnodup ha
    refine ⟨_, .offset hfind (s := s) ?_ hs hn, fun {vs vars} hfits hbegin => ?_⟩
    · rw [DraftArg.toVariable, htype]
      rfl
    · obtain ⟨hlookup, hfit⟩ := hvalue hfits hbegin
      rw [htype] at hlookup hfit
      rw [Index.read, hlookup]
      exact ⟨rfl, Index.safe_after hfit n⟩

theorem Value.safe_elementAt {space : Space} {readOnly : Bool} {p j : Value}
    (hp : p.Fits (.pointer t space readOnly)) (hj : j.Fits (.scalar .long)) :
    Safe (p.elementAt t j) fun _ => True := by
  unfold elementAt
  refine (safe_toWord (s := .long) rfl hj).bind fun i _ => (safe_toPointer hp).bind fun q _ => ?_
  split
  · exact Exec.safe_fail rfl
  · exact Exec.safe_pure trivial

theorem Source.Typed.stands {a : Source} (h : a.Typed args t) (henv : env.Holds args)
    (hnodup : (args.map (·.name)).Nodup) :
    ∃ g, a.Stands env t g ∧ ∀ {vs vars}, Value.FitsAll (args.map (·.type)) vs → Vars.Begin vs vars →
      g vars = a.read (DraftArg.actuals args vs) ∧ Safe (g vars) (Value.Fits t) := by
  cases h with
  | var ha hdata =>
    obtain ⟨slot, hfind, hvalue⟩ := henv.argument hnodup ha
    refine ⟨_, .var hfind rfl, fun {vs vars} hfits hbegin => ?_⟩
    obtain ⟨hlookup, hfit⟩ := hvalue hfits hbegin
    rw [Source.read, hlookup]
    exact ⟨rfl, Exec.safe_pure hfit⟩
  | element ha htype hi =>
    rename_i b space readOnly i
    obtain ⟨slot, hfind, hvalue⟩ := henv.argument hnodup ha
    obtain ⟨g, hstands, hread⟩ := hi.stands henv hnodup
    have hpointer : (b.toVariable slot).type = .pointer (NamedTy.ofTy t) space readOnly := by
      rw [DraftArg.toVariable, htype]
      rfl
    refine ⟨_, .element hfind hpointer hstands, fun {vs vars} hfits hbegin => ?_⟩
    · obtain ⟨hlookup, hfit⟩ := hvalue hfits hbegin
      obtain ⟨hindex, hsafe⟩ := hread hfits hbegin
      rw [htype] at hlookup hfit
      refine ⟨?_, ?_⟩
      · rw [Source.read, Source.locate, hlookup]
        simp only [hindex, bind_assoc, pure_bind]
        rfl
      · exact hsafe.bind fun j hj => (Value.safe_elementAt hfit hj).bind fun l _ =>
          Exec.safe_load _ _ _

theorem Index.Typed.legible {i : Index} (h : i.Typed args)
    (hargs : ∀ a ∈ args, a.Usable) : i.Legible := by
  cases h with
  | var ha _ _ => exact (hargs _ ha).ident
  | literal _ => trivial
  | offset ha _ _ _ => exact (hargs _ ha).ident

theorem Source.Typed.legible {a : Source} (h : a.Typed args t) (hargs : ∀ a ∈ args, a.Usable) :
    a.Legible ∧ t.isData = true := by
  cases h with
  | var ha hdata => exact ⟨(hargs _ ha).ident, hdata⟩
  | element ha htype hi =>
    have hdata := (hargs _ ha).data
    rw [DraftArg.elem, htype] at hdata
    exact ⟨⟨(hargs _ ha).ident, hi.legible hargs⟩, hdata⟩

end Sources

/-! ### The body of the kernel -/

/-- The script that stores a value. -/
def Script.storing (place : Source) (value : Operand) : Script := .assign place value .done

section Body

variable {env : Env} {t : Ty} {g : Vars → Exec Value}

theorem Env.check_storing {x : String} {i : Index} {v : Variable} {h : Vars → Exec Value}
    (hfind : env.find? x = some v) (htype : v.type = .pointer (NamedTy.ofTy t) .global false)
    (hi : i.Stands env h) {value : Operand} (hvalue : env.Checks value.Tree t g) {ss : List Code.Stmt}
    (hss : (Script.storing (.element x i) value).Trees ss) :
    ∃ a, env.checkStmts ss = .ok (a, env) ∧ a.Does fun vars => do
      let w ← g vars
      let l ← (vars.at v.slot).elementAt t (← h vars)
      Exec.store l.1 l.2 t w
      return vars := by
  obtain ⟨e, o, e', _, rfl, he, he', rfl⟩ := hss
  obtain ⟨z, p, hz, hztype, -, hplace, hread, hlocate⟩ := Source.check_element hfind htype hi he
  obtain ⟨y, hy, hmeans⟩ := hvalue e' he'
  refine Env.checkStmts_single (a := .assign p y.term) ?_ fun call item rounds vars => ?_
  · have hassign : Env.assignable o z = .ok p := by
      simp [Env.assignable, hplace, hread]
    have hconv : y.convert o z.type = .ok y := by
      unfold Checked.convert
      rw [if_pos (by rw [hmeans.ty, hztype, NamedTy.ty_ofTy])]
    rw [Env.checkStmt, Env.checkSimple, hz, hy]
    simp only [Env.binaryOf?, hassign, hconv, bind, Except.bind]
    rfl
  · have hy' := hmeans.value call { item, vars }
    rw [Action.run, hy', hlocate]
    simp only [bind_assoc, pure_bind, Loc.store]

end Body

namespace Formula

/-- **What a kernel is to do**: to store the value of a formula. -/
def storeIn (types : List Ty) (sources : List Source) (n : Formula) (place : Source)
    (args : Actuals) : Exec Unit := do
  let v ← n.eval types (sources.map fun a => a.read args)
  place.write args v

variable {args : List DraftArg} {types : List Ty} {sources : List Source} {env : Env}

/-- Sources of some types. -/
inductive SourcesTyped (args : List DraftArg) : List Source → List Ty → Prop
  | nil : SourcesTyped args [] []
  | cons {a : Source} {as : List Source} {t : Ty} {ts : List Ty} (ha : a.Typed args t)
      (has : SourcesTyped args as ts) : SourcesTyped args (a :: as) (t :: ts)

/-- The arguments of a run are the first variables. -/
def Arrived (args : List DraftArg) (vars : Vars) (vs : List Value) : Prop :=
  Value.FitsAll (args.map (·.type)) vs ∧ Vars.Begin vs vars

theorem SourcesTyped.placed {names : Names} (h : SourcesTyped args sources types)
    (hwithin : env.Within names) (henv : env.Holds args) (hnodup : (args.map (·.name)).Nodup) :
    ∃ reads, Placed args.length env types sources reads ∧ ∀ {vars vs}, Arrived args vars vs →
      reads.map (fun g => g vars) = sources.map (fun a => a.read (DraftArg.actuals args vs)) ∧
        Supply types (reads.map fun g => g vars) := by
  induction h with
  | nil => exact ⟨[], ⟨nofun, nofun⟩, fun _ => ⟨rfl, nofun⟩⟩
  | cons ha has ih =>
    obtain ⟨g, hstands, hread⟩ := ha.stands henv hnodup
    obtain ⟨reads, hplaced, hreads⟩ := ih
    have hlooks : Looks args.length g := henv.slots ▸ hstands.looks hwithin
    refine ⟨g :: reads, ⟨fun {i t} hi => ?_, List.forall_mem_cons.mpr ⟨hlooks, hplaced.looks⟩⟩,
      fun {vars vs} harrived => ?_⟩
    · cases i with
      | zero =>
        cases hi
        exact ⟨g, rfl, hstands⟩
      | succ i => exact hplaced.stands hi
    · obtain ⟨hvalue, hsafe⟩ := hread harrived.1 harrived.2
      obtain ⟨hvalues, hsupply⟩ := hreads harrived
      refine ⟨by rw [List.map_cons, List.map_cons, hvalue, hvalues], fun i t hi => ?_⟩
      cases i with
      | zero =>
        cases hi
        exact ⟨g vars, rfl, hsafe⟩
      | succ i => exact hsupply i t hi

/-- The body of a kernel that does what it is to do. -/
structure Stores (args : List DraftArg) (types : List Ty) (sources : List Source) (n : Formula)
    (place : Source) (body : Action) (slots : Nat) : Prop where
  enough : args.length ≤ slots
  run : ∀ {vars vs}, Arrived args vars vs → slots ≤ vars.size → ∀ call item rounds,
    Exec.Same (body.run call item rounds vars)
      (storeIn types sources n place (DraftArg.actuals args vs))

/-- **The statements of a lowered formula are checked to what stores its value.** -/
theorem checksBody_lowered {known : List (List Ty)} {fp64 : Bool} (hordered : Ty.Ordered known)
    {names : Names} (hnames : ∀ a ∈ args, a.name ∈ names.taken ∧ ∀ fn : Builtin, a.name ≠ fn.name)
    (hnodup : (args.map (·.name)).Nodup) (hdata : Ty.areData types = true)
    (hsources : SourcesTyped args sources types) {n : Formula} {t : Ty} (hpure : n.isPure = true)
    (hinfer : n.infer types = .ok t)
    (hknown : ∀ u ∈ (compile types sources names n).script.types, u.Known known fp64)
    {place : Source} (hplace : place.Writable args t) :
    Env.ChecksBody known fp64 args ((compile types sources names n).script ++
        .storing place (compile types sources names n).value).Trees
      (Stores args types sources n place) := by
  intro env hknows hholds ss hss
  have hholds' : env.openScope.Holds args := ⟨hholds.slots, hholds.finds, hholds.only⟩
  have hknows' : env.openScope.Knows known fp64 := ⟨hknows.structs, hknows.fp64⟩
  have hwithin : env.openScope.Within names := by
    refine ⟨fun hfind => ?_, fun hfind => ?_, fun fn => hholds'.find?_none fun a ha => (hnames a ha).2 fn⟩
    · obtain ⟨i, a, ha, rfl, -⟩ := hholds'.only hfind
      exact (hnames a (List.mem_of_getElem? ha)).1
    · obtain ⟨i, a, ha, -, rfl⟩ := hholds'.only hfind
      rw [hholds'.slots]
      exact (List.getElem?_eq_some_iff.mp ha).1
  obtain ⟨reads, hplaced, hreads⟩ := hsources.placed hwithin hholds' hnodup
  have hscene : Scene args.length types sources reads names env.openScope :=
    ⟨hwithin, hholds'.slots ▸ Nat.le_refl _, hknows'.integers hordered, hplaced⟩
  obtain ⟨env', f, g, hc, hstands⟩ := means_compile (V := fun vars => ∃ vs, Arrived args vars vs) hdata
    (fun vars ⟨vs, hvs⟩ => (hreads hvs).2) hpure hinfer hscene
    fun u hu hudata => hknows'.resolves hordered hudata (hknown u hu)
  obtain ⟨ss₁, ss₂, rfl, hss₁, hss₂⟩ := Script.trees_append hss
  obtain ⟨a₁, ha₁, hdoes₁⟩ := hc.performs.check ss₁ hss₁
  cases hplace with
  | element ha htype hi hlead =>
    rename_i b i
    obtain ⟨slot, hfind, hvalue⟩ := hholds'.argument hnodup ha
    obtain ⟨h, hindex, hread⟩ := hi.stands hholds' hnodup
    have hlooks : Looks env.openScope.slots h := hindex.looks hwithin
    have hpointer : (b.toVariable slot).type = .pointer (NamedTy.ofTy t) .global false := by
      rw [DraftArg.toVariable, htype]
      rfl
    obtain ⟨a₂, ha₂, hdoes₂⟩ := Env.check_storing (hc.performs.grows.finds hfind) hpointer
      (hindex.mono hc.performs.grows) (hstands.check (hscene.after hc).integers) hss₂
    obtain ⟨a, ha, hrun⟩ := Env.checkStmts_append ha₁ ha₂
    refine ⟨a, env', ha, ?_, fun {vars vs} harrived hsize call item rounds => ?_⟩
    · rw [← hholds'.slots]
      exact hc.performs.grows.slots
    · obtain ⟨hvalues, -⟩ := hreads harrived
      obtain ⟨hlookup, -⟩ := hvalue harrived.1 harrived.2
      obtain ⟨hnumber, -⟩ := hread harrived.1 harrived.2
      have hgives := hc.gives ⟨vs, harrived⟩ (Vars.agree_refl _ vars) hsize
      rw [hvalues] at hgives
      rw [hrun, (hdoes₁.seq hdoes₂) call item rounds vars]
      simp only [bind_assoc, pure_bind]
      refine hgives.same (hc.performs.quiet vars) hc.looks.quiet (hvalues ▸ hc.quiet vars)
        fun vars' w hvars' => ?_
      have hagree := hc.performs.keeps hvars'
      have hslot : vars'.at (b.toVariable slot).slot = vars.at slot :=
        hagree.same slot (hwithin.slotted hfind)
      rw [hlooks.stable hagree, hslot, hnumber]
      rw [htype] at hlookup
      have hwrite : Source.write (DraftArg.actuals args vs) (.element b.name i) w =
          (i.read (DraftArg.actuals args vs) >>= fun j => (vars.at slot).elementAt t j >>= fun l =>
            Exec.store l.1 l.2 t w) := by
        rw [Source.write, Source.locate, hlookup]
        simp only [bind_assoc, pure_bind]
      rw [hwrite]
      have hsame := (Exec.same_refl (i.read (DraftArg.actuals args vs) >>= fun j =>
        (vars.at slot).elementAt t j >>= fun l => Exec.store l.1 l.2 t w)).then_pure
          fun _ => (Flow.next, vars')
      simpa only [bind_assoc] using hsame

end Formula

/-! ### Running the kernel -/

theorem CheckedFn.begin_frame {k : CheckedFn} {vs : List Value} (h : vs.length ≤ k.slots) :
    Vars.Begin vs (k.frame vs) := by
  intro i v hv
  have hlt := (List.getElem?_eq_some_iff.mp hv).1
  rw [Vars.at, CheckedFn.frame, Array.getD_eq_getD_getElem?, List.getElem?_toArray,
    List.take_of_length_le h, List.getElem?_append_left hlt, hv]
  rfl

/-- A range of one item ends as the item does. -/
theorem Program.run_single {k : CheckedFn} {args : List KernelArg} {vs : List Value}
    (hargs : Program.readArgs k args = .ok vs) {offset : Int} (hoffset : 0 ≤ offset) (p : Program)
    (st : Store) :
    let x := p.runItem loopBudget k vs { offset, extent := 1, id := 0 }
    let r := p.run k args offset 1 st
    r.2 = (x st).2 ∧ (r.1 = .ok () ↔ ∃ a, (x st).1 = .ok a) := by
  have hrange : ¬((1 : Int) < 0 ∨ offset < 0) := by omega
  have hrun : p.run k args offset 1 st = p.runItems loopBudget k vs offset 1 1 0 st := by
    rw [Program.run, Program.runWithin, if_neg hrange, hargs]
    rfl
  simp only [hrun, Program.runItems]
  rcases p.runItem loopBudget k vs { offset, extent := 1, id := 0 } st with ⟨outcome, st'⟩
  cases outcome with
  | ok a => exact ⟨rfl, fun _ => ⟨a, rfl⟩, fun _ => rfl⟩
  | _ => exact ⟨rfl, by simp, (by simp)⟩

namespace Formula

variable {args : List DraftArg} {types : List Ty} {sources : List Source} {n : Formula}
  {place : Source}

/-- The kernel does what it is to do. -/
theorem Stores.runItem {name : String} {k : CheckedFn}
    (hk : k.IsDrafted name args (Stores args types sources n place)) {vs : List Value}
    (hfits : Value.FitsAll k.paramTypes vs) (p : Program) (rounds : Nat) (item : WorkItem) :
    Exec.Same (p.runItem rounds k vs item)
      (storeIn types sources n place (DraftArg.actuals args vs)) := by
  have htypes : k.paramTypes = args.map (·.type) := by
    rw [CheckedFn.paramTypes, hk.params, List.map_map]
    rfl
  rw [htypes] at hfits
  have hlen : vs.length ≤ k.slots := by
    have := hfits.length_eq
    have := hk.body.enough
    rw [List.length_map] at *
    omega
  have hrun := hk.body.run ⟨hfits, CheckedFn.begin_frame hlen⟩ (Nat.le_of_eq (CheckedFn.size_frame k vs).symm)
    (p.call item rounds maxCallDepth) item rounds
  exact hrun.then_pure fun _ => ()

end Formula

/-! ### Drafts -/

namespace Draft

/-- A kernel that has its arguments and no statements yet.  The arguments have names of their own,
which are taken. -/
structure Ready (d : Draft) : Prop where
  kernel : d.part.own? = none
  empty : d.part.body = ""
  ident : isIdent d.name = true
  unqualified : isQualifier (.name d.name) = false
  free : isDeviceFunction d.name = false
  declares : ∃ known fp64, d.pre.Declares known fp64 ∧ ∀ a ∈ d.part.args, a.elem.Known known fp64
  usable : ∀ a ∈ d.part.args, a.Usable
  reserved : ∀ a ∈ d.part.args, a.name ∈ d.pre.names.taken ∧ ∀ fn : Builtin, a.name ≠ fn.name
  distinct : (d.part.args.map (·.name)).Nodup

variable {d : Draft}

theorem ready_ofName {name : String} (hident : isIdent name = true)
    (hunqualified : isQualifier (.name name) = false) (hfree : isDeviceFunction name = false) :
    (ofName name).Ready where
  kernel := rfl
  empty := rfl
  ident := hident
  unqualified := hunqualified
  free := hfree
  declares := ⟨[], false, ⟨rfl, rfl, rfl, .nil, nofun⟩, nofun⟩
  usable := nofun
  reserved := nofun
  distinct := .nil

/-- Adding an argument under a free name. -/
theorem Ready.addArg (hd : d.Ready) {name : String} {t : Ty} (ha : (DraftArg.mk name t none none).Usable)
    (hfree : name ∉ d.pre.names.taken) (hname : ∀ fn : Builtin, name ≠ fn.name) :
    (d.addArg name t).2.Ready := by
  have htaken : d.pre.names.isTaken name = false := by
    rw [Bool.eq_false_iff]
    exact fun h => hfree (Names.isTaken_iff.mp h)
  have helem : ∀ p : Preamble, p.inject t = p.inject (DraftArg.mk name t none none).elem := by
    intro p
    cases t with
    | pointer t space readOnly => rw [Preamble.inject]; rfl
    | _ => rfl
  have hnames := wrote_names hd.kernel { d.pre.names with taken := name :: d.pre.names.taken }
  obtain ⟨known, fp64, hdeclares, hknown⟩ := hd.declares
  obtain ⟨known', fp64', hdeclares', hsub, hmono, hnew⟩ :=
    (hnames.trans (wrote_inject hnames.kernel ha.data)).declares known fp64 hdeclares
  simp only [Draft.addArg, fresh, withNames, hd.kernel, Names.fresh, htaken, pushArg, inject, helem,
    Bool.false_eq_true, if_false]
  exact {
    kernel := rfl
    empty := hd.empty
    ident := hd.ident
    unqualified := hd.unqualified
    free := hd.free
    declares := by
      refine ⟨known', fp64', hdeclares', List.forall_mem_append.mpr
        ⟨fun a h => (hknown a h).mono hsub hmono, List.forall_mem_singleton.mpr ?_⟩⟩
      exact hnew _ (by simp)
    usable := List.forall_mem_append.mpr ⟨hd.usable, List.forall_mem_singleton.mpr ha⟩
    reserved := by
      rw [Preamble.names_inject]
      refine List.forall_mem_append.mpr ⟨fun a h => ?_, List.forall_mem_singleton.mpr ?_⟩
      · exact ⟨List.mem_cons_of_mem _ (hd.reserved a h).1, (hd.reserved a h).2⟩
      · exact ⟨List.mem_cons_self, hname⟩
    distinct := by
      rw [List.map_append, List.nodup_append]
      refine ⟨hd.distinct, by simp, ?_⟩
      rintro x hx y hy rfl
      obtain ⟨b, hb, hx⟩ := List.mem_map.mp hx
      rw [List.map_singleton, List.mem_singleton] at hy
      have htaken := (hd.reserved b hb).1
      rw [hx, hy] at htaken
      exact hfree htaken }

/-- Settling a draft changes what it enables at most. -/
theorem declares_settle {known : List (List Ty)} {fp64 : Bool} (h : d.pre.Declares known fp64) :
    ∃ fp64', d.settle.pre.Declares known fp64' ∧ (fp64 = true → fp64' = true) := by
  unfold settle
  split
  · exact ⟨true, h.enable, fun _ => rfl⟩
  · exact ⟨fp64, h, id⟩

theorem part_settle (d : Draft) : d.settle.part = d.part := by
  unfold settle
  split <;> rfl

theorem name_settle (d : Draft) : d.settle.name = d.name := by
  unfold settle
  split <;> rfl

end Draft

namespace Formula

open Draft

variable {args : List DraftArg} {types : List Ty} {sources : List Source}

theorem SourcesTyped.legible (h : SourcesTyped args sources types) (hargs : ∀ a ∈ args, a.Usable) :
    (∀ i t, types[i]? = some t → (sources.getD i default).Legible) ∧ Ty.areData types = true := by
  induction h with
  | nil => exact ⟨nofun, rfl⟩
  | cons ha has ih =>
    obtain ⟨hlegible, hdata⟩ := ha.legible hargs
    refine ⟨fun i t hi => ?_, by rw [Ty.areData, hdata, ih.2]; rfl⟩
    cases i with
    | zero => exact hlegible
    | succ i => exact ih.1 i t hi

theorem builds_lowered {d : Draft} (hd : d.Ready) {bs : List Binding} (hbound : Bound bs sources)
    (hsources : SourcesTyped d.part.args sources (bs.map (·.type))) {n : Formula} {t : Ty}
    (hpure : n.isPure = true) (hinfer : n.infer (bs.map (·.type)) = .ok t) {place : Source}
    (hplace : place.Writable d.part.args t) :
    ∃ value d', lower bs n d = (.ok value, d') ∧
      ∃ p k, Program.build (SourceText.ofString
          (d'.line (place.text ++ " = " ++ value ++ ";")).source.1) = .built p ∧
        p.kernel? d.name = some k ∧
        k.IsDrafted d.name d.part.args (Stores d.part.args (bs.map (·.type)) sources n place) := by
  obtain ⟨hlegible, hdata⟩ := hsources.legible hd.usable
  obtain ⟨d', hlower, hwrote⟩ := writes_lower hdata hbound hpure hinfer hd.kernel
  refine ⟨_, d', hlower, ?_⟩
  let c := compile (bs.map (·.type)) sources d.pre.names n
  let script := c.script ++ .storing place c.value
  let d₁ := d'.line (place.text ++ " = " ++ c.value.text ++ ";")
  have hwrote₁ : d.Wrote d₁ (script.text d.part.indent) c.names script.types := by
    have hline := wrote_line hwrote.kernel (place.text ++ " = " ++ c.value.text ++ ";")
    rw [hwrote.indent, hwrote.names] at hline
    have hall := hwrote.trans hline
    simpa [script, Script.text_append, Script.storing, Script.text, Script.types] using hall
  obtain ⟨known, fp64, hdeclares, hargs⟩ := hd.declares
  obtain ⟨known₁, fp64₁, hdeclares₁, hsub, hmono, htypes⟩ := hwrote₁.declares known fp64 hdeclares
  obtain ⟨fp64₂, hdeclares₂, hmono₂⟩ := declares_settle hdeclares₁
  have htypes₂ : ∀ u ∈ c.script.types, u.Known known₁ fp64₂ := fun u hu =>
    (htypes u (by simp [script, hu])).mono (fun _ h => h) hmono₂
  have hscript : ∀ s, Ty.Heard known₁ s → script.Legible s := by
    intro s hs
    have hcompiled := legible_compile hdata hs hlegible hpure hinfer fun u hu hudata =>
      Ty.isTypeWord_known hs hudata (htypes₂ u hu).struct
    refine Script.legible_append.mpr ⟨hcompiled.script, ?_⟩
    cases hplace with
    | element ha htype hi hlead =>
      exact ⟨⟨⟨(hd.usable _ ha).ident, hi.legible hd.usable⟩, hlead.starts hs⟩, hcompiled.value,
        trivial⟩
  have hbody := checksBody_lowered hdeclares₂.ordered hd.reserved hd.distinct hdata hsources hpure hinfer
    htypes₂ hplace
  have hpart := part_settle d₁
  have hname := (name_settle d₁).trans hwrote₁.name
  have hargs₁ : d₁.settle.part.args = d.part.args := by rw [hpart, hwrote₁.args]
  have hbody₁ : d₁.settle.part.body = script.text d.part.indent := by
    rw [hpart, hwrote₁.body, hd.empty, String.empty_append]
  have hne : d.part.args ≠ [] := by
    cases hplace with
    | element ha _ _ _ => exact List.ne_nil_of_mem ha
  have hscans : ∀ {rest us}, Token.Scans rest us →
      Token.Scans (d₁.settle.part.body.toList ++ rest) (script.tokens ++ us) := by
    intro rest us h
    rw [hbody₁]
    have hheard : Ty.Heard known₁ { finish := 0, typedefs := known₁.map fun ts => (Ty.tuple ts).name } := rfl
    exact (hscript _ hheard).scans d.part.indent h
  have hbuilt := build_draft hdeclares₂ (hname ▸ hd.ident) (hname ▸ hd.unqualified) (hname ▸ hd.free)
    (hargs₁ ▸ hne)
    (hargs₁ ▸ fun a ha => ⟨hd.usable a ha, (hargs a ha).mono hsub fun h => hmono₂ (hmono h)⟩)
    (hargs₁ ▸ hd.distinct) hscans (fun s hs => (hscript s hs).reads []) (hargs₁ ▸ hbody)
  rw [hname, hargs₁] at hbuilt
  exact hbuilt

/-- **Lowering keeps the meaning of formulas.**  A formula that has a type is lowered; what is
written for it, followed by the store of its value, is built to a kernel; and a work item of the
kernel leaves the memories as storing the value of the formula does, or both fail. -/
theorem lowering_keeps_meaning {d : Draft} (hd : d.Ready) {bs : List Binding} (hbound : Bound bs sources)
    (hsources : SourcesTyped d.part.args sources (bs.map (·.type))) {n : Formula} {t : Ty}
    (hpure : n.isPure = true) (hinfer : n.infer (bs.map (·.type)) = .ok t) {place : Source}
    (hplace : place.Writable d.part.args t) :
    ∃ value d', lower bs n d = (.ok value, d') ∧
      ∃ p k, Program.build (SourceText.ofString
          (d'.line (place.text ++ " = " ++ value ++ ";")).source.1) = .built p ∧
        p.kernel? d.name = some k ∧ k.params = d.part.args.map (fun a => (a.name, a.type)) ∧
        ∀ kargs vs, Program.readArgs k kargs = .ok vs → ∀ offset, 0 ≤ offset → ∀ st,
          let r := p.run k kargs offset 1 st
          let e := storeIn (bs.map (·.type)) sources n place (DraftArg.actuals d.part.args vs) st
          r.2 = e.2 ∧ (r.1 = .ok () ↔ e.1 = .ok ()) := by
  obtain ⟨value, d', hlower, p, k, hbuild, hkernel, hk⟩ :=
    builds_lowered hd hbound hsources hpure hinfer hplace
  refine ⟨value, d', hlower, p, k, hbuild, hkernel, hk.params, fun kargs vs hargs offset hoffset st => ?_⟩
  have hfits := Program.fits_readArgs hargs
  obtain ⟨hst, hok⟩ := Program.run_single hargs hoffset p st
  obtain ⟨hst', hok'⟩ := Stores.runItem hk hfits p Program.loopBudget { offset, extent := 1, id := 0 } st
  exact ⟨hst.trans hst', hok.trans (hok'.trans ⟨fun ⟨_, h⟩ => h, fun h => ⟨(), h⟩⟩)⟩

/-- A kernel for the square of `x` and one, which goes to the first element of `out`. -/
def squareDraft : Draft :=
  (((Draft.ofName "square").addArg "x" (.scalar .int)).2.addArg "out"
    (.pointer (.scalar .int) .global false)).2

def square : Formula :=
  .binary .add (.binary .mul (.arg 0) (.arg 0)) (.literal (some (.int .w32)) (.int 1))

theorem ready_squareDraft : squareDraft.Ready := by
  have hname : Draft.Ready (.ofName "square") := ready_ofName (by decide) (by decide) (by decide)
  have hx : Draft.Ready ((Draft.ofName "square").addArg "x" (.scalar .int)).2 :=
    hname.addArg ⟨by decide, by decide, rfl, nofun⟩ (by decide) fun fn => by cases fn <;> decide
  refine hx.addArg ⟨by decide, by decide, rfl, ?_⟩ (by decide) fun fn => by cases fn <;> decide
  rintro t space readOnly ⟨⟩
  exact .inl rfl

theorem leadsPlace_out : LeadsPlace "out" :=
  ⟨by decide, by decide +kernel, fun ts => Ty.name_tuple_ne ts rfl, by decide⟩

/-- The square of 3 and one is stored as 10. -/
theorem square_stored :
    ∃ value d', lower [{ type := .scalar .int, expr := "x" }] square squareDraft = (.ok value, d') ∧
      ∃ p k, Program.build (SourceText.ofString
          (d'.line ("out[0] = " ++ value ++ ";")).source.1) = .built p ∧
        p.kernel? "square" = some k ∧
        (p.run k [{ bytes := [3, 0, 0, 0] }, { memory? := some 0 }] 0 1 #[#[0, 0, 0, 0]]).1 = .ok () ∧
        (p.run k [{ bytes := [3, 0, 0, 0] }, { memory? := some 0 }] 0 1 #[#[0, 0, 0, 0]]).2 =
          #[#[10, 0, 0, 0]] := by
  let bs : List Binding := [{ type := .scalar .int, expr := "x" }]
  let x : DraftArg := { name := "x", type := .scalar .int }
  let out : DraftArg := { name := "out", type := .pointer (.scalar .int) .global false }
  have hx : x ∈ squareDraft.part.args := List.mem_cons_self
  have hout : out ∈ squareDraft.part.args := List.mem_cons_of_mem _ List.mem_cons_self
  have hbound : Bound bs [.var "x"] := ⟨rfl, by simp [bs]⟩
  have hplace : Source.Writable squareDraft.part.args (.element "out" (.literal 0)) (.scalar .int) :=
    .element hout rfl (.literal (by decide)) leadsPlace_out
  obtain ⟨value, d', hlower, p, k, hbuild, hkernel, hparams, hrun⟩ := lowering_keeps_meaning
    ready_squareDraft hbound (.cons (.var hx rfl) .nil) (rfl : square.isPure = true) rfl hplace
  have hargs : Program.readArgs k [{ bytes := [3, 0, 0, 0] }, { memory? := some 0 }] =
      .ok [.lanes .int32 (.atom 3), .pointer ⟨some 0, 0⟩] := by
    rw [Program.readArgs, hparams]
    rfl
  obtain ⟨hst, hok⟩ := hrun _ _ hargs 0 (by decide) #[#[0, 0, 0, 0]]
  exact ⟨value, d', hlower, p, k, hbuild, hkernel, hok.mpr rfl, hst⟩

end Formula

end KernelForge
