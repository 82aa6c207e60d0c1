/-
Whatever a running kernel does, it does to values of the right types.

That a work item ends well says nothing yet of what happens on the way.  So a run is taken apart
into moments: a function evaluates a term, locates a place, reads or replaces the value at a
location, or runs an action.  One moment leads to others, and the moments that are reached from
the body of a kernel are all that the kernel ever does.

The relation is generous where types do not care: the memories may be any, both sides of a test
may be taken, and a loop may go round as often as it likes.  It is exact about variables, which
are what the types of a function are about.  The invariant is that the phrase, the location or
the action of a moment is typed in a scope whose variables hold values of their types.
-/
import KernelForge.Proofs.Code.Reading
import KernelForge.Proofs.Program.Built

namespace KernelForge

open Exec

/-! ### Parts -/

/-- The terms and places that a term or place is made of. -/
def Phrase.parts : Phrase → List Phrase
  | .term (.cast _ x) | .term (.unary _ _ x) | .term (.field _ x) | .term (.lanes _ x)
  | .term (.discard x) | .term (.workItem _ x) => [.term x]
  | .term (.concat _ _ xs) | .term (.record xs) | .term (.math _ _ xs) | .term (.call _ xs) =>
    xs.map .term
  | .term (.binary _ _ x y) | .term (.and x y) | .term (.or x y) | .term (.advance _ x y)
  | .place (.deref _ x y) => [.term x, .term y]
  | .term (.cond test x y) => [.term test, .term x, .term y]
  | .term (.load p) | .term (.address p) | .place (.field p _ _) | .place (.lanes p _) => [.place p]
  | .term (.atomic _ _ ptr args) => .term ptr :: args.map .term
  | .term (.const _ _) | .term (.var _) | .term .current | .place (.var _) => []

/-- The variable that a phrase is. -/
def Phrase.slot? : Phrase → Option Nat
  | .term (.var slot) | .place (.var slot) => some slot
  | _ => none

/-- The variables that occur in a phrase. -/
inductive Phrase.Uses : Phrase → Nat → Prop
  | self {ph : Phrase} {slot : Nat} (h : ph.slot? = some slot) : Phrase.Uses ph slot
  | part {ph q : Phrase} {slot : Nat} (hq : q ∈ ph.parts) (h : Phrase.Uses q slot) :
      Phrase.Uses ph slot

/-- The phrases that an action starts with, in the variables before it. -/
def Action.phrases : Action → List Phrase
  | .eval x | .declare _ _ (some x) | .branch x _ _ | .loop (some x) _ _ | .ret (some x) => [.term x]
  | .assign p x => [.term x, .place p]
  | .update p _ => [.place p]
  | _ => []

/-- The actions that may run in the variables before an action. -/
def Action.parts : Action → List Action
  | .seq first _ => [first]
  | .branch _ yes no => [yes, no]
  | .loop _ _ body => [body]
  | _ => []

/-- The place that an action changes. -/
def Action.target? : Action → Option Place
  | .assign p _ | .update p _ => some p
  | _ => none

/-- The location that a location is a part of. -/
def Loc.whole? : Loc → Option Loc
  | .field l _ | .lanes l _ => some l
  | _ => none

section Parts

variable {sigs : Signatures} {scope : Scope} {here? : Option Ty}

theorem exists_typed_of_zip {xs : List Term} {ts : List Ty} (hlen : xs.length = ts.length)
    (hxs : ∀ p ∈ xs.zip ts, Typed sigs scope here? (.term p.1) p.2) :
    ∀ q ∈ xs.map Phrase.term, ∃ u, Typed sigs scope here? q u := by
  intro q hq
  obtain ⟨x, hx, rfl⟩ := List.mem_map.mp hq
  obtain ⟨i, hi⟩ := List.mem_iff_getElem?.mp hx
  have hlt : i < ts.length := hlen ▸ (List.getElem?_eq_some_iff.mp hi).1
  refine ⟨ts[i], hxs (x, ts[i]) (List.mem_iff_getElem?.mpr ⟨i, ?_⟩)⟩
  rw [List.getElem?_zip_eq_some]
  exact ⟨hi, List.getElem?_eq_getElem hlt⟩

theorem forall_mem_pair {α : Type} {P : α → Prop} {a b : α} (ha : P a) (hb : P b) :
    ∀ c ∈ [a, b], P c :=
  List.forall_mem_cons.mpr ⟨ha, List.forall_mem_singleton.mpr hb⟩

theorem Typed.parts {ph : Phrase} {t : Ty} (h : Typed sigs scope here? ph t) :
    ∀ q ∈ ph.parts, ∃ u, Typed sigs scope here? q u := by
  induction h with
  | const hx => exact List.forall_mem_nil _
  | var h => exact List.forall_mem_nil _
  | current h => exact List.forall_mem_nil _
  | placeVar h => exact List.forall_mem_nil _
  | retag hx ih => exact ih
  | concat hlen hxs hts hcount ih => exact exists_typed_of_zip hlen hxs
  | record hlen hxs ih => exact exists_typed_of_zip hlen hxs
  | math hsig hlen hargs ih => exact exists_typed_of_zip hlen hargs
  | call hfn hlen hargs ih => exact exists_typed_of_zip hlen hargs
  | cast hx ht hu hrow ih => exact List.forall_mem_singleton.mpr ⟨_, hx⟩
  | unary hx ht ih => exact List.forall_mem_singleton.mpr ⟨_, hx⟩
  | field hx hi ih => exact List.forall_mem_singleton.mpr ⟨_, hx⟩
  | lanes hx his ih => exact List.forall_mem_singleton.mpr ⟨_, hx⟩
  | discard hx ih => exact List.forall_mem_singleton.mpr ⟨_, hx⟩
  | workItem hx ih => exact List.forall_mem_singleton.mpr ⟨_, hx⟩
  | load hp ih => exact List.forall_mem_singleton.mpr ⟨_, hp⟩
  | address hp hmem ih => exact List.forall_mem_singleton.mpr ⟨_, hp⟩
  | placeField hp hi ih => exact List.forall_mem_singleton.mpr ⟨_, hp⟩
  | placeLanes hp his ih => exact List.forall_mem_singleton.mpr ⟨_, hp⟩
  | binary hx hy hcmp hlog ht ha hb hrow ihx ihy => exact forall_mem_pair ⟨_, hx⟩ ⟨_, hy⟩
  | compare hx hy hcmp ihx ihy => exact forall_mem_pair ⟨_, hx⟩ ⟨_, hy⟩
  | and hx hy ihx ihy => exact forall_mem_pair ⟨_, hx⟩ ⟨_, hy⟩
  | or hx hy ihx ihy => exact forall_mem_pair ⟨_, hx⟩ ⟨_, hy⟩
  | advance hx hy ihx ihy => exact forall_mem_pair ⟨_, hx⟩ ⟨_, hy⟩
  | placeDeref hx hy ihx ihy => exact forall_mem_pair ⟨_, hx⟩ ⟨_, hy⟩
  | cond htest hx hy ihtest ihx ihy =>
    exact List.forall_mem_cons.mpr ⟨⟨_, htest⟩, forall_mem_pair ⟨_, hx⟩ ⟨_, hy⟩⟩
  | atomic hptr hs hcount hargs ihptr ihargs =>
    refine List.forall_mem_cons.mpr ⟨⟨_, hptr⟩, fun q hq => ?_⟩
    obtain ⟨x, hx, rfl⟩ := List.mem_map.mp hq
    exact ⟨_, hargs x hx⟩

/-- The place that is updated has a type where its value is used. -/
theorem Typed.here {x : Term} {t : Ty} (h : Typed sigs scope here? (.term x) t)
    (hx : x = .current) : ∃ u, here? = some u := by
  generalize hph : Phrase.term x = ph at h
  induction h with
  | current h => exact ⟨_, h⟩
  | retag h ih => exact ih hph
  | _ => cases hph <;> cases hx

theorem Typed.slot {ph : Phrase} {t : Ty} (h : Typed sigs scope here? ph t) {slot : Nat}
    (hslot : ph.slot? = some slot) : ∃ u, scope slot = some u := by
  induction h with
  | var h => cases hslot; exact ⟨_, h⟩
  | placeVar h => cases hslot; exact ⟨_, h⟩
  | retag hx ih => exact ih hslot
  | _ => cases hslot

/-- So are all variables that occur in a typed phrase. -/
theorem Phrase.Uses.in_scope {ph : Phrase} {slot : Nat} (h : ph.Uses slot) {t : Ty}
    (htyped : Typed sigs scope here? ph t) : ∃ u, scope slot = some u := by
  induction h generalizing t with
  | self h => exact htyped.slot h
  | part hq h ih =>
    obtain ⟨u, hu⟩ := htyped.parts _ hq
    exact ih hu

/-- Types depend on the variables that occur only. -/
theorem Typed.rescope {scope' : Scope} {ph : Phrase} {t : Ty} (h : Typed sigs scope here? ph t)
    (hscope : ∀ slot u, ph.Uses slot → scope slot = some u → scope' slot = some u) :
    Typed sigs scope' here? ph t := by
  -- what the variables of a phrase satisfy, those of its parts do
  have hpart : ∀ {ph : Phrase}, (∀ slot u, ph.Uses slot → scope slot = some u → scope' slot = some u) →
      ∀ q ∈ ph.parts, ∀ slot u, q.Uses slot → scope slot = some u → scope' slot = some u :=
    fun hall q hq slot u huses => hall slot u (.part hq huses)
  have hzip : ∀ {xs : List Term} {ts : List Ty} {p : Term × Ty}, p ∈ xs.zip ts →
      Phrase.term p.1 ∈ xs.map Phrase.term :=
    fun hp => List.mem_map_of_mem (List.of_mem_zip hp).1
  induction h with
  | const hx => exact .const hx
  | var h => exact .var (hscope _ _ (.self rfl) h)
  | current h => exact .current h
  | placeVar h => exact .placeVar (hscope _ _ (.self rfl) h)
  | retag hx ih => exact .retag (ih hscope)
  | concat hlen hxs hts hcount ih =>
    exact .concat hlen (fun p hp => ih p hp (hpart hscope _ (hzip hp))) hts hcount
  | record hlen hxs ih => exact .record hlen fun p hp => ih p hp (hpart hscope _ (hzip hp))
  | math hsig hlen hargs ih => exact .math hsig hlen fun p hp => ih p hp (hpart hscope _ (hzip hp))
  | call hfn hlen hargs ih => exact .call hfn hlen fun p hp => ih p hp (hpart hscope _ (hzip hp))
  | cast hx ht hu hrow ih => exact .cast (ih (hpart hscope _ List.mem_cons_self)) ht hu hrow
  | unary hx ht ih => exact .unary (ih (hpart hscope _ List.mem_cons_self)) ht
  | field hx hi ih => exact .field (ih (hpart hscope _ List.mem_cons_self)) hi
  | lanes hx his ih => exact .lanes (ih (hpart hscope _ List.mem_cons_self)) his
  | discard hx ih => exact .discard (ih (hpart hscope _ List.mem_cons_self))
  | workItem hx ih => exact .workItem (ih (hpart hscope _ List.mem_cons_self))
  | load hp ih => exact .load (ih (hpart hscope _ List.mem_cons_self))
  | address hp hmem ih => exact .address (ih (hpart hscope _ List.mem_cons_self)) hmem
  | placeField hp hi ih => exact .placeField (ih (hpart hscope _ List.mem_cons_self)) hi
  | placeLanes hp his ih => exact .placeLanes (ih (hpart hscope _ List.mem_cons_self)) his
  | binary hx hy hcmp hlog ht ha hb hrow ihx ihy =>
    exact .binary (ihx (hpart hscope _ List.mem_cons_self))
      (ihy (hpart hscope _ (List.mem_cons_of_mem _ List.mem_cons_self))) hcmp hlog ht ha hb hrow
  | compare hx hy hcmp ihx ihy =>
    exact .compare (ihx (hpart hscope _ List.mem_cons_self))
      (ihy (hpart hscope _ (List.mem_cons_of_mem _ List.mem_cons_self))) hcmp
  | and hx hy ihx ihy =>
    exact .and (ihx (hpart hscope _ List.mem_cons_self))
      (ihy (hpart hscope _ (List.mem_cons_of_mem _ List.mem_cons_self)))
  | or hx hy ihx ihy =>
    exact .or (ihx (hpart hscope _ List.mem_cons_self))
      (ihy (hpart hscope _ (List.mem_cons_of_mem _ List.mem_cons_self)))
  | advance hx hy ihx ihy =>
    exact .advance (ihx (hpart hscope _ List.mem_cons_self))
      (ihy (hpart hscope _ (List.mem_cons_of_mem _ List.mem_cons_self)))
  | placeDeref hx hy ihx ihy =>
    exact .placeDeref (ihx (hpart hscope _ List.mem_cons_self))
      (ihy (hpart hscope _ (List.mem_cons_of_mem _ List.mem_cons_self)))
  | cond htest hx hy ihtest ihx ihy =>
    refine .cond (ihtest (hpart hscope _ List.mem_cons_self)) (ihx (hpart hscope _ ?_))
      (ihy (hpart hscope _ ?_))
    · exact List.mem_cons_of_mem _ List.mem_cons_self
    · exact List.mem_cons_of_mem _ (List.mem_cons_of_mem _ List.mem_cons_self)
  | atomic hptr hs hcount hargs ihptr ihargs =>
    refine .atomic (ihptr (hpart hscope _ List.mem_cons_self)) hs hcount fun x hx => ?_
    exact ihargs x hx (hpart hscope _ (List.mem_cons_of_mem _ (List.mem_map_of_mem hx)))

theorem Typed.of_declared {declared : Scope} {ph : Phrase} {t u : Ty}
    (hsub : ∀ slot u, scope slot = some u → declared slot = some u)
    (hhere : Typed sigs scope here? ph u) (h : Typed sigs declared here? ph t) :
    Typed sigs scope here? ph t := by
  refine h.rescope fun slot v huses hv => ?_
  obtain ⟨w, hw⟩ := huses.in_scope hhere
  rw [hsub slot w hw] at hv
  cases hv
  exact hw

/-! ### Parts of actions -/

variable {declared after : Scope} {result : Ty}

theorem Action.Typed.phrases {a : Action} (h : a.Typed sigs declared result scope after) :
    ∀ ph ∈ a.phrases, ∃ t, KernelForge.Typed sigs scope none ph t := by
  induction h with
  | eval hx => exact List.forall_mem_singleton.mpr ⟨_, hx⟩
  | @declare scope slot t init hinit hslot =>
    cases init with
    | none => exact List.forall_mem_nil _
    | some x => exact List.forall_mem_singleton.mpr ⟨_, hinit x rfl⟩
  | assign hp hx => exact forall_mem_pair ⟨_, hx⟩ ⟨_, hp⟩
  | update hp hnext => exact List.forall_mem_singleton.mpr ⟨_, hp⟩
  | branch htest hyes hno => exact List.forall_mem_singleton.mpr ⟨_, htest⟩
  | @loop scope afterPost afterBody test post body htest hpost hbody =>
    cases test with
    | none => exact List.forall_mem_nil _
    | some x => exact List.forall_mem_singleton.mpr ⟨_, htest x rfl⟩
  | ret hx => exact List.forall_mem_singleton.mpr ⟨_, hx⟩
  | close ha ih => exact ih
  | _ => exact List.forall_mem_nil _

theorem Action.Typed.parts {a : Action} (h : a.Typed sigs declared result scope after) :
    ∀ b ∈ a.parts, ∃ after', b.Typed sigs declared result scope after' := by
  induction h with
  | seq hfirst hsecond => exact List.forall_mem_singleton.mpr ⟨_, hfirst⟩
  | branch htest hyes hno => exact forall_mem_pair ⟨_, hyes⟩ ⟨_, hno⟩
  | loop htest hpost hbody => exact List.forall_mem_singleton.mpr ⟨_, hbody⟩
  | close ha ih => exact ih
  | _ => exact List.forall_mem_nil _

theorem Action.Typed.target {a : Action} (h : a.Typed sigs declared result scope after) {p : Place}
    (hp : a.target? = some p) : ∃ t, KernelForge.Typed sigs scope none (.place p) t := by
  induction h with
  | assign hp' hx => cases hp; exact ⟨_, hp'⟩
  | update hp' hnext => cases hp; exact ⟨_, hp'⟩
  | close ha ih => exact ih hp
  | _ => cases hp

theorem Action.Typed.of_update {p : Place} {next : Term}
    (h : (Action.update p next).Typed sigs declared result scope after) :
    ∃ t, KernelForge.Typed sigs scope none (.place p) t ∧
      KernelForge.Typed sigs scope (some t) (.term next) t := by
  generalize ha : Action.update p next = a at h
  induction h with
  | update hp hnext => cases ha; exact ⟨_, hp, hnext⟩
  | close h ih => exact ih ha
  | _ => cases ha

theorem Action.Typed.of_seq {first second : Action}
    (h : (Action.seq first second).Typed sigs declared result scope after) :
    ∃ mid after', first.Typed sigs declared result scope mid ∧
      second.Typed sigs declared result mid after' := by
  generalize ha : Action.seq first second = a at h
  induction h with
  | seq hfirst hsecond => cases ha; exact ⟨_, _, hfirst, hsecond⟩
  | close h ih => exact ih ha
  | _ => cases ha

theorem Action.Typed.of_loop {test : Option Term} {post body : Action}
    (h : (Action.loop test post body).Typed sigs declared result scope after) :
    (∃ after', post.Typed sigs declared result scope after') ∧
      ∃ after', body.Typed sigs declared result scope after' := by
  generalize ha : Action.loop test post body = a at h
  induction h with
  | loop htest hpost hbody => cases ha; exact ⟨⟨_, hpost⟩, ⟨_, hbody⟩⟩
  | close h ih => exact ih ha
  | _ => cases ha

theorem Loc.Typed.whole {l l' : Loc} {t : Ty} (h : l.Typed scope t) (hl : l.whole? = some l') :
    ∃ u, l'.Typed scope u := by
  cases h with
  | var h => cases hl
  | mem memory offset t => cases hl
  | field hl' hi => cases hl; exact ⟨_, hl'⟩
  | lanes hl' his => cases hl; exact ⟨_, hl'⟩

end Parts

/-! ### Moments -/

/-- What a call of a function is busy with. -/
inductive Doing where
  /-- Evaluates a term or locates a place. -/
  | phrase (f : Frame) (ph : Phrase)
  /-- Reads or replaces the value at a location. -/
  | access (vars : Vars) (l : Loc)
  | run (vars : Vars) (a : Action)

/-- A moment of a run: the function, the calls that are left to it, and what it does. -/
structure Moment where
  fn : CheckedFn
  depth : Nat
  doing : Doing

/-- A variable is read. -/
inductive Doing.Reads : Doing → Vars → Nat → Prop
  | eval (f : Frame) (slot : Nat) : Doing.Reads (.phrase f (.term (.var slot))) f.vars slot
  | access (vars : Vars) (slot : Nat) : Doing.Reads (.access vars (.var slot)) vars slot

namespace Program

variable {p : Program} {item : WorkItem} {rounds : Nat}

/-- What a moment leads to. -/
inductive Leads (p : Program) (item : WorkItem) (rounds : Nat) : Moment → Moment → Prop
  | part {fn : CheckedFn} {depth : Nat} {f : Frame} {ph q : Phrase} (hq : q ∈ ph.parts) :
      Leads p item rounds ⟨fn, depth, .phrase f ph⟩ ⟨fn, depth, .phrase f q⟩
  | load {fn : CheckedFn} {depth : Nat} {f : Frame} {place : Place} {l : Loc} {st st' : Store}
      (hl : place.locate (p.call item rounds depth) f st = (.ok l, st')) :
      Leads p item rounds ⟨fn, depth, .phrase f (.term (.load place))⟩ ⟨fn, depth, .access f.vars l⟩
  | current {fn : CheckedFn} {depth : Nat} {f : Frame} {l : Loc} (hl : f.current? = some l) :
      Leads p item rounds ⟨fn, depth, .phrase f (.term .current)⟩ ⟨fn, depth, .access f.vars l⟩
  | whole {fn : CheckedFn} {depth : Nat} {vars : Vars} {l l' : Loc} (hl : l.whole? = some l') :
      Leads p item rounds ⟨fn, depth, .access vars l⟩ ⟨fn, depth, .access vars l'⟩
  | call {fn g : CheckedFn} {depth : Nat} {f : Frame} {name : String} {args : List Term}
      {vs : List Value} {st st' : Store}
      (hvs : Term.evalAll (p.call item rounds (depth + 1)) f args st = (.ok vs, st'))
      (hg : p.func? name = some g) :
      Leads p item rounds ⟨fn, depth + 1, .phrase f (.term (.call name args))⟩
        ⟨g, depth, .run (g.frame vs) g.body⟩
  | phrase {fn : CheckedFn} {depth : Nat} {vars : Vars} {a : Action} {ph : Phrase}
      (hph : ph ∈ a.phrases) :
      Leads p item rounds ⟨fn, depth, .run vars a⟩ ⟨fn, depth, .phrase { item, vars } ph⟩
  | next {fn : CheckedFn} {depth : Nat} {vars : Vars} {place : Place} {next : Term} {l : Loc}
      {st st' : Store}
      (hl : place.locate (p.call item rounds depth) { item, vars } st = (.ok l, st')) :
      Leads p item rounds ⟨fn, depth, .run vars (.update place next)⟩
        ⟨fn, depth, .phrase { item, vars, current? := some l } (.term next)⟩
  | target {fn : CheckedFn} {depth : Nat} {vars : Vars} {a : Action} {place : Place} {l : Loc}
      {st st' : Store} (ha : a.target? = some place)
      (hl : place.locate (p.call item rounds depth) { item, vars } st = (.ok l, st')) :
      Leads p item rounds ⟨fn, depth, .run vars a⟩ ⟨fn, depth, .access vars l⟩
  | within {fn : CheckedFn} {depth : Nat} {vars : Vars} {a b : Action} (hb : b ∈ a.parts) :
      Leads p item rounds ⟨fn, depth, .run vars a⟩ ⟨fn, depth, .run vars b⟩
  | second {fn : CheckedFn} {depth : Nat} {vars vars' : Vars} {first second : Action}
      {st st' : Store}
      (hfirst : first.run (p.call item rounds depth) item rounds vars st = (.ok (.next, vars'), st')) :
      Leads p item rounds ⟨fn, depth, .run vars (.seq first second)⟩ ⟨fn, depth, .run vars' second⟩
  | post {fn : CheckedFn} {depth : Nat} {vars vars' : Vars} {test : Option Term}
      {post body : Action} {flow : Flow} {st st' : Store}
      (hbody : body.run (p.call item rounds depth) item rounds vars st = (.ok (flow, vars'), st')) :
      Leads p item rounds ⟨fn, depth, .run vars (.loop test post body)⟩ ⟨fn, depth, .run vars' post⟩
  | again {fn : CheckedFn} {depth : Nat} {vars vars' vars'' : Vars} {test : Option Term}
      {post body : Action} {flow flow' : Flow} {st st' st'' : Store}
      (hbody : body.run (p.call item rounds depth) item rounds vars st = (.ok (flow, vars'), st'))
      (hpost : post.run (p.call item rounds depth) item rounds vars' st' =
        (.ok (flow', vars''), st'')) :
      Leads p item rounds ⟨fn, depth, .run vars (.loop test post body)⟩
        ⟨fn, depth, .run vars'' (.loop test post body)⟩

/-- The moments of a work item that runs a kernel on arguments. -/
inductive Reached (p : Program) (item : WorkItem) (rounds : Nat) (k : CheckedFn)
    (args : List Value) : Moment → Prop
  | start : Reached p item rounds k args ⟨k, maxCallDepth, .run (k.frame args) k.body⟩
  | step {m m' : Moment} (h : Reached p item rounds k args m) (hstep : p.Leads item rounds m m') :
      Reached p item rounds k args m'

end Program

/-! ### The invariant -/

/-- What is done is typed, and the variables hold values of their types. -/
def Doing.Typed (sigs : Signatures) (fn : CheckedFn) : Doing → Prop
  | .phrase f ph => ∃ scope here? t, f.Ready fn.declared scope here? ∧
      KernelForge.Typed sigs scope here? ph t
  | .access vars l => ∃ scope t, vars.Holds fn.declared scope ∧ l.Typed scope t
  | .run vars a => ∃ scope after, vars.Holds fn.declared scope ∧ vars.Room fn.declared ∧
      a.Typed sigs fn.declared fn.result scope after

/-- The invariant of runs. -/
structure Moment.Typed (p : Program) (m : Moment) : Prop where
  fn : m.fn ∈ p.funcs
  doing : m.doing.Typed p.signatures m.fn

namespace Program

variable {p : Program} {item : WorkItem} {rounds : Nat} {m m' : Moment}

theorem fits_evalAll_args {sigs : Signatures} {declared scope : Scope} {here? : Option Ty}
    {call : Caller} (hcall : call.Safe sigs) {f : Frame} (hf : f.Ready declared scope here?)
    {name : String} {args : List Term} {t : Ty}
    (h : KernelForge.Typed sigs scope here? (.term (.call name args)) t) {vs : List Value}
    {st st' : Store} (hvs : Term.evalAll call f args st = (.ok vs, st')) :
    ∃ params result, sigs name = some (params, result) ∧ Value.FitsAll params vs := by
  generalize hph : Phrase.term (.call name args) = ph at h
  induction h with
  | @call fn params result args' hfn hlen hargs ih =>
    cases hph
    refine ⟨params, result, hfn, ?_⟩
    exact (safe_evalAll hlen fun q hq => (hargs q hq).promises hcall hf).of_ok hvs
  | retag hx ih => exact ih hph
  | _ => cases hph

/-- A function that is called starts with arguments that fit its parameters. -/
theorem typed_entry (hp : p.Typed) {g : CheckedFn} (hg : g ∈ p.funcs) (depth : Nat)
    {vs : List Value} (hvs : Value.FitsAll g.paramTypes vs) :
    Moment.Typed p ⟨g, depth, .run (g.frame vs) g.body⟩ := by
  have htyped := hp g hg
  obtain ⟨after, hbody⟩ := htyped.body
  exact ⟨hg, _, after, CheckedFn.holds_frame htyped hvs, CheckedFn.room_frame htyped vs, hbody⟩

/-- One moment after the other keeps the invariant. -/
theorem Leads.typed (hp : p.Typed) (h : p.Leads item rounds m m') (hm : m.Typed p) : m'.Typed p := by
  have hcall := hp.safe_call item rounds
  obtain ⟨hfn, hdoing⟩ := hm
  cases h with
  | part hq =>
    obtain ⟨scope, here?, t, hf, hph⟩ := hdoing
    obtain ⟨u, hu⟩ := hph.parts _ hq
    exact ⟨hfn, scope, here?, u, hf, hu⟩
  | @load fn depth f place l st st' hl =>
    obtain ⟨scope, here?, t, hf, hph⟩ := hdoing
    obtain ⟨u, hu⟩ := hph.parts (.place place) List.mem_cons_self
    have hloc : Safe (place.locate (p.call item rounds depth) f) _ := hu.promises (hcall depth) hf
    exact ⟨hfn, scope, u, hf.vars, (hloc.of_ok hl).1⟩
  | @current fn depth f l hl =>
    obtain ⟨scope, here?, t, hf, hph⟩ := hdoing
    obtain ⟨u, hu⟩ := hph.here rfl
    obtain ⟨l', hl', htyped⟩ := hf.current u hu
    rw [hl] at hl'
    cases hl'
    exact ⟨hfn, scope, u, hf.vars, htyped⟩
  | whole hl =>
    obtain ⟨scope, t, hvars, hloc⟩ := hdoing
    obtain ⟨u, hu⟩ := hloc.whole hl
    exact ⟨hfn, scope, u, hvars, hu⟩
  | @call fn g depth f name args vs st st' hvs hg =>
    obtain ⟨scope, here?, t, hf, hph⟩ := hdoing
    obtain ⟨params, result, hsig, hfits⟩ := fits_evalAll_args (hcall (depth + 1)) hf hph hvs
    rw [signatures, hg] at hsig
    cases hsig
    exact typed_entry hp (List.mem_of_find?_eq_some hg) depth hfits
  | phrase hph =>
    obtain ⟨scope, after, hvars, hroom, ha⟩ := hdoing
    obtain ⟨t, ht⟩ := ha.phrases _ hph
    exact ⟨hfn, scope, none, t, .start hvars, ht⟩
  | @next fn depth vars place next l st st' hl =>
    obtain ⟨scope, after, hvars, hroom, ha⟩ := hdoing
    obtain ⟨t, hplace, hnext⟩ := ha.of_update
    have hloc : Safe (place.locate (p.call item rounds depth) { item, vars }) _ :=
      hplace.promises (hcall depth) (.start hvars)
    refine ⟨hfn, scope, some t, t, ⟨hvars, fun u hu => ⟨l, rfl, ?_⟩⟩, hnext⟩
    cases hu
    exact (hloc.of_ok hl).1
  | @target fn depth vars a place l st st' ha' hl =>
    obtain ⟨scope, after, hvars, hroom, ha⟩ := hdoing
    obtain ⟨t, hplace⟩ := ha.target ha'
    have hloc : Safe (place.locate (p.call item rounds depth) { item, vars }) _ :=
      hplace.promises (hcall depth) (.start hvars)
    exact ⟨hfn, scope, t, hvars, (hloc.of_ok hl).1⟩
  | within hb =>
    obtain ⟨scope, after, hvars, hroom, ha⟩ := hdoing
    obtain ⟨after', hb'⟩ := ha.parts _ hb
    exact ⟨hfn, scope, after', hvars, hroom, hb'⟩
  | @second fn depth vars vars' first second st st' hfirst =>
    obtain ⟨scope, after, hvars, hroom, ha⟩ := hdoing
    obtain ⟨mid, after', htyped, hsecond⟩ := ha.of_seq
    have hend := (htyped.safe_run (hcall depth) item rounds hvars hroom).of_ok hfirst
    exact ⟨hfn, mid, after', hend.holds rfl, hroom.mono hend.keeps, hsecond⟩
  | @post fn depth vars vars' test post body flow st st' hbody =>
    obtain ⟨scope, after, hvars, hroom, ha⟩ := hdoing
    obtain ⟨⟨afterPost, hpost⟩, ⟨afterBody, htyped⟩⟩ := ha.of_loop
    have hend := (htyped.safe_run (hcall depth) item rounds hvars hroom).of_ok hbody
    exact ⟨hfn, scope, afterPost, hvars.mono hend.keeps, hroom.mono hend.keeps, hpost⟩
  | @again fn depth vars vars' vars'' test post body flow flow' st st' st'' hbody hpost =>
    obtain ⟨scope, after, hvars, hroom, ha⟩ := hdoing
    obtain ⟨⟨afterPost, hpost'⟩, ⟨afterBody, hbody'⟩⟩ := ha.of_loop
    have hend := (hbody'.safe_run (hcall depth) item rounds hvars hroom).of_ok hbody
    have hvars' := hvars.mono hend.keeps
    have hroom' := hroom.mono hend.keeps
    have hround := (hpost'.safe_run (hcall depth) item rounds hvars' hroom').of_ok hpost
    exact ⟨hfn, scope, after, hvars'.mono hround.keeps, hroom'.mono hround.keeps, ha⟩

/-- So does a whole run. -/
theorem Reached.typed (hp : p.Typed) {k : CheckedFn} (hk : k ∈ p.funcs) {args : List Value}
    (hargs : Value.FitsAll k.paramTypes args) (h : p.Reached item rounds k args m) : m.Typed p := by
  induction h with
  | start => exact typed_entry hp hk maxCallDepth hargs
  | step _ hstep ih => exact hstep.typed hp ih

/-- The static types of a term of a function: those it has when the variables have the types
that they are declared with. -/
def StaticType (p : Program) (fn : CheckedFn) (here? : Option Ty) (x : Term) (t : Ty) : Prop :=
  KernelForge.Typed p.signatures fn.declared here? (.term x) t

theorem evaluates_typed (hp : p.Typed) (hm : m.Typed p) {f : Frame} {x : Term}
    (hdoing : m.doing = .phrase f (.term x)) :
    ∃ here?, (∃ t, p.StaticType m.fn here? x t) ∧ ∀ t, p.StaticType m.fn here? x t →
      Safe (x.eval (p.call item rounds m.depth) f) (Value.Fits t) := by
  have htyped := hm.doing
  rw [hdoing] at htyped
  obtain ⟨scope, here?, u, hf, hu⟩ := htyped
  have hsub : ∀ slot t, scope slot = some t → m.fn.declared slot = some t :=
    fun slot t hslot => (hf.vars slot t hslot).1
  refine ⟨here?, ⟨u, hu.rescope fun slot t _ hslot => hsub slot t hslot⟩, fun t ht => ?_⟩
  exact (Typed.of_declared hsub hu ht).promises (hp.safe_call item rounds m.depth) hf

/-- Every variable that is read holds a value of the type that it was declared with. -/
theorem reads_typed (hm : m.Typed p) {vars : Vars} {slot : Nat} (hreads : m.doing.Reads vars slot) :
    ∃ t, m.fn.declared slot = some t ∧ vars.HoldsAt slot t := by
  obtain ⟨fn, depth, doing⟩ := m
  have htyped := hm.doing
  cases hreads with
  | eval f slot =>
    obtain ⟨scope, here?, u, hf, hu⟩ := htyped
    obtain ⟨t, ht⟩ := hu.slot rfl
    exact ⟨t, hf.vars slot t ht⟩
  | access vars slot =>
    obtain ⟨scope, u, hvars, hl⟩ := htyped
    cases hl with
    | var h => exact ⟨u, hvars slot u h⟩

theorem staticType_of_checkExpr {fn : CheckedFn} {env : Env} {scope : Scope}
    (henv : env.Agrees p.signatures scope)
    (hscope : ∀ slot t, scope slot = some t → fn.declared slot = some t) {e : Code.Expr}
    {x : Checked} (h : env.checkExpr e = .ok x) (here? : Option Ty) :
    p.StaticType fn here? x.term x.type.ty :=
  (Env.good_checkExpr henv h).term.rescope fun slot t _ hslot => hscope slot t hslot

/-- **Programs that were built never confuse types.**  Whatever work item of whatever kernel is
run on arguments that were accepted: no value is ever of the wrong kind, missing or short of a
lane; every evaluation of a term that gives a value gives one that fits all static types of the
term, the type that the checker gave being one of them; and every variable that is read holds a
value of the type that it was declared with, which is not void. -/
theorem build_type_sound {source : SourceText} (hbuild : build source = .built p) {k : CheckedFn}
    (hk : k ∈ p.kernels) {args : List KernelArg} {vs : List Value}
    (hargs : readArgs k args = .ok vs) (item : WorkItem) (rounds : Nat) :
    (∀ st, (p.runItem rounds k vs item st).1.Sound fun _ => True) ∧
    (∀ m, p.Reached item rounds k vs m →
      (∀ f x, m.doing = .phrase f (.term x) →
        ∃ here?, (∃ t, p.StaticType m.fn here? x t) ∧ ∀ t, p.StaticType m.fn here? x t →
          ∀ st, (x.eval (p.call item rounds m.depth) f st).1.Sound (Value.Fits t)) ∧
      (∀ vars slot, m.doing.Reads vars slot →
        ∃ t, m.fn.declared slot = some t ∧ t ≠ .void ∧ vars.HoldsAt slot t)) ∧
    (∀ fn ∈ p.funcs, ∀ (env : Env) (scope : Scope) (e : Code.Expr) (x : Checked) (here? : Option Ty),
      env.Agrees p.signatures scope →
      (∀ slot t, scope slot = some t → fn.declared slot = some t) →
      env.checkExpr e = .ok x → p.StaticType fn here? x.term x.type.ty) := by
  obtain ⟨hp, hvalued⟩ := typed_of_build hbuild
  have hk' : k ∈ p.funcs := (List.mem_filter.mp hk).1
  have hfits := fits_readArgs hargs
  refine ⟨hp.safe_runItem hk' rounds hfits item, fun m hm => ?_, ?_⟩
  · have htyped := hm.typed hp hk' hfits
    refine ⟨fun f x hdoing => evaluates_typed hp htyped hdoing, fun vars slot hreads => ?_⟩
    obtain ⟨t, hdeclared, hholds⟩ := reads_typed htyped hreads
    exact ⟨t, hdeclared, hvalued m.fn htyped.fn slot t hdeclared, hholds⟩
  · intro fn _ env scope e x here? henv hscope hx
    exact staticType_of_checkExpr henv hscope hx here?

/-! ### A kernel -/

section Keep

open Token (spaced scans_spaced)
open Code.Scope

/-- The tokens of a kernel that stores its second argument where the first points to. -/
def keepTokens : List Token :=
  [.name "__kernel", .name "void", .name "keep", .op .lparen, .name "__global", .name "int",
    .op .mul, .name "a", .op .comma, .keyword .const, .name "int", .name "i", .op .rparen,
    .op .lbrace, .name "a", .op .lbrack, .int "0", .op .rbrack, .op .assign, .name "i",
    .op .semicolon, .op .rbrace]

def keepSource : SourceText := SourceText.ofChars (spaced keepTokens)

/-- The kernel as it is checked. -/
def keepFn : CheckedFn where
  name := "keep"
  isKernel := true
  result := .void
  params := [("a", .pointer (.scalar .int) .global false), ("i", .scalar .int)]
  slots := 2
  body := .seq (.assign (.deref (.scalar .int) (.var 0)
    (.cast .long (.const .int32 (.atom (BitVec.ofInt 32 0))))) (.var 1)) .skip

def keepProgram : Program where
  source := keepSource
  fp64 := false
  funcs := [keepFn]

theorem build_keep : build keepSource = .built keepProgram := by
  obtain ⟨o, finish, map, hstream⟩ := exists_stream (@scans_spaced keepTokens (by decide)) fileName
  -- only the offsets stay open, and nothing that is built depends on them
  rw [build, keepSource, hstream]
  with_unfolding_all rfl

theorem keep_type_sound :
    build keepSource = .built keepProgram ∧ keepFn ∈ keepProgram.kernels ∧
      readArgs keepFn [{ memory? := some 0 }, { bytes := [7, 0, 0, 0] }] =
        .ok [.pointer ⟨some 0, 0⟩, .lanes .int32 (.atom 7)] ∧
      ∀ st, (keepProgram.runItem 1 keepFn [.pointer ⟨some 0, 0⟩, .lanes .int32 (.atom 7)]
        { offset := 0, extent := 1, id := 0 } st).1.Sound fun _ => True := by
  have hk : keepFn ∈ keepProgram.kernels := List.mem_singleton.mpr rfl
  have hargs : readArgs keepFn [{ memory? := some 0 }, { bytes := [7, 0, 0, 0] }] =
      .ok [.pointer ⟨some 0, 0⟩, .lanes .int32 (.atom 7)] := rfl
  exact ⟨build_keep, hk, hargs, (build_type_sound build_keep hk hargs _ 1).1⟩

end Keep

end Program
end KernelForge
