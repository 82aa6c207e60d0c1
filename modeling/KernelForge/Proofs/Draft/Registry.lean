/-
The names and slots that a kernel hands out.

Arguments, variables and helper functions draw on one supply of names, and buffers are found again
among the arguments.  Here the calls on a kernel are data, and running them leaves a log of what was
handed out, so that one can speak of all that a kernel has ever promised: a slot stays the position of
its argument, a name is that of one thing only, and the argument of a buffer says whether the kernel
may write to it.

A helper function is made by calls on the same kernel.  Its name is handed out before these calls, and
so it stands in the log before them, and once more when the function is there.
-/
import KernelForge.Proofs.Draft.Edits
import Mathlib.Data.List.Pairwise

namespace KernelForge

/-- A call on a kernel.  The source of a helper function is made for its name, after some calls that
may depend on the name as well. -/
inductive DraftCall where
  | var (root : String)
  | reserve (name : String)
  | inject (t : Ty)
  | decl (t : Ty) (name : String)
  | declare (t : Ty) (init : String)
  | addArg (name : String) (t : Ty)
  | addSetArg (name : String) (type : Option HostTy) (value : HostValue)
  | register (buffer : Nat) (elem : Ty) (readOnly : Bool)
  | define (key : HelperKey) (root : String) (calls : String → List DraftCall)
      (source : String → Except String String)

/-- What came of a call. -/
inductive Event where
  | reserved (name : String)
  | fresh (name : String)
  | argument (slot : Nat) (name : String)
  | buffer (buffer : Nat) (elem : Ty) (readOnly : Bool) (slot : Nat) (name : String)
  | helper (key : HelperKey) (name : String)
  | refused (message : String)

/-- What keeps its name when it is asked for again. -/
inductive Holder where
  | slot (slot : Nat)
  | helper (key : HelperKey)

namespace Event

/-- The name that is handed out. -/
def name? : Event → Option String
  | fresh n | argument _ n | buffer _ _ _ _ n | helper _ n => some n
  | reserved _ | refused _ => none

/-- What the name is for.  Each variable is new. -/
def holder? : Event → Option Holder
  | argument s _ | buffer _ _ _ s _ => some (.slot s)
  | helper k _ => some (.helper k)
  | fresh _ | reserved _ | refused _ => none

def slot? : Event → Option Nat
  | argument s _ | buffer _ _ _ s _ => some s
  | _ => none

/-- The same argument, or the same helper function. -/
def Same (e e' : Event) : Prop := e.holder?.isSome = true ∧ e.holder? = e'.holder?

theorem Same.symm {e e' : Event} (h : e.Same e') : e'.Same e := ⟨h.2 ▸ h.1, h.2.symm⟩

theorem Same.trans {e e' e'' : Event} (h : e.Same e') (h' : e'.Same e'') : e.Same e'' :=
  ⟨h.1, h.2.trans h'.2⟩

/-- If the names are the same, then so is what they are for. -/
def Agrees (e e' : Event) : Prop := ∀ n, e.name? = some n → e'.name? = some n → e.Same e'

instance : Std.Symm Agrees := ⟨fun _ _ h n hn hn' => (h n hn' hn).symm⟩

end Event

namespace DraftCall

mutual

/-- Makes a call. -/
def run (d : Draft) : DraftCall → List Event × Draft
  | var root => let (name, d) := d.fresh root; ([.fresh name], d)
  | reserve name => ([.reserved name], d.reserve name)
  | inject t => ([], d.inject t)
  | decl t name => ([.reserved name], (d.decl t name).2)
  | declare t init => let (name, d) := d.declare t init; ([.fresh name], d)
  | addArg name t => let ((name, slot), d) := d.addArg name t; ([.argument slot name], d)
  | addSetArg name type value =>
    match d.addSetArg name type value with
    | .ok ((name, slot), d) => ([.argument slot name], d)
    | .error message => ([.refused message], d)
  | register buffer elem readOnly =>
    let ((name, slot), d) := d.register buffer elem readOnly
    ([.buffer buffer elem readOnly slot name], d)
  | define key root calls source =>
    match d.helper? key with
    | some name => ([.helper key name], d)
    | none =>
      let (name, d) := d.helperName root
      let (log, d) := runAll d (calls name)
      match source name with
      | .error message => (.helper key name :: log ++ [.refused message], d)
      | .ok src => (.helper key name :: log ++ [.helper key name], d.addHelper key name src)

/-- Makes calls one after the other. -/
def runAll (d : Draft) : List DraftCall → List Event × Draft
  | [] => ([], d)
  | c :: cs =>
    let (log, d) := run d c
    let (log', d) := runAll d cs
    (log ++ log', d)

end

end DraftCall

/-! ### Names -/

/-- What a log says of names, where some names are taken. -/
structure Log.Named (kernel : String) (log : List Event) (taken : List String) : Prop where
  /-- Two things never have one name. -/
  distinct : log.Pairwise Event.Agrees
  apart : ∀ e ∈ log, e.name? ≠ some kernel
  /-- A name that has been reserved is handed out only to what had it before. -/
  reserved : ∀ older n newer, log = older ++ .reserved n :: newer → ∀ e ∈ newer, e.name? = some n →
    ∃ e' ∈ older, e'.name? = some n ∧ e'.Same e
  taken : kernel ∈ taken ∧ ∀ e ∈ log, ∀ n, e.name? = some n ∨ e = .reserved n → n ∈ taken

namespace Log.Named

variable {kernel name : String} {log : List Event} {taken taken' : List String} {e e' : Event}

theorem start (kernel : String) : Named kernel [] [kernel] where
  distinct := .nil
  apart := List.forall_mem_nil _
  reserved := fun older n newer h => by simp at h
  taken := ⟨List.mem_cons_self, List.forall_mem_nil _⟩

theorem mono (h : Named kernel log taken) (hsub : taken ⊆ taken') : Named kernel log taken' where
  distinct := h.distinct
  apart := h.apart
  reserved := h.reserved
  taken := ⟨hsub h.taken.1, fun e he n hn => hsub (h.taken.2 e he n hn)⟩

/-- What must be checked of a new entry. -/
theorem append (h : Named kernel log taken)
    (hsame : ∀ e' ∈ log, e'.Agrees e)
    (hapart : e.name? ≠ some kernel)
    (hreserved : ∀ older n newer, log = older ++ Event.reserved n :: newer → e.name? = some n →
      ∃ e' ∈ older, e'.name? = some n ∧ e'.Same e)
    (htaken : ∀ n, e.name? = some n ∨ e = .reserved n → n ∈ taken) :
    Named kernel (log ++ [e]) taken where
  distinct := by
    rw [List.pairwise_append]
    refine ⟨h.distinct, List.pairwise_singleton _ _, fun e' he' x hx => ?_⟩
    rw [List.mem_singleton.mp hx]
    exact hsame e' he'
  apart := List.forall_mem_append.mpr ⟨h.apart, List.forall_mem_singleton.mpr hapart⟩
  reserved := by
    intro older n newer hsplit x hx hn
    rcases List.eq_nil_or_concat newer with rfl | ⟨newer, last, rfl⟩
    · cases hx
    · -- the new entry comes last, and what stands before it was there
      rw [List.concat_eq_append, ← List.cons_append, ← List.append_assoc] at hsplit
      obtain ⟨hlog, hlast⟩ := List.append_inj' hsplit rfl
      rw [List.concat_eq_append] at hx
      rcases List.mem_append.mp hx with hx | hx
      · exact h.reserved older n newer hlog x hx hn
      · have hxe : x = e := by
          rw [List.mem_singleton.mp hx]
          exact (List.singleton_inj.mp hlast).symm
        rw [hxe] at hn ⊢
        exact hreserved older n newer hlog hn
  taken := ⟨h.taken.1, List.forall_mem_append.mpr ⟨h.taken.2, List.forall_mem_singleton.mpr htaken⟩⟩

/-- A name that was free. -/
theorem hand (h : Named kernel log taken) (hname : name ∉ taken) (he : e.name? = some name) :
    Named kernel (log ++ [e]) (name :: taken) := by
  have hne : ∀ {n : String}, e.name? = some n → n ∈ taken → False := by
    intro n hn hmem
    rw [he] at hn
    exact hname (Option.some.inj hn ▸ hmem)
  refine (h.mono (List.subset_cons_self _ _)).append ?_ ?_ ?_ ?_
  · intro e' he' n hn hn'
    exact (hne hn' (h.taken.2 e' he' n (.inl hn))).elim
  · exact fun hk => hne hk h.taken.1
  · intro older n newer hlog hn
    have hmem : Event.reserved n ∈ log := by simp [hlog]
    exact (hne hn (h.taken.2 _ hmem n (.inr rfl))).elim
  · intro n hn
    rcases hn with hn | rfl
    · rw [he] at hn
      exact Option.some.inj hn ▸ List.mem_cons_self
    · cases he

/-- The name that the same thing had before. -/
theorem again (h : Named kernel log taken) (hmem : e' ∈ log) (hname : e'.name? = e.name?)
    (hsame : e'.Same e) : Named kernel (log ++ [e]) taken := by
  have hout : ∀ n, e ≠ .reserved n := by
    rintro n rfl
    have hsome := hsame.symm.1
    cases hsome
  refine h.append ?_ (hname ▸ h.apart e' hmem) ?_ ?_
  · intro x hx n hn hn'
    rw [← hname] at hn'
    by_cases hxe : x = e'
    · exact hxe ▸ hsame
    · exact (h.distinct.forall hx hmem hxe n hn hn').trans hsame
  · intro older n newer hlog hn
    rw [← hname] at hn
    rw [hlog] at hmem
    rcases List.mem_append.mp hmem with hmem | hmem
    · exact ⟨e', hmem, hn, hsame⟩
    · rcases List.mem_cons.mp hmem with rfl | hmem
      · cases hn
      · obtain ⟨x, hx, hxn, hxe⟩ := h.reserved older n newer hlog e' hmem hn
        exact ⟨x, hx, hxn, hxe.trans hsame⟩
  · intro n hn
    exact h.taken.2 e' hmem n (.inl (hname.trans (hn.resolve_right (hout n))))

/-- An entry that hands out nothing. -/
theorem silent (h : Named kernel log taken) (he : e.name? = none)
    (htaken : ∀ n, e = .reserved n → n ∈ taken) : Named kernel (log ++ [e]) taken := by
  refine h.append ?_ ?_ ?_ ?_
  · intro _ _ n _ hn
    rw [he] at hn
    cases hn
  · rw [he]
    exact nofun
  · intro _ n _ _ hn
    rw [he] at hn
    cases hn
  · intro n hn
    rw [he] at hn
    exact htaken n (hn.resolve_left nofun)

end Log.Named

/-! ### Slots -/

/-- The registrations of a buffer, with their types and whether they are for reading only. -/
def Log.registrations (buffer : Nat) (log : List Event) : List (Ty × Bool) :=
  log.filterMap fun
    | .buffer b elem readOnly _ _ => if b = buffer then some (elem, readOnly) else none
    | _ => none

/-- What a log says of the arguments of a kernel. -/
structure Log.Slots (log : List Event) (args : List DraftArg) : Prop where
  /-- A slot is the position of the argument. -/
  placed : ∀ e ∈ log, ∀ s n, e.slot? = some s → e.name? = some n →
    ∃ a, args[s]? = some a ∧ a.name = n
  /-- There are no arguments but those that have been handed out. -/
  handed : ∀ s a, args[s]? = some a → ∃ e ∈ log, e.slot? = some s ∧ e.name? = some a.name
  /-- The slot of a buffer is that of its argument. -/
  found : ∀ b elem readOnly s n, .buffer b elem readOnly s n ∈ log →
    ∃ a, args[s]? = some a ∧ a.buffer? = some b
  /-- A buffer has one argument. -/
  single : ∀ (s s' : Nat) (a a' : DraftArg) b, args[s]? = some a → args[s']? = some a' → a.buffer? = some b →
    a'.buffer? = some b → s = s'
  /-- It points to what the buffer was first registered for, and to read-only elements if that is
  all that the buffer has ever been registered for. -/
  pointer : ∀ a ∈ args, ∀ b, a.buffer? = some b → ∃ elem readOnly rest,
    registrations b log = (elem, readOnly) :: rest ∧
      a.type = .pointerTo elem (readOnly && rest.all (·.2))

namespace Log

variable {log : List Event} {args : List DraftArg} {a : DraftArg} {e : Event} {b s : Nat}

theorem registrations_append (b : Nat) (log log' : List Event) :
    registrations b (log ++ log') = registrations b log ++ registrations b log' :=
  List.filterMap_append

/-- Entries without a slot are no registrations. -/
theorem registrations_append_other (h : ∀ elem readOnly s n, e ≠ .buffer b elem readOnly s n) :
    registrations b (log ++ [e]) = registrations b log := by
  rw [registrations_append]
  cases e with
  | buffer b' elem readOnly s n =>
    have hne : b' ≠ b := fun hb => h elem readOnly s n (hb ▸ rfl)
    simp [registrations, hne]
  | _ => exact List.append_nil _

/-- A buffer that no argument is for has not been registered. -/
theorem Slots.registrations_eq_nil (h : Slots log args) (hb : ∀ a ∈ args, a.buffer? ≠ some b) :
    registrations b log = [] := by
  rw [registrations, List.filterMap_eq_nil_iff]
  intro e he
  cases e with
  | buffer b' elem readOnly s n =>
    obtain ⟨a, ha, hab⟩ := h.found b' elem readOnly s n he
    have hne : b' ≠ b := fun heq => hb a (List.mem_of_getElem? ha) (heq ▸ hab)
    simp [hne]
  | _ => rfl

theorem getElem?_append_some {α : Type} {xs ys : List α} {x : α} {i : Nat} (h : xs[i]? = some x) :
    (xs ++ ys)[i]? = some x := by
  rw [List.getElem?_append_left (List.getElem?_eq_some_iff.mp h).1, h]

theorem getElem?_concat_ge {α : Type} {xs : List α} {x y : α} {i : Nat} (hi : xs.length ≤ i)
    (h : (xs ++ [x])[i]? = some y) : i = xs.length ∧ y = x := by
  rw [List.getElem?_append_right hi, List.getElem?_singleton] at h
  split at h
  · exact ⟨by omega, (Option.some.inj h).symm⟩
  · cases h

namespace Slots

theorem start : Slots [] [] where
  placed := List.forall_mem_nil _
  handed := nofun
  found := nofun
  single := fun _ _ _ _ _ => nofun
  pointer := List.forall_mem_nil _

/-- An entry that is about no argument. -/
theorem skip (h : Slots log args) (he : e.slot? = none) : Slots (log ++ [e]) args where
  placed := List.forall_mem_append.mpr ⟨h.placed, List.forall_mem_singleton.mpr fun s n hs => by
    rw [he] at hs
    cases hs⟩
  handed := fun s a ha =>
    let ⟨x, hx, hslot, hname⟩ := h.handed s a ha
    ⟨x, List.mem_append_left _ hx, hslot, hname⟩
  found := by
    intro b elem readOnly s n hmem
    rcases List.mem_append.mp hmem with hmem | hmem
    · exact h.found b elem readOnly s n hmem
    · rw [← List.mem_singleton.mp hmem] at he
      cases he
  single := h.single
  pointer := by
    intro a ha b hb
    rw [registrations_append_other fun elem readOnly s n heq => by rw [heq] at he; cases he]
    exact h.pointer a ha b hb

/-- A new argument that is for no buffer that has one. -/
theorem push (h : Slots log args) (hslot : e.slot? = some args.length)
    (hname : e.name? = some a.name)
    (hbuffer : ∀ b, a.buffer? = some b → ∀ x ∈ args, x.buffer? ≠ some b)
    (he : (a.buffer? = none ∧ ∀ b elem readOnly s n, e ≠ .buffer b elem readOnly s n) ∨
      ∃ b elem readOnly, e = .buffer b elem readOnly args.length a.name ∧ a.buffer? = some b ∧
        a.type = .pointerTo elem readOnly) : Slots (log ++ [e]) (args ++ [a]) where
  placed := by
    refine List.forall_mem_append.mpr ⟨fun x hx s n hs hn => ?_, List.forall_mem_singleton.mpr ?_⟩
    · obtain ⟨y, hy, hyn⟩ := h.placed x hx s n hs hn
      exact ⟨y, getElem?_append_some hy, hyn⟩
    · intro s n hs hn
      rw [hslot] at hs
      rw [hname] at hn
      cases hs
      cases hn
      exact ⟨a, List.getElem?_concat_length, rfl⟩
  handed := by
    intro s x hx
    rcases Nat.lt_or_ge s args.length with hlt | hge
    · rw [List.getElem?_append_left hlt] at hx
      obtain ⟨y, hy, hyslot, hyname⟩ := h.handed s x hx
      exact ⟨y, List.mem_append_left _ hy, hyslot, hyname⟩
    · obtain ⟨rfl, rfl⟩ := getElem?_concat_ge hge hx
      exact ⟨e, List.mem_append_right _ (List.mem_singleton_self e), hslot, hname⟩
  found := by
    intro b elem readOnly s n hmem
    rcases List.mem_append.mp hmem with hmem | hmem
    · obtain ⟨x, hx, hxb⟩ := h.found b elem readOnly s n hmem
      exact ⟨x, getElem?_append_some hx, hxb⟩
    · have heq := List.mem_singleton.mp hmem
      rcases he with ⟨-, hother⟩ | ⟨b', elem', readOnly', heq', hb', -⟩
      · exact (hother _ _ _ _ _ heq.symm).elim
      · rw [heq'] at heq
        cases heq
        exact ⟨a, List.getElem?_concat_length, hb'⟩
  single := by
    intro s s' x x' b hx hx' hb hb'
    rcases Nat.lt_or_ge s args.length with hlt | hge <;>
      rcases Nat.lt_or_ge s' args.length with hlt' | hge'
    · rw [List.getElem?_append_left hlt] at hx
      rw [List.getElem?_append_left hlt'] at hx'
      exact h.single s s' x x' b hx hx' hb hb'
    · obtain ⟨-, rfl⟩ := getElem?_concat_ge hge' hx'
      rw [List.getElem?_append_left hlt] at hx
      exact (hbuffer b hb' x (List.mem_of_getElem? hx) hb).elim
    · obtain ⟨-, rfl⟩ := getElem?_concat_ge hge hx
      rw [List.getElem?_append_left hlt'] at hx'
      exact (hbuffer b hb x' (List.mem_of_getElem? hx') hb').elim
    · exact (getElem?_concat_ge hge hx).1.trans (getElem?_concat_ge hge' hx').1.symm
  pointer := by
    refine List.forall_mem_append.mpr ⟨fun x hx b hb => ?_, List.forall_mem_singleton.mpr ?_⟩
    · obtain ⟨elem, readOnly, rest, hregs, htype⟩ := h.pointer x hx b hb
      rw [registrations_append_other fun elem' readOnly' s n heq => ?_]
      · exact ⟨elem, readOnly, rest, hregs, htype⟩
      · rcases he with ⟨-, hother⟩ | ⟨b', elem', readOnly', heq', hb', -⟩
        · exact hother _ _ _ _ _ heq
        · rw [heq'] at heq
          cases heq
          exact hbuffer b hb' x hx hb
    · intro b hb
      rcases he with ⟨hnone, -⟩ | ⟨b', elem, readOnly, rfl, hb', htype⟩
      · rw [hb] at hnone
        cases hnone
      · rw [hb] at hb'
        cases hb'
        have hnil := h.registrations_eq_nil (hbuffer b hb)
        refine ⟨elem, readOnly, [], ?_, ?_⟩
        · rw [registrations_append, hnil]
          simp [registrations]
        · rw [htype, List.all_nil, Bool.and_true]

/-- A buffer that has an argument. -/
theorem again (h : Slots log args) (ha : args[s]? = some a) (hb : a.buffer? = some b) (elem : Ty)
    (readOnly : Bool) :
    Slots (log ++ [Event.buffer b elem readOnly s a.name])
      (args.set s { a with type := if readOnly then a.type else Draft.writable a.type }) := by
  obtain ⟨hlt, hget⟩ := List.getElem?_eq_some_iff.mp ha
  -- each argument keeps its name and its buffer
  have hkeep : ∀ {k : Nat} {x : DraftArg}, args[k]? = some x → ∃ y : DraftArg,
      (args.set s { a with type := if readOnly then a.type else Draft.writable a.type })[k]? = some y ∧
        y.name = x.name ∧ y.buffer? = x.buffer? := by
    intro k x hx
    by_cases hk : s = k
    · subst hk
      rw [ha] at hx
      cases hx
      exact ⟨_, List.getElem?_set_self hlt, rfl, rfl⟩
    · exact ⟨x, by rw [List.getElem?_set_ne hk, hx], rfl, rfl⟩
  have hback : ∀ {k : Nat} {y : DraftArg},
      (args.set s { a with type := if readOnly then a.type else Draft.writable a.type })[k]? = some y →
        ∃ x, args[k]? = some x ∧ y.name = x.name ∧ y.buffer? = x.buffer? := by
    intro k y hy
    by_cases hk : s = k
    · subst hk
      rw [List.getElem?_set_self hlt] at hy
      cases hy
      exact ⟨a, ha, rfl, rfl⟩
    · rw [List.getElem?_set_ne hk] at hy
      exact ⟨y, hy, rfl, rfl⟩
  constructor
  · refine List.forall_mem_append.mpr ⟨fun x hx k n hk hn => ?_, List.forall_mem_singleton.mpr ?_⟩
    · obtain ⟨y, hy, hyn⟩ := h.placed x hx k n hk hn
      obtain ⟨z, hz, hzn, -⟩ := hkeep hy
      exact ⟨z, hz, hzn.trans hyn⟩
    · intro k n hk hn
      cases hk
      cases hn
      obtain ⟨z, hz, hzn, -⟩ := hkeep ha
      exact ⟨z, hz, hzn⟩
  · intro k y hy
    obtain ⟨x, hx, hname, -⟩ := hback hy
    obtain ⟨e, he, hslot, hn⟩ := h.handed k x hx
    exact ⟨e, List.mem_append_left _ he, hslot, hname ▸ hn⟩
  · intro b' elem' readOnly' k n hmem
    rcases List.mem_append.mp hmem with hmem | hmem
    · obtain ⟨x, hx, hxb⟩ := h.found b' elem' readOnly' k n hmem
      obtain ⟨y, hy, -, hyb⟩ := hkeep hx
      exact ⟨y, hy, hyb.trans hxb⟩
    · cases List.mem_singleton.mp hmem
      obtain ⟨y, hy, -, hyb⟩ := hkeep ha
      exact ⟨y, hy, hyb.trans hb⟩
  · intro k k' y y' b' hy hy' hyb hyb'
    obtain ⟨x, hx, -, hxb⟩ := hback hy
    obtain ⟨x', hx', -, hxb'⟩ := hback hy'
    exact h.single k k' x x' b' hx hx' (hxb ▸ hyb) (hxb' ▸ hyb')
  · intro y hy b' hyb
    obtain ⟨k, hk⟩ := List.getElem?_of_mem hy
    by_cases hks : s = k
    · -- the argument itself: one more registration is known of it
      subst hks
      rw [List.getElem?_set_self hlt] at hk
      cases hk
      rw [hb] at hyb
      cases hyb
      obtain ⟨elem₀, readOnly₀, rest, hregs, htype⟩ := h.pointer a (List.mem_of_getElem? ha) b hb
      refine ⟨elem₀, readOnly₀, rest ++ [(elem, readOnly)], ?_, ?_⟩
      · rw [registrations_append, hregs]
        simp [registrations]
      · simp only [htype, List.all_append, List.all_cons, List.all_nil, Bool.and_true]
        cases readOnly
        · simp [Ty.pointerTo, Draft.writable]
        · simp
    · -- another argument is for another buffer
      rw [List.getElem?_set_ne hks] at hk
      have hne : b ≠ b' := fun heq => hks (h.single s k a y b ha hk hb (heq ▸ hyb))
      rw [registrations_append_other fun _ _ _ _ heq => by cases heq; exact hne rfl]
      exact h.pointer y (List.mem_of_getElem? hk) b' hyb

end Slots
end Log

/-! ### Runs -/

/-- A buffer that has an argument, and one that gets one. -/
theorem Draft.register_cases (d : Draft) (buffer : Nat) (elem : Ty) (readOnly : Bool) :
    (∃ slot a, d.part.args[slot]? = some a ∧ a.buffer? = some buffer ∧
      d.register buffer elem readOnly = ((a.name, slot),
        { d with part :=
          { d.part with
            args := d.part.args.set slot
              { a with type := if readOnly then a.type else Draft.writable a.type } } })) ∨
    ((∀ a ∈ d.part.args, a.buffer? ≠ some buffer) ∧
      d.register buffer elem readOnly = (((d.indexed "_buf").1, d.part.args.length),
        (((d.indexed "_buf").2.inject elem).pushArg
          { name := (d.indexed "_buf").1, type := .pointerTo elem readOnly,
            buffer? := some buffer }).2)) := by
  unfold Draft.register
  split
  · rename_i slot hslot
    obtain ⟨hlt, hbuffer, -⟩ := List.findIdx?_eq_some_iff_getElem.mp hslot
    have hget : d.part.args.getD slot default = d.part.args[slot] := by
      rw [List.getD_eq_getElem?_getD, List.getElem?_eq_getElem hlt, Option.getD_some]
    refine .inl ⟨slot, d.part.args[slot], List.getElem?_eq_getElem hlt, of_decide_eq_true hbuffer, ?_⟩
    rw [hget]
    cases readOnly with
    | true =>
      have hset : d.part.args.set slot d.part.args[slot] = d.part.args := List.set_getElem_self hlt
      simp only [if_true, hset]
    | false => rfl
  · rename_i hnone
    have hlen : ((d.indexed "_buf").2.inject elem).part.args.length = d.part.args.length := by
      rw [indexed, withNames]
      split <;> rfl
    refine .inr ⟨fun x hx => of_decide_eq_false (List.findIdx?_eq_none_iff.mp hnone x hx), ?_⟩
    rw [← hlen]
    rfl

/-- A kernel that is as its log says. -/
structure Draft.Kept (kernel : String) (log : List Event) (d : Draft) : Prop where
  own : d.part.own? = none
  name : d.name = kernel
  named : Log.Named kernel log d.pre.names.taken
  slots : Log.Slots log d.part.args
  helpers : ∀ x ∈ d.pre.helperNames, .helper x.1 x.2 ∈ log

namespace Draft.Kept

variable {kernel : String} {log : List Event} {d d' : Draft} {e : Event}

theorem start (kernel : String) : (ofName kernel).Kept kernel [] where
  own := rfl
  name := rfl
  named := .start kernel
  slots := .start
  helpers := nofun

/-- What is written, and what is declared for it, is not in the log. -/
theorem congr (h : d.Kept kernel log) (hpart : d'.part.own? = d.part.own? ∧ d'.part.args = d.part.args)
    (hname : d'.name = d.name) (hnames : d'.pre.names = d.pre.names)
    (hhelpers : d'.pre.helperNames = d.pre.helperNames) : d'.Kept kernel log where
  own := hpart.1.trans h.own
  name := hname.trans h.name
  named := hnames ▸ h.named
  slots := hpart.2 ▸ h.slots
  helpers := hhelpers ▸ h.helpers

theorem inject (h : d.Kept kernel log) (t : Ty) : (d.inject t).Kept kernel log :=
  h.congr ⟨rfl, rfl⟩ rfl (Preamble.names_inject t d.pre) (Preamble.inject_keeps t d.pre).2

theorem withNames_eq {α : Type} (h : d.part.own? = none) (take : Names → α × Names) :
    d.withNames take =
      ((take d.pre.names).1, { d with pre := { d.pre with names := (take d.pre.names).2 } }) := by
  rw [withNames, h]

/-- A new name for something that is no argument. -/
theorem hand (h : d.Kept kernel log) {take : Names → String × Names}
    (hnew : ∀ ns, (take ns).1 ∉ ns.taken) (htake : ∀ ns, (take ns).2.taken = (take ns).1 :: ns.taken)
    (he : e.name? = some (d.withNames take).1) (hslot : e.slot? = none) :
    (d.withNames take).2.Kept kernel (log ++ [e]) := by
  rw [withNames_eq h.own] at he ⊢
  refine ⟨h.own, h.name, ?_, h.slots.skip hslot, fun x hx => ?_⟩
  · show Log.Named kernel _ (take d.pre.names).2.taken
    rw [htake]
    exact h.named.hand (hnew _) he
  · exact List.mem_append_left _ (h.helpers x hx)

theorem reserve (h : d.Kept kernel log) (name : String) :
    (d.reserve name).Kept kernel (log ++ [Event.reserved name]) := by
  have htaken : name ∈ (d.pre.names.register name).2.taken ∧
      d.pre.names.taken ⊆ (d.pre.names.register name).2.taken := by
    rw [Names.register]
    split
    · rename_i hmem
      exact ⟨Names.isTaken_iff.mp hmem, List.Subset.refl _⟩
    · exact ⟨List.mem_cons_self, List.subset_cons_self _ _⟩
  rw [Draft.reserve, withNames_eq h.own]
  refine ⟨h.own, h.name, ?_, h.slots.skip rfl, fun x hx => ?_⟩
  · refine (h.named.mono htaken.2).silent rfl fun n hn => ?_
    cases hn
    exact htaken.1
  · exact List.mem_append_left _ (h.helpers x hx)

theorem refuse (h : d.Kept kernel log) (message : String) :
    d.Kept kernel (log ++ [Event.refused message]) where
  own := h.own
  name := h.name
  named := h.named.silent rfl nofun
  slots := h.slots.skip rfl
  helpers := fun x hx => List.mem_append_left _ (h.helpers x hx)

theorem length_withNames_inject {α : Type} (d : Draft) (take : Names → α × Names) (t : Ty) :
    ((d.withNames take).2.inject t).part.args.length = d.part.args.length := by
  rw [Draft.inject, withNames]
  split <;> rfl

/-- A new argument under a new name. -/
theorem push (h : d.Kept kernel log) {take : Names → String × Names}
    (hnew : ∀ ns, (take ns).1 ∉ ns.taken) (htake : ∀ ns, (take ns).2.taken = (take ns).1 :: ns.taken)
    {a : DraftArg} (ha : a.name = (d.withNames take).1) (t : Ty)
    (hslot : e.slot? = some d.part.args.length) (hname : e.name? = some a.name)
    (hbuffer : ∀ b, a.buffer? = some b → ∀ x ∈ d.part.args, x.buffer? ≠ some b)
    (he : (a.buffer? = none ∧ ∀ b elem readOnly s n, e ≠ .buffer b elem readOnly s n) ∨
      ∃ b elem readOnly, e = .buffer b elem readOnly d.part.args.length a.name ∧ a.buffer? = some b ∧
        a.type = .pointerTo elem readOnly) :
    (((d.withNames take).2.inject t).pushArg a).2.Kept kernel (log ++ [e]) := by
  rw [withNames_eq h.own] at ha ⊢
  refine ⟨h.own, h.name, ?_, h.slots.push hslot hname hbuffer he, fun x hx => ?_⟩
  · show Log.Named kernel _ (Preamble.inject _ t).names.taken
    rw [Preamble.names_inject, htake]
    exact h.named.hand (hnew _) (ha ▸ hname)
  · have hhelpers : x ∈ (Preamble.inject _ t).helperNames := hx
    rw [(Preamble.inject_keeps _ _).2] at hhelpers
    exact List.mem_append_left _ (h.helpers x hhelpers)

theorem register (h : d.Kept kernel log) (buffer : Nat) (elem : Ty) (readOnly : Bool) :
    (d.register buffer elem readOnly).2.Kept kernel
      (log ++ [Event.buffer buffer elem readOnly (d.register buffer elem readOnly).1.2
        (d.register buffer elem readOnly).1.1]) := by
  rcases register_cases d buffer elem readOnly with ⟨slot, a, ha, hb, heq⟩ | ⟨hfree, heq⟩
  · -- the argument that the buffer has is in the log
    rw [heq]
    obtain ⟨e₀, he₀, hslot₀, hname₀⟩ := h.slots.handed slot a ha
    have hsame : e₀.Same (.buffer buffer elem readOnly slot a.name) := by
      cases e₀ with
      | argument s n => cases hslot₀; exact ⟨rfl, rfl⟩
      | buffer b t r s n => cases hslot₀; exact ⟨rfl, rfl⟩
      | _ => cases hslot₀
    exact ⟨h.own, h.name, h.named.again he₀ hname₀ hsame, h.slots.again ha hb elem readOnly,
      fun x hx => List.mem_append_left _ (h.helpers x hx)⟩
  · rw [heq]
    refine h.push (Names.indexed_notMem · "_buf") (Names.taken_indexed · "_buf") rfl elem rfl rfl ?_
      (.inr ⟨buffer, elem, readOnly, rfl, rfl, rfl⟩)
    intro b hb
    cases hb
    exact hfree

/-- A new argument for a value. -/
theorem pushValue (h : d.Kept kernel log) (name : String) (t : Ty) (value? : Option Bytes) :
    (((d.fresh name).2.inject t).pushArg { name := (d.fresh name).1, type := t, value? }).2.Kept kernel
      (log ++ [Event.argument ((d.fresh name).2.inject t).part.args.length (d.fresh name).1]) := by
  rw [fresh, length_withNames_inject]
  exact h.push (Names.fresh_notMem · name) (Names.taken_fresh · name) rfl t rfl rfl nofun
    (.inl ⟨rfl, nofun⟩)

theorem addSetArg (h : d.Kept kernel log) (name : String) (type : Option HostTy)
    (value : HostValue) :
    ((DraftCall.addSetArg name type value).run d).2.Kept kernel
      (log ++ ((DraftCall.addSetArg name type value).run d).1) := by
  rw [DraftCall.run]
  rcases Edit.addSetArg_cases d name type value with ⟨m, hresult⟩ | ⟨t, bytes, -, hresult⟩
  · rw [hresult]
    exact h.refuse m
  · rw [hresult]
    exact h.pushValue name t (some bytes)

/-- A helper function under a name that has been handed out for it. -/
theorem addHelper (h : d.Kept kernel log) {key : HelperKey} {name : String}
    (hmem : .helper key name ∈ log) (source : String) :
    (d.addHelper key name source).Kept kernel (log ++ [Event.helper key name]) where
  own := h.own
  name := h.name
  named := h.named.again hmem rfl ⟨rfl, rfl⟩
  slots := h.slots.skip rfl
  helpers := List.forall_mem_cons.mpr ⟨List.mem_append_right _ (List.mem_singleton_self _),
    fun x hx => List.mem_append_left _ (h.helpers x hx)⟩

mutual

/-- **What one call keeps.** -/
theorem run : ∀ (c : DraftCall) {d : Draft} {log : List Event}, d.Kept kernel log →
    (c.run d).2.Kept kernel (log ++ (c.run d).1)
  | .var root, d, log, h => by
    rw [DraftCall.run]
    exact h.hand (Names.fresh_notMem · root) (Names.taken_fresh · root) rfl rfl
  | .reserve name, d, log, h => by
    rw [DraftCall.run]
    exact h.reserve name
  | .inject t, d, log, h => by
    rw [DraftCall.run, List.append_nil]
    exact h.inject t
  | .decl t name, d, log, h => by
    rw [DraftCall.run]
    exact (h.reserve name).inject t
  | .declare t init, d, log, h => by
    rw [DraftCall.run]
    have hname : (d.indexed "_v").2.Kept kernel (log ++ [Event.fresh (d.indexed "_v").1]) :=
      h.hand (Names.indexed_notMem · "_v") (Names.taken_indexed · "_v") rfl rfl
    exact (hname.inject t).congr ⟨rfl, rfl⟩ rfl rfl rfl
  | .addArg name t, d, log, h => by
    rw [DraftCall.run]
    exact h.pushValue name t none
  | .addSetArg name type value, d, log, h => h.addSetArg name type value
  | .register buffer elem readOnly, d, log, h => by
    rw [DraftCall.run]
    exact h.register buffer elem readOnly
  | .define key root calls source, d, log, h => by
    rw [DraftCall.run]
    split
    · -- the function is there
      rename_i name hname
      have hmem := h.helpers _ (mem_of_lookup hname)
      exact ⟨h.own, h.name, h.named.again hmem rfl ⟨rfl, rfl⟩, h.slots.skip rfl,
        fun x hx => List.mem_append_left _ (h.helpers x hx)⟩
    · let name := (d.helperName root).1
      have hnamed : (d.helperName root).2.Kept kernel (log ++ [Event.helper key name]) := by
        have hhand : (d.withNames fun ns => ns.fresh root).2.Kept kernel
            (log ++ [Event.helper key name]) :=
          h.hand (Names.fresh_notMem · root) (Names.taken_fresh · root)
            (by rw [withNames_eq h.own]; rfl) rfl
        rwa [withNames_eq h.own] at hhand
      have hcalls := runAll (calls name) hnamed
      simp only
      split
      · rename_i message _
        have hrefuse := hcalls.refuse message
        rwa [List.append_assoc, List.append_assoc] at hrefuse
      · -- the name is handed out once more, now that the function is there
        have hmem : Event.helper key name ∈
            log ++ [Event.helper key name] ++ (DraftCall.runAll (d.helperName root).2 (calls name)).1 :=
          List.mem_append_left _ (List.mem_append_right _ (List.mem_singleton_self _))
        have hadd := hcalls.addHelper hmem ‹String›
        rwa [List.append_assoc, List.append_assoc] at hadd

/-- **What calls keep**, one after the other. -/
theorem runAll : ∀ (cs : List DraftCall) {d : Draft} {log : List Event}, d.Kept kernel log →
    (DraftCall.runAll d cs).2.Kept kernel (log ++ (DraftCall.runAll d cs).1)
  | [], d, log, h => by
    rw [DraftCall.runAll, List.append_nil]
    exact h
  | c :: cs, d, log, h => by
    rw [DraftCall.runAll, ← List.append_assoc]
    exact runAll cs (run c h)

end

end Draft.Kept

namespace DraftCall

theorem runAll_append (d : Draft) (cs cs' : List DraftCall) :
    runAll d (cs ++ cs') = ((runAll d cs).1 ++ (runAll (runAll d cs).2 cs').1,
      (runAll (runAll d cs).2 cs').2) := by
  induction cs generalizing d with
  | nil => rfl
  | cons c cs ih =>
    have hrest := ih (run d c).2
    simp only [List.cons_append, runAll, hrest, List.append_assoc]

end DraftCall

namespace Draft

/-- What a kernel has promised, and keeps. -/
structure Registry (kernel : String) (log : List Event) (d : Draft) : Prop where
  /-- A slot is the position of the argument. -/
  placed : ∀ e ∈ log, ∀ s n, e.slot? = some s → e.name? = some n →
    ∃ a, d.part.args[s]? = some a ∧ a.name = n
  /-- It is also the position of the parameter in the source. -/
  header : ∃ before params, d.source.1 = before ++ "__kernel void " ++ kernel ++ "(" ++
      ", ".intercalate params ++ ")\n\x7b\n" ++ d.part.body ++ "\x7d\n" ∧
    params.length = d.part.args.length ∧
    ∀ e ∈ log, ∀ s n, e.slot? = some s → e.name? = some n →
      ∃ type, params[s]? = some (type ++ " " ++ n)
  /-- Different things have different names. -/
  distinct : log.Pairwise Event.Agrees
  /-- No name is that of the kernel. -/
  apart : ∀ e ∈ log, e.name? ≠ some kernel
  /-- A name that has been reserved is handed out only to what had it before. -/
  reserved : ∀ older n newer, log = older ++ .reserved n :: newer → ∀ e ∈ newer, e.name? = some n →
    ∃ e' ∈ older, e'.name? = some n ∧ e'.Same e
  /-- The slot of a buffer is that of its only argument. -/
  single : ∀ b elem readOnly s n, .buffer b elem readOnly s n ∈ log →
    ∀ s' a, d.part.args[s']? = some a → (a.buffer? = some b ↔ s' = s)
  /-- Each registration of a buffer gives the same slot and the same name. -/
  stable : ∀ b elem readOnly s n elem' readOnly' s' n', .buffer b elem readOnly s n ∈ log →
    .buffer b elem' readOnly' s' n' ∈ log → s' = s ∧ n' = n
  /-- The argument points to what the buffer was first registered for, and to read-only elements
  exactly if all registrations have been for reading only. -/
  pointer : ∀ a ∈ d.part.args, ∀ b, a.buffer? = some b →
    ∃ elem, (Log.registrations b log).head?.map (·.1) = some elem ∧
      a.type = .pointerTo elem ((Log.registrations b log).all (·.2))

theorem header_source (d : Draft) : ∃ before, d.source.1 = before ++ "__kernel void " ++ d.name ++ "(" ++
    ", ".intercalate (d.part.args.map param) ++ ")\n\x7b\n" ++ d.part.body ++ "\x7d\n" := by
  have hsettle : d.settle.part = d.part ∧ d.settle.name = d.name := by
    unfold settle
    split <;> exact ⟨rfl, rfl⟩
  rw [source, text, hsettle.1, hsettle.2]
  exact ⟨_, rfl⟩

theorem exists_param (a : DraftArg) : ∃ type, param a = type ++ " " ++ a.name := by
  unfold param
  split
  · exact ⟨_, rfl⟩
  · exact ⟨_, rfl⟩

theorem Kept.registry {kernel : String} {log : List Event} {d : Draft} (h : d.Kept kernel log) :
    d.Registry kernel log where
  placed := h.slots.placed
  header := by
    obtain ⟨before, hsource⟩ := header_source d
    refine ⟨before, d.part.args.map param, h.name ▸ hsource, List.length_map _, ?_⟩
    intro e he s n hs hn
    obtain ⟨a, ha, rfl⟩ := h.slots.placed e he s n hs hn
    obtain ⟨type, htype⟩ := exists_param a
    exact ⟨type, by rw [List.getElem?_map, ha, Option.map_some, htype]⟩
  distinct := h.named.distinct
  apart := h.named.apart
  reserved := h.named.reserved
  single := by
    intro b elem readOnly s n he s' a ha
    obtain ⟨x, hx, hxb⟩ := h.slots.found b elem readOnly s n he
    refine ⟨fun hb => h.slots.single s' s a x b ha hx hb hxb, fun hs => ?_⟩
    rw [hs, hx] at ha
    exact Option.some.inj ha ▸ hxb
  stable := by
    intro b elem readOnly s n elem' readOnly' s' n' he he'
    obtain ⟨x, hx, hxb⟩ := h.slots.found b elem readOnly s n he
    obtain ⟨x', hx', hxb'⟩ := h.slots.found b elem' readOnly' s' n' he'
    have hs := h.slots.single s' s x' x b hx' hx hxb' hxb
    obtain ⟨a, ha, han⟩ := h.slots.placed _ he s n rfl rfl
    obtain ⟨a', ha', han'⟩ := h.slots.placed _ he' s' n' rfl rfl
    rw [hs, ha] at ha'
    cases ha'
    exact ⟨hs, han'.symm.trans han⟩
  pointer := by
    intro a ha b hb
    obtain ⟨elem, readOnly, rest, hregs, htype⟩ := h.slots.pointer a ha b hb
    rw [hregs]
    exact ⟨elem, rfl, htype⟩

/-- **The registry of a kernel is consistent**, whatever calls it was made by.  And an argument whose
value has no kernel type leaves no trace: what comes after it comes as if it had not been asked for. -/
theorem registry_consistent (kernel : String) (calls : List DraftCall) :
    (DraftCall.runAll (ofName kernel) calls).2.Registry kernel (DraftCall.runAll (ofName kernel) calls).1 ∧
      ∀ name type value message,
        (DraftCall.runAll (ofName kernel) calls).2.addSetArg name type value = .error message →
        ∀ more, ∃ log d,
          DraftCall.runAll (ofName kernel) (calls ++ more) =
            ((DraftCall.runAll (ofName kernel) calls).1 ++ log, d) ∧
          DraftCall.runAll (ofName kernel) (calls ++ .addSetArg name type value :: more) =
            ((DraftCall.runAll (ofName kernel) calls).1 ++ .refused message :: log, d) := by
  refine ⟨(Kept.runAll calls (Kept.start kernel)).registry, fun name type value message hrefused more => ?_⟩
  refine ⟨_, _, DraftCall.runAll_append _ calls more, ?_⟩
  rw [DraftCall.runAll_append, DraftCall.runAll, DraftCall.run, hrefused]
  rfl

/-- A name that is asked for again gets an index, as does one that is reserved or that of the kernel;
a buffer that is registered for writing keeps its slot, and its argument can be written through. -/
example :
    (DraftCall.runAll (ofName "k") [.register 7 (.scalar .int) true, .addArg "count" (.scalar .uint),
      .addArg "count" (.scalar .uint), .reserve "_v0", .declare (.scalar .int) "0", .var "k",
      .define (.function 1) "count" (fun name => [.var name]) .ok,
      .register 7 (.scalar .int) false]).1.map Event.name? =
      [some "_buf0", some "count", some "count0", none, some "_v1", some "k0", some "count1",
        some "count10", some "count1", some "_buf0"] := by
  decide +kernel

end Draft
end KernelForge
