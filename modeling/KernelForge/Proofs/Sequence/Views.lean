/-
Views of one buffer.

A cursor is bound with the element types of its own buffers, but the device knows an element only
through the argument that it is indexed in.  A buffer has one argument, made for the type that it was
first registered with, so the two types are the same for views that agree with that first one, and for
no others.  What is written for a cursor, and the types that the device finds there, can be read off
the arguments in the end, whatever is bound later.
-/
import KernelForge.Proofs.Draft.Registry
import KernelForge.Proofs.Sequence.Binding

namespace KernelForge

namespace DraftArg

/-- The argument for a buffer. -/
def ofBuffer? (args : List DraftArg) (buffer : Nat) : Option DraftArg :=
  args.find? fun a => a.buffer? = some buffer

/-- The name of the argument for a buffer. -/
def nameOf (args : List DraftArg) (buffer : Nat) : String :=
  ((ofBuffer? args buffer).map DraftArg.name).getD ""

end DraftArg

/-- The type that a buffer was first registered with. -/
def Log.firstType (log : List Event) (buffer : Nat) : Option Ty :=
  (Log.registrations buffer log).head?.map (·.1)

namespace Cursor

mutual

/-- The calls that bind a cursor. -/
def calls (readOnly : Bool) : Cursor → List DraftCall
  | element b _ => [.register b.buffer b.elem readOnly]
  | zip cs => .inject (zip cs).ty :: allCalls readOnly cs

def allCalls (readOnly : Bool) : List Cursor → List DraftCall
  | [] => []
  | c :: cs => c.calls readOnly ++ allCalls readOnly cs

end

mutual

/-- What is written for the element at an index, where the arguments of the buffers have some names. -/
def written (names : Nat → String) (index : String) : Cursor → String
  | element b i => names b.buffer ++ "[" ++ index ++ (if i = 0 then "" else "+" ++ toString i) ++ "]"
  | zip cs => "((" ++ (zip cs).ty.name ++ ")\x7b" ++ ", ".intercalate (allWritten names index cs) ++ "\x7d)"

def allWritten (names : Nat → String) (index : String) : List Cursor → List String
  | [] => []
  | c :: cs => c.written names index :: allWritten names index cs

end

mutual

/-- The type of the element where each buffer holds elements of a type. -/
def seenAs (types : Nat → Option Ty) : Cursor → Option Ty
  | element b _ => types b.buffer
  | zip cs => (allSeenAs types cs).map Ty.tuple

def allSeenAs (types : Nat → Option Ty) : List Cursor → Option (List Ty)
  | [] => some []
  | c :: cs => do
    let t ← c.seenAs types
    let ts ← allSeenAs types cs
    return t :: ts

end

mutual

theorem bind_run (index : String) (readOnly : Bool) : ∀ (c : Cursor) (d : Draft),
    (c.bind d index readOnly).2 = (DraftCall.runAll d (c.calls readOnly)).2
  | element b i, d => rfl
  | zip cs, d => by
    rw [bind, calls, DraftCall.runAll, DraftCall.run]
    exact bindAll_run index readOnly cs _

theorem bindAll_run (index : String) (readOnly : Bool) : ∀ (cs : List Cursor) (d : Draft),
    (bindAll d index readOnly cs).2 = (DraftCall.runAll d (allCalls readOnly cs)).2
  | [], d => by rw [bindAll, allCalls, DraftCall.runAll]
  | c :: cs, d => by
    rw [bindAll, allCalls, DraftCall.runAll_append]
    simp only
    rw [bindAll_run index readOnly cs, bind_run index readOnly c]

end

end Cursor

/-! ### The argument of a buffer -/

namespace Draft.Registry

variable {kernel : String} {log : List Event} {d : Draft} {b s : Nat} {elem : Ty} {readOnly : Bool}
  {n : String}

/-- A buffer that has been registered has an argument, in its slot and under its name. -/
theorem ofBuffer?_eq (h : d.Registry kernel log) (he : .buffer b elem readOnly s n ∈ log) :
    ∃ a, DraftArg.ofBuffer? d.part.args b = some a ∧ a ∈ d.part.args ∧ a.buffer? = some b ∧
      a.name = n := by
  obtain ⟨a, ha, hname⟩ := h.placed _ he s n rfl rfl
  have hb := (h.single b elem readOnly s n he s a ha).mpr rfl
  have hsome : (DraftArg.ofBuffer? d.part.args b).isSome = true :=
    List.find?_isSome.mpr ⟨a, List.mem_of_getElem? ha, decide_eq_true hb⟩
  obtain ⟨x, hx⟩ := Option.isSome_iff_exists.mp hsome
  have hfound := List.find?_some hx
  have hxb : x.buffer? = some b := of_decide_eq_true hfound
  -- there is no other argument for the buffer
  obtain ⟨k, hk⟩ := List.getElem?_of_mem (List.mem_of_find?_eq_some hx)
  have hks := (h.single b elem readOnly s n he k x hk).mp hxb
  rw [hks, ha] at hk
  exact ⟨a, Option.some.inj hk ▸ hx, List.mem_of_getElem? ha, hb, hname⟩

theorem nameOf_eq (h : d.Registry kernel log) (he : .buffer b elem readOnly s n ∈ log) :
    DraftArg.nameOf d.part.args b = n := by
  obtain ⟨a, ha, -, -, hname⟩ := h.ofBuffer?_eq he
  rw [DraftArg.nameOf, ha]
  exact hname

theorem elem_ofBuffer? (h : d.Registry kernel log) (he : .buffer b elem readOnly s n ∈ log) :
    (DraftArg.ofBuffer? d.part.args b).map DraftArg.elem = Log.firstType log b := by
  obtain ⟨a, ha, hmem, hb, -⟩ := h.ofBuffer?_eq he
  obtain ⟨t, hfirst, htype⟩ := h.pointer a hmem b hb
  rw [ha, Option.map_some, Log.firstType, hfirst, DraftArg.elem, htype]
  rfl

end Draft.Registry

namespace Cursor

/-- The cursors that are taken together. -/
def parts : Cursor → List Cursor
  | element _ _ => []
  | zip cs => cs

/-- A kernel after some calls. -/
def made (kernel : String) (calls : List DraftCall) : Draft := (DraftCall.runAll (.ofName kernel) calls).2

/-- What the calls have given. -/
def given (kernel : String) (calls : List DraftCall) : List Event := (DraftCall.runAll (.ofName kernel) calls).1

theorem made_append (kernel : String) (cs cs' : List DraftCall) :
    made kernel (cs ++ cs') = (DraftCall.runAll (made kernel cs) cs').2 := by
  rw [made, DraftCall.runAll_append]
  rfl

theorem given_append (kernel : String) (cs cs' : List DraftCall) :
    given kernel (cs ++ cs') = given kernel cs ++ (DraftCall.runAll (made kernel cs) cs').1 := by
  rw [given, DraftCall.runAll_append]
  rfl

theorem registry_made (kernel : String) (calls : List DraftCall) :
    (made kernel calls).Registry kernel (given kernel calls) :=
  (Draft.Kept.runAll calls (Draft.Kept.start kernel)).registry

theorem registered (kernel : String) (before after : List DraftCall) (buffer : Nat) (elem : Ty)
    (readOnly : Bool) :
    .buffer buffer elem readOnly ((made kernel before).register buffer elem readOnly).1.2
        ((made kernel before).register buffer elem readOnly).1.1 ∈
      given kernel (before ++ .register buffer elem readOnly :: after) := by
  rw [given_append, DraftCall.runAll, DraftCall.run]
  exact List.mem_append_right _ (List.mem_append_left _ (List.mem_singleton_self _))

mutual

theorem expr_bind (kernel index : String) (readOnly : Bool) : ∀ (c : Cursor) (before after : List DraftCall),
    (c.bind (made kernel before) index readOnly).1.expr =
      c.written (DraftArg.nameOf (made kernel (before ++ (c.calls readOnly ++ after))).part.args) index
  | element b i, before, after => by
    have hname := (registry_made kernel _).nameOf_eq (registered kernel before after b.buffer b.elem readOnly)
    rw [bind, written, calls, List.singleton_append, hname]
  | zip cs, before, after => by
    have hparts := exprs_bindAll kernel index readOnly cs (before ++ [.inject (zip cs).ty]) after
    rw [made_append, List.append_assoc] at hparts
    rw [bind, written, calls, List.cons_append, ← List.singleton_append]
    exact congrArg (fun es => "((" ++ (zip cs).ty.name ++ ")\x7b" ++ ", ".intercalate es ++ "\x7d)") hparts

theorem exprs_bindAll (kernel index : String) (readOnly : Bool) :
    ∀ (cs : List Cursor) (before after : List DraftCall),
      (bindAll (made kernel before) index readOnly cs).1 = allWritten
        (DraftArg.nameOf (made kernel (before ++ (allCalls readOnly cs ++ after))).part.args) index cs
  | [], _, _ => rfl
  | c :: cs, before, after => by
    have hfirst := expr_bind kernel index readOnly c before (allCalls readOnly cs ++ after)
    have hrest := exprs_bindAll kernel index readOnly cs (before ++ c.calls readOnly) after
    rw [made_append, ← bind_run index, List.append_assoc] at hrest
    rw [bindAll, allWritten, allCalls, List.append_assoc, ← hfirst, ← hrest]

end

mutual

theorem mem_calls (readOnly : Bool) : ∀ (c : Cursor), ∀ x ∈ c.elements,
    .register x.1.buffer x.1.elem readOnly ∈ c.calls readOnly
  | element _ _ => List.forall_mem_singleton.mpr (List.mem_singleton_self _)
  | zip cs => fun x hx => List.mem_cons_of_mem _ (mem_allCalls readOnly cs x hx)

theorem mem_allCalls (readOnly : Bool) : ∀ (cs : List Cursor), ∀ x ∈ allElements cs,
    .register x.1.buffer x.1.elem readOnly ∈ allCalls readOnly cs
  | [] => nofun
  | c :: cs => List.forall_mem_append.mpr
      ⟨fun x hx => List.mem_append_left _ (mem_calls readOnly c x hx),
        fun x hx => List.mem_append_right _ (mem_allCalls readOnly cs x hx)⟩

end

mutual

theorem seenAs_eq_some (types : Nat → Option Ty) : ∀ (c : Cursor),
    c.seenAs types = some c.ty ↔ ∀ x ∈ c.elements, types x.1.buffer = some x.1.elem
  | element b i => by rw [seenAs, ty, elements, List.forall_mem_singleton]
  | zip cs => by
    rw [seenAs, ty, elements, ← allSeenAs_eq_some types cs]
    simp

theorem allSeenAs_eq_some (types : Nat → Option Ty) : ∀ (cs : List Cursor),
    allSeenAs types cs = some (tys cs) ↔ ∀ x ∈ allElements cs, types x.1.buffer = some x.1.elem
  | [] => by simp [allSeenAs, tys, allElements]
  | c :: cs => by
    rw [allSeenAs, tys, allElements, List.forall_mem_append, ← seenAs_eq_some types c,
      ← allSeenAs_eq_some types cs]
    cases c.seenAs types with
    | none => simp
    | some t =>
      cases allSeenAs types cs with
      | none => simp
      | some ts => simp

end

/-- **A binding has the type of its expression exactly if its views are the first of their buffers**:
the expression and the fields are written with the arguments in the end, and these point to elements of
the types of the cursor if and only if each of its buffers was first registered with that type. -/
theorem bound_as_seen (kernel index : String) (readOnly : Bool) (c : Cursor)
    (before after : List DraftCall) :
    let args := (made kernel (before ++ (c.calls readOnly ++ after))).part.args
    let bound := (c.bind (made kernel before) index readOnly).1
    bound.expr = c.written (DraftArg.nameOf args) index ∧
      bound.fields = allWritten (DraftArg.nameOf args) index c.parts ∧
      (c.seenAs (fun b => (DraftArg.ofBuffer? args b).map DraftArg.elem) = some bound.type ↔
        ∀ x ∈ c.elements, Log.firstType (given kernel (before ++ (c.calls readOnly ++ after))) x.1.buffer =
          some x.1.elem) := by
  intro args bound
  have htype : bound.type = c.ty := by
    cases c <;> rfl
  refine ⟨expr_bind kernel index readOnly c before after, ?_, ?_⟩
  · cases c with
    | element b i => rfl
    | zip cs =>
      have hparts := exprs_bindAll kernel index readOnly cs (before ++ [.inject (zip cs).ty]) after
      rw [made_append, List.append_assoc] at hparts
      exact hparts
  · rw [htype, seenAs_eq_some]
    refine forall₂_congr fun x hx => ?_
    obtain ⟨cs, cs', hsplit⟩ := List.append_of_mem (mem_calls readOnly c x hx)
    have hreg := registered kernel (before ++ cs) (cs' ++ after) x.1.buffer x.1.elem readOnly
    have hall : before ++ cs ++ .register x.1.buffer x.1.elem readOnly :: (cs' ++ after) =
        before ++ (c.calls readOnly ++ after) := by
      rw [hsplit]
      simp
    rw [hall] at hreg
    rw [(registry_made kernel _).elem_ofBuffer? hreg]

/-- Two views of one buffer: the second one is bound as floats, and seen as the integers that the
buffer was first registered with. -/
theorem float_view_of_integers :
    let v : Cursor := .element { buffer := 7, bytes := 8, elem := .scalar .int } 0
    let w : Cursor := .element { buffer := 7, bytes := 8, elem := .scalar .float } 0
    let args := (made "m" (v.calls true ++ w.calls true)).part.args
    w.seenAs (fun b => (DraftArg.ofBuffer? args b).map DraftArg.elem) = some (.scalar .int) ∧
      (w.bind (made "m" (v.calls true)) "i" true).1.type = .scalar .float ∧
      (w.bind (made "m" (v.calls true)) "i" true).1.expr = "_buf0[i]" := by
  decide +kernel

end Cursor
end KernelForge
