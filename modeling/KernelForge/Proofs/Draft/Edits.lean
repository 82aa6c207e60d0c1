/-
The calls that make a kernel.

A kernel is made by calls on its parts, which are the kernel itself and the bodies of helpers, in any
order.  Here the calls are data, so that one can speak of all that have been made.  One call adds to
what the preamble has in stock, and writes some lines to its part; so any sequence of calls leaves a
stock in which there is all that its lines need, and parts whose bodies are these lines.
-/
import KernelForge.Draft.Bundle
import KernelForge.Proofs.Formula.Defining

namespace KernelForge

/-- A call on a part of a kernel. -/
inductive Edit where
  /-- Asks for the structures of a type. -/
  | inject (t : Ty)
  | decl (t : Ty) (name : String)
  | declare (t : Ty) (init : String)
  | addArg (name : String) (t : Ty)
  | addSetArg (name : String) (type : Option HostTy) (value : HostValue)
  | register (buffer : Nat) (elem : Ty) (readOnly : Bool)
  | define (fn : HelperFn)
  | lower (bs : List Binding) (n : Formula)

namespace Edit

/-- The draft after a call. -/
def run (d : Draft) : Edit → Draft
  | inject t => d.inject t
  | decl t name => (d.decl t name).2
  | declare t init => (d.declare t init).2
  | addArg name t => (d.addArg name t).2
  | addSetArg name type value =>
    match d.addSetArg name type value with
    | .ok r => r.2
    | .error _ => d
  | register buffer elem readOnly => (d.register buffer elem readOnly).2
  | define fn => (Formula.define fn d).2
  | lower bs n => (Formula.lower bs n d).2

/-- The types that are given with a call. -/
def types : Edit → List Ty
  | inject t | decl t _ | declare t _ | addArg _ t | register _ t _ => [t]
  | lower bs _ => bs.map (·.type)
  | addSetArg _ _ _ | define _ => []

/-- The types that a call declares whatever else comes of it. -/
def declares : Edit → List Ty
  | inject t | decl t _ | declare t _ | addArg _ t => [t]
  | addSetArg _ _ _ | register _ _ _ | define _ | lower _ _ => []

/-- The helper functions that a call may define. -/
def helpers : Edit → List HelperFn
  | define fn => fn.helpers
  | lower _ n => n.helpers
  | _ => []

/-- Helper functions that are given with a call have been made. -/
def Made : Edit → Prop
  | define fn => fn.Made
  | lower _ n => n.Made
  | _ => True

/-- A call with types that may be asked for, and with helpers that are known by their numbers. -/
structure Sound (table : Nat → HelperFn) (e : Edit) : Prop where
  clean : ∀ t ∈ e.types, t.isClean = true
  helpers : ∀ fn ∈ e.helpers, fn.Sound table
  made : e.Made

/-- The lines that a call writes at a depth: a declaration, or those of a formula if it passes its
checks. -/
def Wrote (k : Nat) : Edit → List (Nat × Line) → Prop
  | declare t init, ls => ∃ x, ls = [(k, .declare t x (.given init))]
  | lower bs n, ls =>
    match Formula.check bs n with
    | .ok () => ∃ a, Formula.Lowers bs k n ls a
    | .error _ => ls = []
  | _, ls => ls = []

/-- What a call does to a draft. -/
structure Does (e : Edit) (d : Draft) (S : Stock) (d' : Draft) (S' : Stock)
    (lines : List (Nat × Line)) : Prop where
  pre : d.pre.Grows S d'.pre S' e.helpers
  body : d'.part.body = d.part.body ++ Line.texts lines
  indent : d'.part.indent = d.part.indent
  fits : ∀ l ∈ lines, l.2.Fits S'
  args : (∀ a ∈ d.part.args, a.type.Available S.known S.fp64) →
    ∀ a ∈ d'.part.args, a.type.Available S'.known S'.fp64
  wrote : e.Wrote d.part.indent lines
  declares : ∀ t ∈ e.declares, t.Available S'.known S'.fp64
  defines : ∀ fn, e = define fn → ∃ x ∈ S'.defs, x.fn = fn

variable {table : Nat → HelperFn} {d d' : Draft} {S S' : Stock} {lines : List (Nat × Line)} {e : Edit}

/-- What is written without a new argument. -/
theorem does_of_grows (h : d.Grows S d' S' lines e.helpers) (hindent : d'.part.indent = d.part.indent)
    (hwrote : e.Wrote d.part.indent lines)
    (hdeclares : ∀ t ∈ e.declares, t.Available S'.known S'.fp64)
    (hdefines : ∀ fn, e = define fn → ∃ x ∈ S'.defs, x.fn = fn) : e.Does d S d' S' lines where
  pre := h.pre
  body := h.body
  indent := hindent
  fits := h.fits
  args := fun hargs a ha => h.pre.available (hargs a (h.args ▸ ha))
  wrote := hwrote
  declares := hdeclares
  defines := hdefines

/-- A new argument of a type that can be used. -/
theorem does_of_pushArg (h : d.Grows S d' S' [] e.helpers) (hindent : d'.part.indent = d.part.indent)
    {a : DraftArg} (ha : a.type.Available S'.known S'.fp64) (hwrote : e.Wrote d.part.indent [])
    (hdeclares : ∀ t ∈ e.declares, t.Available S'.known S'.fp64)
    (hdefines : ∀ fn, e = define fn → ∃ x ∈ S'.defs, x.fn = fn) :
    e.Does d S (d'.pushArg a).2 S' [] where
  pre := h.pre
  body := h.body
  indent := hindent
  fits := List.forall_mem_nil _
  args := by
    intro hargs
    refine List.forall_mem_append.mpr ⟨fun b hb => ?_, List.forall_mem_singleton.mpr ha⟩
    exact h.pre.available (hargs b (h.args ▸ hb))
  wrote := hwrote
  declares := hdeclares
  defines := hdefines

/-- An argument under a new name, after what its type needs. -/
theorem grows_freshInject {α : Type} (h : d.pre.Holds S) {t : Ty} (ht : t.isClean = true)
    (fns : List HelperFn) {take : Names → α × Names} (htake : ∀ ns, ns.taken ⊆ (take ns).2.taken) :
    ∃ S', d.Grows S ((d.withNames take).2.inject t) S' [] fns ∧
      ((d.withNames take).2.inject t).part.indent = d.part.indent ∧
      t.Available S'.known S'.fp64 := by
  obtain ⟨hnames, hindent⟩ := Draft.grows_withNames h htake fns
  obtain ⟨S', hinject, havail, -⟩ := Draft.grows_inject hnames.pre.holds ht fns
  exact ⟨S', hnames.trans hinject, hindent, havail⟩

theorem addSetArg_cases (d : Draft) (name : String) (type : Option HostTy) (value : HostValue) :
    (∃ c, d.addSetArg name type value = .error c) ∨
      ∃ t bytes, HostTy.kernelTyOf type = .ok t ∧ d.addSetArg name type value =
        .ok (((d.fresh name).1, ((d.fresh name).2.inject t).part.args.length),
          (((d.fresh name).2.inject t).pushArg
            { name := (d.fresh name).1, type := t, value? := some bytes }).2) := by
  unfold Draft.addSetArg
  cases hty : HostTy.kernelTyOf type with
  | error c => exact .inl ⟨_, rfl⟩
  | ok t =>
    cases type with
    | none => cases hty
    | some g =>
      simp only
      cases hbytes : Host.encode t g value (Array.replicate t.size 0) with
      | error c => exact .inl ⟨_, rfl⟩
      | ok bytes => exact .inr ⟨t, bytes, rfl, rfl⟩

theorem does_addSetArg {name : String} {type : Option HostTy} {value : HostValue}
    (h : d.pre.Holds S) :
    ∃ S' lines, (addSetArg name type value).Does d S ((addSetArg name type value).run d) S' lines := by
  rw [run]
  rcases addSetArg_cases d name type value with ⟨c, hresult⟩ | ⟨t, bytes, hty, hresult⟩
  · rw [hresult]
    exact ⟨S, [], does_of_grows (.refl h _) rfl rfl nofun nofun⟩
  · have hdata : t.isData = true := by
      cases type with
      | none => cases hty
      | some g => exact HostTy.isData_of_kernelTy hty
    obtain ⟨S', hgrows, hindent, havail⟩ :=
      grows_freshInject h (Ty.isClean_of_isData hdata) [] (Draft.taken_fresh_subset name)
    rw [hresult]
    exact ⟨S', [], does_of_pushArg (e := addSetArg name type value) hgrows hindent havail rfl nofun
      nofun⟩

/-- A pointer through which elements can change needs what one to read-only elements does. -/
theorem available_writable {t : Ty} {known : List (List Ty)} {fp64 : Bool}
    (h : t.Available known fp64) : (Draft.writable t).Available known fp64 := by
  cases t with
  | pointer elem space readOnly => exact ⟨h.structs, h.double⟩
  | _ => exact h

theorem does_register {buffer : Nat} {elem : Ty} {readOnly : Bool} (h : d.pre.Holds S)
    (helem : elem.isClean = true) :
    ∃ S' lines,
      (register buffer elem readOnly).Does d S ((register buffer elem readOnly).run d) S' lines := by
  rw [run, Draft.register]
  split
  · -- the buffer has its argument, and so its elements have been asked for
    rename_i slot hslot
    obtain ⟨hlt, -⟩ := List.findIdx?_eq_some_iff_getElem.mp hslot
    have hmem : d.part.args.getD slot default ∈ d.part.args := by
      rw [List.getD_eq_getElem?_getD, List.getElem?_eq_getElem hlt]
      exact List.getElem_mem hlt
    cases readOnly with
    | true => exact ⟨S, [], does_of_grows (.refl h _) rfl rfl nofun nofun⟩
    | false =>
      refine ⟨S, [], ⟨h.refl _, by simp, rfl, List.forall_mem_nil _, fun hargs a ha => ?_, rfl, nofun,
        nofun⟩⟩
      rcases List.mem_or_eq_of_mem_set ha with ha | rfl
      · exact hargs a ha
      · exact available_writable (hargs _ hmem)
  · obtain ⟨S', hgrows, hindent, havail⟩ :=
      grows_freshInject h helem [] (Draft.taken_indexed_subset "_buf")
    have hpointer : (Ty.pointerTo elem readOnly).Available S'.known S'.fp64 :=
      ⟨havail.structs, havail.double⟩
    exact ⟨S', [], does_of_pushArg (e := register buffer elem readOnly) hgrows hindent
      (a := ⟨_, Ty.pointerTo elem readOnly, some buffer, none⟩) hpointer rfl nofun nofun⟩

theorem does_lower {bs : List Binding} {n : Formula} (hready : Formula.Ready table n.helpers d S)
    (hbs : ∀ t ∈ bs.map (·.type), t.isClean = true) (hmade : n.Made) :
    ∃ S' lines, (lower bs n).Does d S ((lower bs n).run d) S' lines := by
  rw [run]
  cases hcheck : Formula.check bs n with
  | error c =>
    have hwrote : (lower bs n).Wrote d.part.indent [] := by
      rw [Wrote, hcheck]
    rw [Formula.lower_of_check_error hcheck]
    exact ⟨S, [], does_of_grows (.refl hready.holds _) rfl hwrote nofun nofun⟩
  | ok u =>
    obtain ⟨v, d', h⟩ := Formula.lower_of_check_ok hmade hcheck d
    obtain ⟨S', lines, a, hlaid, -⟩ := Formula.lower_laid hready hbs (List.Subset.refl _) h
    have hwrote : (lower bs n).Wrote d.part.indent lines := by
      rw [Wrote, hcheck]
      exact ⟨a, hlaid.lowers⟩
    rw [h]
    exact ⟨S', lines, does_of_grows hlaid.grows hlaid.indent hwrote nofun nofun⟩

/-- **What one call does.**  It adds to what there is, and writes lines that need no more than that. -/
theorem run_does (hS : d.pre.Holds S) (hdefs : ∀ x ∈ S.defs, x.fn.Sound table)
    (he : e.Sound table) : ∃ S' lines, e.Does d S (e.run d) S' lines := by
  have hready : Formula.Ready table e.helpers d S := ⟨hS, he.helpers, hdefs⟩
  cases e with
  | inject t =>
    obtain ⟨S', hgrows, havail, -⟩ := Draft.grows_inject hS (he.clean t List.mem_cons_self) []
    exact ⟨S', [], does_of_grows hgrows rfl rfl (List.forall_mem_singleton.mpr havail) nofun⟩
  | decl t name =>
    obtain ⟨S', hgrows, hindent, havail⟩ := grows_freshInject hS (he.clean t List.mem_cons_self) []
      (Draft.taken_register_subset name)
    exact ⟨S', [], does_of_grows (e := decl t name) hgrows hindent rfl
      (List.forall_mem_singleton.mpr havail) nofun⟩
  | declare t init =>
    obtain ⟨S', hgrows, hindent⟩ := Draft.grows_declare (r := .given init) hS
      (he.clean t List.mem_cons_self) nofun nofun []
    have havail := (hgrows.fits _ (List.mem_singleton_self _)).types t List.mem_cons_self
    exact ⟨S', _, does_of_grows (e := declare t init) hgrows hindent ⟨_, rfl⟩
      (List.forall_mem_singleton.mpr havail) nofun⟩
  | addArg name t =>
    obtain ⟨S', hgrows, hindent, havail⟩ := grows_freshInject hS (he.clean t List.mem_cons_self) []
      (Draft.taken_fresh_subset name)
    exact ⟨S', [], does_of_pushArg (e := addArg name t) hgrows hindent (a := { name := _, type := t })
      havail rfl (List.forall_mem_singleton.mpr havail) nofun⟩
  | addSetArg name type value => exact does_addSetArg hS
  | register buffer elem readOnly => exact does_register hS (he.clean elem List.mem_cons_self)
  | define fn =>
    obtain ⟨name, d', h⟩ := Formula.define_succeeds he.made d
    obtain ⟨S', hgrows, hpart, x, hx, hfn, -⟩ :=
      Formula.define_laid hready (List.Subset.refl _) h
    rw [run, h]
    refine ⟨S', [], does_of_grows hgrows (by rw [hpart]) rfl nofun ?_⟩
    rintro _ ⟨⟩
    exact ⟨x, hx, hfn⟩
  | lower bs n => exact does_lower hready he.clean he.made

end Edit

/-! ### Calls on all parts -/

namespace Bundle

/-- A kernel that has been made by some calls, each on a part that was there. -/
inductive Reached (name : String) : Bundle → List (Nat × Edit) → Prop
  | start : Reached name (ofName name) []
  | addPart {b : Bundle} {calls : List (Nat × Edit)} (hb : Reached name b calls) :
      Reached name b.addPart.2 calls
  | call {b : Bundle} {calls : List (Nat × Edit)} {i : Nat} (e : Edit) (hb : Reached name b calls)
      (hi : i < b.parts.size) : Reached name (b.put i (e.run (b.draft i))) (calls ++ [(i, e)])

/-- The calls on one of the parts. -/
def callsOn (part : Nat) (calls : List (Nat × Edit)) : List Edit :=
  (calls.filter fun c => c.1 = part).map (·.2)

theorem callsOn_append_same (part : Nat) (calls : List (Nat × Edit)) (e : Edit) :
    callsOn part (calls ++ [(part, e)]) = callsOn part calls ++ [e] := by
  simp [callsOn]

theorem callsOn_append_other {part i : Nat} (h : i ≠ part) (calls : List (Nat × Edit)) (e : Edit) :
    callsOn part (calls ++ [(i, e)]) = callsOn part calls := by
  simp [callsOn, h]

/-- What some calls on a part have written, call by call. -/
structure Written (S : Stock) (calls : List Edit) (body : String)
    (w : List (Edit × List (Nat × Line))) : Prop where
  calls : w.map (·.1) = calls
  wrote : ∀ x ∈ w, x.1.Wrote 1 x.2
  body : body = Line.texts (w.flatMap (·.2))
  fits : ∀ x ∈ w, ∀ l ∈ x.2, l.2.Fits S

/-- What is true of a kernel after some calls. -/
structure Keeps (table : Nat → HelperFn) (name : String) (b : Bundle) (calls : List (Nat × Edit))
    (S : Stock) : Prop where
  holds : b.pre.Holds S
  sound : ∀ x ∈ S.defs, x.fn.Sound table
  name : b.name = name
  indent : ∀ i, (b.draft i).part.indent = 1
  args : ∀ i, ∀ a ∈ (b.draft i).part.args, a.type.Available S.known S.fp64
  declares : ∀ c ∈ calls, ∀ t ∈ c.2.declares, t.Available S.known S.fp64
  defines : ∀ c ∈ calls, ∀ fn, c.2 = .define fn → ∃ x ∈ S.defs, x.fn = fn
  written : ∀ i, ∃ w, Written S (callsOn i calls) (b.draft i).part.body w

variable {table : Nat → HelperFn} {name : String} {b : Bundle} {calls : List (Nat × Edit)}
  {S S' : Stock}

theorem Written.grows {es : List Edit} {body : String} {w : List (Edit × List (Nat × Line))}
    {p p' : Preamble} {fns : List HelperFn} (h : Written S es body w) (hgrows : p.Grows S p' S' fns) :
    Written S' es body w :=
  ⟨h.calls, h.wrote, h.body, fun x hx l hl => hgrows.fits (h.fits x hx l hl)⟩

theorem Written.append {d d' : Draft} {e : Edit} {lines : List (Nat × Line)} {es : List Edit}
    {w : List (Edit × List (Nat × Line))} (h : Written S es d.part.body w)
    (he : e.Does d S d' S' lines) (hindent : d.part.indent = 1) :
    Written S' (es ++ [e]) d'.part.body (w ++ [(e, lines)]) := by
  have hw := h.grows he.pre
  have hwrote := he.wrote
  rw [hindent] at hwrote
  refine ⟨by simp [h.calls], ?_, ?_, ?_⟩
  · exact List.forall_mem_append.mpr ⟨h.wrote, List.forall_mem_singleton.mpr hwrote⟩
  · rw [he.body, h.body, List.flatMap_append, Line.texts_append]
    simp
  · exact List.forall_mem_append.mpr ⟨hw.fits, List.forall_mem_singleton.mpr he.fits⟩

theorem keeps_start (table : Nat → HelperFn) (name : String) :
    Keeps table name (ofName name) [] ⟨[], false, []⟩ := by
  have hparts : ∀ i, ((ofName name).draft i).part = {} := by
    intro i
    cases i <;> rfl
  refine ⟨Preamble.holds_empty _, List.forall_mem_nil _, rfl, ?_, ?_, List.forall_mem_nil _, List.forall_mem_nil _, ?_⟩
  · intro i
    rw [hparts]
  · intro i
    rw [hparts]
    nofun
  · intro i
    rw [hparts]
    exact ⟨[], rfl, List.forall_mem_nil _, rfl, List.forall_mem_nil _⟩

/-- A new part has nothing written on it. -/
theorem draft_addPart (b : Bundle) (i : Nat) :
    (b.addPart.2.draft i).part.indent = (b.draft i).part.indent ∧
      (b.addPart.2.draft i).part.args = (b.draft i).part.args ∧
      (b.addPart.2.draft i).part.body = (b.draft i).part.body := by
  have hpart : (b.addPart.2.draft i).part = (b.parts.push Draft.helperPart).getD i {} := rfl
  have hpart' : (b.draft i).part = b.parts.getD i {} := rfl
  rw [hpart, hpart', Array.getD_eq_getD_getElem?, Array.getD_eq_getD_getElem?, Array.getElem?_push]
  split
  · rename_i hi
    rw [hi, Array.getElem?_eq_none (Nat.le_refl _)]
    exact ⟨rfl, rfl, rfl⟩
  · exact ⟨rfl, rfl, rfl⟩

theorem Keeps.addPart (h : Keeps table name b calls S) :
    Keeps table name b.addPart.2 calls S := by
  refine ⟨h.holds, h.sound, h.name, ?_, ?_, h.declares, h.defines, ?_⟩
  · intro i
    rw [(draft_addPart b i).1]
    exact h.indent i
  · intro i
    rw [(draft_addPart b i).2.1]
    exact h.args i
  · intro i
    rw [(draft_addPart b i).2.2]
    exact h.written i

theorem draft_put_same {i : Nat} (hi : i < b.parts.size) (d : Draft) :
    ((b.put i d).draft i).part = d.part := by
  simp [draft, put, Array.getD_eq_getD_getElem?, hi]

theorem draft_put_other {i j : Nat} (h : i ≠ j) (d : Draft) :
    ((b.put i d).draft j).part = (b.draft j).part := by
  simp [draft, put, Array.getD_eq_getD_getElem?, Array.getElem?_setIfInBounds_ne h]

theorem Keeps.call {i : Nat} {e : Edit} (h : Keeps table name b calls S) (hi : i < b.parts.size)
    (he : e.Sound table) :
    ∃ S', Keeps table name (b.put i (e.run (b.draft i))) (calls ++ [(i, e)]) S' := by
  obtain ⟨S', lines, hdoes⟩ := Edit.run_does (d := b.draft i) h.holds h.sound he
  refine ⟨S', hdoes.pre.holds, hdoes.pre.sound he.helpers h.sound, h.name, ?_, ?_, ?_, ?_, ?_⟩
  · intro j
    by_cases hij : i = j
    · rw [← hij, draft_put_same hi, hdoes.indent, h.indent]
    · rw [draft_put_other hij, h.indent]
  · intro j
    by_cases hij : i = j
    · rw [← hij, draft_put_same hi]
      exact hdoes.args (h.args i)
    · rw [draft_put_other hij]
      exact fun a ha => hdoes.pre.available (h.args j a ha)
  · rw [List.forall_mem_append, List.forall_mem_singleton]
    exact ⟨fun c hc t ht => hdoes.pre.available (h.declares c hc t ht), hdoes.declares⟩
  · rw [List.forall_mem_append, List.forall_mem_singleton]
    refine ⟨fun c hc fn hfn => ?_, hdoes.defines⟩
    obtain ⟨x, hx, hxfn⟩ := h.defines c hc fn hfn
    exact ⟨x, hdoes.pre.mem hx, hxfn⟩
  · intro j
    obtain ⟨w, hw⟩ := h.written j
    by_cases hij : i = j
    · rw [← hij] at hw ⊢
      refine ⟨w ++ [(e, lines)], ?_⟩
      rw [callsOn_append_same, draft_put_same hi]
      exact hw.append hdoes (h.indent i)
    · rw [callsOn_append_other hij, draft_put_other hij]
      exact ⟨w, hw.grows hdoes.pre⟩

/-- **After any calls** there is all that has been asked for, and each part has the lines that the
calls on it have written. -/
theorem Reached.keeps (hb : Reached name b calls) (hcalls : ∀ c ∈ calls, c.2.Sound table) :
    ∃ S, Keeps table name b calls S := by
  induction hb with
  | start => exact ⟨_, keeps_start table name⟩
  | addPart _ ih =>
    obtain ⟨S, hS⟩ := ih hcalls
    exact ⟨S, hS.addPart⟩
  | call e _ hi ih =>
    rw [List.forall_mem_append, List.forall_mem_singleton] at hcalls
    obtain ⟨S, hS⟩ := ih hcalls.1
    exact hS.call hi hcalls.2

end Bundle

end KernelForge
