/-
Helper functions are defined once, and after those that they call.

Writing a formula adds lines to a part and helper functions to the preamble, and the body of a helper
is written in the same way, on a part of its own.  What is proved here is that the lines are those of
the formula, that all that they name has been declared, and that all that they call has been defined.

The induction is on the formula and goes into the bodies of its helpers.  A helper is added once its
body is done, so it must be seen that its number is still free then: no helper is among those that its
own body calls, as these are parts of it.  Its name was taken before the body was written, so none of
these has the name either.
-/
import KernelForge.Proofs.Draft.Stock
import KernelForge.Proofs.Formula.Progress

namespace KernelForge

/-! ### Results of drafting -/

namespace Drafting

variable {α β : Type} {d d' : Draft}

theorem of_bind_ok {x : Drafting α} {f : α → Drafting β} {b : β} (h : (x >>= f) d = (.ok b, d')) :
    ∃ a d₁, x d = (.ok a, d₁) ∧ f a d₁ = (.ok b, d') := by
  rcases hx : x d with ⟨a | a, d₁⟩
  · rw [bind_error hx] at h
    cases h
  · rw [bind_ok hx] at h
    exact ⟨a, d₁, rfl, h⟩

theorem of_pure_ok {a b : α} (h : (pure a : Drafting α) d = (.ok b, d')) : a = b ∧ d = d' := by
  cases h
  exact ⟨rfl, rfl⟩

theorem of_edit_ok {f : Draft → Draft} {u : Unit} (h : edit f d = (.ok u, d')) : f d = d' := by
  cases h
  rfl

theorem of_take_ok {f : Draft → α × Draft} {a : α} (h : take f d = (.ok a, d')) :
    f d = (a, d') := by
  cases h
  rfl

theorem of_ofExcept_ok {r : Except FormulaError α} {a : α} (h : ofExcept r d = (.ok a, d')) :
    r = .ok a ∧ d = d' := by
  cases r with
  | ok b =>
    cases h
    exact ⟨rfl, rfl⟩
  | error c => cases h

theorem tryCatch_error {x : Drafting α} {c : FormulaError} (h : x d = (.error c, d'))
    (f : FormulaError → Drafting α) : tryCatch x f d = f c d' := by
  have hbind : ∀ g : Except FormulaError α → StateM Draft (Except FormulaError α),
      (bind (m := StateM Draft) x g) d = g (x d).1 (x d).2 := fun _ => rfl
  simp only [tryCatch, tryCatchThe, MonadExceptOf.tryCatch, ExceptT.tryCatch, ExceptT.mk]
  rw [hbind, h]

/-- After a failure that is passed on there is no result. -/
theorem of_guarded_ok {x : Drafting α} {f : FormulaError → Drafting α} {a : α}
    (h : tryCatch x f d = (.ok a, d')) (hf : ∀ c d₁, f c d₁ ≠ (.ok a, d')) : x d = (.ok a, d') := by
  rcases hx : x d with ⟨c | b, d₁⟩
  · rw [tryCatch_error hx] at h
    exact absurd h (hf c d₁)
  · rw [tryCatch_ok hx] at h
    exact h

end Drafting

namespace Formula

open Drafting

/-! ### Places -/

/-- The text of a place does not depend on the draft, and the draft stays as it is. -/
theorem place_ok {bs : List Binding} {n : Formula} {d d' : Draft} {l : String}
    (h : place bs n d = (.ok l, d')) : d = d' ∧ ∀ e, place bs n e = (.ok l, e) := by
  fun_induction place bs n generalizing d d' l with
  | case1 n ih =>
    obtain ⟨u, d₁, hrun, hrest⟩ := of_bind_ok h
    obtain ⟨hcheck, rfl⟩ := of_ofExcept_ok hrun
    have hpass : ∀ e, ofExcept (checkPlace bs n) e = (.ok u, e) := by
      intro e
      rw [hcheck]
      rfl
    cases n with
    | arg i =>
      obtain ⟨rfl, rfl⟩ := of_pure_ok hrest
      exact ⟨rfl, fun e => bind_ok (hpass e) _⟩
    | get index x =>
      cases hfield : fieldBinding? bs index x with
      | some expr =>
        simp only [hfield] at hrest
        obtain ⟨rfl, rfl⟩ := of_pure_ok hrest
        exact ⟨rfl, fun e => (bind_ok (hpass e) _).trans (by simp only [hfield]; rfl)⟩
      | none =>
        simp only [hfield] at hrest
        obtain ⟨parent, d₂, hparent, hrest⟩ := of_bind_ok hrest
        obtain ⟨rfl, hall⟩ := ih hparent
        obtain ⟨t, d₃, htype, hrest⟩ := of_bind_ok hrest
        obtain ⟨ht, rfl⟩ := of_ofExcept_ok htype
        obtain ⟨rfl, rfl⟩ := of_pure_ok hrest
        refine ⟨rfl, fun e => (bind_ok (hpass e) _).trans ?_⟩
        simp only [hfield]
        rw [ht]
        exact bind_ok (hall e) _
    | _ => cases hrest

/-! ### Writing -/

/-- A draft after a formula has been written, with the lines of the formula and what stands for its
value. -/
structure Laid (bs : List Binding) (n : Formula) (d : Draft) (S : Stock) (d' : Draft) (S' : Stock)
    (lines : List (Nat × Line)) (a : Atom) (fns : List HelperFn) : Prop where
  grows : d.Grows S d' S' lines fns
  indent : d'.part.indent = d.part.indent
  lowers : Lowers bs d.part.indent n lines a
  available : ∀ t ∈ a.types, t.Available S'.known S'.fp64

/-- The same for some formulas one after another. -/
structure AllLaid (bs : List Binding) (ns : List Formula) (d : Draft) (S : Stock) (d' : Draft)
    (S' : Stock) (lines : List (Nat × Line)) (as : List Atom) (fns : List HelperFn) : Prop where
  grows : d.Grows S d' S' lines fns
  indent : d'.part.indent = d.part.indent
  lowers : LowersAll bs d.part.indent ns lines as
  available : ∀ t ∈ as.flatMap Atom.types, t.Available S'.known S'.fp64

/-- A draft that can be written on: the helper functions that may be asked for, and those that have
been defined, are known by their numbers. -/
structure Ready (table : Nat → HelperFn) (fns : List HelperFn) (d : Draft) (S : Stock) : Prop where
  holds : d.pre.Holds S
  sound : ∀ fn ∈ fns, fn.Sound table
  defined : ∀ e ∈ S.defs, e.fn.Sound table

section
variable {table : Nat → HelperFn} {fns : List HelperFn} {bs : List Binding} {d d' : Draft}
  {S S' : Stock} {root : String}

theorem Ready.after {lines : List (Nat × Line)} (h : Ready table fns d S)
    (hgrows : d.Grows S d' S' lines fns) : Ready table fns d' S' :=
  ⟨hgrows.pre.holds, h.sound, hgrows.pre.sound h.sound h.defined⟩

/-- A line that guards others names nothing, and neither does the end of what it guards. -/
theorem grows_guard {d : Draft} {S : Stock} (h : d.pre.Holds S) (test : String) (fns : List HelperFn) :
    d.Grows S (d.line (Line.guard test).text).indent S [(d.part.indent, .guard test)] fns := by
  have hgrows := Draft.grows_line h (l := .guard test) ⟨nofun, nofun⟩ fns
  exact ⟨hgrows.name, hgrows.args, hgrows.body, hgrows.pre, hgrows.fits⟩

/-- A value is assigned, and a guarded part ends. -/
theorem grows_assign {d : Draft} {S : Stock} {k : Nat} (h : d.pre.Holds S)
    (hk : d.part.indent = k + 1) (v : String) {b : Atom}
    (hb : ∀ t ∈ b.types, t.Available S.known S.fp64) (fns : List HelperFn) :
    d.Grows S ((d.line (Line.assign v b).text).dedent.line Line.close.text) S
      [(k + 1, .assign v b), (k, .close)] fns := by
  have hassign := Draft.grows_line h (l := .assign v b) ⟨hb, nofun⟩ fns
  have hclose := Draft.grows_line (d := (d.line (Line.assign v b).text).dedent) (l := .close) h
    ⟨nofun, nofun⟩ fns
  have hdepth : (d.line (Line.assign v b).text).dedent.part.indent = k := by
    simp [Draft.dedent, Draft.line, Draft.append, hk]
  rw [hdepth] at hclose
  rw [hk] at hassign
  have hall : d.Grows S (d.line (Line.assign v b).text).dedent S [(k + 1, .assign v b)] fns :=
    ⟨hassign.name, hassign.args, hassign.body, hassign.pre, hassign.fits⟩
  exact hall.trans hclose

/-- A variable is declared with the result of an operation, whose type is that of the formula. -/
theorem declare_laid {n : Formula} {r : Initial} {v : String} (hready : Ready table fns d S)
    (hbs : ∀ t ∈ bs.map (·.type), t.isClean = true) (hsub : n.helpers ⊆ fns)
    (htypes : ∀ u ∈ r.types, u.Available S.known S.fp64)
    (hcalls : ∀ c ∈ r.calls, ∃ e ∈ S.defs, e.Is c)
    (h : declare bs n r.text d = (.ok v, d')) :
    ∃ t S', n.infer (bs.map (·.type)) = .ok t ∧
      d.Grows S d' S' [(d.part.indent, .declare t v r)] fns ∧ d'.part.indent = d.part.indent := by
  obtain ⟨t, d₁, hrun, hrest⟩ := of_bind_ok h
  obtain ⟨ht, rfl⟩ := of_ofExcept_ok hrun
  have hclean := isClean_infer hbs (fun fn hfn => hready.sound fn (hsub hfn)) ht
  obtain ⟨S', hgrows, hindent⟩ := Draft.grows_declare hready.holds hclean htypes hcalls fns
  cases hrest
  exact ⟨t, S', ht, hgrows, hindent⟩

/-- Parameters are declared. -/
theorem helperParams_grows (fns : List HelperFn) : ∀ {bs : List Binding} {d : Draft} {S : Stock},
    (∀ t ∈ bs.map (·.type), t.isClean = true) → d.pre.Holds S →
    (helperParams d bs).1 = bs.map (fun b => b.type.name ++ " " ++ b.expr) ∧
      (helperParams d bs).2.part.indent = d.part.indent ∧
      ∃ S', d.Grows S (helperParams d bs).2 S' [] fns ∧
        ∀ t ∈ bs.map (·.type), t.Available S'.known S'.fp64
  | [], d, S, _, hS => ⟨rfl, rfl, S, .refl hS fns, nofun⟩
  | b :: bs, d, S, hbs, hS => by
    rw [List.map_cons, List.forall_mem_cons] at hbs
    obtain ⟨hnames, hindent⟩ :=
      Draft.grows_withNames hS (Draft.taken_register_subset b.expr) fns
    obtain ⟨S₁, hinject, havail, -⟩ := Draft.grows_inject hnames.pre.holds hbs.1 fns
    obtain ⟨htexts, hindent', S₂, hmore, hall⟩ := helperParams_grows fns hbs.2 hinject.pre.holds
    refine ⟨?_, hindent'.trans hindent, S₂, (hnames.trans hinject).trans hmore, ?_⟩
    · rw [List.map_cons, ← htexts]
      rfl
    · exact List.forall_mem_cons.mpr ⟨hmore.pre.available havail, hall⟩

/-- The needs of bindings are declared. -/
theorem injects_grow (fns : List HelperFn) : ∀ {bs : List Binding} {d : Draft} {S : Stock},
    (∀ t ∈ bs.map (·.type), t.isClean = true) → d.pre.Holds S →
    (bs.foldl (fun d b => d.inject b.type) d).part.indent = d.part.indent ∧
      ∃ S', d.Grows S (bs.foldl (fun d b => d.inject b.type) d) S' [] fns
  | [], d, S, _, hS => ⟨rfl, S, .refl hS fns⟩
  | b :: bs, d, S, hbs, hS => by
    rw [List.map_cons, List.forall_mem_cons] at hbs
    obtain ⟨S₁, hinject, -, -⟩ := Draft.grows_inject hS hbs.1 fns
    obtain ⟨hindent, S₂, hmore⟩ := injects_grow fns hbs.2 hinject.pre.holds
    exact ⟨hindent, S₂, hinject.trans hmore⟩

/-- What has been defined since the name of a helper was taken, for its body, neither has its number
nor its name. -/
theorem follows_of_grows {p p' : Preamble} {e : Definition}
    (h : p.Grows S p' S' e.fn.body.helpers) (hsound : ∀ fn ∈ e.fn.helpers, fn.Sound table)
    (hnumber : ∀ o ∈ S.defs, o.fn.id ≠ e.fn.id) (hname : ∀ o ∈ S.defs, o.name ≠ e.name)
    (htaken : e.name ∈ p.names.taken)
    (hlowers : Lowers (helperBindings e.fn.params) 1 e.fn.body e.lines e.value)
    (hcalls : ∀ c ∈ e.calls, ∃ o ∈ S'.defs, o.Is c) : e.Follows S'.defs := by
  obtain ⟨new, hdefs, hnew⟩ := h.defs
  rcases hfn : e.fn with ⟨id, root, body, params, result⟩
  rw [hfn] at hnew hsound
  refine ⟨hlowers, hcalls, ?_, ?_⟩
  · rw [hdefs]
    refine List.forall_mem_append.mpr ⟨fun o ho heq => ?_, hnumber⟩
    have hmem : o.fn ∈ body.helpers := (hnew o ho).1
    have hsame : o.fn = .mk id root body params result := by
      rw [← (hsound _ (List.mem_cons_of_mem _ hmem)).number, heq, hfn,
        (hsound _ List.mem_cons_self).number]
    have hless := sizeOf_helpers (hsame ▸ hmem)
    simp only [HelperFn.mk.sizeOf_spec] at hless
    omega
  · rw [hdefs]
    refine List.forall_mem_append.mpr ⟨fun o ho heq => (hnew o ho).2 ?_, hname⟩
    rw [heq]
    exact htaken

/-- What is written for a formula are its lines. -/
def Lays (table : Nat → HelperFn) (bs : List Binding) (n : Formula) (fns : List HelperFn) : Prop :=
  ∀ {d d' : Draft} {S : Stock} {v : String}, Ready table fns d S → write bs n d = (.ok v, d') →
    ∃ S' lines a, Laid bs n d S d' S' lines a fns ∧ v = a.text

/-- The right operand of `&&` and `||` stands under a guard. -/
theorem lays_logical {op : Operator} {x y : Formula} (hop : op.isLogical = true)
    (hx : Lays table bs x fns) (hy : Lays table bs y fns) : Lays table bs (binary op x y) fns := by
  intro d d' S v hready h
  rw [write] at h
  simp only [hop, if_true] at h
  obtain ⟨v₁, d₁, hleft, hrest⟩ := of_bind_ok h
  obtain ⟨S₁, ls, a, hlaid, rfl⟩ := hx hready hleft
  -- the variable that the value goes to
  obtain ⟨x', d₂, hrun, hrest⟩ := of_bind_ok hrest
  have hdeclare : d₁.declare (.scalar .bool) a.text = (x', d₂) := of_take_ok hrun
  obtain ⟨S₂, hgrows, hindent⟩ := Draft.grows_declare (t := .scalar .bool) (r := .copy a)
    hlaid.grows.pre.holds rfl hlaid.available nofun fns
  rw [Initial.text, hdeclare, hlaid.indent] at hgrows hindent
  have hdeclared := hlaid.grows.trans hgrows
  have hready₂ := hready.after hdeclared
  -- the guard
  obtain ⟨u, d₃, hrun, hrest⟩ := of_bind_ok hrest
  have hguard : (d₂.line (Line.guard (Script.testText (op = .lor) x')).text).indent = d₃ := by
    rw [← of_edit_ok hrun]
    simp [Line.text, Script.testText]
  have hguarded := grows_guard hready₂.holds (Script.testText (op = .lor) x') fns
  rw [hguard, hindent] at hguarded
  have hdepth : d₃.part.indent = d.part.indent + 1 := by
    rw [← hguard]
    exact congrArg (· + 1) hindent
  -- what is guarded
  obtain ⟨w, d₄, hright, hrest⟩ := of_bind_ok hrest
  obtain ⟨S₃, ms, b, hlaid', rfl⟩ := hy (hready₂.after hguarded) hright
  have hlowers := hlaid'.lowers
  rw [hdepth] at hlowers
  have hindent' := hlaid'.indent.trans hdepth
  have hassigned := grows_assign hlaid'.grows.pre.holds hindent' x' hlaid'.available fns
  obtain ⟨u', d₅, hrun, hrest⟩ := of_bind_ok hrest
  have hassign : (d₄.line (Line.assign x' b).text).dedent.line Line.close.text = d₅ := of_edit_ok hrun
  rw [hassign] at hassigned
  have hend : d₅.part.indent = d.part.indent := by
    rw [← hassign]
    show d₄.part.indent - 1 = _
    rw [hindent', Nat.add_sub_cancel]
  have hall := ((hdeclared.trans hguarded).trans hlaid'.grows).trans hassigned
  simp only [List.append_assoc, List.singleton_append] at hall
  obtain ⟨rfl, rfl⟩ := of_pure_ok hrest
  exact ⟨S₃, _, .place x', ⟨hall, hend, .logical hop hlaid.lowers hlowers, nofun⟩, rfl⟩

/-- The operands of other operators are written one after the other. -/
theorem lays_binary {op : Operator} {x y : Formula} (hop : op.isLogical = false)
    (hbs : ∀ t ∈ bs.map (·.type), t.isClean = true) (hsub : (binary op x y).helpers ⊆ fns)
    (hx : Lays table bs x fns) (hy : Lays table bs y fns) : Lays table bs (binary op x y) fns := by
  intro d d' S v hready h
  rw [write] at h
  simp only [hop, Bool.false_eq_true, if_false] at h
  obtain ⟨v₁, d₁, hleft, hrest⟩ := of_bind_ok h
  obtain ⟨S₁, ls, a, hlaid, rfl⟩ := hx hready hleft
  obtain ⟨v₂, d₂, hright, hrest⟩ := of_bind_ok hrest
  obtain ⟨S₂, ms, b, hlaid', rfl⟩ := hy (hready.after hlaid.grows) hright
  have htypes : ∀ u ∈ (Initial.binary op a b).types, u.Available S₂.known S₂.fp64 :=
    List.forall_mem_append.mpr
      ⟨fun u hu => hlaid'.grows.pre.available (hlaid.available u hu), hlaid'.available⟩
  have hboth := hlaid.grows.trans hlaid'.grows
  obtain ⟨t, S₃, ht, hgrows, hindent⟩ := declare_laid (r := .binary op a b)
    (hready.after hboth) hbs hsub htypes nofun hrest
  have hlowers := hlaid'.lowers
  rw [hlaid.indent] at hlowers
  rw [hlaid'.indent, hlaid.indent] at hgrows hindent
  have hall := hboth.trans hgrows
  rw [List.append_assoc] at hall
  exact ⟨S₃, _, .place v, ⟨hall, hindent, .binary hop hlaid.lowers hlowers ht, nofun⟩, rfl⟩

/-- A part for the body of a helper whose name has been taken. -/
def emptyBody (d : Draft) (root : String) : Draft :=
  { (d.helperName root).2 with part := Draft.helperPart }

/-- The draft that the body is written on: its parameters have been declared. -/
def bodyDraft (d : Draft) (root : String) (params : List Ty) : Draft :=
  (helperBindings params).foldl (fun d b => d.inject b.type)
    (helperParams (emptyBody d root) (helperBindings params)).2

theorem define_new {id : Nat} {name : String} {body : Formula} {params : List Ty} {result : Ty}
    (hlookup : d.helper? (.function id) = none)
    (h : define (.mk id root body params result) d = (.ok name, d')) :
    name = (d.helperName root).1 ∧ ∃ value d₁,
      write (helperBindings params) body (bodyDraft d root params) = (.ok value, d₁) ∧
      (({ d₁ with part := d.part }).inject result).addHelper (.function id) name
        ("inline " ++ result.name ++ " " ++ name ++ "(" ++ ", ".intercalate
          (helperParams (emptyBody d root) (helperBindings params)).1 ++ ")\n\x7b\n" ++
          d₁.part.body ++ "    return " ++ value ++ ";\n\x7d\n") = d' := by
  rw [define] at h
  obtain ⟨d₀, d₁, hrun, hrest⟩ := of_bind_ok h
  cases hrun
  simp only [hlookup] at hrest
  obtain ⟨name', d₁, hrun, hrest⟩ := of_bind_ok hrest
  cases hrun
  obtain ⟨d₁, d₂, hrun, hrest⟩ := of_bind_ok hrest
  cases hrun
  obtain ⟨texts, d₃, hrun, hrest⟩ := of_bind_ok hrest
  have hparams : helperParams (emptyBody d root) (helperBindings params) = (texts, d₃) :=
    of_take_ok hrun
  obtain ⟨value, d₄, hvalue, hrest⟩ := of_bind_ok hrest
  obtain ⟨u, d₅, hrun, hrest⟩ := of_bind_ok hrest
  have hadd := of_edit_ok hrun
  obtain ⟨rfl, rfl⟩ := of_pure_ok hrest
  have hinner := of_guarded_ok hvalue (by
    intro c d₁ hcontra
    obtain ⟨u, d₂, -, hthrow⟩ := of_bind_ok hcontra
    cases hthrow)
  obtain ⟨u, d₆, hrun, hinner⟩ := of_bind_ok hinner
  obtain ⟨-, rfl⟩ := of_ofExcept_ok hrun
  obtain ⟨u, d₇, hrun, hwrite⟩ := of_bind_ok hinner
  have hinjects := of_edit_ok hrun
  refine ⟨rfl, value, d₄, ?_, ?_⟩
  · rw [bodyDraft, hparams, ← hwrite, ← hinjects]
  · rw [← hadd, hparams]

/-- The parameters of a helper function are declared before its body is written. -/
theorem bodyDraft_grows (hS : (emptyBody d root).pre.Holds S) {params : List Ty}
    (hparams : ∀ t ∈ params, t.isClean = true) :
    (helperParams (emptyBody d root) (helperBindings params)).1 =
        (helperBindings params).map (fun b => b.type.name ++ " " ++ b.expr) ∧
      (bodyDraft d root params).part.indent = 1 ∧
      ∃ S', (emptyBody d root).Grows S (bodyDraft d root params) S' [] fns ∧
        ∀ t ∈ params, t.Available S'.known S'.fp64 := by
  have hclean : ∀ t ∈ (helperBindings params).map (·.type), t.isClean = true := by
    rw [types_helperBindings]
    exact hparams
  obtain ⟨htexts, hindent, S₁, hdeclared, havail⟩ := helperParams_grows fns hclean hS
  obtain ⟨hindent', S₂, hinjects⟩ := injects_grow fns hclean hdeclared.pre.holds
  rw [types_helperBindings] at havail
  exact ⟨htexts, hindent'.trans hindent, S₂, hdeclared.trans hinjects,
    fun t ht => hinjects.pre.available (havail t ht)⟩

/-- A new helper function: its name is taken, its body is written on a part of its own, and its source
is put after those of the helpers that its body calls. -/
theorem defines_new {id : Nat} {name : String} {body : Formula} {params : List Ty} {result : Ty}
    (hready : Ready table fns d S) (hsub : (HelperFn.mk id root body params result).helpers ⊆ fns)
    (hlookup : d.helper? (.function id) = none)
    (hbody : Lays table (helperBindings params) body body.helpers)
    (h : define (.mk id root body params result) d = (.ok name, d')) :
    ∃ S', d.Grows S d' S' [] fns ∧ d'.part = d.part ∧
      ∃ e ∈ S'.defs, e.Is (.mk id root body params result, name) := by
  obtain ⟨hname, value, d₁, hwrite, rfl⟩ := define_new hlookup h
  have hsub' : body.helpers ⊆ fns := fun fn hfn => hsub (List.mem_cons_of_mem _ hfn)
  have hsound := hready.sound _ (hsub List.mem_cons_self)
  have hclean : ∀ t ∈ params, t.isClean = true := hsound.params
  have hclean' : result.isClean = true := hsound.result
  -- the name, the parameters and the body
  have hnames : d.pre.Grows S (emptyBody d root).pre S body.helpers :=
    hready.holds.names (Draft.taken_fresh_subset root _) _
  have hempty : Ready table body.helpers (emptyBody d root) S :=
    ⟨hnames.holds, fun fn hfn => hready.sound fn (hsub' hfn), hready.defined⟩
  obtain ⟨htexts, hindent, S₂, hparams, havail⟩ :=
    bodyDraft_grows hnames.holds hclean
  obtain ⟨S₃, lines, a, hlaid, rfl⟩ := hbody (hempty.after hparams) hwrite
  have hbody := hparams.trans hlaid.grows
  have hlowers := hlaid.lowers
  rw [hindent] at hlowers
  -- the result
  obtain ⟨S₄, hresult, havail', -⟩ := hbody.pre.holds.inject hclean' body.helpers
  have hgrows := hbody.pre.trans hresult
  -- the definition
  let e : Definition := ⟨.mk id root body params result, name, lines, a⟩
  have htaken : e.name ∈ (emptyBody d root).pre.names.taken := by
    rw [show (emptyBody d root).pre.names.taken = _ from Names.taken_fresh _ root]
    exact hname ▸ List.mem_cons_self
  have hfree : ∀ o ∈ S.defs, o.name ≠ e.name := by
    rintro o ho heq
    refine Names.fresh_notMem d.pre.names root ?_
    rw [show (d.pre.names.fresh root).1 = o.name from (heq.trans hname).symm]
    exact hready.holds.taken o ho
  have hcalls : ∀ c ∈ e.calls, ∃ o ∈ S₄.defs, o.Is c := by
    intro c hc
    obtain ⟨l, hl, hc⟩ := List.mem_flatMap.mp hc
    exact (hresult.fits (hbody.fits l hl)).calls c hc
  have hfollows : e.Follows S₄.defs :=
    follows_of_grows hgrows (fun fn hfn => hready.sound fn (hsub hfn))
      (hready.holds.ne_of_lookup hlookup) hfree htaken hlowers hcalls
  have htypes : ∀ t ∈ e.types, t.Available S₄.known S₄.fp64 := by
    refine List.forall_mem_append.mpr ⟨List.forall_mem_append.mpr ⟨?_, ?_⟩, ?_⟩
    · refine List.forall_mem_cons.mpr ⟨havail', fun t ht => ?_⟩
      exact hresult.available (hlaid.grows.pre.available (havail t ht))
    · intro t ht
      obtain ⟨l, hl, ht⟩ := List.mem_flatMap.mp ht
      exact hresult.available ((hbody.fits l hl).types t ht)
    · exact fun t ht => hresult.available (hlaid.available t ht)
  have hsource : e.source = "inline " ++ result.name ++ " " ++ name ++ "(" ++ ", ".intercalate
      (helperParams (emptyBody d root) (helperBindings params)).1 ++ ")\n\x7b\n" ++
      d₁.part.body ++ "    return " ++ a.text ++ ";\n\x7d\n" := by
    have hempty : (emptyBody d root).part.body = "" := rfl
    rw [htexts, hbody.body, hempty, String.empty_append]
    rfl
  rw [← hsource]
  have hall := hnames.trans hgrows
  obtain ⟨new, hdefs, hnew⟩ := hall.defs
  have hadded : d.pre.Grows S _ { S₄ with defs := e :: S₄.defs } fns :=
    { holds := hgrows.holds.addHelper hfollows (hgrows.taken htaken) htypes
      known := hall.known
      double := hall.double
      taken := hall.taken
      defs := by
        refine ⟨e :: new, congrArg (e :: ·) hdefs, List.forall_mem_cons.mpr
          ⟨⟨hsub List.mem_cons_self, ?_⟩, fun o ho => ⟨hsub' (hnew o ho).1, (hnew o ho).2⟩⟩⟩
        rw [show e.name = _ from hname]
        exact Names.fresh_notMem d.pre.names root }
  refine ⟨_, ⟨hbody.name, rfl, ?_, hadded, List.forall_mem_nil _⟩, rfl, e, List.mem_cons_self, rfl, rfl⟩
  simp [Draft.inject, Draft.addHelper]

mutual

/-- **What is written for a formula** are its lines. -/
theorem write_laid : ∀ {n : Formula} {bs : List Binding} {fns : List HelperFn} {d d' : Draft}
    {S : Stock} {v : String}, Ready table fns d S → (∀ t ∈ bs.map (·.type), t.isClean = true) →
    n.helpers ⊆ fns → write bs n d = (.ok v, d') →
    ∃ S' lines a, Laid bs n d S d' S' lines a fns ∧ v = a.text
  | .missing, bs, fns, d, d', S, v, hready, hbs, hsub, h => by
    rw [write] at h
    cases h
  | .literal type value, bs, fns, d, d', S, v, hready, hbs, hsub, h => by
    rw [write] at h
    cases hlit : Literal.ofHost type value with
    | error e =>
      simp only [hlit] at h
      cases h
    | ok p =>
      obtain ⟨t, src⟩ := p
      have hclean := Ty.isClean_of_isData (Literal.isData_of_ofHost hlit)
      obtain ⟨S', hgrows, havail, -⟩ := Draft.grows_inject hready.holds hclean fns
      simp only [hlit] at h
      cases h
      exact ⟨S', [], .literal t v,
        ⟨hgrows, rfl, .literal hlit, by simpa [Atom.types] using havail⟩, rfl⟩
  | .arg i, bs, fns, d, d', S, v, hready, hbs, hsub, h => by
    rw [write] at h
    obtain ⟨rfl, rfl⟩ := of_pure_ok h
    exact ⟨S, [], .place _, ⟨.refl hready.holds fns, rfl, .arg, nofun⟩, rfl⟩
  | .unary op x, bs, fns, d, d', S, v, hready, hbs, hsub, h => by
    rw [write] at h
    obtain ⟨v₁, d₁, hx, hrest⟩ := of_bind_ok h
    obtain ⟨S₁, ls, a, hlaid, rfl⟩ := write_laid (n := x) hready hbs hsub hx
    obtain ⟨t, S₂, ht, hgrows, hindent⟩ := declare_laid (r := .unary op a)
      (hready.after hlaid.grows) hbs hsub hlaid.available nofun hrest
    rw [hlaid.indent] at hgrows
    exact ⟨S₂, _, .place v, ⟨hlaid.grows.trans hgrows, hindent.trans hlaid.indent,
      .unary hlaid.lowers ht, nofun⟩, rfl⟩
  | .binary op x y, bs, fns, d, d', S, v, hready, hbs, hsub, h => by
    have hsub' : x.helpers ++ y.helpers ⊆ fns := hsub
    rw [List.append_subset] at hsub'
    have hx : Lays table bs x fns := fun hready h => write_laid hready hbs hsub'.1 h
    have hy : Lays table bs y fns := fun hready h => write_laid hready hbs hsub'.2 h
    cases hop : op.isLogical with
    | true => exact lays_logical hop hx hy hready h
    | false => exact lays_binary hop hbs hsub hx hy hready h
  | .call name xs, bs, fns, d, d', S, v, hready, hbs, hsub, h => by
    rw [write] at h
    obtain ⟨vs, d₁, hxs, hrest⟩ := of_bind_ok h
    obtain ⟨S₁, ls, as, hlaid, rfl⟩ := writeAll_laid hready hbs hsub hxs
    obtain ⟨t, S₂, ht, hgrows, hindent⟩ := declare_laid (r := .call name as)
      (hready.after hlaid.grows) hbs hsub hlaid.available nofun hrest
    rw [hlaid.indent] at hgrows
    exact ⟨S₂, _, .place v, ⟨hlaid.grows.trans hgrows, hindent.trans hlaid.indent,
      .call hlaid.lowers ht, nofun⟩, rfl⟩
  | .apply fn xs, bs, fns, d, d', S, v, hready, hbs, hsub, h => by
    rw [write] at h
    have hsub' : fn.helpers ++ allHelpers xs ⊆ fns := hsub
    rw [List.append_subset] at hsub'
    obtain ⟨vs, d₁, hxs, hrest⟩ := of_bind_ok h
    obtain ⟨S₁, ls, as, hlaid, rfl⟩ := writeAll_laid hready hbs hsub'.2 hxs
    obtain ⟨name, d₂, hdefine, hrest⟩ := of_bind_ok hrest
    obtain ⟨S₂, hdefined, hpart, hcall⟩ :=
      define_laid (hready.after hlaid.grows) hsub'.1 hdefine
    have hboth := hlaid.grows.trans hdefined
    rw [List.append_nil] at hboth
    obtain ⟨t, S₃, ht, hgrows, hindent⟩ := declare_laid (r := .apply fn name as)
      (hready.after hboth) hbs hsub (fun u hu => hdefined.pre.available (hlaid.available u hu))
      (List.forall_mem_singleton.mpr hcall) hrest
    rw [hpart, hlaid.indent] at hgrows hindent
    exact ⟨S₃, _, .place v, ⟨hboth.trans hgrows, hindent, .apply hlaid.lowers ht, nofun⟩, rfl⟩
  | .helper fn, bs, fns, d, d', S, v, hready, hbs, hsub, h => by
    rw [write] at h
    obtain ⟨name, d₁, hdefine, hrest⟩ := of_bind_ok h
    obtain ⟨S₁, hdefined, hpart, hcall⟩ := define_laid hready hsub hdefine
    have htexts : (List.range fn.params.length).map (fun (i : Nat) => (bindingAt bs i).expr) =
        ((List.range fn.params.length).map fun (i : Nat) =>
          Atom.place (bindingAt bs i).expr).map Atom.text := by
      rw [List.map_map]
      rfl
    rw [htexts] at hrest
    obtain ⟨t, S₂, ht, hgrows, hindent⟩ := declare_laid (r := .apply fn name _)
      (hready.after hdefined) hbs hsub (by simp [Initial.types, Atom.types])
      (List.forall_mem_singleton.mpr hcall) hrest
    rw [hpart] at hgrows hindent
    exact ⟨S₂, _, .place v, ⟨hdefined.trans hgrows, hindent, .helper ht, nofun⟩, rfl⟩
  | .get index x, bs, fns, d, d', S, v, hready, hbs, hsub, h => by
    rw [write] at h
    cases hfield : fieldBinding? bs index x with
    | some expr =>
      simp only [hfield] at h
      obtain ⟨rfl, rfl⟩ := of_pure_ok h
      exact ⟨S, [], .place _, ⟨.refl hready.holds fns, rfl, .field hfield, nofun⟩, rfl⟩
    | none =>
      simp only [hfield] at h
      obtain ⟨v₁, d₁, hx, hrest⟩ := of_bind_ok h
      obtain ⟨S₁, ls, a, hlaid, rfl⟩ := write_laid (n := x) hready hbs hsub hx
      obtain ⟨s, d₂, hrun, hrest⟩ := of_bind_ok hrest
      obtain ⟨hs, rfl⟩ := of_ofExcept_ok hrun
      rw [hlaid.lowers.operand] at hrest
      obtain ⟨t, S₂, ht, hgrows, hindent⟩ := declare_laid (r := .element a (elementName index s))
        (hready.after hlaid.grows) hbs hsub hlaid.available nofun hrest
      rw [hlaid.indent] at hgrows
      exact ⟨S₂, _, .place v, ⟨hlaid.grows.trans hgrows, hindent.trans hlaid.indent,
        .get hfield hlaid.lowers hs ht, nofun⟩, rfl⟩
  | .set lhs rhs, bs, fns, d, d', S, v, hready, hbs, hsub, h => by
    rw [write] at h
    rw [Formula.helpers, List.append_subset] at hsub
    obtain ⟨v₁, d₁, hrhs, hrest⟩ := of_bind_ok h
    obtain ⟨S₁, ls, a, hlaid, rfl⟩ := write_laid hready hbs hsub.2 hrhs
    obtain ⟨l, d₂, hlhs, hrest⟩ := of_bind_ok hrest
    obtain ⟨rfl, hplace⟩ := place_ok hlhs
    have hfits : (Line.assign l a).Fits S₁ := ⟨hlaid.available, nofun⟩
    have hgrows := Draft.grows_line hlaid.grows.pre.holds hfits fns
    rw [hlaid.indent] at hgrows
    cases hrest
    exact ⟨S₁, _, .place v, ⟨hlaid.grows.trans hgrows, hlaid.indent, .set hlaid.lowers hplace, nofun⟩,
      rfl⟩

theorem writeAll_laid : ∀ {ns : List Formula} {bs : List Binding} {fns : List HelperFn}
    {d d' : Draft} {S : Stock} {vs : List String}, Ready table fns d S →
    (∀ t ∈ bs.map (·.type), t.isClean = true) → allHelpers ns ⊆ fns →
    writeAll bs ns d = (.ok vs, d') →
    ∃ S' lines as, AllLaid bs ns d S d' S' lines as fns ∧ vs = as.map Atom.text
  | [], bs, fns, d, d', S, vs, hready, hbs, hsub, h => by
    rw [writeAll] at h
    obtain ⟨rfl, rfl⟩ := of_pure_ok h
    exact ⟨S, [], [], ⟨.refl hready.holds fns, rfl, .nil, nofun⟩, rfl⟩
  | n :: ns, bs, fns, d, d', S, vs, hready, hbs, hsub, h => by
    rw [writeAll] at h
    rw [allHelpers, List.append_subset] at hsub
    obtain ⟨v, d₁, hn, hrest⟩ := of_bind_ok h
    obtain ⟨S₁, ls, a, hlaid, rfl⟩ := write_laid hready hbs hsub.1 hn
    obtain ⟨vs', d₂, hns, hrest⟩ := of_bind_ok hrest
    obtain ⟨S₂, ms, as, hall, rfl⟩ := writeAll_laid (hready.after hlaid.grows) hbs hsub.2 hns
    obtain ⟨rfl, rfl⟩ := of_pure_ok hrest
    have hlowers := hall.lowers
    rw [hlaid.indent] at hlowers
    refine ⟨S₂, ls ++ ms, a :: as, ⟨hlaid.grows.trans hall.grows, hall.indent.trans hlaid.indent,
      .cons hlaid.lowers hlowers, ?_⟩, rfl⟩
    rw [List.flatMap_cons, List.forall_mem_append]
    exact ⟨fun t ht => hall.grows.pre.available (hlaid.available t ht), hall.available⟩

/-- **A helper function is defined**, after those that its body calls, and the part that it is called
from stays as it is. -/
theorem define_laid : ∀ {fn : HelperFn} {fns : List HelperFn} {d d' : Draft} {S : Stock}
    {name : String}, Ready table fns d S → fn.helpers ⊆ fns → define fn d = (.ok name, d') →
    ∃ S', d.Grows S d' S' [] fns ∧ d'.part = d.part ∧ ∃ e ∈ S'.defs, e.Is (fn, name)
  | .mk id root body params result, fns, d, d', S, name, hready, hsub, h => by
    have hsound := hready.sound _ (hsub List.mem_cons_self)
    cases hlookup : d.helper? (.function id) with
    | some known =>
      rw [define] at h
      obtain ⟨d₀, d₁, hrun, hrest⟩ := of_bind_ok h
      cases hrun
      simp only [hlookup] at hrest
      obtain ⟨rfl, rfl⟩ := of_pure_ok hrest
      obtain ⟨e, he, hid, hname⟩ := hready.holds.mem_of_lookup hlookup
      refine ⟨S, .refl hready.holds fns, rfl, e, he, ?_, hname⟩
      rw [← (hready.defined e he).number, hid]
      exact hsound.number
    | none =>
      have hclean : ∀ t ∈ (helperBindings params).map (·.type), t.isClean = true := by
        rw [types_helperBindings]
        exact hsound.params
      exact defines_new hready hsub hlookup
        (fun hready h => write_laid hready hclean (List.Subset.refl _) h) h

end

/-- Lowering a formula writes its lines, when it gives a result. -/
theorem lower_laid {n : Formula} {v : String} (hready : Ready table fns d S)
    (hbs : ∀ t ∈ bs.map (·.type), t.isClean = true) (hsub : n.helpers ⊆ fns)
    (h : lower bs n d = (.ok v, d')) : ∃ S' lines a, Laid bs n d S d' S' lines a fns ∧ v = a.text := by
  obtain ⟨u, d₁, hrun, hrest⟩ := of_bind_ok h
  obtain ⟨-, rfl⟩ := of_ofExcept_ok hrun
  obtain ⟨u', d₂, hrun, hwrite⟩ := of_bind_ok hrest
  have hinjects : bs.foldl (fun d b => d.inject b.type) d = d₂ := of_edit_ok hrun
  obtain ⟨hindent, S₁, hgrows⟩ := injects_grow fns hbs hready.holds
  rw [hinjects] at hindent hgrows
  obtain ⟨S₂, lines, a, hlaid, hv⟩ := write_laid (hready.after hgrows) hbs hsub hwrite
  have hlowers := hlaid.lowers
  rw [hindent] at hlowers
  exact ⟨S₂, lines, a,
    ⟨hgrows.trans hlaid.grows, hlaid.indent.trans hindent, hlowers, hlaid.available⟩, hv⟩

end

end Formula

end KernelForge
