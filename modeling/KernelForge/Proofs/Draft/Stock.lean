/-
What a preamble has in stock.

Structures, extensions and helper functions are added to a preamble at many places and in the order
in which they happen to be needed.  So it is said here what a preamble has at any time: structures
that can be declared in their order, and helper functions whose text is known line by line, each with
all that its lines name declared, and all that they call defined before it.  Each way of adding
something is shown to keep this, and never to take back what was there.
-/
import KernelForge.Proofs.Draft.Structures
import KernelForge.Proofs.Formula.Lines
import KernelForge.Proofs.Names

namespace KernelForge

/-! ### Types that can be used -/

/-- A type that can be used: the tuples that it is made of are declared, and double precision is
enabled if there is any in it. -/
structure Ty.Available (known : List (List Ty)) (fp64 : Bool) (t : Ty) : Prop where
  structs : t.tuples ⊆ known
  double : t.usesDouble = true → fp64 = true

section
variable {known known' : List (List Ty)} {fp64 fp64' : Bool} {t : Ty}

theorem Ty.Available.mono (h : t.Available known fp64) (hknown : known ⊆ known')
    (hfp64 : fp64 = true → fp64' = true) : t.Available known' fp64' :=
  ⟨fun _ hts => hknown (h.structs hts), fun hdouble => hfp64 (h.double hdouble)⟩

theorem Ty.Known.available (h : t.Known known fp64) (hordered : Ty.Ordered known)
    (ht : t.isData = true) : t.Available known fp64 :=
  ⟨hordered.tuples_subset ht h.struct, h.double⟩

end

namespace Preamble

mutual

/-- Declaring what a type needs is no matter of names and helper functions. -/
theorem inject_with : ∀ (t : Ty) (p : Preamble) (names : Names) (functions : OrderedMap String String)
    (helperNames : List (HelperKey × String)),
    inject { p with names, functions, helperNames } t =
      { p.inject t with names, functions, helperNames }
  | .void, p, _, _, _ => by rw [inject, inject]
  | .scalar s, p, _, _, _ => by rw [inject, inject]; split <;> rfl
  | .vector s w, p, _, _, _ => by rw [inject, inject]; split <;> rfl
  | .pointer t space readOnly, p, _, _, _ => by rw [inject, inject]; exact inject_with t p _ _ _
  | .tuple ts, p, _, _, _ => by
    rw [inject, inject]
    simp only
    split
    · rfl
    · rw [injectAll_with ts p]

theorem injectAll_with : ∀ (ts : List Ty) (p : Preamble) (names : Names)
    (functions : OrderedMap String String) (helperNames : List (HelperKey × String)),
    injectAll { p with names, functions, helperNames } ts =
      { p.injectAll ts with names, functions, helperNames }
  | [], p, _, _, _ => by rw [injectAll, injectAll]
  | t :: ts, p, _, _, _ => by rw [injectAll, injectAll, inject_with t, injectAll_with ts]

end

/-- So these stay as they are. -/
theorem inject_keeps (t : Ty) (p : Preamble) :
    (p.inject t).functions = p.functions ∧ (p.inject t).helperNames = p.helperNames := by
  have h : p.inject t = { p.inject t with
      names := p.names, functions := p.functions, helperNames := p.helperNames } :=
    inject_with t p p.names p.functions p.helperNames
  have hfunctions := congrArg Preamble.functions h
  have hnames := congrArg Preamble.helperNames h
  exact ⟨hfunctions, hnames⟩

variable {p : Preamble} {known : List (List Ty)} {fp64 : Bool}

theorem Declares.provideData {t : Ty} (ht : t.isData = true) (h : p.Declares known fp64) :
    ∃ known' fp64', (p.inject t).Declares known' fp64' ∧ known ⊆ known' ∧
      (fp64 = true → fp64' = true) ∧ t.Available known' fp64' := by
  obtain ⟨known', fp64', h', hsub, hmono, hall⟩ := h.inject ht
  exact ⟨known', fp64', h', hsub, hmono, (hall t List.mem_cons_self).available h'.ordered ht⟩

/-- What a type needs is declared, be it data, a pointer or nothing at all. -/
theorem Declares.provide : ∀ {t : Ty}, t.isClean = true → p.Declares known fp64 →
    ∃ known' fp64', (p.inject t).Declares known' fp64' ∧ known ⊆ known' ∧
      (fp64 = true → fp64' = true) ∧ t.Available known' fp64'
  | .void, _, h => by
    rw [Preamble.inject]
    exact ⟨known, fp64, h, List.Subset.refl _, id, List.nil_subset _, nofun⟩
  | .pointer t space readOnly, ht, h => by
    rw [Ty.isClean] at ht
    rw [Preamble.inject]
    obtain ⟨known', fp64', h', hsub, hmono, havail⟩ := Declares.provide ht h
    exact ⟨known', fp64', h', hsub, hmono, havail.structs, havail.double⟩
  | .scalar _, ht, h => h.provideData (Ty.isData_of_isClean ht nofun nofun)
  | .vector _ _, ht, h => h.provideData (Ty.isData_of_isClean ht nofun nofun)
  | .tuple _, ht, h => h.provideData (Ty.isData_of_isClean ht nofun nofun)

end Preamble

/-! ### Helper functions -/

/-- A helper function that has been defined: its name, the lines of its body and what it returns. -/
structure Definition where
  fn : HelperFn
  name : String
  lines : List (Nat × Line)
  value : Atom

namespace Definition

/-- The parameters as they are declared. -/
def paramTexts (d : Definition) : List String :=
  (Formula.helperBindings d.fn.params).map fun b => b.type.name ++ " " ++ b.expr

def source (d : Definition) : String :=
  "inline " ++ d.fn.result.name ++ " " ++ d.name ++ "(" ++ ", ".intercalate d.paramTexts ++
    ")\n\x7b\n" ++ Line.texts d.lines ++ "    return " ++ d.value.text ++ ";\n\x7d\n"

/-- The types that the source names. -/
def types (d : Definition) : List Ty :=
  d.fn.result :: d.fn.params ++ (d.lines.flatMap fun l => l.2.types) ++ d.value.types

/-- The helper functions that the source calls. -/
def calls (d : Definition) : List (HelperFn × String) := d.lines.flatMap fun l => l.2.calls

/-- Tests whether a definition is that of a function under a name. -/
def Is (d : Definition) (c : HelperFn × String) : Prop := d.fn = c.1 ∧ d.name = c.2

end Definition

/-- What there is to use: structures and helper functions, the last ones first, and perhaps double
precision. -/
structure Stock where
  known : List (List Ty)
  fp64 : Bool
  defs : List Definition

/-- A line that names and calls what there is. -/
structure Line.Fits (S : Stock) (l : Line) : Prop where
  types : ∀ t ∈ l.types, t.Available S.known S.fp64
  calls : ∀ c ∈ l.calls, ∃ d ∈ S.defs, d.Is c

/-- A definition that can come after others: its lines are those of its body, it calls only the
others, and neither its number nor its name is one of theirs. -/
structure Definition.Follows (older : List Definition) (d : Definition) : Prop where
  lowers : Formula.Lowers (Formula.helperBindings d.fn.params) 1 d.fn.body d.lines d.value
  calls : ∀ c ∈ d.calls, ∃ e ∈ older, e.Is c
  number : ∀ e ∈ older, e.fn.id ≠ d.fn.id
  name : ∀ e ∈ older, e.name ≠ d.name

/-- Helper functions in an order in which they can be defined, the last one first. -/
inductive Definition.Ordered : List Definition → Prop
  | nil : Ordered []
  | cons {d : Definition} {older : List Definition} (holder : Ordered older)
      (hd : d.Follows older) : Ordered (d :: older)

/-- What a preamble has in stock. -/
structure Preamble.Holds (p : Preamble) (S : Stock) : Prop where
  declares : Preamble.Declares { p with functions := {} } S.known S.fp64
  functions : p.functions.entries = S.defs.reverse.map fun d => (d.name, d.source)
  helperNames : p.helperNames = S.defs.map fun d => (.function d.fn.id, d.name)
  taken : ∀ d ∈ S.defs, d.name ∈ p.names.taken
  ordered : Definition.Ordered S.defs
  available : ∀ d ∈ S.defs, ∀ t ∈ d.types, t.Available S.known S.fp64

theorem Preamble.holds_empty (names : Names) : Preamble.Holds { names } ⟨[], false, []⟩ :=
  ⟨⟨rfl, rfl, rfl, .nil, nofun⟩, rfl, rfl, nofun, .nil, nofun⟩

/-! ### Growth -/

/-- A preamble after something has been added: nothing is gone, and the helpers that are new are some
of those that were asked for, under names that nobody had. -/
structure Preamble.Grows (p : Preamble) (S : Stock) (p' : Preamble) (S' : Stock)
    (fns : List HelperFn) : Prop where
  holds : p'.Holds S'
  known : S.known ⊆ S'.known
  double : S.fp64 = true → S'.fp64 = true
  taken : p.names.taken ⊆ p'.names.taken
  defs : ∃ new, S'.defs = new ++ S.defs ∧ ∀ d ∈ new, d.fn ∈ fns ∧ d.name ∉ p.names.taken

namespace Preamble

variable {p p₁ p₂ : Preamble} {S S₁ S₂ : Stock} {fns : List HelperFn}

theorem Holds.refl (h : p.Holds S) (fns : List HelperFn) : p.Grows S p S fns :=
  ⟨h, List.Subset.refl _, id, List.Subset.refl _, [], rfl, nofun⟩

theorem Grows.trans (h₁ : p.Grows S p₁ S₁ fns) (h₂ : p₁.Grows S₁ p₂ S₂ fns) :
    p.Grows S p₂ S₂ fns := by
  obtain ⟨new₁, hdefs₁, hnew₁⟩ := h₁.defs
  obtain ⟨new₂, hdefs₂, hnew₂⟩ := h₂.defs
  refine ⟨h₂.holds, fun _ h => h₂.known (h₁.known h), fun h => h₂.double (h₁.double h),
    fun _ h => h₂.taken (h₁.taken h), new₂ ++ new₁, ?_, ?_⟩
  · rw [hdefs₂, hdefs₁, List.append_assoc]
  · refine List.forall_mem_append.mpr ⟨fun d hd => ?_, hnew₁⟩
    exact ⟨(hnew₂ d hd).1, fun hmem => (hnew₂ d hd).2 (h₁.taken hmem)⟩

/-- Definitions stay. -/
theorem Grows.mem (h : p.Grows S p₁ S₁ fns) {d : Definition} (hd : d ∈ S.defs) : d ∈ S₁.defs := by
  obtain ⟨new, hdefs, -⟩ := h.defs
  rw [hdefs]
  exact List.mem_append_right _ hd

/-- Whatever is true of the helpers asked for stays true of all that are defined. -/
theorem Grows.sound {table : Nat → HelperFn} (h : p.Grows S p₁ S₁ fns)
    (hfns : ∀ fn ∈ fns, fn.Sound table) (hS : ∀ x ∈ S.defs, x.fn.Sound table) :
    ∀ x ∈ S₁.defs, x.fn.Sound table := by
  obtain ⟨new, hdefs, hnew⟩ := h.defs
  rw [hdefs]
  exact List.forall_mem_append.mpr ⟨fun x hx => hfns _ (hnew x hx).1, hS⟩

theorem Grows.available (h : p.Grows S p₁ S₁ fns) {t : Ty} (ht : t.Available S.known S.fp64) :
    t.Available S₁.known S₁.fp64 :=
  ht.mono h.known h.double

theorem Grows.fits (h : p.Grows S p₁ S₁ fns) {l : Line} (hl : l.Fits S) : l.Fits S₁ where
  types := fun t ht => h.available (hl.types t ht)
  calls := fun c hc => by
    obtain ⟨d, hd, his⟩ := hl.calls c hc
    exact ⟨d, h.mem hd, his⟩

theorem Holds.names (h : p.Holds S) {names : Names} (hsub : p.names.taken ⊆ names.taken)
    (fns : List HelperFn) : p.Grows S { p with names } S fns where
  holds := ⟨⟨h.declares.structs, h.declares.extensions, rfl, h.declares.ordered, h.declares.double⟩,
    h.functions, h.helperNames, fun d hd => hsub (h.taken d hd), h.ordered, h.available⟩
  known := List.Subset.refl _
  double := id
  taken := hsub
  defs := ⟨[], rfl, nofun⟩

/-- The needs of a type are declared. -/
theorem Holds.inject (h : p.Holds S) {t : Ty} (ht : t.isClean = true) (fns : List HelperFn) :
    ∃ S', p.Grows S (p.inject t) S' fns ∧ t.Available S'.known S'.fp64 ∧ S'.defs = S.defs := by
  obtain ⟨known, fp64, hdeclares, hsub, hmono, havail⟩ := h.declares.provide ht
  have hwith := inject_with t p p.names {} p.helperNames
  obtain ⟨hfunctions, hnames⟩ := inject_keeps t p
  refine ⟨⟨known, fp64, S.defs⟩, ⟨⟨?_, ?_, ?_, ?_, h.ordered, ?_⟩, hsub, hmono, ?_, [], rfl, nofun⟩,
    havail, rfl⟩
  · have hdeclares' : Declares { p.inject t with
        names := p.names, functions := {}, helperNames := p.helperNames } known fp64 := hwith ▸ hdeclares
    exact ⟨hdeclares'.structs, hdeclares'.extensions, rfl, hdeclares'.ordered, hdeclares'.double⟩
  · rw [hfunctions]
    exact h.functions
  · rw [hnames]
    exact h.helperNames
  · intro d hd
    rw [names_inject]
    exact h.taken d hd
  · exact fun d hd t ht => (h.available d hd t ht).mono hsub hmono
  · rw [names_inject]
    exact List.Subset.refl _

theorem Holds.enable (h : p.Holds S) : (p.enable Draft.doubleExtension).Holds { S with fp64 := true } :=
  ⟨h.declares.enable, h.functions, h.helperNames, h.taken, h.ordered,
    fun d hd t ht => (h.available d hd t ht).mono (List.Subset.refl _) fun _ => rfl⟩

/-- A helper function is found by its number. -/
theorem Holds.mem_of_lookup (h : p.Holds S) {id : Nat} {name : String}
    (hlookup : p.helperNames.lookup (.function id) = some name) :
    ∃ d ∈ S.defs, d.fn.id = id ∧ d.name = name := by
  have hmem := KernelForge.mem_of_lookup hlookup
  rw [h.helperNames] at hmem
  obtain ⟨d, hd, heq⟩ := List.mem_map.mp hmem
  cases heq
  exact ⟨d, hd, rfl, rfl⟩

theorem Holds.ne_of_lookup (h : p.Holds S) {id : Nat}
    (hlookup : p.helperNames.lookup (.function id) = none) : ∀ d ∈ S.defs, d.fn.id ≠ id := by
  rw [h.helperNames, lookup_eq_none] at hlookup
  rintro d hd rfl
  exact hlookup (by simpa using ⟨d, hd, rfl⟩)

/-- A definition that can come next is added. -/
theorem Holds.addHelper (h : p.Holds S) {d : Definition} (hd : d.Follows S.defs)
    (htaken : d.name ∈ p.names.taken) (htypes : ∀ t ∈ d.types, t.Available S.known S.fp64) :
    Holds { p with
      functions := (p.functions.insert d.name d.source).2
      helperNames := (.function d.fn.id, d.name) :: p.helperNames } { S with defs := d :: S.defs } := by
  have hnone : p.functions.index? d.name = none := by
    rw [OrderedMap.index?, List.findIdx?_eq_none_iff, h.functions]
    intro e he
    obtain ⟨d', hd', rfl⟩ := List.mem_map.mp he
    simpa using hd.name d' (List.mem_reverse.mp hd')
  refine ⟨⟨h.declares.structs, h.declares.extensions, rfl, h.declares.ordered, h.declares.double⟩, ?_,
    ?_, List.forall_mem_cons.mpr ⟨htaken, h.taken⟩, .cons h.ordered hd,
    List.forall_mem_cons.mpr ⟨htypes, h.available⟩⟩
  · rw [OrderedMap.insert, hnone]
    simp [h.functions]
  · simp [h.helperNames]

end Preamble

/-! ### Drafts -/

/-- A draft after some lines have been written. -/
structure Draft.Grows (d : Draft) (S : Stock) (d' : Draft) (S' : Stock) (lines : List (Nat × Line))
    (fns : List HelperFn) : Prop where
  name : d'.name = d.name
  args : d'.part.args = d.part.args
  body : d'.part.body = d.part.body ++ Line.texts lines
  pre : d.pre.Grows S d'.pre S' fns
  fits : ∀ l ∈ lines, l.2.Fits S'

namespace Draft

variable {d d₁ d₂ : Draft} {S S₁ S₂ : Stock} {ls ms : List (Nat × Line)} {fns : List HelperFn}

theorem Grows.refl (h : d.pre.Holds S) (fns : List HelperFn) : d.Grows S d S [] fns :=
  ⟨rfl, rfl, by simp, h.refl fns, List.forall_mem_nil _⟩

theorem Grows.trans (h₁ : d.Grows S d₁ S₁ ls fns) (h₂ : d₁.Grows S₁ d₂ S₂ ms fns) :
    d.Grows S d₂ S₂ (ls ++ ms) fns where
  name := h₂.name.trans h₁.name
  args := h₂.args.trans h₁.args
  body := by rw [h₂.body, h₁.body, Line.texts_append, String.append_assoc]
  pre := h₁.pre.trans h₂.pre
  fits := List.forall_mem_append.mpr ⟨fun l hl => h₂.pre.fits (h₁.fits l hl), h₂.fits⟩

theorem grows_withNames {α : Type} (h : d.pre.Holds S) {take : Names → α × Names}
    (htake : ∀ ns, ns.taken ⊆ (take ns).2.taken) (fns : List HelperFn) :
    d.Grows S (d.withNames take).2 S [] fns ∧ (d.withNames take).2.part.indent = d.part.indent := by
  unfold withNames
  split
  · exact ⟨⟨rfl, rfl, by simp, h.refl fns, List.forall_mem_nil _⟩, rfl⟩
  · exact ⟨⟨rfl, rfl, by simp, h.names (htake _) fns, List.forall_mem_nil _⟩, rfl⟩

theorem grows_inject (h : d.pre.Holds S) {t : Ty} (ht : t.isClean = true) (fns : List HelperFn) :
    ∃ S', d.Grows S (d.inject t) S' [] fns ∧ t.Available S'.known S'.fp64 ∧ S'.defs = S.defs := by
  obtain ⟨S', hgrows, havail, hdefs⟩ := h.inject ht fns
  exact ⟨S', ⟨rfl, rfl, by simp [inject], hgrows, List.forall_mem_nil _⟩, havail, hdefs⟩

theorem grows_line (h : d.pre.Holds S) {l : Line} (hl : l.Fits S) (fns : List HelperFn) :
    d.Grows S (d.line l.text) S [(d.part.indent, l)] fns :=
  ⟨rfl, rfl, by simp [line, append, Script.lineText], h.refl fns, by simpa using hl⟩

theorem taken_indexed_subset (root : String) (ns : Names) :
    ns.taken ⊆ (ns.indexed root).2.taken := by
  rw [Names.taken_indexed]
  exact List.subset_cons_self ..

theorem taken_fresh_subset (root : String) (ns : Names) : ns.taken ⊆ (ns.fresh root).2.taken := by
  rw [Names.taken_fresh]
  exact List.subset_cons_self ..

theorem taken_register_subset (name : String) (ns : Names) :
    ns.taken ⊆ (ns.register name).2.taken := by
  unfold Names.register
  split
  · exact List.Subset.refl _
  · exact List.subset_cons_self ..

/-- A variable is declared with a value that fits. -/
theorem grows_declare (h : d.pre.Holds S) {t : Ty} (ht : t.isClean = true) {r : Initial}
    (htypes : ∀ u ∈ r.types, u.Available S.known S.fp64)
    (hcalls : ∀ c ∈ r.calls, ∃ e ∈ S.defs, e.Is c) (fns : List HelperFn) :
    ∃ S', d.Grows S (d.declare t r.text).2 S'
        [(d.part.indent, .declare t (d.declare t r.text).1 r)] fns ∧
      (d.declare t r.text).2.part.indent = d.part.indent := by
  obtain ⟨hnames, hindent⟩ := grows_withNames h (taken_indexed_subset "_v") fns
  obtain ⟨S', hinject, havail, hdefs⟩ := grows_inject hnames.pre.holds ht fns
  have hfits : (Line.declare t (d.indexed "_v").1 r).Fits S' := by
    refine ⟨List.forall_mem_cons.mpr ⟨havail, fun u hu => hinject.pre.available (htypes u hu)⟩, ?_⟩
    intro c hc
    rw [hdefs]
    exact hcalls c hc
  have hline := grows_line hinject.pre.holds hfits fns
  have hall := (hnames.trans hinject).trans hline
  have hdepth : ((d.withNames (·.indexed "_v")).2.inject t).part.indent = d.part.indent := hindent
  rw [hdepth] at hall
  exact ⟨S', hall, hindent⟩

end Draft

end KernelForge
