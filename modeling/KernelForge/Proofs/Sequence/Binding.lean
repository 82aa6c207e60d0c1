/-
Cursors in kernels.

A cursor is bound by giving each of its buffers an argument, unless the buffer has one already, and by
naming the element of each buffer at an index.  The name of an argument is settled when the buffer is
first met; later arguments only come after it.  So whatever else is bound, what is written for a cursor
is found by looking the names up among the arguments in the end.

For the device an element of a buffer is a place, and several of them taken together are a value: a
structure that is made of them.
-/
import KernelForge.Proofs.Formula.Accepting
import KernelForge.Proofs.Sequence.Ranges

namespace KernelForge

open Code.Scope (isQualifier)

/-! ### What cursors are written as -/

namespace Cursor

mutual

/-- The elements of buffers that a cursor takes together, with their positions. -/
def elements : Cursor → List (TypedBuffer × Int)
  | element b index => [(b, index)]
  | zip cs => allElements cs

def allElements : List Cursor → List (TypedBuffer × Int)
  | [] => []
  | c :: cs => c.elements ++ allElements cs

end

mutual

/-- The element at an index, where the arguments of the buffers have some names. -/
def snippet (names : Nat → String) (i : String) : Cursor → Snippet
  | element b index => .element (names b.buffer) ((Snippet.name i).shifted index.toNat)
  | zip cs => .compound (zip cs).ty.name (snippets names i cs)

def snippets (names : Nat → String) (i : String) : List Cursor → List Snippet
  | [] => []
  | c :: cs => c.snippet names i :: snippets names i cs

end

/-- What a placeholder for the element is written as. -/
def referent (names : Nat → String) (i : String) : Cursor → Referent
  | element b index => { type := b.elem, whole := (element b index).snippet names i }
  | zip cs => { type := (zip cs).ty, whole := (zip cs).snippet names i, fields := snippets names i cs }

/-- Tests whether the cursor stands at an element of a single buffer. -/
def isElement : Cursor → Bool
  | element _ _ => true
  | zip _ => false

/-- Tests whether what a formula names is a place for the device.  Only the fields of the outermost
cursor are elements of their own, and those among them that are zips again are not. -/
def keeps : Cursor → Formula → Bool
  | element _ _, _ => true
  | zip cs, .get index (.arg _) => (cs[index.toNat]?).any isElement
  | zip cs, .get _ x => (zip cs).keeps x
  | zip _, _ => false

variable {c : Cursor} {cs : List Cursor} {names : Nat → String} {i : String}

@[simp] theorem referent_type (c : Cursor) : (c.referent names i).type = c.ty := by
  cases c <;> rw [referent, ty]

@[simp] theorem referent_whole (c : Cursor) : (c.referent names i).whole = c.snippet names i := by
  cases c <;> rw [referent]

theorem length_tys : ∀ cs : List Cursor, (tys cs).length = cs.length
  | [] => rfl
  | c :: cs => by rw [tys, List.length_cons, List.length_cons, length_tys cs]

theorem length_snippets : ∀ cs : List Cursor, (snippets names i cs).length = cs.length
  | [] => rfl
  | c :: cs => by rw [snippets, List.length_cons, List.length_cons, length_snippets cs]

theorem eq_nil_of_snippets (h : snippets names i cs = []) : cs = [] := by
  rw [← List.length_eq_zero_iff, ← @length_snippets names i, h]
  rfl

theorem getElem?_snippets : ∀ (cs : List Cursor) (k : Nat),
    (snippets names i cs)[k]? = (cs[k]?).map (snippet names i)
  | [], _ => rfl
  | c :: cs, 0 => by rw [snippets]; rfl
  | c :: cs, k + 1 => by rw [snippets, List.getElem?_cons_succ, List.getElem?_cons_succ, getElem?_snippets cs]

theorem elements_subset (h : c ∈ cs) : c.elements ⊆ allElements cs := by
  induction cs with
  | nil => cases h
  | cons c' cs ih =>
    rw [allElements]
    rcases List.mem_cons.mp h with rfl | h
    · exact List.subset_append_left _ _
    · exact List.subset_append_of_subset_right _ (ih h)

theorem getElem?_tys : ∀ (cs : List Cursor) (k : Nat), (tys cs)[k]? = (cs[k]?).map ty
  | [], _ => rfl
  | c :: cs, 0 => by rw [tys]; rfl
  | c :: cs, k + 1 => by rw [tys, List.getElem?_cons_succ, List.getElem?_cons_succ, getElem?_tys cs]

theorem apt_referent (hdata : c.ty.isData = true) : (c.referent names i).Apt where
  data := by rw [referent_type]; exact hdata
  fields := by
    cases c with
    | element _ _ => exact .inl rfl
    | zip cs => exact .inr ⟨tys cs, by rw [referent_type, ty], (length_tys cs).trans (length_snippets cs).symm⟩

end Cursor

/-! ### Drafts whose arguments are buffers -/

/-- The argument for a buffer of elements of type `τ n` that can be changed. -/
def DraftArg.ofBuffer (τ : Nat → Ty) (k n : Nat) : DraftArg where
  name := Names.indexedName "_buf" k
  type := .pointer (τ n) .global false
  buffer? := some n

theorem Names.isIdent_buffer (k : Nat) : isIdent (indexedName "_buf" k) = true := by
  rw [isIdent, Bool.and_eq_true]
  exact ⟨isWord_indexedName (by decide) _, decide_eq_true (word_indexedName _ _)⟩

theorem DraftArg.usable_ofBuffer {τ : Nat → Ty} {n : Nat} (h : (τ n).isData = true) (k : Nat) :
    (DraftArg.ofBuffer τ k n).Usable where
  ident := Names.isIdent_buffer k
  unqualified := Names.isQualifier_indexedName _ _
  data := h
  shared := by
    rintro t space readOnly ⟨⟩
    exact .inl rfl

theorem Names.leadsPlace_buffer (k : Nat) : LeadsPlace (indexedName "_buf" k) where
  plain := isQualifier_indexedName _ _
  noType := Ty.isTypeName_underscore (by rw [indexedName, String.toList_append]; rfl)
  noStruct := fun ts => Ty.name_tuple_ne ts (by rw [indexedName, String.toList_append]; rfl)
  noLoop := indexedName_ne (by decide)

namespace Draft

/-- A kernel whose arguments are buffers, one for each, viewed as buffers of elements of type `τ`. -/
structure Buffered (τ : Nat → Ty) (d : Draft) : Prop where
  kernel : d.part.own? = none
  declares : ∃ known fp64, d.pre.Declares known fp64 ∧ ∀ a ∈ d.part.args, a.elem.Known known fp64
  args : ∀ a ∈ d.part.args, ∃ k n, a = .ofBuffer τ k n ∧ (τ n).isData = true
  taken : ∀ a ∈ d.part.args, a.name ∈ d.pre.names.taken
  distinct : (d.part.args.map (·.name)).Nodup
  single : (d.part.args.map (·.buffer?)).Nodup

/-- A draft after some arguments have been added. -/
structure Gains (d d' : Draft) : Prop where
  name : d'.name = d.name
  body : d'.part.body = d.part.body
  indent : d'.part.indent = d.part.indent
  args : d.part.args ⊆ d'.part.args
  taken : d.pre.names.taken ⊆ d'.pre.names.taken

variable {τ : Nat → Ty} {d d' d'' : Draft} {t : Ty} {n : Nat}

theorem gains_refl (d : Draft) : d.Gains d := ⟨rfl, rfl, rfl, fun _ h => h, fun _ h => h⟩

theorem Gains.trans (h : d.Gains d') (h' : d'.Gains d'') : d.Gains d'' :=
  ⟨h'.name.trans h.name, h'.body.trans h.body, h'.indent.trans h.indent, fun _ hx => h'.args (h.args hx),
    fun _ hx => h'.taken (h.taken hx)⟩

theorem gains_inject (d : Draft) (t : Ty) : d.Gains (d.inject t) where
  name := rfl
  body := rfl
  indent := rfl
  args := fun _ h => h
  taken := by
    show _ ⊆ (d.pre.inject t).names.taken
    rw [Preamble.names_inject]
    exact fun _ h => h

theorem Buffered.inject (h : d.Buffered τ) (ht : t.isData = true) : (d.inject t).Buffered τ where
  kernel := h.kernel
  declares := by
    obtain ⟨known, fp64, hdeclares, hargs⟩ := h.declares
    obtain ⟨known', fp64', hdeclares', hsub, hmono, -⟩ := hdeclares.inject ht
    exact ⟨known', fp64', hdeclares', fun a ha => (hargs a ha).mono hsub hmono⟩
  args := h.args
  taken := fun a ha => (gains_inject d t).taken (h.taken a ha)
  distinct := h.distinct
  single := h.single

/-- A buffer that has an argument keeps it. -/
theorem Buffered.register_again (h : d.Buffered τ) {slot : Nat}
    (hslot : d.part.args.findIdx? (fun a => a.buffer? = some n) = some slot) :
    ∃ a ∈ d.part.args, a.buffer? = some n ∧ d.register n (τ n) false = ((a.name, slot), d) := by
  obtain ⟨hlt, hbuffer, -⟩ := List.findIdx?_eq_some_iff_getElem.mp hslot
  have hbuffer := of_decide_eq_true hbuffer
  have hmem := List.getElem_mem hlt
  refine ⟨d.part.args[slot], hmem, hbuffer, ?_⟩
  obtain ⟨k, m, harg, -⟩ := h.args _ hmem
  have hget : d.part.args.getD slot default = d.part.args[slot] := by
    rw [List.getD_eq_getElem?_getD, List.getElem?_eq_getElem hlt]
    rfl
  have hsame : { d.part.args[slot] with type := writable d.part.args[slot].type } = d.part.args[slot] := by
    rw [harg]
    rfl
  rw [register, hslot]
  simp only [hget, hsame, List.set_getElem_self, Bool.false_eq_true, if_false]

/-- A buffer that has none gets one, under a name that was not taken. -/
theorem Buffered.register_new (h : d.Buffered τ) (ht : (τ n).isData = true)
    (hslot : d.part.args.findIdx? (fun a => a.buffer? = some n) = none) :
    (d.register n (τ n) false).2.Buffered τ ∧ d.Gains (d.register n (τ n) false).2 ∧
      ∃ a ∈ (d.register n (τ n) false).2.part.args, a.buffer? = some n ∧
        a.name = (d.register n (τ n) false).1.1 := by
  let k := d.pre.names.freeIndex "_buf" d.pre.names.taken.length (d.pre.names.nextIndex "_buf")
  let a := DraftArg.ofBuffer τ k n
  let d₁ := { d with pre := { d.pre with names := (d.pre.names.indexed "_buf").2 } }
  have hregister : d.register n (τ n) false =
      ((a.name, d.part.args.length), ((d₁.inject (τ n)).pushArg a).2) := by
    rw [register, hslot]
    simp only [indexed_eq h.kernel]
    rfl
  have hfree : a.name ∉ d.pre.names.taken := Names.indexed_notMem _ _
  have hnobuffer : ∀ b ∈ d.part.args, b.buffer? ≠ some n := fun b hb =>
    of_decide_eq_false (List.findIdx?_eq_none_iff.mp hslot b hb)
  have htaken : (d₁.inject (τ n)).pre.names.taken = a.name :: d.pre.names.taken := by
    show (d₁.pre.inject (τ n)).names.taken = _
    rw [Preamble.names_inject]
    rfl
  obtain ⟨known, fp64, hdeclares, hargs⟩ := h.declares
  have hdeclares₁ : d₁.pre.Declares known fp64 :=
    ⟨hdeclares.structs, hdeclares.extensions, hdeclares.functions, hdeclares.ordered, hdeclares.double⟩
  obtain ⟨known', fp64', hdeclares', hsub, hmono, hknown⟩ := hdeclares₁.inject ht
  rw [hregister]
  refine ⟨?buffered, ?gains, a, List.mem_append_right _ List.mem_cons_self, rfl, rfl⟩
  case gains =>
    exact {
      name := rfl
      body := rfl
      indent := rfl
      args := List.subset_append_left _ _
      taken := by
        show _ ⊆ (d₁.inject (τ n)).pre.names.taken
        rw [htaken]
        exact List.subset_cons_self .. }
  case buffered =>
    exact {
      kernel := h.kernel
      declares := ⟨known', fp64', hdeclares', List.forall_mem_append.mpr
        ⟨fun b hb => (hargs b hb).mono hsub hmono,
          List.forall_mem_singleton.mpr (hknown _ List.mem_cons_self)⟩⟩
      args := List.forall_mem_append.mpr ⟨h.args, List.forall_mem_singleton.mpr ⟨k, n, rfl, ht⟩⟩
      taken := by
        show ∀ b ∈ d.part.args ++ [a], b.name ∈ (d₁.inject (τ n)).pre.names.taken
        rw [htaken]
        exact List.forall_mem_append.mpr ⟨fun b hb => List.mem_cons_of_mem _ (h.taken b hb),
          List.forall_mem_singleton.mpr List.mem_cons_self⟩
      distinct := by
        show ((d.part.args ++ [a]).map (·.name)).Nodup
        rw [List.map_append]
        refine h.distinct.append (List.nodup_singleton _) ?_
        rw [List.map_singleton, List.disjoint_singleton]
        intro hmem
        obtain ⟨b, hb, hname⟩ := List.mem_map.mp hmem
        exact hfree (hname ▸ h.taken b hb)
      single := by
        show ((d.part.args ++ [a]).map (·.buffer?)).Nodup
        rw [List.map_append]
        refine h.single.append (List.nodup_singleton _) ?_
        rw [List.map_singleton, List.disjoint_singleton]
        intro hmem
        obtain ⟨b, hb, hbuffer⟩ := List.mem_map.mp hmem
        exact hnobuffer b hb hbuffer }

/-- **Registering a buffer** gives the name of its argument. -/
theorem Buffered.register (h : d.Buffered τ) (ht : (τ n).isData = true) :
    (d.register n (τ n) false).2.Buffered τ ∧ d.Gains (d.register n (τ n) false).2 ∧
      ∃ a ∈ (d.register n (τ n) false).2.part.args, a.buffer? = some n ∧
        a.name = (d.register n (τ n) false).1.1 := by
  cases hslot : d.part.args.findIdx? (fun a => a.buffer? = some n) with
  | none => exact h.register_new ht hslot
  | some slot =>
    obtain ⟨a, ha, hbuffer, hregister⟩ := h.register_again hslot
    rw [hregister]
    exact ⟨h, gains_refl d, a, ha, hbuffer, rfl⟩

end Draft

/-! ### Binding -/

/-- The buffers among the arguments have some names. -/
def DraftArg.Named (names : Nat → String) (args : List DraftArg) : Prop :=
  ∀ a ∈ args, ∀ n, a.buffer? = some n → names n = a.name

theorem DraftArg.Named.mono {names : Nat → String} {args args' : List DraftArg} (h : Named names args')
    (hsub : args ⊆ args') : Named names args := fun a ha => h a (hsub ha)

namespace Cursor

open DraftArg (Named)

/-- An element at a place of its buffer, which is viewed as one of elements of type `τ`. -/
structure Viewed (τ : Nat → Ty) (e : TypedBuffer × Int) : Prop where
  elem : e.1.elem = τ e.1.buffer
  position : 0 ≤ e.2 ∧ e.2 < 2 ^ 63

/-- A draft in which some elements have been bound. -/
structure Binds (τ : Nat → Ty) (d : Draft) (es : List (TypedBuffer × Int)) (d' : Draft) : Prop where
  buffered : d'.Buffered τ
  gains : d.Gains d'
  registered : ∀ e ∈ es, ∃ a ∈ d'.part.args, a.buffer? = some e.1.buffer

variable {τ : Nat → Ty} {i : String} {names : Nat → String}

theorem binds_nothing {d : Draft} (hd : d.Buffered τ) : Binds τ d [] d :=
  ⟨hd, d.gains_refl, nofun⟩

theorem Binds.append {d d' d'' : Draft} {es fs : List (TypedBuffer × Int)} (h : Binds τ d es d')
    (h' : Binds τ d' fs d'') : Binds τ d (es ++ fs) d'' := by
  refine ⟨h'.buffered, h.gains.trans h'.gains, List.forall_mem_append.mpr ⟨fun e he => ?_, h'.registered⟩⟩
  obtain ⟨a, ha, hbuffer⟩ := h.registered e he
  exact ⟨a, h'.gains.args ha, hbuffer⟩

theorem text_element (b : TypedBuffer) {index : Int} (hindex : 0 ≤ index) :
    ((element b index).snippet names i).text =
      names b.buffer ++ "[" ++ i ++ (if index = 0 then "" else "+" ++ toString index) ++ "]" := by
  obtain ⟨n, rfl⟩ := Int.eq_ofNat_of_zero_le hindex
  have hzero : ((n : Int) = 0) = (n = 0) := by simp
  rw [snippet, Snippet.element, Snippet.text_shifted, Int.toNat_natCast]
  simp only [hzero, Snippet.name, String.append_assoc]
  rfl

mutual

/-- **A cursor is bound to what is written for it**, whatever names its buffers have in the end. -/
theorem binds_bind : ∀ {c : Cursor} {d : Draft}, c.ty.isData = true →
    (∀ e ∈ c.elements, Viewed τ e) → d.Buffered τ →
      Binds τ d c.elements (c.bind d i false).2 ∧ (Named names (c.bind d i false).2.part.args →
        (c.bind d i false).1 = (c.referent names i).binding)
  | .element b index, d, hdata, hviewed, hd => by
    obtain ⟨helem, hindex, -⟩ := hviewed _ (by rw [elements]; exact List.mem_cons_self)
    rw [ty, helem] at hdata
    obtain ⟨hbuffered, hgains, a, ha, hbuffer, hname⟩ := hd.register hdata
    rw [← helem] at hbuffered hgains ha hname
    rw [elements, bind]
    refine ⟨⟨hbuffered, hgains, List.forall_mem_singleton.mpr ⟨a, ha, hbuffer⟩⟩, fun hnames => ?_⟩
    simp only [referent, Referent.binding, text_element b hindex, hnames a ha _ hbuffer, hname,
      List.map_nil]
  | .zip cs, d, hdata, hviewed, hd => by
    have hall := hdata
    rw [ty, Ty.isData] at hall
    obtain ⟨hbinds, htexts⟩ := binds_bindAll hall (by rwa [elements] at hviewed)
      (hd.inject hdata)
    rw [elements, bind]
    refine ⟨(⟨hd.inject hdata, d.gains_inject _, nofun⟩ : Binds τ d [] _).append hbinds, fun hnames => ?_⟩
    simp only [htexts hnames, referent, Referent.binding, snippet, Snippet.compound]

theorem binds_bindAll : ∀ {cs : List Cursor} {d : Draft}, Ty.areData (tys cs) = true →
    (∀ e ∈ allElements cs, Viewed τ e) → d.Buffered τ →
      Binds τ d (allElements cs) (bindAll d i false cs).2 ∧
        (Named names (bindAll d i false cs).2.part.args →
          (bindAll d i false cs).1 = (snippets names i cs).map Snippet.text)
  | [], d, _, _, hd => by
    rw [allElements, bindAll]
    exact ⟨binds_nothing hd, fun _ => rfl⟩
  | c :: cs, d, hdata, hviewed, hd => by
    rw [tys, Ty.areData, Bool.and_eq_true] at hdata
    rw [allElements] at hviewed ⊢
    obtain ⟨hfirst, hrest⟩ := List.forall_mem_append.mp hviewed
    obtain ⟨hbinds, hbinding⟩ := binds_bind hdata.1 hfirst hd
    obtain ⟨hbinds', htexts⟩ := binds_bindAll hdata.2 hrest hbinds.buffered
    rw [bindAll]
    refine ⟨hbinds.append hbinds', fun hnames => ?_⟩
    rw [snippets, List.map_cons, ← htexts hnames]
    have hexpr := congrArg Binding.expr (hbinding (hnames.mono hbinds'.gains.args))
    rw [Referent.binding, referent_whole] at hexpr
    simp only [hexpr]

end

/-! ### Reading -/

section Reading

open Formula (Leads)

variable {known : List (List Ty)} {fp64 : Bool} {p : Preamble} {s : Code.Scope}

theorem leads_element {x : String} (hx : isIdent x = true) (hlead : LeadsPlace x) (hs : Ty.Heard known s)
    {q : Snippet} (hq : q.Legible s) : Leads s (.element x q) := by
  obtain ⟨htype, hloop⟩ := hlead.starts hs
  exact ⟨Snippet.isStem_element hx hq, _, _, rfl, htype, by simpa [Code.Scope.startsSimple]⟩

theorem leads_compound {t : Ty} (ht : t.isData = true) (hs : Ty.Heard known s)
    (hknown : ∀ ts, t = .tuple ts → ts ∈ known) {ps : List Snippet} (hps : ∀ q ∈ ps, Leads s q) :
    Leads s (.compound t.name ps) :=
  ⟨Snippet.isStem_compound (Ty.isWord_name ht) (Ty.word_name ht) (Ty.isTypeWord_known hs ht hknown)
    fun q hq => (hps q hq).1.legible, _, _, rfl, rfl, rfl⟩

/-- The buffer of an element has a name that a statement may start with. -/
def Leading (names : Nat → String) (e : TypedBuffer × Int) : Prop :=
  isIdent (names e.1.buffer) = true ∧ LeadsPlace (names e.1.buffer)

mutual

/-- **What is written for a cursor can be read.** -/
theorem leads_snippet (hs : Ty.Heard known s) (hp : p.Declares known fp64) (hi : isIdent i = true) :
    ∀ {c : Cursor}, c.ty.isData = true → c.ty.Known known fp64 →
      (∀ e ∈ c.elements, Leading names e) → Leads s (c.snippet names i)
  | .element b index, _, _, helements => by
    obtain ⟨hident, hlead⟩ := helements _ (by rw [elements]; exact List.mem_cons_self)
    rw [snippet]
    exact leads_element hident hlead hs ((Snippet.isStem_name hi).legible_shifted _)
  | .zip cs, hdata, hknown, helements => by
    have hall := hdata
    have hfields := hknown
    rw [ty] at hall hfields
    rw [Ty.isData] at hall
    rw [elements] at helements
    rw [snippet]
    exact leads_compound hdata hs hknown.struct
      (leads_snippets hs hp hi hall (fun t ht => hp.known_field hfields ht) helements)

theorem leads_snippets (hs : Ty.Heard known s) (hp : p.Declares known fp64) (hi : isIdent i = true) :
    ∀ {cs : List Cursor}, Ty.areData (tys cs) = true → (∀ t ∈ tys cs, t.Known known fp64) →
      (∀ e ∈ allElements cs, Leading names e) → ∀ q ∈ snippets names i cs, Leads s q
  | [], _, _, _ => by
    rw [snippets]
    nofun
  | c :: cs, hdata, hknown, helements => by
    rw [tys] at hknown
    rw [tys, Ty.areData, Bool.and_eq_true] at hdata
    rw [allElements] at helements
    obtain ⟨hfirst, hrest⟩ := List.forall_mem_append.mp helements
    obtain ⟨hc, hcs⟩ := List.forall_mem_cons.mp hknown
    rw [snippets]
    exact List.forall_mem_cons.mpr ⟨leads_snippet hs hp hi hdata.1 hc hfirst,
      leads_snippets hs hp hi hdata.2 hcs hrest⟩

end

/-- The same of all that stands for a placeholder. -/
theorem leads_referent (hs : Ty.Heard known s) (hp : p.Declares known fp64) (hi : isIdent i = true)
    {c : Cursor} (hdata : c.ty.isData = true) (hknown : c.ty.Known known fp64)
    (helements : ∀ e ∈ c.elements, Leading names e) :
    Leads s (c.referent names i).whole ∧ ∀ q ∈ (c.referent names i).fields, Leads s q := by
  refine ⟨referent_whole c ▸ leads_snippet hs hp hi hdata hknown helements, ?_⟩
  cases c with
  | element _ _ => nofun
  | zip cs =>
    rw [ty] at hdata hknown
    rw [elements] at helements
    exact leads_snippets hs hp hi hdata (fun t ht => hp.known_field hknown ht) helements

end Reading

/-! ### Places -/

section Places

variable {known : List (List Ty)} {fp64 : Bool} {p : Preamble} {env : Env} {w : Variable}

/-- The buffer of an element is a variable. -/
def Found (env : Env) (names : Nat → String) (e : TypedBuffer × Int) : Prop :=
  ∃ v, env.find? (names e.1.buffer) = some v ∧ v.type = .pointer (NamedTy.ofTy e.1.elem) .global false

mutual

/-- **An element of a buffer is a place for the device**, and several of them are not. -/
theorem admits_snippet (hp : p.Declares known fp64) (hknows : env.Knows known fp64)
    (hfind : env.find? i = some w) (htype : w.type = .scalar .uint) :
    ∀ {c : Cursor}, c.ty.isData = true → c.ty.Known known fp64 →
      (∀ e ∈ c.elements, Viewed τ e ∧ Found env names e) →
      env.Admits (c.snippet names i) c.ty c.isElement
  | .element b index, _, _, helements => by
    obtain ⟨⟨-, hindex, hlt⟩, v, hv, hvtype⟩ := helements _ (by rw [elements]; exact List.mem_cons_self)
    rw [snippet, ty]
    refine Env.admits_element hv hvtype fun env' henv => ?_
    obtain ⟨g, hg, -⟩ := Env.indexes_shifted (n := index.toNat) (henv.finds hfind) htype (by omega)
    exact ⟨g, hg⟩
  | .zip cs, hdata, hknown, helements => by
    have hall := hdata
    rw [ty, Ty.isData] at hall
    rw [ty] at hknown
    have hfields := admits_snippets hp hknows hfind htype hall (fun t ht => hp.known_field hknown ht)
      (by rwa [elements] at helements)
    rw [snippet, ty]
    exact Env.admits_compound hfields (hknows.resolves hp.ordered hdata hknown)

theorem admits_snippets (hp : p.Declares known fp64) (hknows : env.Knows known fp64)
    (hfind : env.find? i = some w) (htype : w.type = .scalar .uint) :
    ∀ {cs : List Cursor}, Ty.areData (tys cs) = true → (∀ t ∈ tys cs, t.Known known fp64) →
      (∀ e ∈ allElements cs, Viewed τ e ∧ Found env names e) →
      env.AdmitsAll (snippets names i cs) (tys cs)
  | [], _, _, _ => by
    rw [snippets, tys]
    exact .nil
  | c :: cs, hdata, hknown, helements => by
    rw [tys] at hknown
    rw [tys, Ty.areData, Bool.and_eq_true] at hdata
    rw [allElements] at helements
    obtain ⟨hfirst, hrest⟩ := List.forall_mem_append.mp helements
    obtain ⟨hc, hcs⟩ := List.forall_mem_cons.mp hknown
    rw [snippets, tys]
    exact .cons (admits_snippet hp hknows hfind htype hdata.1 hc hfirst)
      (admits_snippets hp hknows hfind htype hdata.2 hcs hrest)

end

variable {c : Cursor}

theorem keeps_arg (c : Cursor) (k : Int) : c.keeps (.arg k) = c.isElement := by
  cases c <;> rfl

/-- An element of what is written as a whole is a place if the whole is one. -/
theorem keeps_get {x : Formula} (h : ∀ k, x = .arg k → (c.referent names i).fields = []) (index : Int) :
    c.keeps (.get index x) = c.keeps x := by
  cases c with
  | element b n => rw [keeps, keeps]
  | zip cs =>
    cases x with
    | arg k =>
      have hnil : snippets names i cs = [] := h k rfl
      rw [eq_nil_of_snippets hnil]
      rfl
    | _ => rfl

/-- **What is written for a placeholder stands for places where the cursor keeps them.** -/
theorem stands_referent (hp : p.Declares known fp64) (hknows : env.Knows known fp64)
    (hfind : env.find? i = some w) (htype : w.type = .scalar .uint) (hdata : c.ty.isData = true)
    (hknown : c.ty.Known known fp64) (helements : ∀ e ∈ c.elements, Viewed τ e ∧ Found env names e) :
    (c.referent names i).Stands env c.keeps := by
  intro n t q hq
  induction hq with
  | whole =>
    rw [referent_type, referent_whole, keeps_arg]
    exact admits_snippet hp hknows hfind htype hdata hknown helements
  | @field k index t q hq ht =>
    cases c with
    | element b m => cases hq
    | zip cs =>
      rw [ty] at hdata hknown
      rw [elements] at helements
      obtain ⟨c, hc, rfl⟩ := Option.map_eq_some_iff.mp ((getElem?_snippets cs _).symm.trans hq)
      rw [referent_type, ty] at ht
      cases ht with
      | field _ ht =>
        have hmem := List.mem_of_getElem? ht
        rw [getElem?_tys, hc] at ht
        cases ht
        have hkept : (zip cs).keeps (.get index (.arg k)) = c.isElement := by
          rw [keeps, hc]
          rfl
        rw [hkept]
        exact admits_snippet hp hknows hfind htype (Ty.areData_iff.mp hdata _ hmem)
          (hp.known_field hknown hmem)
          fun e he => helements e (elements_subset (List.mem_of_getElem? hc) he)
  | @element index x s t q hx hwhole ht ih =>
    rw [keeps_get hwhole]
    exact ih.select ht

end Places

end Cursor

end KernelForge
