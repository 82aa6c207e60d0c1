/-
Assignments to the elements of cursors.

A kernel is drafted in which each work item has the element of a cursor, bound for writing, and a
formula is lowered there.  Lowering looks at the formula alone: it refuses to assign to a zip as a
whole, but lets the field of a zip be assigned to, and the field of a field.  The device looks at the
text, in which a zip is made on the spot.  So the two agree just as long as the formula assigns only
to elements of buffers: then the source is built, and otherwise it is not.
-/
import KernelForge.Proofs.Sequence.Binding
import KernelForge.Proofs.Sequence.Ranges

namespace KernelForge

open Code.Scope (isQualifier)
open DraftArg (Named)

/-! ### Names of buffers -/

namespace DraftArg

variable {args : List DraftArg}

/-- Each buffer among the arguments has a name if it is there once. -/
theorem exists_named (h : (args.map (·.buffer?)).Nodup) : ∃ names, Named names args := by
  induction args with
  | nil => exact ⟨fun _ => "", nofun⟩
  | cons a args ih =>
    rw [List.map_cons, List.nodup_cons] at h
    obtain ⟨names, hnames⟩ := ih h.2
    refine ⟨fun n => if a.buffer? = some n then a.name else names n,
      List.forall_mem_cons.mpr ⟨fun n hn => if_pos hn, fun b hb n hn => ?_⟩⟩
    have hne : a.buffer? ≠ some n := fun ha => h.1 (List.mem_map.mpr ⟨b, hb, hn.trans ha.symm⟩)
    exact (if_neg hne).trans (hnames b hb n hn)

end DraftArg

/-! ### The number of the work item -/

namespace Sequence

/-- The name of the number of a work item. -/
def IsIndex (i : String) : Prop := i = "_i" ∨ ∃ k, i = Names.indexedName "_i" k

/-- The statement that declares the number of a work item. -/
def numbering (i : String) : Listing :=
  .declare true (.scalar .uint) i (.call "get_global_id" [.digits 0]) .done

variable {i name : String}

theorem isIndex_fresh (ns : Names) : IsIndex (ns.fresh "_i").1 := by
  unfold Names.fresh
  split
  · exact .inr ⟨_, rfl⟩
  · exact .inl rfl

theorem IsIndex.fresh (h : IsIndex i) : Listing.Fresh i := by
  rcases h with rfl | ⟨k, rfl⟩
  · exact ⟨by decide, by decide⟩
  · rw [Listing.Fresh, isIdent, Bool.and_eq_true]
    exact ⟨⟨Names.isWord_indexedName (by decide) k, decide_eq_true (Names.word_indexedName ..)⟩,
      Names.isQualifier_indexedName ..⟩

theorem IsIndex.take_toList (h : IsIndex i) : i.toList.take 2 = ['_', 'i'] := by
  rcases h with rfl | ⟨k, rfl⟩
  · rfl
  · rw [Names.indexedName, String.toList_append]
    rfl

theorem IsIndex.ne_buffer (h : IsIndex i) (k : Nat) : Names.indexedName "_buf" k ≠ i := by
  rintro rfl
  have htake := h.take_toList
  rw [Names.indexedName, String.toList_append] at htake
  cases htake

theorem IsIndex.ne_builtin (h : IsIndex i) (fn : Builtin) : i ≠ fn.name := by
  rintro rfl
  have htake := h.take_toList
  cases fn <;> cases htake

theorem indexedName_buffer_ne_builtin (k : Nat) (fn : Builtin) : Names.indexedName "_buf" k ≠ fn.name := by
  intro h
  have htake := congrArg (·.toList.take 2) h
  simp only [Names.indexedName, String.toList_append] at htake
  cases fn <;> cases htake

/-- A new kernel in which the number of the work item is declared. -/
theorem globalIndex_ofName (name : String) :
    IsIndex (globalIndex (.ofName name)).1 ∧
      (globalIndex (.ofName name)).1 ∈ (globalIndex (.ofName name)).2.pre.names.taken ∧
      (globalIndex (.ofName name)).2.name = name ∧
      (globalIndex (.ofName name)).2.part =
        { body := (numbering (globalIndex (.ofName name)).1).text 1 } ∧
      (globalIndex (.ofName name)).2.pre.Declares [] false := by
  let ns := (Names.register {} name).2
  let i := (ns.fresh "_i").1
  have htaken : i ∈ (ns.fresh "_i").2.taken := by
    rw [Names.taken_fresh]
    exact List.mem_cons_self
  have hregister : ((ns.fresh "_i").2.register i).2 = (ns.fresh "_i").2 := by
    rw [Names.register, if_pos (Names.isTaken_iff.mpr htaken)]
  have hinject : ∀ p : Preamble, p.inject (.scalar .uint) = p := fun p => by
    rw [Preamble.inject]
    rfl
  have htext : (numbering i).text 1 =
      Draft.margin 1 ++ ("const " ++ (Ty.scalar .uint).name ++ " " ++ i ++ " = get_global_id(0);") ++ "\n" := by
    have hcall : (Snippet.call "get_global_id" [.digits 0]).text = "get_global_id(0)" := by decide
    have hend : " = get_global_id(0);" = " = " ++ "get_global_id(0)" ++ ";" := rfl
    rw [numbering, Listing.text, Listing.text, Script.lineText, hcall, hend, Listing.qualifierText,
      if_pos rfl]
    simp only [String.append_assoc, String.append_empty]
  have hindex : globalIndex (.ofName name) = (i,
      { name
        pre := { names := (ns.fresh "_i").2 }
        part := { body := (numbering i).text 1 } }) := by
    simp only [globalIndex, Draft.fresh, Draft.withNames, Draft.ofName, Draft.decl, Draft.reserve,
      Draft.inject, Draft.line, Draft.append, hinject]
    show (i, ({ name, pre := { names := ((ns.fresh "_i").2.register i).2 }, part := _ } : Draft)) = _
    rw [hregister, htext]
    simp only [String.empty_append, String.append_assoc]
    rfl
  rw [hindex]
  exact ⟨isIndex_fresh ns, htaken, rfl, rfl, rfl, rfl, rfl, .nil, List.forall_mem_nil _⟩

end Sequence

/-! ### Zips of elements -/

namespace Cursor

variable {c : Cursor} {names : Nat → String} {i : String} {ns : Names} {n : Formula} {t : Ty} {q : Snippet}
  {e : Formula.Emitted}

end Cursor

/-! ### Kernels with an element -/

namespace Cursor

open Sequence (IsIndex numbering globalIndex)

/-- A kernel in which each work item has the element of the cursor, bound for writing. -/
def inKernel (name : String) (c : Cursor) : Binding × Draft :=
  let (i, d) := globalIndex (.ofName name)
  c.bind d i false

/-- Elements of buffers that hold data, each buffer viewed in one way. -/
structure Proper (c : Cursor) : Prop where
  data : c.ty.isData = true
  nonempty : c.elements ≠ []
  positions : ∀ e ∈ c.elements, 0 ≤ e.2 ∧ e.2 < 2 ^ 63
  views : ∀ e ∈ c.elements, ∀ f ∈ c.elements, e.1.buffer = f.1.buffer → e.1.elem = f.1.elem

/-- A kernel in which an element has been bound, and nothing else has been done. -/
structure Prepared (τ : Nat → Ty) (names : Nat → String) (i name : String) (c : Cursor) (b : Binding)
    (d : Draft) : Prop where
  binding : b = (c.referent names i).binding
  index : IsIndex i
  numbered : i ∈ d.pre.names.taken
  name : d.name = name
  indent : d.part.indent = 1
  body : d.part.body = (numbering i).text 1
  buffered : d.Buffered τ
  registered : ∀ e ∈ c.elements, ∃ a ∈ d.part.args, a.buffer? = some e.1.buffer
  named : Named names d.part.args
  viewed : ∀ e ∈ c.elements, Viewed τ e

variable {τ : Nat → Ty} {names : Nat → String} {i name : String} {c : Cursor} {b : Binding} {d : Draft}

/-- Each buffer has a type of its own. -/
theorem Proper.exists_viewed (hc : c.Proper) : ∃ τ, ∀ e ∈ c.elements, Viewed τ e := by
  refine ⟨fun n => ((c.elements.find? fun e => e.1.buffer = n).map (·.1.elem)).getD .void, fun e he =>
    ⟨?_, hc.positions e he⟩⟩
  obtain ⟨f, hf⟩ : ∃ f, c.elements.find? (fun f => f.1.buffer = e.1.buffer) = some f :=
    Option.isSome_iff_exists.mp (List.find?_isSome.mpr ⟨e, he, by simp⟩)
  have hbuffer : f.1.buffer = e.1.buffer := by simpa using List.find?_some hf
  show e.1.elem = ((c.elements.find? fun f => f.1.buffer = e.1.buffer).map (·.1.elem)).getD .void
  rw [hf]
  exact hc.views e he f (List.mem_of_find?_eq_some hf) hbuffer.symm

theorem Proper.exists_prepared (hc : c.Proper) (name : String) :
    ∃ τ names i, Prepared τ names i name c (c.inKernel name).1 (c.inKernel name).2 := by
  obtain ⟨τ, hviewed⟩ := hc.exists_viewed
  obtain ⟨hindex, htaken, hname, hpart, hdeclares⟩ := Sequence.globalIndex_ofName name
  let d := (globalIndex (.ofName name)).2
  let i := (globalIndex (.ofName name)).1
  have hempty : d.Buffered τ := by
    have hargs : d.part.args = [] := congrArg DraftPart.args hpart
    refine ⟨congrArg DraftPart.own? hpart, ⟨[], false, hdeclares, ?_⟩, ?_, ?_, ?_, ?_⟩ <;> rw [hargs]
    · nofun
    · nofun
    · nofun
    · exact .nil
    · exact .nil
  have hbinds : Binds τ d c.elements (c.inKernel name).2 :=
    (@binds_bind τ i (fun _ => "") c d hc.data hviewed hempty).1
  obtain ⟨names, hnames⟩ := DraftArg.exists_named hbinds.buffered.single
  exact ⟨τ, names, i, {
    binding := (binds_bind hc.data hviewed hempty).2 hnames
    index := hindex
    numbered := hbinds.gains.taken htaken
    name := hbinds.gains.name.trans hname
    indent := hbinds.gains.indent.trans (congrArg DraftPart.indent hpart)
    body := hbinds.gains.body.trans (congrArg DraftPart.body hpart)
    buffered := hbinds.buffered
    registered := hbinds.registered
    named := hnames
    viewed := hviewed }⟩

namespace Prepared

variable {known : List (List Ty)} {fp64 : Bool} {env : Env}

/-- The argument of a buffer, as it was made. -/
theorem exists_arg (h : Prepared τ names i name c b d) {e : TypedBuffer × Int} (he : e ∈ c.elements) :
    ∃ k, DraftArg.ofBuffer τ k e.1.buffer ∈ d.part.args ∧
      names e.1.buffer = Names.indexedName "_buf" k := by
  obtain ⟨a, ha, hbuffer⟩ := h.registered e he
  obtain ⟨k, n, rfl, -⟩ := h.buffered.args a ha
  cases hbuffer
  exact ⟨k, ha, h.named _ ha _ rfl⟩

theorem leading (h : Prepared τ names i name c b d) : ∀ e ∈ c.elements, Leading names e := by
  intro e he
  obtain ⟨k, -, hname⟩ := h.exists_arg he
  rw [Leading, hname]
  exact ⟨Names.isIdent_buffer k, Names.leadsPlace_buffer k⟩

theorem usable (h : Prepared τ names i name c b d) : ∀ a ∈ d.part.args, a.Usable := by
  intro a ha
  obtain ⟨k, n, rfl, hdata⟩ := h.buffered.args a ha
  exact DraftArg.usable_ofBuffer hdata k

theorem found (h : Prepared τ names i name c b d) (henv : env.Holds d.part.args) :
    ∀ e ∈ c.elements, Found env names e := by
  intro e he
  obtain ⟨k, ha, hname⟩ := h.exists_arg he
  obtain ⟨slot, hslot⟩ := List.getElem?_of_mem ha
  refine ⟨(DraftArg.ofBuffer τ k e.1.buffer).toVariable slot, hname ▸ henv.finds hslot, ?_⟩
  rw [(h.viewed e he).elem]
  rfl

/-- No argument is called something that ends without a digit, or like the number of the work item. -/
theorem find?_index (h : Prepared τ names i name c b d) (henv : env.Holds d.part.args) :
    env.find? i = none := by
  refine henv.find?_none fun a ha => ?_
  obtain ⟨k, n, rfl, -⟩ := h.buffered.args a ha
  exact h.index.ne_buffer k

theorem find?_globalId (h : Prepared τ names i name c b d) (henv : env.Holds d.part.args) :
    env.find? "get_global_id" = none := by
  refine henv.find?_none fun a ha => ?_
  obtain ⟨k, n, rfl, -⟩ := h.buffered.args a ha
  exact Names.indexedName_ne (by decide)

theorem within (h : Prepared τ names i name c b d) (henv : env.Holds d.part.args) :
    (env.extend i (.scalar .uint) true).Within d.pre.names where
  named := fun {x v} hfind => by
    rw [Env.find?_extend] at hfind
    split at hfind
    · rename_i hx
      exact hx ▸ h.numbered
    · obtain ⟨k, a, ha, rfl, -⟩ := henv.only hfind
      exact h.buffered.taken a (List.mem_of_getElem? ha)
  slotted := fun {x v} hfind => by
    rw [Env.find?_extend] at hfind
    rw [Env.slots_extend]
    split at hfind
    · cases hfind
      exact Nat.lt_succ_self _
    · obtain ⟨k, a, ha, -, rfl⟩ := henv.only hfind
      rw [henv.slots]
      exact Nat.lt_succ_of_lt (List.getElem?_eq_some_iff.mp ha).1
  clear := fun fn => by
    rw [Env.find?_extend, if_neg (h.index.ne_builtin fn).symm]
    refine henv.find?_none fun a ha => ?_
    obtain ⟨k, n, rfl, -⟩ := h.buffered.args a ha
    exact Sequence.indexedName_buffer_ne_builtin k fn

/-- The number of the work item is declared. -/
theorem accepted_numbering (h : Prepared τ names i name c b d) (henv : env.Holds d.part.args)
    (hknows : env.Knows known fp64) (hordered : Ty.Ordered known) :
    (numbering i).Accepted env (env.extend i (.scalar .uint) true) := by
  have hsupplies : env.Supplies (Snippet.call "get_global_id" [.digits 0]).tree (.scalar .uint)
      (fun p => p.item.offset = 0 ∧ p.item.id < 2 ^ 32) fun _ _ => True :=
    Sequence.supplies_globalId (h.find?_globalId henv) fun p hp => ⟨hp.1, hp.2, trivial⟩
  have hknown : (Ty.scalar .uint).Known known fp64 := ⟨by simp, fun h => by cases h⟩
  exact Listing.accepted_declare (h.find?_index henv)
    (fun spec hspec => hknows.resolve hordered rfl hknown hspec) nofun hsupplies.initializes

section Verdict

variable {p : Preamble} {n : Formula} {t : Ty} {e : Formula.Emitted}

/-- The number of the work item can be read as it is declared. -/
theorem legible_numbering (h : Prepared τ names i name c b d) {s : Code.Scope} (hs : Ty.Heard known s) :
    (numbering i).Legible s :=
  ⟨⟨rfl, Ty.isTypeWord_known hs rfl nofun⟩, h.index.fresh,
    (Snippet.isStem_call (by decide) (List.forall_mem_singleton.mpr
      (Snippet.isOperand_digits 0).legible)).legible, trivial⟩

/-- The listing of the kernel. -/
theorem legible (h : Prepared τ names i name c b d) (hc : c.Proper) (hp : p.Declares known fp64)
    (he : Formula.Emits (c.referent names i) d.pre.names n t e)
    (hknown : ∀ u ∈ c.ty :: e.types, u.Known known fp64) {s : Code.Scope} (hs : Ty.Heard known s) :
    (numbering i ++ e.listing).Legible s := by
  obtain ⟨hty, htypes⟩ := List.forall_mem_cons.mp hknown
  obtain ⟨hwhole, hfields⟩ := leads_referent hs hp h.index.fresh.1 hc.data hty h.leading
  have hdata := he.areData (by rw [referent_type]; exact hc.data)
  have hwords : ∀ u ∈ e.types, u.isData = true ∧ Code.Scope.IsTypeWord s u.name := fun u hu =>
    ⟨hdata u hu, Ty.isTypeWord_known hs (hdata u hu) (htypes u hu).struct⟩
  exact (h.legible_numbering hs).append (he.legible hs hwhole hfields hwords).listing

/-- **The listing of the kernel is accepted or refused** by the places that are assigned to. -/
theorem verdict (h : Prepared τ names i name c b d) (hc : c.Proper) (hp : p.Declares known fp64)
    (he : Formula.Emits (c.referent names i) d.pre.names n t e)
    (hknown : ∀ u ∈ c.ty :: e.types, u.Known known fp64) (henv : env.Holds d.part.args)
    (hknows : env.Knows known fp64) :
    if n.assigns c.keeps then ∃ env', (numbering i ++ e.listing).Accepted env env'
    else (numbering i ++ e.listing).Refused env := by
  obtain ⟨hty, htypes⟩ := List.forall_mem_cons.mp hknown
  have hdata := he.areData (by rw [referent_type]; exact hc.data)
  have hnumbering := h.accepted_numbering henv hknows hp.ordered
  have hgrows := Env.grows_extend (h.find?_index henv) (.scalar .uint) true
  have hknows' : (env.extend i (.scalar .uint) true).Knows known fp64 := ⟨hknows.structs, hknows.fp64⟩
  have hfound : ∀ e ∈ c.elements, Viewed τ e ∧ Found (env.extend i (.scalar .uint) true) names e := by
    intro e he
    obtain ⟨v, hv, hvtype⟩ := h.found henv e he
    exact ⟨h.viewed e he, v, hgrows.finds hv, hvtype⟩
  have hstands := stands_referent hp hknows' (env.find?_extend_self i (.scalar .uint) true) rfl hc.data hty
    hfound
  have hdeclarable : ∀ u ∈ e.types, Formula.Declarable (env.extend i (.scalar .uint) true) u :=
    fun u hu => ⟨hdata u hu, hknows'.resolves hp.ordered (hdata u hu) (htypes u hu)⟩
  split
  · rename_i hassigns
    obtain ⟨env', stored, hfine⟩ := he.accepted (h.within henv) hstands hdeclarable hassigns
    exact ⟨env', hnumbering.append hfine.listing⟩
  · rename_i hassigns
    exact hnumbering.refused
      (he.refused (h.within henv) hstands hdeclarable (Bool.eq_false_iff.mpr hassigns))

end Verdict

end Prepared

section Lowered

variable (hc : c.Proper) (hident : isIdent name = true) (hunqualified : isQualifier (.name name) = false)
  (hfree : isDeviceFunction name = false) {n : Formula} (hn : n.isBasic = true) {v : String} {d' : Draft}
  (h : Formula.lower [(c.inKernel name).1] n (c.inKernel name).2 = (.ok v, d'))

include hc hident hunqualified hfree hn h

/-- What is lowered is written, and the source is built exactly if all places are kept. -/
theorem exists_emits_built_iff :
    ∃ names i t e, Formula.Emits (c.referent names i) (c.inKernel name).2.pre.names n t e ∧
      ((∃ p, Program.build (SourceText.ofString d'.source.1) = .built p) ↔ n.assigns c.keeps = true) := by
  obtain ⟨τ, names, i, hd⟩ := hc.exists_prepared name
  rw [hd.binding] at h
  obtain ⟨t, e, he, hwrote⟩ :=
    Formula.emits_of_lower (apt_referent hc.data) hn hd.buffered.kernel h
  obtain ⟨known, fp64, hdeclares, hargs⟩ := hd.buffered.declares
  obtain ⟨known₁, fp64₁, hdeclares₁, hsub, hmono, htypes⟩ := hwrote.declares known fp64 hdeclares
  obtain ⟨fp64₂, hdeclares₂, hmono₂⟩ := Draft.declares_settle hdeclares₁
  have hknown : ∀ u ∈ c.ty :: e.types, u.Known known₁ fp64₂ := by
    rw [referent_type] at htypes
    exact fun u hu => (htypes u hu).mono (fun _ h => h) hmono₂
  have hlegible : ∀ s, Ty.Heard known₁ s → (numbering i ++ e.listing).Legible s :=
    fun s hs => hd.legible hc hdeclares₂ he hknown hs
  have hname : d'.settle.name = name := (Draft.name_settle d').trans (hwrote.name.trans hd.name)
  have hpart := Draft.part_settle d'
  have hsame : d'.settle.part.args = (c.inKernel name).2.part.args := by rw [hpart, hwrote.args]
  have hbody : d'.settle.part.body = (numbering i ++ e.listing).text 1 := by
    rw [hpart, hwrote.body, hd.body, hd.indent, Listing.text_append]
  have hne : d'.settle.part.args ≠ [] := by
    obtain ⟨f, hf⟩ := List.exists_mem_of_ne_nil _ hc.nonempty
    obtain ⟨k, ha, -⟩ := hd.exists_arg hf
    rw [hsame]
    exact List.ne_nil_of_mem ha
  have husable : ∀ a ∈ d'.settle.part.args, a.Usable ∧ a.elem.Known known₁ fp64₂ := by
    rw [hsame]
    exact fun a ha => ⟨hd.usable a ha, (hargs a ha).mono hsub fun h => hmono₂ (hmono h)⟩
  have hnodup : (d'.settle.part.args.map (·.name)).Nodup := hsame ▸ hd.buffered.distinct
  have hscans : ∀ {rest us}, Token.Scans rest us →
      Token.Scans (d'.settle.part.body.toList ++ rest) ((numbering i ++ e.listing).tokens ++ us) := by
    intro rest us hrest
    have hheard : Ty.Heard known₁ { finish := 0, typedefs := known₁.map fun ts => (Ty.tuple ts).name } := rfl
    rw [hbody]
    exact (hlegible _ hheard).scans 1 hrest
  rw [← hname] at hident hunqualified hfree
  have hverdict : ∀ env : Env, env.Knows known₁ fp64₂ → env.Holds d'.settle.part.args →
      if n.assigns c.keeps then ∃ env', (numbering i ++ e.listing).Accepted env.openScope env'
      else (numbering i ++ e.listing).Refused env.openScope := fun env hknows henv =>
    hd.verdict hc hdeclares₂ he hknown (hsame ▸ ⟨henv.slots, henv.finds, henv.only⟩)
      ⟨hknows.structs, hknows.fp64⟩
  have hsource : d'.source.1 = d'.settle.text := rfl
  rw [hsource]
  refine ⟨names, i, t, e, he, ?_⟩
  constructor
  · rintro ⟨p, hbuilt⟩
    by_contra hassigns
    refine Draft.not_build_draft hdeclares₂ hident hunqualified hfree hne husable hnodup hscans
      (fun s hs => (hlegible s hs).reads []) (fun env hknows henv => ?_) p hbuilt
    have hrefused := hverdict env hknows henv
    rwa [if_neg hassigns] at hrefused
  · intro hassigns
    have hchecks : Env.ChecksBody known₁ fp64₂ d'.settle.part.args (numbering i ++ e.listing).Trees
        fun _ _ => True := by
      intro env hknows henv ss hss
      have haccepted := hverdict env hknows henv
      rw [if_pos hassigns] at haccepted
      obtain ⟨env', haccepted⟩ := haccepted
      obtain ⟨a, ha⟩ := haccepted ss hss
      exact ⟨a, env', ha, trivial⟩
    obtain ⟨p, -, hp, -⟩ := Draft.build_draft hdeclares₂ hident hunqualified hfree hne husable hnodup
      hscans (fun s hs => (hlegible s hs).reads []) hchecks
    exact ⟨p, hp⟩

/-- **Accepted assignments are those to elements of buffers.**  Where a basic formula is lowered over a
cursor that is bound for writing, the source of the kernel is built exactly if the formula assigns only
to what the cursor keeps: to an element of a buffer, a lane or a field of it, and not to what is made
of several. -/
theorem assignments_accepted_iff :
    (∃ p, Program.build (SourceText.ofString d'.source.1) = .built p) ↔ n.assigns c.keeps = true := by
  obtain ⟨names, i, t, e, -, hiff⟩ := exists_emits_built_iff hc hident hunqualified hfree hn h
  exact hiff

end Lowered

/-- Two of three buffers of integers are taken together first. -/
def nestedZip : Cursor :=
  .zip [.zip [.element { buffer := 0, bytes := 8, elem := .scalar .int } 0,
      .element { buffer := 1, bytes := 8, elem := .scalar .int } 0],
    .element { buffer := 2, bytes := 8, elem := .scalar .int } 0]

theorem proper_nestedZip : nestedZip.Proper where
  data := rfl
  nonempty := by decide
  positions := by decide
  views := by decide

/-- The element of the inner zip is assigned to, or the element beside it. -/
theorem nested_zip_told_apart :
    let intoInner : Formula := .set (.get 0 (.get 0 (.arg 0))) (.get 1 (.arg 0))
    let intoOuter : Formula := .set (.get 1 (.arg 0)) (.get 0 (.get 0 (.arg 0)))
    (∃ v d, Formula.lower [(nestedZip.inKernel "k").1] intoInner (nestedZip.inKernel "k").2 = (.ok v, d) ∧
      ¬ ∃ p, Program.build (SourceText.ofString d.source.1) = .built p) ∧
    ∃ v d, Formula.lower [(nestedZip.inKernel "k").1] intoOuter (nestedZip.inKernel "k").2 = (.ok v, d) ∧
      ∃ p, Program.build (SourceText.ofString d.source.1) = .built p := by
  intro intoInner intoOuter
  have hk : isIdent "k" = true ∧ isQualifier (.name "k") = false ∧ isDeviceFunction "k" = false := by
    decide
  have hlower : ∀ n : Formula, n.isBasic = true → Formula.check [(nestedZip.inKernel "k").1] n = .ok () →
      ∃ v d, Formula.lower [(nestedZip.inKernel "k").1] n (nestedZip.inKernel "k").2 = (.ok v, d) :=
    fun n hn hcheck => Formula.lower_of_check_ok (Formula.made_of_isBasic hn) hcheck _
  obtain ⟨v, d, hv⟩ := hlower intoInner rfl rfl
  obtain ⟨w, d', hw⟩ := hlower intoOuter rfl rfl
  refine ⟨⟨v, d, hv, fun hbuilt => ?_⟩, w, d', hw, ?_⟩
  · have hkept := (assignments_accepted_iff proper_nestedZip hk.1 hk.2.1 hk.2.2 rfl hv).mp hbuilt
    cases hkept
  · exact (assignments_accepted_iff proper_nestedZip hk.1 hk.2.1 hk.2.2 rfl hw).mpr rfl

end Cursor

end KernelForge
