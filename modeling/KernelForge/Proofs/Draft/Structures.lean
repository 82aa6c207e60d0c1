/-
The structures that a draft declares.

A structure is declared after those that its fields are made of, and once.  Declaring what a type
needs keeps this order and only ever adds to it, whatever has been declared before.

A draft takes two tuples for the same when their names are.  This merges nothing: the name of a type
says all that the type is made of.  So each tuple that a draft has met is found under its own name,
with its own fields, however deep inside of other types it came and whatever has been declared
before it.
-/
import KernelForge.Draft.Basic
import KernelForge.Program.NamedTy
import KernelForge.Proofs.Basic
import KernelForge.Proofs.Ty.Spelling
import Mathlib.Data.List.Nodup

namespace KernelForge

/-- Tuples in the order in which their structures can be declared, the last one first. -/
inductive Ty.Ordered : List (List Ty) → Prop
  | nil : Ordered []
  | cons {ts : List Ty} {older : List (List Ty)} (holder : Ordered older)
      (hdata : Ty.areData ts = true) (hfields : ∀ us, Ty.tuple us ∈ ts → us ∈ older)
      (hnew : ts ∉ older) : Ordered (ts :: older)

theorem Ty.Ordered.data {known : List (List Ty)} (h : Ty.Ordered known) :
    ∀ ts ∈ known, Ty.areData ts = true := by
  induction h with
  | nil => nofun
  | cons _ hdata _ _ ih => exact List.forall_mem_cons.mpr ⟨hdata, ih⟩

theorem Ty.Ordered.mem_field {known : List (List Ty)} (h : Ty.Ordered known) {ts us : List Ty}
    (hts : ts ∈ known) (hus : Ty.tuple us ∈ ts) : us ∈ known := by
  induction h with
  | nil => cases hts
  | cons _ _ hfields _ ih =>
    rcases List.mem_cons.mp hts with rfl | hts
    · exact List.mem_cons_of_mem _ (hfields us hus)
    · exact List.mem_cons_of_mem _ (ih hts)

theorem Ty.Ordered.mem_of_name {known : List (List Ty)} (h : Ty.Ordered known) {ts us : List Ty}
    (hus : us ∈ known) (hts : Ty.areData ts = true)
    (hname : (Ty.tuple us).name = (Ty.tuple ts).name) : us = ts :=
  Ty.tuple_name_inj (h.data us hus) hts hname

/-- A type whose structure is declared, if it needs one, and that can be used. -/
structure Ty.Known (known : List (List Ty)) (fp64 : Bool) (t : Ty) : Prop where
  struct : ∀ ts, t = .tuple ts → ts ∈ known
  double : t.usesDouble = true → fp64 = true

theorem Ty.Known.mono {known known' : List (List Ty)} {fp64 fp64' : Bool} {t : Ty}
    (h : t.Known known fp64) (hknown : known ⊆ known') (hfp64 : fp64 = true → fp64' = true) :
    t.Known known' fp64' :=
  ⟨fun ts hts => hknown (h.struct ts hts), fun hdouble => hfp64 (h.double hdouble)⟩

theorem Ty.anyUsesDouble_iff {ts : List Ty} :
    Ty.anyUsesDouble ts = true ↔ ∃ t ∈ ts, t.usesDouble = true := by
  induction ts with
  | nil => simp [Ty.anyUsesDouble]
  | cons t ts ih => simp [Ty.anyUsesDouble, ih]

namespace Preamble

/-- What a preamble declares: structures, the last one first, and perhaps double precision. -/
structure Declares (p : Preamble) (known : List (List Ty)) (fp64 : Bool) : Prop where
  structs : p.structs.entries = known.reverse.map fun ts => ((Ty.tuple ts).name, ts)
  extensions : p.extensions.entries = if fp64 then [(Draft.doubleExtension, ())] else []
  functions : p.functions.entries = []
  ordered : Ty.Ordered known
  double : ∀ ts ∈ known, Ty.anyUsesDouble ts = true → fp64 = true

variable {p : Preamble} {known : List (List Ty)} {fp64 : Bool}

theorem declares_empty : Declares {} [] false :=
  ⟨rfl, rfl, rfl, .nil, nofun⟩

theorem Declares.known_field (h : p.Declares known fp64) {ts : List Ty} {t : Ty}
    (hts : (Ty.tuple ts).Known known fp64) (ht : t ∈ ts) : t.Known known fp64 := by
  have hmem := hts.struct ts rfl
  refine ⟨fun us hus => h.ordered.mem_field hmem (hus ▸ ht), fun hdouble => ?_⟩
  exact h.double ts hmem (Ty.anyUsesDouble_iff.mpr ⟨t, ht, hdouble⟩)

theorem Declares.enable (h : p.Declares known fp64) :
    (p.enable Draft.doubleExtension).Declares known true := by
  have hext : (p.enable Draft.doubleExtension).extensions.entries =
      [(Draft.doubleExtension, ())] := by
    unfold Preamble.enable OrderedMap.insert OrderedMap.index?
    rw [h.extensions]
    cases fp64 <;> simp
  exact ⟨h.structs, hext, h.functions, h.ordered, fun _ _ _ => rfl⟩

/-- What a number needs. -/
theorem Declares.number (h : p.Declares known fp64) (s : Scalar) :
    ∃ fp64', (if s = .double then p.enable Draft.doubleExtension else p).Declares known fp64' ∧
      (fp64 = true → fp64' = true) ∧ (s = .double → fp64' = true) := by
  split
  · exact ⟨true, h.enable, fun _ => rfl, fun _ => rfl⟩
  · rename_i hne
    exact ⟨fp64, h, id, fun heq => absurd heq hne⟩

theorem Declares.mem_entries (h : p.Declares known fp64) {e : String × List Ty}
    (he : e ∈ p.structs.entries) : e.2 ∈ known ∧ e.1 = (Ty.tuple e.2).name := by
  rw [h.structs] at he
  obtain ⟨us, hus, rfl⟩ := List.mem_map.mp he
  exact ⟨List.mem_reverse.mp hus, rfl⟩

theorem Declares.mem_of_get? (h : p.Declares known fp64) {ts : List Ty}
    (hts : Ty.areData ts = true) (hget : (p.structs.get? (Ty.tuple ts).name).isSome = true) :
    ts ∈ known := by
  obtain ⟨us, hus⟩ := Option.isSome_iff_exists.mp hget
  obtain ⟨before, after, hentries, -⟩ := List.lookup_eq_some_iff.mp hus
  obtain ⟨hmem, hname⟩ := h.mem_entries (e := ((Ty.tuple ts).name, us)) (by rw [hentries]; simp)
  rw [← h.ordered.mem_of_name hmem hts hname.symm]
  exact hmem

/-- A structure whose fields are known can be declared next. -/
theorem Declares.insert (h : p.Declares known fp64) {ts : List Ty} (hts : Ty.areData ts = true)
    (hfields : ∀ t ∈ ts, t.Known known fp64) :
    ∃ known', Declares { p with structs := (p.structs.insert (Ty.tuple ts).name ts).2 } known' fp64 ∧
      known ⊆ known' ∧ ts ∈ known' := by
  unfold OrderedMap.insert
  split
  · -- the structure has been declared before, with the same fields
    rename_i i hi
    rw [OrderedMap.index?, List.findIdx?_eq_some_iff_getElem] at hi
    obtain ⟨hlt, hkey, -⟩ := hi
    obtain ⟨hmem, hname⟩ := h.mem_entries (List.getElem_mem hlt)
    have hkey' := of_decide_eq_true hkey
    have heq := h.ordered.mem_of_name hmem hts (hname.symm.trans hkey')
    have hentry : ((Ty.tuple ts).name, ts) = p.structs.entries[i] := Prod.ext hkey'.symm heq.symm
    refine ⟨known, ⟨?_, h.extensions, h.functions, h.ordered, h.double⟩, fun _ h => h, heq ▸ hmem⟩
    rw [hentry, List.set_getElem_self]
    exact h.structs
  · rename_i hnone
    rw [OrderedMap.index?, List.findIdx?_eq_none_iff] at hnone
    have hnew : ts ∉ known := by
      intro hmem
      have hentry : ((Ty.tuple ts).name, ts) ∈ p.structs.entries := by
        rw [h.structs]
        exact List.mem_map.mpr ⟨ts, List.mem_reverse.mpr hmem, rfl⟩
      simpa using hnone _ hentry
    have hordered : Ty.Ordered (ts :: known) :=
      .cons h.ordered hts (fun us hus => (hfields _ hus).struct us rfl) hnew
    refine ⟨ts :: known, ⟨?_, h.extensions, h.functions, hordered, ?_⟩, List.subset_cons_self ..,
      List.mem_cons_self⟩
    · simp [h.structs]
    · refine List.forall_mem_cons.mpr ⟨fun hdouble => ?_, h.double⟩
      obtain ⟨t, ht, hdouble⟩ := Ty.anyUsesDouble_iff.mp hdouble
      exact (hfields t ht).double hdouble

/-- A preamble declares what it did before, and what some types need. -/
def Injected (p : Preamble) (known : List (List Ty)) (fp64 : Bool) (ts : List Ty) : Prop :=
  ∃ known' fp64', p.Declares known' fp64' ∧ known ⊆ known' ∧ (fp64 = true → fp64' = true) ∧
    ∀ t ∈ ts, t.Known known' fp64'

theorem Injected.number {t : Ty} {s : Scalar} (ht : ∀ ts, t ≠ .tuple ts)
    (hdouble : t.usesDouble = decide (s = .double)) (h : p.Declares known fp64) :
    Injected (if s = .double then p.enable Draft.doubleExtension else p) known fp64 [t] := by
  obtain ⟨fp64', hp, hmono, hs⟩ := h.number s
  refine ⟨known, fp64', hp, fun _ h => h, hmono, List.forall_mem_singleton.mpr ⟨?_, ?_⟩⟩
  · exact fun ts hts => absurd hts (ht ts)
  · rw [hdouble]
    exact fun heq => hs (of_decide_eq_true heq)

mutual

/-- **Declaring what a type needs keeps the declarations in order.** -/
theorem Declares.inject : ∀ {t : Ty}, t.isData = true →
    ∀ {p : Preamble} {known : List (List Ty)} {fp64 : Bool}, p.Declares known fp64 →
      Injected (p.inject t) known fp64 [t]
  | .scalar s, _, p, known, fp64, h => by
    rw [Preamble.inject]
    exact Injected.number nofun rfl h
  | .vector s w, _, p, known, fp64, h => by
    rw [Preamble.inject]
    exact Injected.number nofun rfl h
  | .tuple ts, hts, p, known, fp64, h => by
    rw [Ty.isData] at hts
    rw [Preamble.inject]
    split
    · rename_i hget
      have hmem := h.mem_of_get? hts hget
      refine ⟨known, fp64, h, fun _ h => h, id, List.forall_mem_singleton.mpr ⟨?_, ?_⟩⟩
      · rintro us ⟨⟩
        exact hmem
      · exact h.double ts hmem
    · obtain ⟨known₁, fp64₁, h₁, hsub₁, hmono₁, hfields⟩ := Declares.injectAll hts h
      obtain ⟨known₂, h₂, hsub₂, hmem⟩ := h₁.insert hts hfields
      refine ⟨known₂, fp64₁, h₂, fun _ h => hsub₂ (hsub₁ h), hmono₁,
        List.forall_mem_singleton.mpr ⟨?_, ?_⟩⟩
      · rintro us ⟨⟩
        exact hmem
      · exact h₂.double ts hmem

theorem Declares.injectAll : ∀ {ts : List Ty}, Ty.areData ts = true →
    ∀ {p : Preamble} {known : List (List Ty)} {fp64 : Bool}, p.Declares known fp64 →
      Injected (p.injectAll ts) known fp64 ts
  | [], _, p, known, fp64, h => ⟨known, fp64, h, fun _ h => h, id, nofun⟩
  | t :: ts, hts, p, known, fp64, h => by
    rw [Ty.areData, Bool.and_eq_true] at hts
    rw [Preamble.injectAll]
    obtain ⟨known₁, fp64₁, h₁, hsub₁, hmono₁, ht⟩ := Declares.inject hts.1 h
    obtain ⟨known₂, fp64₂, h₂, hsub₂, hmono₂, hall⟩ := Declares.injectAll hts.2 h₁
    have ht' := (ht t List.mem_cons_self).mono hsub₂ hmono₂
    exact ⟨known₂, fp64₂, h₂, fun _ h => hsub₂ (hsub₁ h), fun h => hmono₂ (hmono₁ h),
      List.forall_mem_cons.mpr ⟨ht', hall⟩⟩

end

mutual

/-- Declarations take no names of variables. -/
theorem names_inject : ∀ (t : Ty) (p : Preamble), (p.inject t).names = p.names
  | .void, p => by rw [inject]
  | .scalar s, p => by rw [inject]; split <;> rfl
  | .vector s w, p => by rw [inject]; split <;> rfl
  | .pointer t space readOnly, p => by rw [inject]; exact names_inject t p
  | .tuple ts, p => by
    rw [inject]
    split
    · rfl
    · exact names_injectAll ts p

theorem names_injectAll : ∀ (ts : List Ty) (p : Preamble), (p.injectAll ts).names = p.names
  | [], p => by rw [injectAll]
  | t :: ts, p => by rw [injectAll, names_injectAll ts, names_inject t]

end

end Preamble
/-! ### A structure is its name -/

namespace Ty

mutual

/-- The tuples that a type is made of: the type itself if it is one, and those inside of it. -/
def tuples : Ty → List (List Ty)
  | void => []
  | scalar _ => []
  | vector _ _ => []
  | tuple ts => ts :: allTuples ts
  | pointer t _ _ => t.tuples

def allTuples : List Ty → List (List Ty)
  | [] => []
  | t :: ts => t.tuples ++ allTuples ts

end

/-- **Types with the same name are the same.** -/
theorem name_inj {s t : Ty} (hs : s.isData = true) (ht : t.isData = true)
    (h : s.name = t.name) : s = t := by
  have hstem : s.stem ++ [] = t.stem ++ [] := by rw [stem, stem, h]
  have hnil : Divided [] := by simp [Divided]
  exact (stem_unique hs ht hnil hnil hstem).1

namespace Ordered

variable {known : List (List Ty)}

theorem fields (h : Ordered known) {ts us : List Ty} (hts : ts ∈ known) (hus : tuple us ∈ ts) :
    us ∈ known := by
  induction h with
  | nil => cases hts
  | cons _ _ hfields _ ih =>
    rcases List.mem_cons.mp hts with rfl | hts
    · exact List.mem_cons_of_mem _ (hfields us hus)
    · exact List.mem_cons_of_mem _ (ih hts)

mutual

/-- So are those deeper inside. -/
theorem tuples_subset (h : Ordered known) :
    ∀ {t : Ty}, t.isData = true → (∀ ts, t = tuple ts → ts ∈ known) → t.tuples ⊆ known
  | .scalar _, _, _ => List.nil_subset _
  | .vector _ _, _, _ => List.nil_subset _
  | .tuple ts, hdata, ht => by
    have hmem := ht ts rfl
    have hinner := allTuples_subset h hdata fun us hus => h.fields hmem hus
    exact List.cons_subset.mpr ⟨hmem, hinner⟩

theorem allTuples_subset (h : Ordered known) :
    ∀ {ts : List Ty}, areData ts = true → (∀ us, tuple us ∈ ts → us ∈ known) → allTuples ts ⊆ known
  | [], _, _ => List.nil_subset _
  | t :: ts, hdata, hts => by
    rw [areData, Bool.and_eq_true] at hdata
    have hfirst := tuples_subset h hdata.1 fun us hus => hts us (hus ▸ List.mem_cons_self)
    have hrest := allTuples_subset h hdata.2 fun us hus => hts us (List.mem_cons_of_mem _ hus)
    exact List.append_subset.mpr ⟨hfirst, hrest⟩

end

theorem nodup_names (h : Ordered known) : (known.map fun ts => (tuple ts).name).Nodup := by
  induction h with
  | nil => exact List.nodup_nil
  | @cons ts older holder hdata _ hnew ih =>
    refine List.nodup_cons.mpr ⟨fun hmem => ?_, ih⟩
    obtain ⟨us, hus, hname⟩ := List.mem_map.mp hmem
    rw [holder.mem_of_name hus hdata hname] at hus
    exact hnew hus

end Ordered
end Ty

namespace Preamble

variable {p : Preamble} {known : List (List Ty)} {fp64 : Bool}

theorem Declares.nodup_keys (h : p.Declares known fp64) : p.structs.keys.Nodup := by
  have hkeys : p.structs.keys = (known.map fun ts => (Ty.tuple ts).name).reverse := by
    rw [OrderedMap.keys, h.structs, List.map_map, ← List.map_reverse]
    rfl
  rw [hkeys, List.nodup_reverse]
  exact h.ordered.nodup_names

theorem Declares.get?_name (h : p.Declares known fp64) {ts : List Ty} (hts : ts ∈ known) :
    p.structs.get? (Ty.tuple ts).name = some ts := by
  have hentry : ((Ty.tuple ts).name, ts) ∈ p.structs.entries := by
    rw [h.structs]
    exact List.mem_map.mpr ⟨ts, List.mem_reverse.mpr hts, rfl⟩
  exact lookup_of_mem h.nodup_keys hentry

end Preamble

/-- **The name of a structure identifies it.**  Types of data have the same name exactly when they
are equal.  So whichever types are given to a draft, it declares each structure once, and each tuple
that these types are made of is found under its name with its own fields. -/
theorem struct_names_identify {s t : Ty} (hs : s.isData = true) (ht : t.isData = true) :
    (s.name = t.name ↔ s.same t = true) ∧
      ∀ given : List Ty, Ty.areData given = true →
        (Preamble.injectAll {} given).structs.keys.Nodup ∧
          ∀ ts ∈ Ty.allTuples given,
            (Preamble.injectAll {} given).structs.get? (Ty.tuple ts).name = some ts := by
  refine ⟨?_, fun given hgiven => ?_⟩
  · rw [Ty.same_iff]
    exact ⟨Ty.name_inj hs ht, fun h => h ▸ rfl⟩
  · obtain ⟨known, fp64, hdeclares, -, -, hknown⟩ :=
      Preamble.Declares.injectAll hgiven Preamble.declares_empty
    have hsub : Ty.allTuples given ⊆ known :=
      hdeclares.ordered.allTuples_subset hgiven fun us hus => (hknown _ hus).struct us rfl
    exact ⟨hdeclares.nodup_keys, fun ts hts => hdeclares.get?_name (hsub hts)⟩

/-- A pair of an integer and a tuple of one, and the same pair the other way round: their names are
made of the same words in another order, and differ. -/
theorem nested_pair_named_apart :
    Ty.isData (.tuple [.scalar .int, .tuple [.scalar .int]]) = true ∧
      Ty.isData (.tuple [.tuple [.scalar .int], .scalar .int]) = true ∧
      (Ty.tuple [.scalar .int, .tuple [.scalar .int]]).name = "_pair_int_tuple_int_t_t" ∧
      (Ty.tuple [.scalar .int, .tuple [.scalar .int]]).name ≠
        (Ty.tuple [.tuple [.scalar .int], .scalar .int]).name ∧
      (Preamble.injectAll {} [.tuple [.scalar .int, .tuple [.scalar .int]]]).structs.get?
        (Ty.tuple [.scalar .int]).name = some [.scalar .int] := by
  have hnames := struct_names_identify (s := .tuple [.scalar .int, .tuple [.scalar .int]])
    (t := .tuple [.tuple [.scalar .int], .scalar .int]) rfl rfl
  refine ⟨rfl, rfl, rfl, fun h => ?_, (hnames.2 _ rfl).2 _ (by simp [Ty.allTuples, Ty.tuples])⟩
  have hsame := hnames.1.mp h
  cases hsame

end KernelForge
