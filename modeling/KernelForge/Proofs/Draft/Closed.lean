/-
The source of a kernel is closed and ordered.

Structures, helper functions and the extension for doubles are noted down at many places, in the order
of the calls that happen to need them.  Whatever the calls were, in the end the source is a text in
which everything stands once, and before its first use: structures before the structures that contain
them, helpers before the helpers that call them, and all of that before the kernel.  A device that
reads the structures knows each by its name, with the fields of the tuple that it was declared for.
-/
import KernelForge.Proofs.Draft.Edits
import KernelForge.Proofs.Draft.Kernels

namespace KernelForge

open Code

/-! ### What a source consists of -/

/-- A source in its parts, in the order of the text. -/
structure Sheet where
  fp64 : Bool
  structs : List (List Ty)
  defs : List Definition
  name : String
  args : List DraftArg
  lines : List (Nat × Line)

namespace Sheet

/-- What comes before the functions. -/
def preface (s : Sheet) : String :=
  Draft.pragmaText s.fp64 ++ String.join (s.structs.map fun ts => Ty.typedef ts ++ "\n")

def text (s : Sheet) : String :=
  s.preface ++ String.join (s.defs.map fun d => d.source ++ "\n") ++
    "__kernel void " ++ s.name ++ "(" ++ ", ".intercalate (s.args.map Draft.param) ++ ")\n\x7b\n" ++
    Line.texts s.lines ++ "\x7d\n"

/-- The types that are named anywhere in the source. -/
def types (s : Sheet) : List Ty :=
  s.structs.map Ty.tuple ++ s.defs.flatMap Definition.types ++ s.args.map (·.type) ++
    s.lines.flatMap fun l => l.2.types

/-- Everything that the source uses is declared in it, once and before it is used. -/
structure Closed (s : Sheet) : Prop where
  structs_once : (s.structs.map fun ts => (Ty.tuple ts).name).Nodup
  structs_first : ∀ older ts newer, s.structs = older ++ ts :: newer → Ty.allTuples ts ⊆ older
  defs_once : (s.defs.map (·.name)).Nodup ∧ (s.defs.map (·.fn.id)).Nodup
  defs_first : ∀ older d newer, s.defs = older ++ d :: newer → ∀ c ∈ d.calls, ∃ e ∈ older, e.Is c
  defs_lowered : ∀ d ∈ s.defs,
    Formula.Lowers (Formula.helperBindings d.fn.params) 1 d.fn.body d.lines d.value
  calls : ∀ l ∈ s.lines, ∀ c ∈ l.2.calls, ∃ d ∈ s.defs, d.Is c
  available : ∀ t ∈ s.types, t.Available s.structs s.fp64

/-- The device accepts what comes before the functions, and finds each structure by its name: a type
with the fields of the tuple, under their names. -/
def Resolves (s : Sheet) : Prop :=
  ∃ file b, File.ofStream (TokenStream.ofText Program.fileName (SourceText.ofString s.preface)) =
      .ok file ∧ Builder.ofFile file = some b ∧ b.log = [] ∧
    ∀ ts ∈ s.structs, ∃ fields, (∀ offset,
        b.env.resolve { offset, name := (Ty.tuple ts).name } =
          .ok (.struct ((List.range ts.length).map (Ty.fieldName ts.length)) fields)) ∧
      NamedTy.tys fields = ts

end Sheet

/-! ### Order -/

theorem Ty.Ordered.first {known older newer : List (List Ty)} {ts : List Ty} (h : Ty.Ordered known)
    (hsplit : known.reverse = older ++ ts :: newer) : Ty.allTuples ts ⊆ older := by
  have hknown : known = newer.reverse ++ ts :: older.reverse := by
    have := congrArg List.reverse hsplit
    simpa using this
  rw [hknown] at h
  cases h.of_append with
  | cons holder hdata hfields _ =>
    exact fun us hus => List.mem_reverse.mp (holder.allTuples_subset hdata hfields hus)

namespace Definition

theorem Ordered.of_append {newer older : List Definition} (h : Ordered (newer ++ older)) :
    Ordered older := by
  induction newer with
  | nil => exact h
  | cons d newer ih =>
    cases h with
    | cons holder _ => exact ih holder

theorem Ordered.follows {defs older newer : List Definition} {d : Definition} (h : Ordered defs)
    (hsplit : defs.reverse = older ++ d :: newer) : d.Follows older.reverse := by
  have hdefs : defs = newer.reverse ++ d :: older.reverse := by
    have := congrArg List.reverse hsplit
    simpa using this
  rw [hdefs] at h
  cases h.of_append with
  | cons _ hd => exact hd

theorem Ordered.lowers {defs : List Definition} (h : Ordered defs) : ∀ d ∈ defs,
    Formula.Lowers (Formula.helperBindings d.fn.params) 1 d.fn.body d.lines d.value := by
  induction h with
  | nil => exact List.forall_mem_nil _
  | cons _ hd ih => exact List.forall_mem_cons.mpr ⟨hd.lowers, ih⟩

/-- Neither a name nor a number occurs twice. -/
theorem Ordered.nodup {defs : List Definition} (h : Ordered defs) :
    (defs.map (·.name)).Nodup ∧ (defs.map (·.fn.id)).Nodup := by
  induction h with
  | nil => exact ⟨List.nodup_nil, List.nodup_nil⟩
  | @cons d older _ hd ih =>
    refine ⟨List.nodup_cons.mpr ⟨fun hmem => ?_, ih.1⟩, List.nodup_cons.mpr ⟨fun hmem => ?_, ih.2⟩⟩
    · obtain ⟨e, he, hname⟩ := List.mem_map.mp hmem
      exact hd.name e he hname
    · obtain ⟨e, he, hid⟩ := List.mem_map.mp hmem
      exact hd.number e he hid

end Definition

namespace NamedTy

theorem fieldNames_eq (n : Nat) : ∀ (ts : List Ty) (i : Nat),
    fieldNames n i ts = (List.range' i ts.length).map (Ty.fieldName n)
  | [], i => rfl
  | t :: ts, i => by
    rw [fieldNames, fieldNames_eq n ts, List.length_cons, List.range'_succ, List.map_cons]

end NamedTy

/-- A structure that is declared is data and known. -/
theorem Preamble.Holds.known_tuple {p : Preamble} {S : Stock} (h : p.Holds S) {ts : List Ty}
    (hts : ts ∈ S.known) :
    (Ty.tuple ts).isData = true ∧ (Ty.tuple ts).Known S.known S.fp64 := by
  refine ⟨?_, fun us hus => ?_, h.declares.double ts hts⟩
  · rw [Ty.isData]
    exact h.declares.ordered.data ts hts
  · cases hus
    exact hts

/-! ### The source of a draft -/

namespace Draft

variable {d : Draft} {S : Stock}

/-- Settling only ever enables double precision. -/
theorem grows_settle (h : d.pre.Holds S) : ∃ S', d.pre.Grows S d.settle.pre S' [] ∧
    d.settle.part = d.part ∧ d.settle.name = d.name := by
  unfold settle
  split
  · exact ⟨{ S with fp64 := true }, ⟨h.enable, List.Subset.refl _, fun _ => rfl, List.Subset.refl _, [],
      rfl, nofun⟩, rfl, rfl⟩
  · exact ⟨S, h.refl [], rfl, rfl⟩

/-- A draft that has all that its lines need, as a sheet. -/
def sheet (d : Draft) (S : Stock) (lines : List (Nat × Line)) : Sheet where
  fp64 := S.fp64
  structs := S.known.reverse
  defs := S.defs.reverse
  name := d.name
  args := d.part.args
  lines

theorem text_sheet (h : d.pre.Holds S) {lines : List (Nat × Line)}
    (hbody : d.part.body = Line.texts lines) : d.text = (d.sheet S lines).text := by
  have hstructs : d.pre.structs.values = S.known.reverse := by
    rw [OrderedMap.values, h.declares.structs, List.map_map]
    exact List.map_id _
  have hfunctions : d.pre.functions.values = S.defs.reverse.map Definition.source := by
    rw [OrderedMap.values, h.functions, List.map_map]
    rfl
  rw [text_eq h.declares.extensions, declarations, hstructs, hfunctions, hbody, Sheet.text,
    Sheet.preface]
  simp only [sheet, List.map_map, Function.comp_def, String.append_assoc]

theorem closed_sheet (h : d.pre.Holds S) {lines : List (Nat × Line)}
    (hfits : ∀ l ∈ lines, l.2.Fits S)
    (hargs : ∀ a ∈ d.part.args, a.type.Available S.known S.fp64) : (d.sheet S lines).Closed where
  structs_once := by
    rw [sheet, List.map_reverse, List.nodup_reverse]
    exact h.declares.ordered.nodup_names
  structs_first := fun _ _ _ hsplit => h.declares.ordered.first hsplit
  defs_once := by
    simp only [sheet, List.map_reverse, List.nodup_reverse]
    exact h.ordered.nodup
  defs_first := by
    intro older e newer hsplit c hc
    obtain ⟨o, ho, his⟩ := (h.ordered.follows hsplit).calls c hc
    exact ⟨o, List.mem_reverse.mp ho, his⟩
  defs_lowered := fun e he => h.ordered.lowers e (List.mem_reverse.mp he)
  calls := by
    intro l hl c hc
    obtain ⟨e, he, his⟩ := (hfits l hl).calls c hc
    exact ⟨e, List.mem_reverse.mpr he, his⟩
  available := by
    have hall : ∀ t ∈ (d.sheet S lines).types, t.Available S.known S.fp64 := by
      refine List.forall_mem_append.mpr ⟨List.forall_mem_append.mpr
        ⟨List.forall_mem_append.mpr ⟨?_, ?_⟩, ?_⟩, ?_⟩
      · intro t ht
        obtain ⟨ts, hts, rfl⟩ := List.mem_map.mp ht
        obtain ⟨hdata, hknown⟩ := h.known_tuple (List.mem_reverse.mp hts)
        exact hknown.available h.declares.ordered hdata
      · intro t ht
        obtain ⟨e, he, ht⟩ := List.mem_flatMap.mp ht
        exact h.available e (List.mem_reverse.mp he) t ht
      · intro t ht
        obtain ⟨a, ha, rfl⟩ := List.mem_map.mp ht
        exact hargs a ha
      · intro t ht
        obtain ⟨l, hl, ht⟩ := List.mem_flatMap.mp ht
        exact (hfits l hl).types t ht
    exact fun t ht => (hall t ht).mono (fun _ hus => List.mem_reverse.mpr hus) id

theorem resolves_sheet (h : d.pre.Holds S) (lines : List (Nat × Line)) :
    (d.sheet S lines).Resolves := by
  have hordered := h.declares.ordered
  have hdata : ∀ ts ∈ S.known.reverse, Ty.areData ts = true :=
    fun ts hts => hordered.data ts (List.mem_reverse.mp hts)
  have hscans := scans_typedefs Token.Scans.nil hdata
  rw [List.append_nil] at hscans
  have hreads := fun finish => @Ty.readsFile_typedefs [] _ S.known.reverse [] { finish }
    (by simpa using hordered) rfl fun _ _ => Code.Scope.readsFile_nil
  obtain ⟨_, hfile, ds, _, rfl, hds, rfl⟩ := exists_file S.fp64 hscans hreads Program.fileName
  obtain ⟨b, hb, hfresh⟩ := exists_fresh hordered h.declares.double hds
  refine ⟨_, b, hfile, ?_, hfresh.log, fun ts hts => ⟨NamedTy.ofTys ts, fun offset => ?_, by simp⟩⟩
  · unfold Builder.ofFile
    rw [← bind_assoc, List.append_nil, hb]
    rfl
  · obtain ⟨hts, hknown⟩ := h.known_tuple (List.mem_reverse.mp hts)
    have hspec : Code.Scope.Says [] (Ty.tuple ts).name false { offset, name := (Ty.tuple ts).name } :=
      ⟨rfl, rfl, rfl, rfl⟩
    rw [hfresh.knows.resolve hordered hts hknown hspec, if_neg Bool.false_ne_true,
      NamedTy.ofTy, NamedTy.fieldNames_eq, ← List.range_eq_range']

end Draft

/-! ### Any calls -/

namespace Bundle

/-- **The source of a kernel is closed and ordered**, whatever calls on the kernel and its helpers it
was made by.  It consists of the structures, the helper functions and the kernel, whose lines are what
the calls on it have written; everything that it uses is declared, once and before it is used; double
precision is enabled if any of it is in use; and the device finds each structure by its name. -/
theorem source_closed {name : String} {b : Bundle} {calls : List (Nat × Edit)}
    (hb : Reached name b calls) {table : Nat → HelperFn} (hcalls : ∀ c ∈ calls, c.2.Sound table)
    (part : Nat) :
    ∃ s : Sheet, (b.draft part).source.1 = s.text ∧ s.name = name ∧
      s.args = (b.draft part).part.args ∧
      (∃ w : List (Edit × List (Nat × Line)), w.map (·.1) = callsOn part calls ∧
        (∀ x ∈ w, x.1.Wrote 1 x.2) ∧ s.lines = w.flatMap (·.2)) ∧
      s.Closed ∧
      (∀ c ∈ calls, ∀ t ∈ c.2.declares, t.Available s.structs s.fp64) ∧
      (∀ c ∈ calls, ∀ fn, c.2 = .define fn → ∃ d ∈ s.defs, d.fn = fn) ∧
      s.Resolves := by
  obtain ⟨S, hS⟩ := hb.keeps hcalls
  obtain ⟨w, hw⟩ := hS.written part
  have hfits : ∀ l ∈ w.flatMap (·.2), l.2.Fits S := by
    intro l hl
    obtain ⟨x, hx, hl⟩ := List.mem_flatMap.mp hl
    exact hw.fits x hx l hl
  obtain ⟨S', hgrows, hpart, hname⟩ := Draft.grows_settle (d := b.draft part) hS.holds
  have hbody : (b.draft part).settle.part.body = Line.texts (w.flatMap (·.2)) := by
    rw [hpart, hw.body]
  have hargs : ∀ a ∈ (b.draft part).settle.part.args, a.type.Available S'.known S'.fp64 := by
    rw [hpart]
    exact fun a ha => hgrows.available (hS.args part a ha)
  refine ⟨(b.draft part).settle.sheet S' (w.flatMap (·.2)), ?_, hname.trans hS.name,
    congrArg DraftPart.args hpart, ⟨w, hw.calls, hw.wrote, rfl⟩, ?_, ?_, ?_, ?_⟩
  · exact Draft.text_sheet hgrows.holds hbody
  · exact Draft.closed_sheet hgrows.holds (fun l hl => hgrows.fits (hfits l hl)) hargs
  · intro c hc t ht
    exact (hgrows.available (hS.declares c hc t ht)).mono (fun _ hus => List.mem_reverse.mpr hus) id
  · intro c hc fn hfn
    obtain ⟨d, hd, hdfn⟩ := hS.defines c hc fn hfn
    exact ⟨d, List.mem_reverse.mpr (hgrows.mem hd), hdfn⟩
  · exact Draft.resolves_sheet hgrows.holds _

/-- A helper that calls another one. -/
def fourTimes : HelperFn :=
  .mk 1 "fourTimes" (.apply Formula.twice [.apply Formula.twice [.arg 0]]) [.scalar .int]
    (.scalar .int)

/-- A kernel with a pair that holds a pair, and a helper that calls another one. -/
def sampleCalls : List (Nat × Edit) :=
  [(0, .addArg "p" (.tuple [.tuple [.scalar .double, .scalar .int], .scalar .int])),
    (0, .define fourTimes),
    (0, .lower [{ type := .scalar .int, expr := "p.second" }] (.helper fourTimes))]

def sample : Bundle := sampleCalls.foldl (fun b c => b.put c.1 (c.2.run (b.draft c.1))) (ofName "k")

theorem sound_sampleCalls :
    ∀ c ∈ sampleCalls, c.2.Sound fun id => if id = 0 then Formula.twice else fourTimes := by
  have hhelpers : ∀ fn ∈ fourTimes.helpers,
      fn.Sound fun id => if id = 0 then Formula.twice else fourTimes := by
    have htwice : Formula.twice.Sound fun id => if id = 0 then Formula.twice else fourTimes :=
      ⟨rfl, rfl, by decide⟩
    have hfour : fourTimes.Sound fun id => if id = 0 then Formula.twice else fourTimes :=
      ⟨rfl, rfl, by decide⟩
    exact List.forall_mem_cons.mpr ⟨hfour, List.forall_mem_cons.mpr ⟨htwice,
      List.forall_mem_cons.mpr ⟨htwice, nofun⟩⟩⟩
  have htwice : Formula.twice.Made := ⟨⟨none, rfl⟩, trivial, trivial⟩
  have hmade : fourTimes.Made := ⟨⟨none, rfl⟩, htwice, ⟨htwice, trivial, trivial⟩, trivial⟩
  refine List.forall_mem_cons.mpr ⟨⟨by decide, nofun, trivial⟩, List.forall_mem_cons.mpr
    ⟨⟨nofun, hhelpers, hmade⟩, List.forall_mem_singleton.mpr ⟨by decide, hhelpers, hmade⟩⟩⟩

/-- Its source declares the inner pair before the outer one, and the helper that is called before the
one that calls it. -/
theorem source_sample :
    Reached "k" sample sampleCalls ∧
      (∀ c ∈ sampleCalls, c.2.Sound fun id => if id = 0 then Formula.twice else fourTimes) ∧
      sample.pre.structs.keys = ["_pair_double_int_t", "_pair_pair_double_int_t_int_t"] ∧
      sample.pre.functions.keys = ["twice", "fourTimes"] ∧
      ∃ s : Sheet, (sample.draft 0).source.1 = s.text ∧ s.Closed ∧ s.Resolves := by
  have hreached : Reached "k" sample sampleCalls :=
    ((Reached.start.call _ (by decide)).call _ (by decide)).call _ (by decide)
  have hsound := sound_sampleCalls
  obtain ⟨s, htext, -, -, -, hclosed, -, -, hresolves⟩ := source_closed hreached hsound 0
  exact ⟨hreached, hsound, by decide +kernel, by decide +kernel, s, htext, hclosed, hresolves⟩

end Bundle

end KernelForge
