/-
The kernels of searches write to the index only.

A search makes a kernel whose first argument is the buffer for the index; all others are values or
buffers that are read.  So the header of the source says of every parameter but the first that it is
read-only, whatever formula is searched for, and as no star closes a bracket there are no casts that
could get around it.  What is built from such a source leaves every other memory as it was.
-/
import KernelForge.Proofs.Draft.Kernels
import KernelForge.Proofs.Draft.Registry
import KernelForge.Proofs.Formula.Taming
import KernelForge.Proofs.Program.ReadOnly
import KernelForge.Sequence.Kernel

namespace KernelForge

open Token (Tame isWord)

open Code (isHeaderChar Listed)

/-! ### Arguments -/

/-- Text that can stand in a header, without a comma. -/
def Headed (s : String) : Prop := ∀ c ∈ s.toList, isHeaderChar c = true ∧ c ≠ ','

section
variable {s t : String}

theorem Headed.append (hs : Headed s) (ht : Headed t) : Headed (s ++ t) := by
  intro c hc
  rw [String.toList_append] at hc
  exact (List.mem_append.mp hc).elim (hs c) (ht c)

theorem headed_of_all (h : s.toList.all (fun c => isHeaderChar c && c ≠ ',') = true) : Headed s := by
  intro c hc
  simpa using List.all_eq_true.mp h c hc

theorem headed_toString (n : Nat) : Headed (toString n) := by
  intro c hc
  have hdigit := Names.isDigit_toString c hc
  refine ⟨by simp [isHeaderChar, hdigit], ?_⟩
  rintro rfl
  cases hdigit

theorem Ty.headed_name (t : Ty) : Headed t.name := by
  have hall : ∀ cs, Ty.Worded cs → ∀ c ∈ cs, isHeaderChar c = true ∧ c ≠ ',' := by
    intro cs
    induction cs with
    | nil => nofun
    | cons c cs ih =>
      rintro (⟨hc, hcomma, -, hcs⟩ | ⟨rfl, -, hcs⟩)
      · exact List.forall_mem_cons.mpr ⟨⟨hc, hcomma⟩, ih hcs⟩
      · exact List.forall_mem_cons.mpr ⟨by decide, ih hcs⟩
  exact hall _ (Ty.worded_name t)

end

namespace DraftArg

/-- The text of an argument can stand among the parameters of a kernel, and the name of a buffer
anywhere. -/
structure Spelled (a : DraftArg) : Prop where
  firm : a.buffer?.isSome = true → Firm a.name
  tidy : Tidy (Draft.param a)
  headed : Headed (Draft.param a)

/-- The text of the argument says first that nothing is written to it. -/
def Constant (a : DraftArg) : Prop :=
  ∃ text, Draft.param a = "const " ++ text ∨ Draft.param a = "__global const " ++ text

/-- A pointer to the elements of a buffer. -/
theorem spelled_buffer {name : String} (hname : Firm name) (hheaded : Headed name) (t : Ty)
    (readOnly : Bool) (buffer : Nat) :
    Spelled { name, type := .pointerTo t readOnly, buffer? := some buffer } :=
  ⟨fun _ => hname, tidy_decl _ hname,
    ((Ty.headed_name _).append (headed_of_all (by decide))).append hheaded⟩

theorem constant_buffer (name : String) (t : Ty) (buffer : Nat) :
    Constant { name, type := .pointerTo t true, buffer? := some buffer } := by
  refine ⟨t.name ++ "*" ++ " " ++ name, .inr ?_⟩
  simp [Draft.param, isBuffer, Ty.pointerTo, Ty.name, Space.qualifier, String.append_assoc]

end DraftArg

/-! ### Drafts -/

namespace Draft

/-- A draft that writes to the buffer of its first argument only. -/
structure Sparing (name : String) (out : Nat) (d : Draft) : Prop where
  name : d.name = name
  neat : d.Neat
  args : ∃ a rest, d.part.args = a :: rest ∧ a.buffer? = some out ∧ a.Spelled ∧
    ∀ b ∈ rest, b.Spelled ∧ b.Constant

variable {name : String} {out : Nat} {d d' : Draft}

theorem Sparing.advance (h : Sparing name out d) (hd : d.Advances d') : Sparing name out d' :=
  ⟨hd.name.trans h.name, hd.neat h.neat, by rw [hd.args]; exact h.args⟩

theorem Sparing.push (h : Sparing name out d) {a : DraftArg} (ha : a.Spelled) (hconst : a.Constant) :
    Sparing name out (d.pushArg a).2 := by
  obtain ⟨hname, hneat, b, rest, hargs, hbuffer, hb, hrest⟩ := h
  refine ⟨hname, ⟨hneat.body, hneat.functions, hneat.helpers, hneat.standard⟩, b, rest ++ [a], ?_, hbuffer,
    hb, List.forall_mem_append.mpr ⟨hrest, List.forall_mem_singleton.mpr ⟨ha, hconst⟩⟩⟩
  simp [pushArg, hargs]

theorem Sparing.spelled (h : Sparing name out d) : ∀ a ∈ d.part.args, a.Spelled := by
  obtain ⟨b, rest, hargs, -, hb, hrest⟩ := h.args
  rw [hargs]
  exact List.forall_mem_cons.mpr ⟨hb, fun a ha => (hrest a ha).1⟩

theorem buffer_name (d : Draft) : Firm (d.indexed "_buf").1 ∧ Headed (d.indexed "_buf").1 := by
  obtain ⟨ns, hns⟩ := d.fst_withNames (·.indexed "_buf")
  rw [indexed, hns]
  exact ⟨firm_indexed (firm_plain (by decide) (by decide)) ns,
    Headed.append (headed_of_all (by decide)) (headed_toString _)⟩

/-- A buffer that is read gets an argument for reading, unless it has one. -/
theorem Sparing.register (h : Sparing name out d) (buffer : Nat) (elem : Ty) :
    Sparing name out (d.register buffer elem true).2 ∧ Firm (d.register buffer elem true).1.1 := by
  rcases d.register_cases buffer elem true with ⟨slot, a, ha, hbuffer, heq⟩ | ⟨-, heq⟩
  · have hset : d.part.args.set slot { a with type := if true then a.type else writable a.type } =
        d.part.args := by
      obtain ⟨hlt, rfl⟩ := List.getElem?_eq_some_iff.mp ha
      exact List.set_getElem_self hlt
    rw [heq]
    dsimp only
    rw [hset]
    exact ⟨h, (h.spelled a (List.mem_of_getElem? ha)).firm (by rw [hbuffer]; rfl)⟩
  · obtain ⟨hfirm, hheaded⟩ := buffer_name d
    have hbegun := (d.advances_withNames (·.indexed "_buf")).trans (advances_inject _ elem)
    rw [heq]
    exact ⟨(h.advance hbegun).push (DraftArg.spelled_buffer hfirm hheaded _ _ _)
      (DraftArg.constant_buffer _ _ _), hfirm⟩

end Draft

/-! ### Cursors -/

namespace Cursor

open Draft

variable {name : String} {out : Nat} {index : String}

mutual

/-- The element at an index is read, whatever it is taken from. -/
theorem sparing_bind : ∀ (c : Cursor) {d : Draft}, Tidy index → Sparing name out d →
    Sparing name out (c.bind d index true).2 ∧ Firm (c.bind d index true).1.expr ∧
      ∀ field ∈ (c.bind d index true).1.fields, Firm field
  | .element b i, d, hindex, h => by
    obtain ⟨hsparing, hname⟩ := h.register b.buffer b.elem
    have hoffset : Tidy (if i = 0 then "" else "+" ++ toString i) := by
      split
      · exact ⟨trivial⟩
      · exact (tidy_plain (by decide)).append ((isFigure_int i).1.firm (isFigure_int i).2).tidy
    exact ⟨hsparing, (((hname.append (tidy_plain (by decide))).append hindex).append hoffset).append
      (tidy_plain (by decide)), nofun⟩
  | .zip cs, d, hindex, h => by
    obtain ⟨hsparing, hfields⟩ := sparing_bindAll cs hindex
      (h.advance (d.advances_inject (zip cs).ty))
    have hcomma : Tidy ", " := tidy_plain (by decide)
    have hlist := tidy_intercalate hcomma fun field hfield => (hfields field hfield).tidy
    have hopen : Firm "((" := firm_plain (by decide) (by decide)
    exact ⟨hsparing, (((hopen.append (Ty.tidy_tuple (tys cs))).append (tidy_plain (by decide))).append
      hlist).append (tidy_plain (by decide)), hfields⟩

theorem sparing_bindAll : ∀ (cs : List Cursor) {d : Draft}, Tidy index → Sparing name out d →
    Sparing name out (bindAll d index true cs).2 ∧ ∀ field ∈ (bindAll d index true cs).1, Firm field
  | [], d, _, h => ⟨h, nofun⟩
  | c :: cs, d, hindex, h => by
    obtain ⟨hsparing, hexpr, -⟩ := sparing_bind c hindex h
    obtain ⟨hall, hrest⟩ := sparing_bindAll cs hindex hsparing
    exact ⟨hall, List.forall_mem_cons.mpr ⟨hexpr, hrest⟩⟩

end

end Cursor

/-! ### Kernels -/

namespace Sequence

open Draft

variable {name : String} {out : Nat} {d : Draft}

/-- What a search has before its formula: the names of the index and of the number of the work item, and
the draft that the formula is written on. -/
def opening (out : Nat) (count : Int) : (String × String) × Draft :=
  let ((out, _), d) := (ofName "find_if").register out (.scalar .uint) false
  let (size, d) := addCount d "count" count
  let (i, d) := globalIndex d
  ((out, i), openBlock d ("if (" ++ i ++ " < " ++ size ++ ")"))

/-- The names in the kernel that looks for an extremum. -/
structure Contest where
  out : String
  size : String
  value : String
  valueIndex : String
  i : String
  candidate : String

namespace Contest

/-- Every other element is compared with it. -/
def rounds (c : Contest) (first : Cursor) (elem : Scalar) (sign : Sign) (d : Draft) : Draft :=
  let d := openBlock d
    ("for (uint " ++ c.i ++ " = 1; " ++ c.i ++ " < " ++ c.size ++ "; " ++ c.i ++ "++)")
  let (decl, d) := d.decl (.scalar elem) c.candidate
  let (x, d) := first.bind d c.i true
  let d := d.line (decl ++ " = " ++ x.expr ++ ";")
  let d := openBlock d ("if (" ++ c.candidate ++ " " ++ sign.text ++ " " ++ c.value ++ ")")
  let d := d.line (c.value ++ " = " ++ c.candidate ++ ";")
  let d := d.line (c.valueIndex ++ " = " ++ c.i ++ ";")
  closeBlock (closeBlock d)

/-- Names without the characters that there are rules for. -/
structure Plain (c : Contest) : Prop where
  out : Firm c.out
  size : Tidy c.size
  value : c.value.toList.all isPlainChar = true
  valueIndex : c.valueIndex.toList.all isPlainChar = true
  i : Tidy c.i
  candidate : c.candidate.toList.all isPlainChar = true

end Contest

end Sequence

/-! ### Sources -/

theorem Ty.tidy_typedef (ts : List Ty) : Tidy (Ty.typedef ts) := by
  have hfield : ∀ n i, Firm (Ty.fieldName n i) := by
    intro n i
    unfold Ty.fieldName
    split
    · split <;> exact firm_plain (by decide) (by decide)
    · exact isFirm_plain_names (firm_plain (by decide) (by decide)) i
  have hlines : ∀ f : Ty × Nat → String, (∀ t i, Tidy (f (t, i))) →
      Tidy (String.join (ts.zipIdx.map f)) := by
    refine fun f hf => tidy_join fun line hline => ?_
    obtain ⟨⟨t, i⟩, -, rfl⟩ := List.mem_map.mp hline
    exact hf t i
  refine ((((tidy_plain (by decide)).append (hlines _ fun t i => ?_)).append (tidy_plain (by decide))).append
    (Ty.tidy_tuple ts)).append (tidy_plain (by decide))
  have htext := ((tidy_plain (s := "    ") (by decide)).append (tidy_decl t (hfield ts.length i))).append
    (tidy_plain (s := ";\n") (by decide))
  simpa only [String.append_assoc] using htext

namespace Draft

open Code (HeaderLine headerText)

variable {name : String} {out : Nat} {d : Draft}

theorem advances_settle (d : Draft) : d.Advances d.settle := by
  unfold settle
  split
  · exact ⟨rfl, rfl, fun h => ⟨h.body, h.functions, h.helpers, h.standard.enable⟩⟩
  · exact .refl d

/-- A name that a kernel for writing to the index may have. -/
structure Titled (name : String) : Prop where
  plain : name.toList.all isPlainChar = true
  ident : isIdent name = true
  word : Code.Scope.isQualifier (.name name) = false

/-- What comes after the parameters of a kernel. -/
def ending (d : Draft) : String := "\n\x7b\n" ++ d.part.body ++ "\x7d\n"

/-- The parameters of a kernel. -/
def parameters (d : Draft) : String := ", ".intercalate (d.part.args.map param)

theorem exists_intercalate (sep s : String) (ss : List String) :
    ∃ more, sep.intercalate (s :: ss) = s ++ more := by
  cases ss with
  | nil => exact ⟨"", by simp⟩
  | cons t ss => exact ⟨sep ++ sep.intercalate (t :: ss), by rw [String.intercalate_cons_cons, String.append_assoc]⟩

theorem listed_headed {cs ds : List Char} (hcs : ∀ c ∈ cs, isHeaderChar c = true ∧ c ≠ ',')
    (hds : Listed ds) : Listed (cs ++ ds) := by
  induction cs with
  | nil => exact hds
  | cons c cs ih =>
    rw [List.forall_mem_cons] at hcs
    exact ⟨hcs.1.1, fun hc => absurd hc hcs.1.2, ih hcs.2⟩

/-- Every parameter but the first starts with a word for what is only read. -/
theorem listed_rest : ∀ {as : List DraftArg}, (∀ a ∈ as, a.Spelled ∧ a.Constant) → ∀ first : String,
    Headed first → Listed (", ".intercalate (first :: as.map param)).toList
  | [], _, first, hfirst => by
    have hlisted : Listed (first.toList ++ []) := listed_headed hfirst trivial
    rw [List.append_nil] at hlisted
    simpa using hlisted
  | a :: as, h, first, hfirst => by
    rw [List.forall_mem_cons] at h
    have hrest := listed_rest h.2 (param a) h.1.1.headed
    obtain ⟨text, htext⟩ := h.1.2
    rw [List.map_cons, String.intercalate_cons_cons, String.append_assoc, String.toList_append,
      String.toList_append, show (", " : String).toList = [',', ' '] from rfl]
    refine listed_headed hfirst ⟨by decide, fun _ => ?_, by decide, nofun, hrest⟩
    obtain ⟨more, hmore⟩ := exists_intercalate ", " (param a) (as.map param)
    refine ⟨(text ++ more).toList, ?_⟩
    rw [hmore]
    rcases htext with htext | htext
    · exact .inl (by rw [htext]; simp)
    · exact .inr (by rw [htext]; simp)

theorem Sparing.listed (h : Sparing name out d) : Listed d.parameters.toList := by
  obtain ⟨a, rest, hargs, -, ha, hrest⟩ := h.args
  rw [parameters, hargs, List.map_cons]
  exact listed_rest hrest _ ha.headed

/-- The header follows the word for kernels. -/
theorem tame_kernel {line : List Char} (h : Tame none line) :
    Tame (some line) ('k' :: ("ernel".toList ++ line)) := by
  have hline : Tame (some line) line := by
    have happend : Tame (some line) (line ++ []) := Tame.append h trivial
    rwa [List.append_nil] at happend
  exact ⟨fun hc => absurd hc (by decide), fun _ => .inr ⟨line, rfl, rfl⟩, by decide,
    Tame.append (tidy_plain (s := "ernel") (by decide)).tame hline⟩

/-- The text of the draft after its extensions is tame: the kernel has the header of the draft. -/
theorem Sparing.tame (h : Sparing name out d) (hname : name.toList.all isPlainChar = true)
    {cs : List Char} (hcs : d.declarations.toList = cs) :
    Tame (some (headerText name d.parameters.toList d.ending.toList)) cs := by
  have hstructs : Tidy (String.join (d.pre.structs.values.map fun ts => Ty.typedef ts ++ "\n")) :=
    tidy_join fun s hs => by
      obtain ⟨ts, -, rfl⟩ := List.mem_map.mp hs
      exact (Ty.tidy_typedef ts).append (tidy_plain (by decide))
  have hfunctions : Tidy (String.join (d.pre.functions.values.map fun src => src ++ "\n")) :=
    tidy_join fun s hs => by
      obtain ⟨src, hsrc, rfl⟩ := List.mem_map.mp hs
      exact (h.neat.functions src hsrc).append (tidy_plain (by decide))
  have hparameters : Tidy d.parameters := tidy_intercalate (tidy_plain (by decide)) fun s hs => by
    obtain ⟨a, ha, rfl⟩ := List.mem_map.mp hs
    exact (h.spelled a ha).tidy
  have hending : Tidy d.ending :=
    ((tidy_plain (by decide)).append h.neat.body).append (tidy_plain (by decide))
  have hline : Tidy (" void " ++ name ++ "(" ++ d.parameters ++ ")" ++ d.ending) :=
    (((((tidy_plain (by decide)).append (tidy_plain hname)).append (tidy_plain (by decide))).append
      hparameters).append (tidy_plain (by decide))).append hending
  have hopening : "(".toList = ['('] := rfl
  have hclosing : ")".toList = [')'] := rfl
  have hdefinition : headerText name d.parameters.toList d.ending.toList = " void ".toList ++
      (name.toList ++ '(' :: (d.parameters.toList ++ ')' :: d.ending.toList)) := rfl
  have hheader : (" void " ++ name ++ "(" ++ d.parameters ++ ")" ++ d.ending).toList =
      headerText name d.parameters.toList d.ending.toList := by
    rw [hdefinition]
    simp only [String.toList_append, hopening, hclosing, List.append_assoc, List.cons_append, List.nil_append]
  have htext : d.declarations.toList =
      (String.join (d.pre.structs.values.map fun ts => Ty.typedef ts ++ "\n") ++
        String.join (d.pre.functions.values.map fun src => src ++ "\n") ++ "__").toList ++
        'k' :: ("ernel".toList ++ headerText name d.parameters.toList d.ending.toList) := by
    have hword : "__kernel void ".toList = "__".toList ++ 'k' :: ("ernel".toList ++ " void ".toList) := rfl
    have hopen : ")\n\x7b\n".toList = ')' :: "\n\x7b\n".toList := rfl
    rw [declarations, h.name, hdefinition]
    simp only [parameters, ending, String.toList_append, hword, hopen, hopening, List.append_assoc,
      List.cons_append, List.nil_append]
  have hfront := (hstructs.append hfunctions).append (tidy_plain (s := "__") (by decide))
  have hkernel := hline.tame
  rw [hheader] at hkernel
  rw [← hcs, htext]
  exact Tame.append hfront.tame (tame_kernel hkernel)

/-- **The lexemes of the text are guarded**, whether or not it asks for double precision. -/
theorem Sparing.guarded (h : Sparing name out d) (hname : Titled name) {file : String} {stream : TokenStream}
    (hstream : TokenStream.ofText file (SourceText.ofString d.text) = stream) :
    Token.Guarded (HeaderLine name) stream.lexemes := by
  generalize hcs : d.declarations.toList = cs
  have htame := h.tame hname.plain hcs
  have hword := isWord_of_isIdent hname.ident
  have htoken := word_of_isIdent hname.ident
  rcases h.neat.standard with hnone | hdouble
  · have htext : SourceText.ofString d.text = SourceText.ofChars cs := by
      rw [@text_eq d false hnone, ← hcs]
      simp [SourceText.ofString, pragmaText]
    rw [← hstream, htext]
    exact Code.guarded_ofText hword htoken h.listed htame file
  · have htext : SourceText.ofString d.text = SourceText.ofChars (doublePragma ++ '\n' :: '\n' :: cs) := by
      have hbreak : ("\n\n" : String).toList = ['\n', '\n'] := rfl
      rw [@text_eq d true hdouble, ← hcs]
      simp [SourceText.ofString, pragmaText, hbreak]
    have hblank : Tame (some (headerText name d.parameters.toList d.ending.toList)) ('\n' :: cs) :=
      ⟨fun h => absurd h (by decide), fun h => absurd h (by decide), by decide, htame⟩
    rw [← hstream, htext]
    exact Code.guarded_ofText_of_pragma hword htoken h.listed hblank isPragma_double file

/-- **A kernel that is sparing leaves every memory but that of the index as it was**, whatever crew runs
it and however its run ends. -/
theorem Sparing.kept (h : Sparing name out d) (hname : Titled name) {p : Program}
    (hbuild : Program.build (.ofString d.source.1) = .built p) {k : CheckedFn} (hk : k ∈ p.kernels)
    {args : List KernelArg} (hfirst : ∀ a ∈ args.head?, a.memory? = some out) {m : Nat} (hm : m ≠ out)
    (crew : Crew) (rounds : Nat) (offset extent : Int) (st : Store) :
    (p.runBy crew rounds k args offset extent st).2[m]? = st[m]? := by
  rw [source] at hbuild
  have hsettled := h.advance d.advances_settle
  generalize hstream : TokenStream.ofText Program.fileName (.ofString d.settle.text) = stream
  have hguarded := hsettled.guarded hname hstream
  obtain ⟨file, b, hfile, hb, -, rfl⟩ := Program.build_ok hbuild
  have hfile' := hfile
  rw [hstream] at hfile'
  have huses := Code.File.noPointerCasts_of_guarded hguarded hfile'
  have hparams := Code.File.kernels_of_header hname.word hguarded hfile'
  obtain ⟨hmem, hkernel⟩ := List.mem_filter.mp hk
  have hreads := Builder.readsRest_ofFile huses hparams hb k hmem hkernel
  refine (Program.read_only_memory_kept hfile huses hbuild hk (fun elem space readOnly hpasses => ?_)
    offset extent st).2.2 crew rounds
  exact .inl (hreads.isRead hfirst hm hpasses elem space readOnly rfl)

end Draft

end KernelForge
