/-
Structures from the draft to the device.

The declarations of the structures of a draft are read as they were meant: every structure gets the
type of its tuple, with the names that tuples give to their fields.
-/
import KernelForge.Program.Build
import KernelForge.Proofs.Code.Reading
import KernelForge.Proofs.Draft.Structures
import KernelForge.Proofs.Names
import KernelForge.Proofs.Token.Streams

namespace KernelForge

/-! ### Names of fields -/

namespace Ty

theorem isWord_fieldName (n i : Nat) : Token.isWord (fieldName n i).toList = true := by
  unfold fieldName
  split
  · split <;> decide
  · exact Names.isWord_indexedName (by decide) i

theorem word_fieldName (n i : Nat) : Token.word (fieldName n i) = .name (fieldName n i) := by
  unfold fieldName
  split
  · split <;> rfl
  · exact Names.word_indexedName "v" i

theorem isQualifier_fieldName (n i : Nat) :
    Code.Scope.isQualifier (.name (fieldName n i)) = false := by
  unfold fieldName
  split
  · split <;> rfl
  · exact Names.isQualifier_indexedName "v" i

/-- Fields of one tuple have different names. -/
theorem fieldName_inj {n i j : Nat} (hi : i < n) (hj : j < n) (h : fieldName n i = fieldName n j) :
    i = j := by
  unfold fieldName at h
  split at h
  · subst n
    rcases Nat.lt_succ_iff_lt_or_eq.mp hi with hi | rfl <;>
      rcases Nat.lt_succ_iff_lt_or_eq.mp hj with hj | rfl
    · omega
    · simp [Nat.lt_one_iff.mp hi] at h
    · simp [Nat.lt_one_iff.mp hj] at h
    · rfl
  · exact Names.indexedName_inj h

/-! ### Tokens -/

/-- The tokens of the fields of a tuple of `n` fields, the first of them being field `i`. -/
def fieldTokens (n i : Nat) : List Ty → List Token
  | [] => []
  | t :: ts => .name t.name :: .name (fieldName n i) :: .op .semicolon :: fieldTokens n (i + 1) ts

/-- The tokens of the declaration of a structure. -/
def typedefTokens (ts : List Ty) : List Token :=
  .name "typedef" :: .keyword .struct :: .op .lbrace ::
    (fieldTokens ts.length 0 ts ++ [.op .rbrace, .name (tuple ts).name, .op .semicolon])

open Token in
theorem scans_fields {ts : List Ty} (hts : areData ts = true) {n i : Nat} {rest : List Char}
    {us : List Token} (h : Scans rest us) :
    Scans ((String.join ((ts.zipIdx i).map fun (t, i) =>
        "    " ++ t.name ++ " " ++ fieldName n i ++ ";\n")).toList ++ rest)
      (fieldTokens n i ts ++ us) := by
  induction ts generalizing i with
  | nil => exact h
  | cons t ts ih =>
    rw [areData, Bool.and_eq_true] at hts
    have h := (ih hts.2 (i := i + 1)).blank (c := '\n') (.inr rfl)
    have h := h.mark (o := .semicolon) (c := ';') rfl (by decide)
    have h := h.spelled (isWord_fieldName n i) (word_fieldName n i) (.cons (by decide) _)
    have h := h.blank (.inl rfl)
    have h := h.spelled (isWord_name hts.1) (word_name hts.1) (.cons (by decide) _)
    have h := h.blanks [' ', ' ', ' ', ' '] (forall_mem_of_all (by decide))
    simpa [fieldTokens] using h

open Token in
theorem scans_typedef {ts : List Ty} (hts : (tuple ts).isData = true) {rest : List Char}
    {us : List Token} (h : Scans rest us) :
    Scans ((typedef ts ++ "\n").toList ++ rest) (typedefTokens ts ++ us) := by
  have h := h.blanks ['\n', '\n'] (forall_mem_of_all (by decide))
  have h := h.mark (o := .semicolon) (c := ';') rfl (by decide)
  have h := h.spelled (isWord_name hts) (word_name hts) (.cons (by decide) _)
  have h := h.blank (.inl rfl)
  have h := h.mark (o := .rbrace) (c := '}') rfl (by decide)
  have h := scans_fields (n := ts.length) (i := 0) (by simpa [isData] using hts) h
  have h := h.blank (c := '\n') (.inr rfl)
  have h := h.mark (o := .lbrace) (c := '{') rfl (by decide)
  have h := h.blank (.inl rfl)
  have h := h.spelled (w := "struct") (t := .keyword .struct) (by decide) rfl (.cons (by decide) _)
  have h := h.blank (.inl rfl)
  have h := h.spelled (w := "typedef") (t := .name "typedef") (by decide) rfl (.cons (by decide) _)
  have hfirst : "typedef struct \x7b\n".toList =
      "typedef".toList ++ ' ' :: ("struct".toList ++ [' ', '{', '\n']) := rfl
  have hclose : "\x7d ".toList = ['}', ' '] := rfl
  have hend : ";\n".toList = [';', '\n'] := rfl
  unfold typedef typedefTokens
  simp only [String.toList_append, hfirst, hclose, hend, List.append_assoc, List.cons_append,
    List.nil_append]
  exact h

/-! ### Trees -/

open Code Code.Scope

/-- The trees of the fields of a tuple of `n` fields, the first of them being field `i`. -/
def FieldTrees (n i : Nat) : List Ty → List Field → Prop
  | [], fs => fs = []
  | t :: ts, fs => ∃ spec o fs', fs = ⟨spec, ⟨o, fieldName n i⟩⟩ :: fs' ∧ Says [] t.name false spec ∧
      FieldTrees n (i + 1) ts fs'

/-- The tree of the declaration of a structure. -/
structure TypedefTree (ts : List Ty) (d : Typedef) : Prop where
  name : d.name.name = (tuple ts).name
  fields : FieldTrees ts.length 0 ts d.fields

/-- A scope in which some structures are known. -/
def Heard (known : List (List Ty)) (s : Scope) : Prop :=
  s.typedefs = known.map fun ts => (tuple ts).name

theorem isTypeWord_known {s : Scope} {known : List (List Ty)} (hs : Heard known s) {t : Ty}
    (ht : t.isData = true) (hknown : ∀ ts, t = .tuple ts → ts ∈ known) : IsTypeWord s t.name := by
  refine isTypeWord_name ht ?_
  rcases isData_cases ht with hplain | ⟨ts, rfl, -⟩
  · exact .inl hplain
  · rw [hs]
    exact .inr (List.mem_map.mpr ⟨ts, hknown ts rfl, rfl⟩)

theorem unqualified_name {w : String} (hw : isQualifier (.name w) = false) (us : List Token) :
    Unqualified (.name w :: us) := by
  rintro t ⟨⟩
  exact hw

theorem reads_fields {s : Scope} {known : List (List Ty)} (hs : Heard known s) {n : Nat}
    {us : List Token} : ∀ {ts : List Ty} {i : Nat}, areData ts = true →
    (∀ us, .tuple us ∈ ts → us ∈ known) →
      Reads s.structFields (fieldTokens n i ts ++ .op .rbrace :: us) us (FieldTrees n i ts)
  | [], i, _, _ => reads_fields_nil
  | t :: ts, i, hts, hknown => by
    rw [areData, Bool.and_eq_true] at hts
    have hword := isTypeWord_known hs hts.1 fun us hus => hknown us (hus ▸ List.mem_cons_self)
    have htype := @reads_typeSpec s _ [] _ (List.forall_mem_nil _) hword
      (unqualified_name (isQualifier_fieldName n i) (.op .semicolon ::
        (fieldTokens n (i + 1) ts ++ .op .rbrace :: us))) nofun
    exact reads_fields_cons nofun htype
      (reads_fields hs hts.2 fun us hus => hknown us (List.mem_cons_of_mem _ hus))

theorem reads_typedefTree {s : Scope} {known : List (List Ty)} (hs : Heard known s) {ts : List Ty}
    (hts : areData ts = true) (hknown : ∀ us, .tuple us ∈ ts → us ∈ known) (us : List Token)
    (o : Nat) :
    Reads (s.typedef o) ((typedefTokens ts).tail ++ us) us
      fun d => d.name.name = (tuple ts).name ∧ TypedefTree ts d := by
  have hfields : Reads s.structFields (fieldTokens ts.length 0 ts ++ .op .rbrace ::
      .name (tuple ts).name :: .op .semicolon :: us) _ (FieldTrees ts.length 0 ts) :=
    reads_fields hs hts hknown
  have htokens : (typedefTokens ts).tail ++ us = .keyword .struct :: .op .lbrace ::
      (fieldTokens ts.length 0 ts ++ .op .rbrace :: .name (tuple ts).name :: .op .semicolon :: us) := by
    simp [typedefTokens]
  rw [htokens]
  refine (reads_typedef o hfields).mono ?_
  rintro _ ⟨fs, o', rfl, hfs⟩
  exact ⟨rfl, rfl, hfs⟩

/-- The trees of some declarations. -/
inductive TypedefTrees : List (List Ty) → List Typedef → Prop
  | nil : TypedefTrees [] []
  | cons {ts : List Ty} {d : Typedef} {tss : List (List Ty)} {ds : List Typedef}
      (hd : TypedefTree ts d) (hds : TypedefTrees tss ds) : TypedefTrees (ts :: tss) (d :: ds)

theorem Ordered.of_append {newer older : List (List Ty)} (h : Ordered (newer ++ older)) :
    Ordered older := by
  induction newer with
  | nil => exact h
  | cons ts newer ih =>
    cases h with
    | cons holder _ _ _ => exact ih holder

/-- **The declarations of structures are read as they were meant.**  The structures `tss` come in
the order of the source, after those that are known. -/
theorem readsFile_typedefs {us : List Token} {Q : File → Prop} :
    ∀ {tss known : List (List Ty)} {s : Scope}, Ordered (tss.reverse ++ known) → Heard known s →
      (∀ s', Heard (tss.reverse ++ known) s' → ReadsFile s' us Q) →
      s.ReadsFile (tss.flatMap typedefTokens ++ us)
        fun f => ∃ ds f', f = { f' with typedefs := ds ++ f'.typedefs } ∧ TypedefTrees tss ds ∧ Q f'
  | [], known, s, _, hs, hrest => by
    intro ls hls
    obtain ⟨f, hf, hq⟩ := hrest s hs ls hls
    exact ⟨f, hf, [], f, rfl, .nil, hq⟩
  | ts :: tss, known, s, hord, hs, hrest => by
    have hshape : (ts :: tss).reverse ++ known = tss.reverse ++ ts :: known := by simp
    rw [hshape] at hord hrest
    cases hord.of_append with
    | cons holder hdata hfields hnew =>
      have hs' : Heard (ts :: known) { s with typedefs := (tuple ts).name :: s.typedefs } := by
        rw [Heard, hs]
        rfl
      have hmore := readsFile_typedefs hord hs' hrest
      have hfirst := reads_typedefTree hs hdata hfields (tss.flatMap typedefTokens ++ us)
      have htokens : (ts :: tss).flatMap typedefTokens ++ us = .name "typedef" ::
          ((typedefTokens ts).tail ++ (tss.flatMap typedefTokens ++ us)) := by
        simp [typedefTokens]
      rw [htokens]
      intro ls hls
      obtain ⟨f, hf, d, f', rfl, ⟨-, hd⟩, ds, f'', rfl, hds, hq⟩ :=
        readsFile_typedef hfirst hmore ls hls
      exact ⟨_, hf, d :: ds, f'', rfl, .cons hd hds, hq⟩

end Ty

/-! ### Types of structures -/

namespace NamedTy

/-- The names of the fields of a tuple of `n` fields, the first of them being field `i`. -/
def fieldNames (n i : Nat) : List Ty → List String
  | [] => []
  | _ :: ts => Ty.fieldName n i :: fieldNames n (i + 1) ts

mutual

/-- A type whose structures have the fields of tuples. -/
def ofTy : Ty → NamedTy
  | .void => .void
  | .scalar s => .scalar s
  | .vector s w => .vector s w
  | .tuple ts => .struct (fieldNames ts.length 0 ts) (ofTys ts)
  | .pointer t space readOnly => .pointer (ofTy t) space readOnly

def ofTys : List Ty → List NamedTy
  | [] => []
  | t :: ts => ofTy t :: ofTys ts

end

mutual

@[simp] theorem ty_ofTy : ∀ t : Ty, (ofTy t).ty = t
  | .void => rfl
  | .scalar s => rfl
  | .vector s w => rfl
  | .tuple ts => by rw [ofTy, ty, tys_ofTys ts]
  | .pointer t space readOnly => by rw [ofTy, ty, ty_ofTy t]

@[simp] theorem tys_ofTys : ∀ ts : List Ty, tys (ofTys ts) = ts
  | [] => rfl
  | t :: ts => by rw [ofTys, tys, ty_ofTy t, tys_ofTys ts]

end

theorem ofPlain?_of_isPlain {t : Ty} (h : t.isPlain = true) : ofPlain? t = some (ofTy t) := by
  cases t with
  | scalar s => rfl
  | vector s w => rfl
  | _ => cases h

end NamedTy

/-! ### Checked structures -/

namespace Env

open Ty (Ordered Known FieldTrees TypedefTree TypedefTrees)

/-- What is known of the structures of a draft, and whether there are doubles. -/
structure Knows (known : List (List Ty)) (fp64 : Bool) (env : Env) : Prop where
  structs : env.structs = known.map fun ts => ((Ty.tuple ts).name, NamedTy.ofTy (.tuple ts))
  fp64 : env.fp64 = fp64

variable {known : List (List Ty)} {fp64 : Bool} {env : Env}

theorem Knows.lookup_none (h : env.Knows known fp64) {w : String}
    (hw : ∀ ts ∈ known, (Ty.tuple ts).name ≠ w) : env.structs.lookup w = none := by
  rw [h.structs, List.lookup_eq_none_iff]
  intro e he
  obtain ⟨ts, hts, rfl⟩ := List.mem_map.mp he
  simpa using (hw ts hts).symm

theorem Knows.lookup_tuple (h : env.Knows known fp64) (hordered : Ordered known) {ts : List Ty}
    (hts : ts ∈ known) :
    env.structs.lookup (Ty.tuple ts).name = some (NamedTy.ofTy (.tuple ts)) := by
  rw [h.structs]
  clear h
  induction known with
  | nil => cases hts
  | cons us older ih =>
    rw [List.map_cons, List.lookup_cons]
    by_cases hname : (Ty.tuple us).name = (Ty.tuple ts).name
    · have heq : us = ts := hordered.mem_of_name List.mem_cons_self (hordered.data ts hts) hname
      simp [heq]
    · have hne : ((Ty.tuple ts).name == (Ty.tuple us).name) = false :=
        beq_eq_false_iff_ne.mpr (Ne.symm hname)
      have hmem : ts ∈ older := by
        rcases List.mem_cons.mp hts with rfl | hmem
        · exact absurd rfl hname
        · exact hmem
      rw [hne]
      cases hordered with
      | cons holder _ _ _ => exact ih holder hmem

theorem Knows.typeNamed? (h : env.Knows known fp64) (hordered : Ordered known) {t : Ty}
    (ht : t.isData = true) (hknown : t.Known known fp64) :
    env.typeNamed? t.name = some (NamedTy.ofTy t) := by
  unfold Env.typeNamed?
  rcases Ty.isData_cases ht with hplain | ⟨ts, rfl, hts⟩
  · have hnone : env.structs.lookup t.name = none := by
      exact h.lookup_none fun us _ => Ty.name_tuple_ne us (Ty.startsTuple_plain hplain)
    have hvoid : t.name ≠ "void" := Ty.name_ne ht rfl rfl
    rw [hnone, if_neg hvoid, Ty.parse?_name hplain, Option.bind_some,
      NamedTy.ofPlain?_of_isPlain hplain]
  · rw [h.lookup_tuple hordered (hknown.struct ts rfl)]

/-- A type of data that is written is found. -/
theorem Knows.resolve (h : env.Knows known fp64) (hordered : Ordered known) {t : Ty}
    (ht : t.isData = true) (hknown : t.Known known fp64) {qs : List Token} {pointer : Bool}
    {spec : Code.TypeSpec} (hspec : Code.Scope.Says qs t.name pointer spec) :
    env.resolve spec =
      .ok (if pointer then .pointer (NamedTy.ofTy t) spec.space spec.readOnly else NamedTy.ofTy t) := by
  have hdouble : (t.usesDouble && !env.fp64) = false := by
    cases hd : t.usesDouble with
    | false => rfl
    | true => rw [h.fp64, hknown.double hd]; rfl
  have hvoid : t ≠ .void := by
    rintro rfl
    cases ht
  unfold Env.resolve
  rw [hspec.name, h.typeNamed? hordered ht hknown]
  simp only [NamedTy.ty_ofTy, hdouble, hspec.pointer, hvoid, Bool.false_eq_true, if_false]
  cases pointer <;> rfl

theorem Knows.checkMembers (h : env.Knows known fp64) (hordered : Ordered known) {n : Nat} :
    ∀ {ts : List Ty} {fs : List Code.Field} {i : Nat} {seen : List String},
      Ty.areData ts = true → (∀ t ∈ ts, t.Known known fp64) → FieldTrees n i ts fs →
      i + ts.length ≤ n → (∀ x ∈ seen, ∃ j < i, x = Ty.fieldName n j) →
      env.checkMembers seen fs = .ok (NamedTy.fieldNames n i ts, NamedTy.ofTys ts)
  | [], fs, i, seen, _, _, hfs, _, _ => by
    cases hfs
    rfl
  | t :: ts, fs, i, seen, hdata, hknown, hfs, hlen, hseen => by
    obtain ⟨spec, o, fs', rfl, hspec, hfs'⟩ := hfs
    rw [Ty.areData, Bool.and_eq_true] at hdata
    rw [List.length_cons] at hlen
    have hnew : seen.contains (Ty.fieldName n i) = false := by
      rw [Bool.eq_false_iff]
      intro hmem
      obtain ⟨j, hj, heq⟩ := hseen _ (List.contains_iff_mem.mp hmem)
      have := Ty.fieldName_inj (by omega) (by omega) heq
      omega
    have hseen' : ∀ x ∈ Ty.fieldName n i :: seen, ∃ j < i + 1, x = Ty.fieldName n j := by
      refine List.forall_mem_cons.mpr ⟨⟨i, by omega, rfl⟩, fun x hx => ?_⟩
      obtain ⟨j, hj, heq⟩ := hseen x hx
      exact ⟨j, by omega, heq⟩
    have hmore := checkMembers h hordered hdata.2
      (fun u hu => hknown u (List.mem_cons_of_mem _ hu)) hfs' (by omega) hseen'
    unfold Env.checkMembers
    rw [h.resolve hordered hdata.1 (hknown t List.mem_cons_self) hspec]
    simp only [hspec.pointer, Bool.false_eq_true, if_false, hnew, hmore]
    rfl

theorem Knows.checkTypedef (h : env.Knows known fp64) {ts : List Ty}
    (hordered : Ordered (ts :: known)) (hdouble : Ty.anyUsesDouble ts = true → fp64 = true)
    {d : Code.Typedef} (hd : TypedefTree ts d) :
    ∃ env', env.checkTypedef d = .ok env' ∧ env'.Knows (ts :: known) fp64 ∧ env'.funcs = env.funcs := by
  cases hordered with
  | cons holder hdata hfields hnew =>
    have hknown : ∀ t ∈ ts, t.Known known fp64 := by
      refine fun t ht => ⟨fun us hus => hfields us (hus ▸ ht), fun hd => ?_⟩
      exact hdouble (Ty.anyUsesDouble_iff.mpr ⟨t, ht, hd⟩)
    have hmembers : env.checkMembers [] d.fields =
        .ok (NamedTy.fieldNames ts.length 0 ts, NamedTy.ofTys ts) :=
      h.checkMembers holder hdata hknown hd.fields (by omega) nofun
    have hnone : env.structs.lookup d.name.name = none := by
      rw [hd.name]
      refine h.lookup_none fun us hus heq => hnew ?_
      rw [← holder.mem_of_name hus hdata heq]
      exact hus
    refine ⟨{ env with structs := (d.name.name, NamedTy.ofTy (.tuple ts)) :: env.structs }, ?_, ?_, rfl⟩
    · unfold Env.checkTypedef
      rw [hmembers]
      simp only [Bind.bind, Except.bind, hnone, Option.isSome_none, Bool.false_eq_true, if_false]
      rw [NamedTy.ofTy]
      rfl
    · refine ⟨?_, h.fp64⟩
      rw [hd.name, h.structs]
      rfl

end Env

namespace Builder

/-- A builder that has objected to nothing and checked no function. -/
structure Fresh (known : List (List Ty)) (fp64 : Bool) (b : Builder) : Prop where
  knows : b.env.Knows known fp64
  noFuncs : b.env.funcs = []
  funcs : b.funcs = []
  log : b.log = []

/-- Checking the declarations of structures makes them known. -/
theorem Fresh.typedefs {fp64 : Bool} : ∀ {tss known : List (List Ty)} {ds : List Code.Typedef}
    {b : Builder}, Ty.Ordered (tss.reverse ++ known) →
      (∀ ts ∈ tss, Ty.anyUsesDouble ts = true → fp64 = true) → Ty.TypedefTrees tss ds →
      b.Fresh known fp64 →
      ∃ b', ds.foldlM (fun b d => b.learn (b.env.checkTypedef d)) b = some b' ∧
        b'.Fresh (tss.reverse ++ known) fp64
  | [], known, _, b, _, _, .nil, hb => ⟨b, rfl, hb⟩
  | ts :: tss, known, _, b, hord, hdouble, .cons hd hds, hb => by
    have hshape : (ts :: tss).reverse ++ known = tss.reverse ++ ts :: known := by simp
    rw [hshape] at hord ⊢
    obtain ⟨env', hcheck, hknows, hfuncs⟩ :=
      hb.knows.checkTypedef hord.of_append (hdouble ts List.mem_cons_self) hd
    have hb' : Fresh (ts :: known) fp64 { b with env := env' } :=
      ⟨hknows, hfuncs.trans hb.noFuncs, hb.funcs, hb.log⟩
    obtain ⟨b', hfold, hfresh⟩ :=
      Fresh.typedefs hord (fun us hus => hdouble us (List.mem_cons_of_mem _ hus)) hds hb'
    refine ⟨b', ?_, hfresh⟩
    rw [List.foldlM_cons, hcheck]
    exact hfold

end Builder

end KernelForge
