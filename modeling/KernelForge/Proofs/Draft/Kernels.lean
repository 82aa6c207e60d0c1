/-
Kernels from the draft to the device.

The source of a draft is read as it was meant: its extensions, its structures, and a kernel with
the arguments of the draft as parameters.  So the draft of a kernel is built to a program whenever
the statements of its body can be read and checked; what they are made of does not matter here.
-/
import KernelForge.Proofs.Formula.Performing
import KernelForge.Proofs.Program.Built

namespace KernelForge

open Code Code.Scope
open Token (Scans Ends commaTokens)

/-! ### Parameters -/

namespace DraftArg

/-- An argument that a kernel can have: a value, or a buffer that is not its own. -/
structure Usable (a : DraftArg) : Prop where
  ident : isIdent a.name = true
  unqualified : isQualifier (.name a.name) = false
  data : a.elem.isData = true
  shared : ∀ {t space readOnly}, a.type = .pointer t space readOnly → space = .global ∨ space = .constant

/-- The tokens that qualify the elements of a buffer. -/
def bufferQualifiers (space : Space) (readOnly : Bool) : List Token :=
  .name space.qualifier :: if readOnly then [.keyword .const] else []

/-- The tokens that qualify the type of a parameter; values are read-only. -/
def qualifiers (a : DraftArg) : List Token :=
  match a.type with
  | .pointer _ space readOnly => bufferQualifiers space readOnly
  | _ => [.keyword .const]

def tokens (a : DraftArg) : List Token :=
  a.qualifiers ++ .name a.elem.name :: if a.isBuffer then [.op .mul, .name a.name] else [.name a.name]

/-- The trees of parameters. -/
def Trees : List DraftArg → List Field → Prop
  | [], fs => fs = []
  | a :: as, fs => ∃ spec o fs', fs = ⟨spec, ⟨o, a.name⟩⟩ :: fs' ∧
      Says a.qualifiers a.elem.name a.isBuffer spec ∧ Trees as fs'

/-- The variable that a parameter is, in a slot. -/
def toVariable (a : DraftArg) (slot : Nat) : Variable :=
  { slot, type := NamedTy.ofTy a.type, readOnly := !a.isBuffer }

/-- A usable argument is a value or a buffer. -/
theorem Usable.cases {a : DraftArg} (h : a.Usable) :
    (a.type.isData = true ∧ a.isBuffer = false ∧ a.elem = a.type ∧ a.qualifiers = [.keyword .const]) ∨
      ∃ t space readOnly, a.type = .pointer t space readOnly ∧ (space = .global ∨ space = .constant) ∧
        a.isBuffer = true ∧ a.elem = t ∧ a.qualifiers = bufferQualifiers space readOnly := by
  obtain ⟨name, type, buffer?, value?⟩ := a
  cases type with
  | pointer t space readOnly => exact .inr ⟨t, space, readOnly, rfl, h.shared rfl, rfl, rfl, rfl⟩
  | void => exact absurd h.data (by simp [elem, Ty.isData])
  | _ => exact .inl ⟨h.data, rfl, rfl, rfl⟩

theorem Usable.qualifiers {a : DraftArg} (h : a.Usable) : ∀ q ∈ a.qualifiers, isQualifier q = true := by
  rcases h.cases with ⟨-, -, -, hq⟩ | ⟨t, space, readOnly, -, hspace, -, -, hq⟩
  · rw [hq]
    decide
  · rw [hq]
    rcases hspace with rfl | rfl <;> cases readOnly <;> decide

theorem Usable.scans {a : DraftArg} (h : a.Usable) {c : Char} (hc : c = ',' ∨ c = ')')
    {rest : List Char} {us : List Token} (hs : Scans (c :: rest) us) :
    Scans ((Draft.param a).toList ++ c :: rest) (a.tokens ++ us) := by
  have hend : Ends Text.isNameChar (c :: rest) := by
    rcases hc with rfl | rfl <;> exact .cons (by decide) _
  have hdata := h.data
  have hs := scans_ident h.ident hend hs
  have hs := hs.blank (c := ' ') (.inl rfl)
  rcases h.cases with ⟨-, hbuffer, helem, hq⟩ | ⟨t, space, readOnly, ht, hspace, hbuffer, helem, hq⟩
  · rw [helem] at hdata
    have hs := hs.spelled (Ty.isWord_name hdata) (Ty.word_name hdata) (.cons (by decide) _)
    have hs := hs.blank (c := ' ') (.inl rfl)
    have hs := hs.spelled (w := "const") (t := .keyword .const) (by decide) rfl (.cons (by decide) _)
    have hconst : "const ".toList = "const".toList ++ [' '] := rfl
    rw [Draft.param, tokens, hq, hbuffer, helem]
    simpa [hconst] using hs
  · rw [helem] at hdata
    have hs := hs.op (o := .mul) rfl (by decide) (.inr (.cons (Token.goesOn_blank _) _))
    have hstar : Operator.mul.spelling.toList = ['*'] := rfl
    rw [hstar, List.singleton_append] at hs
    have hs := hs.spelled (Ty.isWord_name hdata) (Ty.word_name hdata) (.cons (by decide) _)
    have hs := hs.blank (c := ' ') (.inl rfl)
    have hconst : "const ".toList = "const".toList ++ [' '] := rfl
    have hword : Token.isWord space.qualifier.toList = true ∧
        Token.word space.qualifier = .name space.qualifier ∧ space ≠ .priv := by
      rcases hspace with rfl | rfl <;> exact ⟨by decide, rfl, by decide⟩
    rw [Draft.param, tokens, hq, hbuffer, helem, ht]
    cases readOnly with
    | false =>
      have hs := hs.spelled hword.1 hword.2.1 (.cons (by decide) _)
      simpa [Ty.name, bufferQualifiers, hword.2.2] using hs
    | true =>
      have hs := hs.spelled (w := "const") (t := .keyword .const) (by decide) rfl (.cons (by decide) _)
      have hs := hs.blank (c := ' ') (.inl rfl)
      have hs := hs.spelled hword.1 hword.2.1 (.cons (by decide) _)
      simpa [Ty.name, bufferQualifiers, hword.2.2, hconst] using hs

theorem Usable.reads {a : DraftArg} (h : a.Usable) {s : Code.Scope} {known : List (List Ty)}
    (hs : Ty.Heard known s) (hknown : ∀ ts, a.elem = .tuple ts → ts ∈ known) (us : List Token) :
    Reads s.typeSpec (a.tokens ++ us) (.name a.name :: us)
      (Says a.qualifiers a.elem.name a.isBuffer) := by
  have hword := Ty.isTypeWord_known hs h.data hknown
  have hend := Ty.unqualified_name h.unqualified us
  rw [tokens]
  cases a.isBuffer with
  | false =>
    have hread := reads_typeSpec (s := s) h.qualifiers hword hend (by simp)
    simpa using hread
  | true =>
    have hread := reads_pointer (s := s) h.qualifiers hword hend (by simp)
    simpa using hread

/-- A parameter starts with what qualifies its type. -/
theorem head?_tokens (a : DraftArg) (us : List Token) :
    (a.tokens ++ us).head? = some (.keyword .const) ∨
      ∃ space : Space, (a.tokens ++ us).head? = some (.name space.qualifier) := by
  obtain ⟨name, type, buffer?, value?⟩ := a
  cases type with
  | pointer t space readOnly => exact .inr ⟨space, rfl⟩
  | _ => exact .inl rfl

theorem head?_tokens_ne (a : DraftArg) (us : List Token) :
    (a.tokens ++ us).head? ≠ some (.op .rparen) ∧ (a.tokens ++ us).head? ≠ some (.name "void") := by
  rcases a.head?_tokens us with h | ⟨space, h⟩
  · rw [h]
    exact ⟨by simp, by simp⟩
  · rw [h]
    cases space <;> exact ⟨by simp, by simp [Space.qualifier]⟩

theorem head?_params_ne {as : List DraftArg} (h : as ≠ []) (us : List Token) :
    (commaTokens tokens as ++ us).head? ≠ some (.name "void") := by
  cases as with
  | nil => exact absurd rfl h
  | cons a as =>
    cases as with
    | nil => exact (a.head?_tokens_ne _).2
    | cons b as =>
      rw [commaTokens, List.append_assoc]
      exact (a.head?_tokens_ne _).2

theorem reads_params {s : Code.Scope} {known : List (List Ty)} (hs : Ty.Heard known s)
    {us : List Token} : ∀ {as : List DraftArg}, as ≠ [] → (∀ a ∈ as, a.Usable) →
      (∀ a ∈ as, ∀ ts, a.elem = .tuple ts → ts ∈ known) →
      Reads s.params (commaTokens tokens as ++ .op .rparen :: us) us (Trees as)
  | [a], _, has, hknown => by
    have ha := has a List.mem_cons_self
    refine (reads_params_last (head?_tokens_ne a _).1
      (ha.reads hs (hknown a List.mem_cons_self) _)).mono ?_
    rintro _ ⟨spec, o, rfl, hspec⟩
    exact ⟨spec, o, [], rfl, hspec, rfl⟩
  | a :: b :: as, _, has, hknown => by
    have ha := has a List.mem_cons_self
    have hrest : Reads s.params (commaTokens tokens (b :: as) ++ .op .rparen :: us) us _ :=
      reads_params hs (by simp) (fun c hc => has c (List.mem_cons_of_mem _ hc))
        fun c hc => hknown c (List.mem_cons_of_mem _ hc)
    rw [commaTokens, List.append_assoc]
    refine (reads_params_cons (head?_tokens_ne a _).1
      (ha.reads hs (hknown a List.mem_cons_self) _) hrest).mono ?_
    rintro _ ⟨spec, o, fs, rfl, hspec, hfs⟩
    exact ⟨spec, o, fs, rfl, hspec, hfs⟩

end DraftArg

/-! ### Checked parameters -/

namespace Env

/-- The variables are some arguments, in the slots of their order. -/
structure Holds (args : List DraftArg) (env : Env) : Prop where
  slots : env.slots = args.length
  finds : ∀ {i : Nat} {a : DraftArg}, args[i]? = some a → env.find? a.name = some (a.toVariable i)
  only : ∀ {x v}, env.find? x = some v →
    ∃ (i : Nat) (a : DraftArg), args[i]? = some a ∧ a.name = x ∧ v = a.toVariable i

variable {known : List (List Ty)} {fp64 : Bool} {env : Env} {args : List DraftArg}

theorem Holds.find?_none (h : env.Holds args) {x : String} (hx : ∀ a ∈ args, a.name ≠ x) :
    env.find? x = none := by
  cases hfind : env.find? x with
  | none => rfl
  | some v =>
    obtain ⟨i, a, ha, hname, -⟩ := h.only hfind
    exact absurd hname (hx a (List.mem_of_getElem? ha))

theorem Holds.extend (h : env.Holds args) {a : DraftArg} (hnew : ∀ b ∈ args, b.name ≠ a.name) :
    (env.extend a.name a.type (!a.isBuffer)).Holds (args ++ [a]) := by
  refine ⟨?_, fun {i b} hb => ?_, fun {x v} hv => ?_⟩
  · rw [List.length_append, ← h.slots]
    rfl
  · rcases Nat.lt_or_ge i args.length with hlt | hge
    · rw [List.getElem?_append_left hlt] at hb
      rw [find?_extend_ne (hnew b (List.mem_of_getElem? hb))]
      exact h.finds hb
    · rw [List.getElem?_append_right hge] at hb
      obtain ⟨hi, hget⟩ := List.getElem?_eq_some_iff.mp hb
      rw [List.length_singleton] at hi
      have hi' : i = args.length := by omega
      subst hi'
      simp only [Nat.sub_self, List.getElem_cons_zero] at hget
      subst hget
      rw [find?_extend_self, h.slots]
      rfl
  · by_cases hx : x = a.name
    · subst hx
      rw [find?_extend_self, h.slots] at hv
      cases hv
      exact ⟨args.length, a, by simp, rfl, rfl⟩
    · rw [find?_extend_ne hx] at hv
      obtain ⟨i, b, hb, hname, hvar⟩ := h.only hv
      refine ⟨i, b, ?_, hname, hvar⟩
      rw [List.getElem?_append_left (List.getElem?_eq_some_iff.mp hb).1]
      exact hb

/-- The type of a parameter is understood. -/
theorem Knows.resolve_arg (h : env.Knows known fp64) (hordered : Ty.Ordered known) {a : DraftArg}
    (ha : a.Usable) (hknown : a.elem.Known known fp64) {spec : TypeSpec}
    (hspec : Says a.qualifiers a.elem.name a.isBuffer spec) :
    env.resolve spec = .ok (NamedTy.ofTy a.type) ∧
      (spec.readOnly && !spec.pointer) = !a.isBuffer := by
  rw [h.resolve hordered ha.data hknown hspec, hspec.pointer]
  rcases ha.cases with ⟨-, hbuffer, helem, hq⟩ | ⟨t, space, readOnly, ht, hspace, hbuffer, helem, hq⟩
  · have hread := hspec.readOnly
    rw [hq] at hread
    rw [hbuffer, helem, hread]
    exact ⟨rfl, rfl⟩
  · have hread := hspec.readOnly
    have hplace := hspec.space
    rw [hq] at hread hplace
    rw [hbuffer, helem, ht, hread, hplace]
    rcases hspace with rfl | rfl <;> cases readOnly <;> exact ⟨rfl, rfl⟩

theorem checkKernelParam_arg {a : DraftArg} (ha : a.Usable) (f : Field) :
    checkKernelParam f (NamedTy.ofTy a.type) = .ok () ∧ a.type ≠ .void := by
  rcases ha.cases with ⟨hdata, -⟩ | ⟨t, space, readOnly, ht, hspace, -⟩
  · cases htype : a.type with
    | pointer t space readOnly =>
      rw [htype] at hdata
      cases hdata
    | void =>
      rw [htype] at hdata
      cases hdata
    | _ => exact ⟨rfl, nofun⟩
  · rw [ht]
    rcases hspace with rfl | rfl <;> exact ⟨rfl, nofun⟩

/-- **Parameters become the variables of the kernel, in their order.** -/
theorem Knows.checkParams (hordered : Ty.Ordered known) : ∀ {as before : List DraftArg}
    {fs : List Field} {env : Env}, env.Knows known fp64 → env.Holds before →
      (∀ a ∈ as, a.Usable ∧ a.elem.Known known fp64) → ((before ++ as).map (·.name)).Nodup →
      DraftArg.Trees as fs →
      ∃ env', env.checkParams true fs = .ok (as.map fun a => NamedTy.ofTy a.type, env') ∧
        env'.Knows known fp64 ∧ env'.Holds (before ++ as) ∧ env'.result = env.result
  | [], before, _, env, hknows, hholds, _, _, rfl =>
    ⟨env, rfl, hknows, by rw [List.append_nil]; exact hholds, rfl⟩
  | a :: as, before, _, env, hknows, hholds, has, hnodup, ⟨spec, o, fs, rfl, hspec, hfs⟩ => by
    obtain ⟨ha, hknown⟩ := has a List.mem_cons_self
    obtain ⟨hresolve, hread⟩ := hknows.resolve_arg hordered ha hknown hspec
    obtain ⟨hparam, hvoid⟩ := checkKernelParam_arg ha ⟨spec, ⟨o, a.name⟩⟩
    have hnew : ∀ b ∈ before, b.name ≠ a.name := by
      intro b hb
      rw [List.map_append, List.nodup_append] at hnodup
      exact hnodup.2.2 _ (List.mem_map_of_mem hb) _ (by simp)
    have hdeclare := @declare_extend _ _ a.type (!a.isBuffer) (hholds.find?_none hnew) o
    have hshape : before ++ a :: as = before ++ [a] ++ as := by simp
    rw [hshape] at hnodup ⊢
    have hknows' : (env.extend a.name a.type (!a.isBuffer)).Knows known fp64 :=
      ⟨hknows.structs, hknows.fp64⟩
    obtain ⟨env', hmore, hrest⟩ := Knows.checkParams hordered hknows' (hholds.extend hnew)
      (fun b hb => has b (List.mem_cons_of_mem _ hb)) hnodup hfs
    refine ⟨env', ?_, hrest⟩
    unfold Env.checkParams
    simp only [hresolve, NamedTy.ty_ofTy, hvoid, if_false, if_true, hparam, hread, hdeclare, hmore, bind,
      Except.bind]
    rfl

end Env

/-! ### Kernels -/

/-- A checked kernel: what it is called, what it takes, and what it does with how many slots. -/
structure CheckedFn.IsDrafted (name : String) (args : List DraftArg) (P : Action → Nat → Prop)
    (k : CheckedFn) : Prop where
  kernel : k.isKernel = true
  name : k.name = name
  params : k.params = args.map fun a => (a.name, a.type)
  body : P k.body k.slots

/-- What checking the statements of a body comes to, once the arguments are variables. -/
def Env.ChecksBody (known : List (List Ty)) (fp64 : Bool) (args : List DraftArg)
    (C : List Stmt → Prop) (P : Action → Nat → Prop) : Prop :=
  ∀ env : Env, env.Knows known fp64 → env.Holds args → ∀ ss, C ss →
    ∃ a env', env.openScope.checkStmts ss = .ok (a, env') ∧ P a env'.slots

/-- The statements of a body are refused once the arguments are variables. -/
def Env.RefusesBody (known : List (List Ty)) (fp64 : Bool) (args : List DraftArg)
    (C : List Stmt → Prop) : Prop :=
  ∀ env : Env, env.Knows known fp64 → env.Holds args → ∀ ss, C ss →
    ∃ c, env.openScope.checkStmts ss = .error c

theorem Env.checkHeader_kernel {known : List (List Ty)} {fp64 : Bool} {env : Env}
    {args : List DraftArg} (hknows : env.Knows known fp64) (hordered : Ty.Ordered known)
    (hfuncs : env.funcs = []) {name : String} (hname : isDeviceFunction name = false)
    (hargs : ∀ a ∈ args, a.Usable ∧ a.elem.Known known fp64)
    (hnodup : (args.map (·.name)).Nodup) {fn : Func} {C : List Stmt → Prop}
    (hfn : IsKernel name (DraftArg.Trees args) C fn) :
    ∃ inner, env.checkHeader fn = .ok (args.map fun a => NamedTy.ofTy a.type, inner) ∧
      inner.Knows known fp64 ∧ inner.Holds args ∧ inner.result = .void := by
  have hvoid : env.resolve fn.result = .ok .void := by
    have hlookup : env.structs.lookup "void" = none :=
      hknows.lookup_none fun ts _ => Ty.name_tuple_ne ts rfl
    simp only [Env.resolve, Env.typeNamed?, hfn.result.1, hlookup, if_true, hfn.result.2]
    rfl
  let start : Env := { env with scopes := [[]], slots := 0, fn := fn.name.name, result := .void }
  have hempty : start.Holds [] := ⟨rfl, by simp, by intros; contradiction⟩
  obtain ⟨inner, hparams, hknows', hholds, hresult⟩ := Env.Knows.checkParams hordered
    (⟨hknows.structs, hknows.fp64⟩ : start.Knows known fp64) hempty hargs hnodup hfn.params
  refine ⟨{ inner with funcs := (fn.name.name, ⟨fn.isKernel, .void, args.map fun a =>
    NamedTy.ofTy a.type⟩) :: env.funcs }, ?_, ⟨hknows'.structs, hknows'.fp64⟩,
    ⟨hholds.slots, hholds.finds, hholds.only⟩, hresult⟩
  unfold Env.checkHeader
  simp only [start, hfuncs, hfn.name, hname, hvoid, hfn.isKernel, List.lookup_nil, Option.isSome_none,
    Bool.false_eq_true, if_false, bind, Except.bind] at hparams ⊢
  simp only [hparams]
  rfl

theorem DraftArg.Trees.zip : ∀ {args : List DraftArg} {fs : List Field}, DraftArg.Trees args fs →
    (fs.zip (args.map fun a => NamedTy.ofTy a.type)).map (fun (f, t) => (f.name.name, t.ty)) =
      args.map fun a => (a.name, a.type)
  | [], _, rfl => rfl
  | a :: args, _, ⟨spec, o, fs, rfl, _, hfs⟩ => by
    simp only [List.map_cons, List.zip_cons_cons, hfs.zip, NamedTy.ty_ofTy]

theorem Builder.Fresh.addFunc {known : List (List Ty)} {fp64 : Bool} {b : Builder}
    (hb : b.Fresh known fp64) (hordered : Ty.Ordered known) {args : List DraftArg} {name : String}
    (hname : isDeviceFunction name = false)
    (hargs : ∀ a ∈ args, a.Usable ∧ a.elem.Known known fp64)
    (hnodup : (args.map (·.name)).Nodup) {fn : Func} {C : List Stmt → Prop}
    (hfn : IsKernel name (DraftArg.Trees args) C fn) {P : Action → Nat → Prop}
    (hbody : Env.ChecksBody known fp64 args C P) :
    ∃ b' k, b.addFunc fn = some b' ∧ b'.log = [] ∧ b'.funcs = [k] ∧ k.IsDrafted name args P := by
  obtain ⟨inner, hheader, hknows, hholds, hresult⟩ :=
    Env.checkHeader_kernel hb.knows hordered hb.noFuncs hname hargs hnodup hfn
  obtain ⟨a, env', hcheck, hP⟩ := hbody inner hknows hholds fn.body hfn.body
  let k : CheckedFn :=
    { name := fn.name.name
      isKernel := fn.isKernel
      result := inner.result.ty
      params := (fn.params.zip (args.map fun a => NamedTy.ofTy a.type)).map fun (f, t) =>
        (f.name.name, t.ty)
      slots := env'.slots
      body := a }
  have hk : inner.checkBody fn (args.map fun a => NamedTy.ofTy a.type) = .ok k := by
    rw [Env.checkBody, hcheck]
    rfl
  refine ⟨{ b with env := { b.env with funcs := inner.funcs }, funcs := b.funcs ++ [k] }, k, ?_, hb.log,
    ?_, ⟨hfn.isKernel, hfn.name, hfn.params.zip, hP⟩⟩
  · unfold Builder.addFunc
    simp only [hheader, hk]
  · show b.funcs ++ [k] = [k]
    rw [hb.funcs]
    rfl

theorem Builder.Fresh.refuseFunc {known : List (List Ty)} {fp64 : Bool} {b : Builder}
    (hb : b.Fresh known fp64) (hordered : Ty.Ordered known) {args : List DraftArg} {name : String}
    (hname : isDeviceFunction name = false)
    (hargs : ∀ a ∈ args, a.Usable ∧ a.elem.Known known fp64)
    (hnodup : (args.map (·.name)).Nodup) {fn : Func} {C : List Stmt → Prop}
    (hfn : IsKernel name (DraftArg.Trees args) C fn) (hbody : Env.RefusesBody known fp64 args C) :
    ∀ b', b.addFunc fn = some b' → b'.log ≠ [] := by
  obtain ⟨inner, hheader, hknows, hholds, -⟩ :=
    Env.checkHeader_kernel hb.knows hordered hb.noFuncs hname hargs hnodup hfn
  obtain ⟨c, hcheck⟩ := hbody inner hknows hholds fn.body hfn.body
  have hk : inner.checkBody fn (args.map fun a => NamedTy.ofTy a.type) = .error c := by
    rw [Env.checkBody, hcheck]
    rfl
  intro b' hb'
  unfold Builder.addFunc at hb'
  simp only [hheader, hk] at hb'
  cases c with
  | collapse => cases hb'
  | complaint o e =>
    cases hb'
    exact List.append_ne_nil_of_right_ne_nil _ (List.cons_ne_nil _ _)

/-! ### Sources -/

namespace Draft

/-- The tokens of a kernel. -/
def kernelTokens (name : String) (args : List DraftArg) (body : List Token) : List Token :=
  .name "__kernel" :: .name "void" :: .name name :: .op .lparen ::
    (commaTokens DraftArg.tokens args ++ .op .rparen :: .op .lbrace :: (body ++ [.op .rbrace]))

/-- The text of a draft after its extensions. -/
def declarations (d : Draft) : String :=
  String.join (d.pre.structs.values.map fun ts => Ty.typedef ts ++ "\n") ++
    String.join (d.pre.functions.values.map fun src => src ++ "\n") ++
    "__kernel void " ++ d.name ++ "(" ++ ", ".intercalate (d.part.args.map param) ++ ")\n\x7b\n" ++
    d.part.body ++ "\x7d\n"

theorem scans_typedefs {rest : List Char} {us : List Token} (h : Scans rest us) :
    ∀ {tss : List (List Ty)}, (∀ ts ∈ tss, Ty.areData ts = true) →
      Scans ((String.join (tss.map fun ts => Ty.typedef ts ++ "\n")).toList ++ rest)
        (tss.flatMap Ty.typedefTokens ++ us)
  | [], _ => h
  | ts :: tss, hdata => by
    have hts : (Ty.tuple ts).isData = true := by
      rw [Ty.isData]
      exact hdata ts List.mem_cons_self
    have hrest := scans_typedefs h fun us hus => hdata us (List.mem_cons_of_mem _ hus)
    have hall := Ty.scans_typedef hts hrest
    simpa using hall

variable {d : Draft} {known : List (List Ty)} {fp64 : Bool}

theorem scans_declarations (hd : d.pre.Declares known fp64) (hname : isIdent d.name = true)
    (hargs : ∀ a ∈ d.part.args, a.Usable) {body : List Token}
    (hbody : ∀ {rest us}, Scans rest us → Scans (d.part.body.toList ++ rest) (body ++ us)) :
    Scans d.declarations.toList
      (known.reverse.flatMap Ty.typedefTokens ++ kernelTokens d.name d.part.args body) := by
  have hstructs : d.pre.structs.values = known.reverse := by
    rw [OrderedMap.values, hd.structs, List.map_map]
    exact List.map_id _
  have hfunctions : d.pre.functions.values = [] := by
    rw [OrderedMap.values, hd.functions]
    rfl
  have h := Scans.nil.blank (c := '\n') (.inr rfl)
  have h := h.mark (c := '\x7d') (o := .rbrace) rfl (by decide)
  have h := hbody h
  have h := h.blank (c := '\n') (.inr rfl)
  have h := h.mark (c := '\x7b') (o := .lbrace) rfl (by decide)
  have h := h.blank (c := '\n') (.inr rfl)
  have h := h.mark (c := ')') (o := .rparen) rfl (by decide)
  have h := h.commas param DraftArg.tokens fun a ha c rest us hc h => (hargs a ha).scans hc h
  have h := h.mark (c := '(') (o := .lparen) rfl (by decide)
  have h := scans_ident hname (.cons (by decide) _) h
  have h := h.blank (c := ' ') (.inl rfl)
  have h := h.spelled (w := "void") (t := .name "void") (by decide) rfl (.cons (by decide) _)
  have h := h.blank (c := ' ') (.inl rfl)
  have h := h.spelled (w := "__kernel") (t := .name "__kernel") (by decide) rfl (.cons (by decide) _)
  have h := scans_typedefs h fun ts hts => hd.ordered.data ts (List.mem_reverse.mp hts)
  have hkernel : "__kernel void ".toList = "__kernel".toList ++ ' ' :: ("void".toList ++ [' ']) := rfl
  have hopen : ")\n\x7b\n".toList = [')', '\n', '\x7b', '\n'] := rfl
  have hclose : "\x7d\n".toList = ['\x7d', '\n'] := rfl
  have hparen : "(".toList = ['('] := rfl
  rw [declarations, hstructs, hfunctions]
  simp only [List.map_nil, String.join_nil, String.toList_append, hkernel, hopen, hclose, hparen,
    List.append_assoc, List.cons_append, List.nil_append, kernelTokens]
  simpa using h

theorem readsFile_declarations (hordered : Ty.Ordered known) {name : String} {args : List DraftArg}
    (hname : isQualifier (.name name) = false) (hne : args ≠ []) (hargs : ∀ a ∈ args, a.Usable)
    (hknown : ∀ a ∈ args, a.elem.Known known fp64) {body : List Token} {C : List Stmt → Prop}
    (hbody : ∀ s, Ty.Heard known s → Reads s.stmts (body ++ [Token.op .rbrace]) [] C)
    (finish : Nat) :
    ReadsFile { finish } (known.reverse.flatMap Ty.typedefTokens ++ kernelTokens name args body)
      fun f => ∃ ds fn, f = { typedefs := ds, funcs := [fn] } ∧ Ty.TypedefTrees known.reverse ds ∧
        IsKernel name (DraftArg.Trees args) C fn := by
  have hkernel : ∀ s, Ty.Heard known s → ReadsFile s (kernelTokens name args body)
      fun f => ∃ fn, f = { funcs := [fn] } ∧ IsKernel name (DraftArg.Trees args) C fn := by
    intro s hs ls hls
    have hvoid := DraftArg.head?_params_ne hne (Token.op .rparen :: .op .lbrace :: (body ++ [Token.op .rbrace]))
    have hparams : Reads s.params (commaTokens DraftArg.tokens args ++ Token.op .rparen :: .op .lbrace ::
        (body ++ [Token.op .rbrace])) _ _ := DraftArg.reads_params hs hne hargs fun a ha => (hknown a ha).struct
    have hread := readsFile_func (by simp) (reads_kernel hname hvoid hparams (hbody s hs)) readsFile_nil
    obtain ⟨f, hf, fn, f', rfl, hfn, rfl⟩ := hread ls hls
    exact ⟨_, hf, fn, rfl, hfn⟩
  intro ls hls
  have hall := @Ty.readsFile_typedefs (kernelTokens name args body) _ known.reverse [] { finish }
    (by simpa using hordered) rfl fun s hs => hkernel s (by simpa using hs)
  obtain ⟨f, hf, ds, f', rfl, hds, fn, rfl, hfn⟩ := hall ls hls
  exact ⟨_, hf, ds, fn, by simp, hds, hfn⟩

/-! ### Extensions -/

/-- The line that asks for double precision. -/
def doublePragma : List Char := "#pragma OPENCL EXTENSION cl_khr_fp64 : enable".toList

theorem isPragma_double : TokenStream.IsPragma doublePragma :=
  ⟨rfl, by decide +kernel, by decide, by decide +kernel⟩

theorem obey_double (env : Env) :
    env.obey ⟨0, SourceText.ofChars doublePragma⟩ = .ok { env with fp64 := true } := by
  have hwords : Env.directiveWords (SourceText.ofChars doublePragma) =
      [SourceText.ofString "#pragma", SourceText.ofString "OPENCL", SourceText.ofString "EXTENSION",
        SourceText.ofString "cl_khr_fp64", SourceText.ofString "enable"] := by
    decide +kernel
  rw [Env.obey, hwords]
  rfl

/-- The lines before everything else, if there is double precision. -/
def pragmaText (fp64 : Bool) : String := if fp64 then String.ofList doublePragma ++ "\n\n" else ""

/-- What is read of them. -/
def pragmas (fp64 : Bool) : List Pragma :=
  if fp64 then [⟨0, SourceText.ofChars doublePragma⟩] else []

/-- The extensions of a draft are a line of their own, or nothing. -/
theorem text_eq (hd : d.pre.extensions.entries = if fp64 then [(doubleExtension, ())] else []) :
    d.text = pragmaText fp64 ++ d.declarations := by
  have hkeys : d.pre.extensions.keys = if fp64 then [doubleExtension] else [] := by
    rw [OrderedMap.keys, hd]
    cases fp64 <;> rfl
  have hline : String.ofList doublePragma ++ "\n\n" =
      "#pragma OPENCL EXTENSION " ++ doubleExtension ++ " : enable\n" ++ "\n" := by decide
  rw [text, hkeys, declarations, pragmaText]
  cases fp64 with
  | false => simp [String.append_assoc]
  | true =>
    rw [if_pos rfl, if_pos rfl, hline]
    simp [String.append_assoc]

/-- The stream of declarations after the extensions has the tokens of the declarations. -/
theorem exists_file {text : String} (fp64 : Bool) {ts : List Token} (hscans : Scans text.toList ts)
    {Q : File → Prop} (hreads : ∀ finish, ReadsFile { finish } ts Q) (file : String) :
    ∃ f, File.ofStream (TokenStream.ofText file (SourceText.ofString (pragmaText fp64 ++ text))) =
      .ok { f with pragmas := pragmas fp64 } ∧ Q f := by
  cases fp64 with
  | false =>
    obtain ⟨f, hf, hQ⟩ := exists_ofStream hscans hreads file
    exact ⟨f, by simpa [SourceText.ofString, pragmaText, pragmas] using hf, hQ⟩
  | true =>
    have hscans' := hscans.blank (c := '\n') (.inr rfl)
    obtain ⟨htokens, hpragmas, hnone⟩ :=
      TokenStream.ofText_of_pragma isPragma_double hscans' file
    have htext : SourceText.ofString (pragmaText true ++ text) =
        SourceText.ofChars (doublePragma ++ '\n' :: '\n' :: text.toList) := by
      have hblank : ("\n\n" : String).toList = ['\n', '\n'] := rfl
      simp [SourceText.ofString, pragmaText, hblank]
    rw [htext]
    obtain ⟨f, hf, hQ⟩ := hreads (TokenStream.ofText file
      (SourceText.ofChars (doublePragma ++ '\n' :: '\n' :: text.toList))).finish _ htokens
    exact ⟨f, by simp [File.ofStream, hnone, hpragmas, hf, pragmas], hQ⟩

/-- The structures of a file with such extensions are made known. -/
theorem exists_fresh {known : List (List Ty)} (hordered : Ty.Ordered known) {fp64 : Bool}
    (hdouble : ∀ ts ∈ known, Ty.anyUsesDouble ts = true → fp64 = true) {ds : List Typedef}
    (hds : Ty.TypedefTrees known.reverse ds) :
    ∃ b, (do
      let b ← (pragmas fp64).foldlM (fun b p => b.learn (b.env.obey p)) ({} : Builder)
      ds.foldlM (fun b d => b.learn (b.env.checkTypedef d)) b) = some b ∧ b.Fresh known fp64 := by
  have hfresh : ∃ b, (pragmas fp64).foldlM
      (fun b p => b.learn (b.env.obey p)) ({} : Builder) = some b ∧ b.Fresh [] fp64 := by
    cases fp64 with
    | false => exact ⟨{}, rfl, ⟨rfl, rfl⟩, rfl, rfl, rfl⟩
    | true =>
      refine ⟨{ env := { fp64 := true } }, ?_, ⟨rfl, rfl⟩, rfl, rfl, rfl⟩
      simp only [pragmas, if_true, List.foldlM_cons, obey_double, List.foldlM_nil]
      rfl
  obtain ⟨b₁, hb₁, hfresh₁⟩ := hfresh
  have hordered' : Ty.Ordered (known.reverse.reverse ++ []) := by simpa using hordered
  obtain ⟨b₂, hb₂, hfresh₂⟩ := Builder.Fresh.typedefs hordered'
    (fun ts hts => hdouble ts (List.mem_reverse.mp hts)) hds hfresh₁
  rw [List.reverse_reverse, List.append_nil] at hfresh₂
  refine ⟨b₂, ?_, hfresh₂⟩
  rw [hb₁]
  exact hb₂

section Build

variable (hd : d.pre.Declares known fp64) (hname : isIdent d.name = true)
  (hunqualified : isQualifier (.name d.name) = false) (hdevice : isDeviceFunction d.name = false)
  (hne : d.part.args ≠ []) (hargs : ∀ a ∈ d.part.args, a.Usable ∧ a.elem.Known known fp64)
  (hnodup : (d.part.args.map (·.name)).Nodup) {body : List Token}
  (hscans : ∀ {rest us}, Scans rest us → Scans (d.part.body.toList ++ rest) (body ++ us))
  {C : List Stmt → Prop} (hreads : ∀ s, Ty.Heard known s → Reads s.stmts (body ++ [Token.op .rbrace]) [] C)

include hd hname hunqualified hne hargs hscans hreads

/-- All of a draft but the kernel itself is accepted, whatever its body is. -/
theorem exists_ofFile :
    ∃ (file : File) (b : Builder) (fn : Func), File.ofStream (TokenStream.ofText Program.fileName (SourceText.ofString d.text)) =
        .ok file ∧
      Builder.ofFile file = b.addFunc fn ∧ b.Fresh known fp64 ∧
      IsKernel d.name (DraftArg.Trees d.part.args) C fn := by
  have hall := scans_declarations hd hname (fun a ha => (hargs a ha).1) hscans
  obtain ⟨_, hfile, ds, fn, rfl, hds, hfn⟩ := exists_file fp64 hall
    (readsFile_declarations hd.ordered hunqualified hne (fun a ha => (hargs a ha).1)
      (fun a ha => (hargs a ha).2) hreads) Program.fileName
  rw [← text_eq hd.extensions] at hfile
  obtain ⟨b, hb, hfresh⟩ := exists_fresh hd.ordered hd.double hds
  refine ⟨_, b, fn, hfile, ?_, hfresh, hfn⟩
  unfold Builder.ofFile
  rw [← bind_assoc, hb]
  simp only [List.foldlM_cons, List.foldlM_nil, bind, Option.bind, pure]
  cases b.addFunc fn <;> rfl

include hdevice hnodup

/-- **A draft is built when its body is checked.**  The program has one kernel, with the name and
the arguments of the draft. -/
theorem build_draft {P : Action → Nat → Prop} (hbody : Env.ChecksBody known fp64 d.part.args C P) :
    ∃ p k, Program.build (SourceText.ofString d.text) = .built p ∧ p.kernel? d.name = some k ∧
      k.IsDrafted d.name d.part.args P := by
  obtain ⟨file, b, fn, hfile, hbuilder, hfresh, hfn⟩ :=
    exists_ofFile hd hname hunqualified hne hargs hscans hreads
  obtain ⟨b', k, hb', hlog, hfuncs, hk⟩ := hfresh.addFunc hd.ordered hdevice hargs hnodup hfn hbody
  refine ⟨⟨SourceText.ofString d.text, b'.env.fp64, b'.funcs⟩, k, ?_, ?_, hk⟩
  · unfold Program.build
    simp only [hfile, hbuilder, hb', hlog, List.isEmpty_nil, if_true]
  · simp [Program.kernel?, Program.kernels, hfuncs, hk.kernel, hk.name]

/-- **A draft is not built when its body is refused.** -/
theorem not_build_draft (hbody : Env.RefusesBody known fp64 d.part.args C) (p : Program) :
    Program.build (SourceText.ofString d.text) ≠ .built p := by
  obtain ⟨file, b, fn, hfile, hbuilder, hfresh, hfn⟩ :=
    exists_ofFile hd hname hunqualified hne hargs hscans hreads
  have hlog := hfresh.refuseFunc hd.ordered hdevice hargs hnodup hfn hbody
  unfold Program.build
  simp only [hfile, hbuilder]
  cases hb' : b.addFunc fn with
  | none => nofun
  | some b' =>
    have hnot : b'.log.isEmpty = false := List.isEmpty_eq_false_iff.mpr (hlog b' hb')
    simp only [hnot, Bool.false_eq_true, if_false]
    nofun

end Build

end Draft

end KernelForge
