/-
What is written for formulas that assign.

A placeholder may stand for several elements that lie apart.  Then its value is a structure that is
made of them on the spot, and each of its fields is written as the element itself, so that the field
can be assigned to.  Here it is said which listing a formula with assignments comes to, and which
places it assigns to; whether these are places for the device as well depends on what the fields are.
-/
import KernelForge.Proofs.Code.Listings
import KernelForge.Proofs.Formula.Legible
import KernelForge.Proofs.Formula.Progress

namespace KernelForge

/-! ### Formulas and placeholders -/

/-- What a placeholder is written as: the whole, and its fields if they lie apart. -/
structure Referent where
  type : Ty
  whole : Snippet
  fields : List Snippet := []

namespace Referent

/-- The placeholder as it is bound for writing. -/
def binding (σ : Referent) : Binding :=
  { type := σ.type, expr := σ.whole.text, fields := σ.fields.map Snippet.text }

/-- Only tuples have fields that lie apart, and then all of them do. -/
structure Apt (σ : Referent) : Prop where
  data : σ.type.isData = true
  fields : σ.fields = [] ∨ ∃ ts, σ.type = .tuple ts ∧ ts.length = σ.fields.length

end Referent

namespace Formula

/-- Formulas of placeholders, elements, operators and assignments. -/
def isBasic : Formula → Bool
  | arg _ => true
  | unary _ x | get _ x => x.isBasic
  | binary _ x y | set x y => x.isBasic && y.isBasic
  | _ => false

/-- Tests whether each place that a formula assigns to meets a condition. -/
def assigns (P : Formula → Bool) : Formula → Bool
  | unary _ x | get _ x => x.assigns P
  | binary _ x y => x.assigns P && y.assigns P
  | set lhs rhs => rhs.assigns P && P lhs
  | _ => true

/-- A place of type `t` as it is written. -/
inductive Locates (σ : Referent) : Formula → Ty → Snippet → Prop
  | whole {i : Int} : Locates σ (.arg i) σ.type σ.whole
  | field {i index : Int} {t : Ty} {p : Snippet} (hp : σ.fields[index.toNat]? = some p)
      (ht : HasElement index σ.type t) : Locates σ (.get index (.arg i)) t p
  | element {index : Int} {x : Formula} {s t : Ty} {p : Snippet} (hx : Locates σ x s p)
      (hwhole : ∀ i, x = .arg i → σ.fields = []) (ht : HasElement index s t) :
      Locates σ (.get index x) t (p.select (elementName index s))

/-- What has been written for a formula: its value, the statements before it, the types that these
name, and the names taken since. -/
structure Emitted where
  value : Snippet
  listing : Listing := .done
  types : List Ty := []
  names : Names

namespace Emitted

/-- A variable is declared for the result of an operation. -/
def declare (e : Emitted) (t : Ty) (init : Snippet) : Emitted where
  value := .name (e.names.indexed "_v").1
  listing := e.listing ++ .declare false t (e.names.indexed "_v").1 init .done
  types := e.types ++ [t]
  names := (e.names.indexed "_v").2

/-- One after another, with the value of the second. -/
def andThen (e f : Emitted) : Emitted :=
  { f with listing := e.listing ++ f.listing, types := e.types ++ f.types }

/-- A value is stored in a place, which is the value from then on. -/
def assign (e : Emitted) (place : Snippet) : Emitted :=
  { e with value := place, listing := e.listing ++ .assign place e.value .done }

/-- The condition under which the right operand of `&&` and `||` is computed. -/
def test (op : Operator) (x : String) : Snippet :=
  if op = .lor then .unary .not .not (.name x) else .name x

/-- The right operand of `&&` and `||`, which is computed into the variable of the left one. -/
def guard (e : Emitted) (op : Operator) (f : Emitted) : Emitted :=
  let x := (e.names.indexed "_v").1
  let left := e.declare (.scalar .bool) e.value
  { value := .name x
    listing := left.listing ++ .branch (test op x) (f.assign (.name x)).listing .done
    types := left.types ++ f.types
    names := f.names }

end Emitted

/-- What is written for a formula of type `t`, when some names are taken. -/
inductive Emits (σ : Referent) : Names → Formula → Ty → Emitted → Prop
  | arg {ns : Names} {i : Int} : Emits σ ns (.arg i) σ.type { value := σ.whole, names := ns }
  | field {ns : Names} {i index : Int} {t : Ty} {p : Snippet} (hp : σ.fields[index.toNat]? = some p)
      (ht : HasElement index σ.type t) :
      Emits σ ns (.get index (.arg i)) t { value := p, names := ns }
  | unary {ns : Names} {op : Operator} {x : Formula} {s t : Ty} {e : Emitted} (hx : Emits σ ns x s e)
      (ht : unaryTy? op s = some t) :
      Emits σ ns (.unary op x) t (e.declare t (.unary (Operation.unaryToken op) op e.value))
  | binary {ns : Names} {op : Operator} {x y : Formula} {s r t : Ty} {e f : Emitted}
      (hx : Emits σ ns x s e) (hy : Emits σ e.names y r f) (hlog : op.isLogical = false)
      (ht : BinaryTyped op s r t) :
      Emits σ ns (.binary op x y) t ((e.andThen f).declare t (.binary op e.value f.value))
  | logical {ns : Names} {op : Operator} {x y : Formula} {a b : Scalar} {e f : Emitted}
      (hlog : op.isLogical = true) (hx : Emits σ ns x (.scalar a) e)
      (hy : Emits σ (e.names.indexed "_v").2 y (.scalar b) f) :
      Emits σ ns (.binary op x y) (.scalar .bool) (e.guard op f)
  | get {ns : Names} {index : Int} {x : Formula} {s t : Ty} {e : Emitted} (hx : Emits σ ns x s e)
      (ht : HasElement index s t) :
      Emits σ ns (.get index x) t (e.declare t (e.value.select (elementName index s)))
  | set {ns : Names} {lhs rhs : Formula} {s r : Ty} {p : Snippet} {e : Emitted}
      (hr : Emits σ ns rhs r e) (hl : Locates σ lhs s p) (hwhole : ∀ i, lhs = .arg i → σ.fields = [])
      (hstore : r.storableAs s = true) : Emits σ ns (.set lhs rhs) s (e.assign p)

/-! ### Types and names -/

section Types

variable {σ : Referent} {ns : Names} {n : Formula} {t : Ty} {p : Snippet} {e f : Emitted}

theorem Locates.isData (h : Locates σ n t p) (hσ : σ.type.isData = true) : t.isData = true := by
  induction h with
  | whole => exact hσ
  | field _ ht => exact ht.isData hσ
  | element _ _ ht ih => exact ht.isData ih

theorem Emits.isData (h : Emits σ ns n t e) (hσ : σ.type.isData = true) : t.isData = true := by
  induction h with
  | arg => exact hσ
  | field _ ht => exact ht.isData hσ
  | unary _ ht ih => exact Ty.isData_of_isPlain (isPlain_unaryTy ht ih)
  | binary _ _ _ ht ihx ihy => exact Ty.isData_of_isPlain (ht.isPlain ihx ihy)
  | logical => rfl
  | get _ ht ih => exact ht.isData ih
  | set _ hl => exact hl.isData hσ

/-- Every type that is named is one of data. -/
theorem Emits.areData (h : Emits σ ns n t e) (hσ : σ.type.isData = true) :
    ∀ u ∈ e.types, u.isData = true := by
  induction h with
  | arg => nofun
  | field _ _ => nofun
  | unary hx ht ih =>
    exact List.forall_mem_append.mpr ⟨ih, List.forall_mem_singleton.mpr ((Emits.unary hx ht).isData hσ)⟩
  | binary hx hy hlog ht ihx ihy =>
    exact List.forall_mem_append.mpr ⟨List.forall_mem_append.mpr ⟨ihx, ihy⟩,
      List.forall_mem_singleton.mpr ((Emits.binary hx hy hlog ht).isData hσ)⟩
  | logical _ _ _ ihx ihy =>
    exact List.forall_mem_append.mpr
      ⟨List.forall_mem_append.mpr ⟨ihx, List.forall_mem_singleton.mpr rfl⟩, ihy⟩
  | get hx ht ih =>
    exact List.forall_mem_append.mpr ⟨ih, List.forall_mem_singleton.mpr ((Emits.get hx ht).isData hσ)⟩
  | set _ _ _ _ ih => exact ih

end Types

/-! ### Reading -/

section Reading

open Code.Scope (IsTypeWord)
open Snippet (IsStem)
open Listing (Begins)

variable {σ : Referent} {ns : Names} {n : Formula} {t : Ty} {p : Snippet} {e f : Emitted}
  {s : Code.Scope} {known : List (List Ty)}

/-- A statement may start with the snippet, and a field or an index may follow it. -/
def Leads (s : Code.Scope) (p : Snippet) : Prop := p.IsStem s ∧ Begins s p

theorem Leads.select (hp : Leads s p) {field : String} (hfield : isIdent field = true) :
    Leads s (p.select field) := by
  obtain ⟨hstem, t, ts, htokens, htype, hstarts⟩ := hp
  exact ⟨Snippet.isStem_select hstem hfield, t, ts ++ [Token.op .period, .name field],
    by rw [Snippet.select, htokens]; rfl, htype, hstarts⟩

theorem leads_variable (hs : Ty.Heard known s) (ns : Names) : Leads s (.name (ns.indexed "_v").1) := by
  obtain ⟨htype, hloop⟩ := ns.leadsPlace_variable.starts hs
  exact ⟨Snippet.isStem_name ns.isIdent_variable, _, [], rfl, htype, by simpa [Code.Scope.startsSimple]⟩

theorem Locates.leads (h : Locates σ n t p) (hwhole : Leads s σ.whole)
    (hfields : ∀ p ∈ σ.fields, Leads s p) : Leads s p := by
  induction h with
  | whole => exact hwhole
  | field hp _ => exact hfields _ (List.mem_of_getElem? hp)
  | element _ _ ht ih => exact ih.select (isIdent_elementName ht)

namespace Emitted

/-- What has been written can be read. -/
structure Legible (s : Code.Scope) (e : Emitted) : Prop where
  value : e.value.IsStem s
  listing : e.listing.Legible s

theorem Legible.declare (he : e.listing.Legible s) (ht : t.isData = true ∧ IsTypeWord s t.name)
    {init : Snippet} (hinit : init.Legible s) : (e.declare t init).Legible s where
  value := Snippet.isStem_name e.names.isIdent_variable
  listing := he.append ⟨ht, ⟨e.names.isIdent_variable, e.names.leadsPlace_variable.plain⟩, hinit, trivial⟩

theorem Legible.assign (he : e.Legible s) (hp : Leads s p) : (e.assign p).Legible s where
  value := hp.1
  listing := he.listing.append ⟨⟨hp.1.legible, hp.2⟩, he.value.legible, trivial⟩

theorem legible_test (op : Operator) {x : String} (hx : isIdent x = true) : (test op x).Legible s := by
  unfold test
  split
  · exact Snippet.legible_unary rfl (Snippet.isStem_name hx).operand
  · exact (Snippet.isStem_name hx).legible

theorem Legible.guard (hs : Ty.Heard known s) (he : e.Legible s) (hf : f.Legible s)
    (hbool : IsTypeWord s (Ty.scalar .bool).name) (op : Operator) : (e.guard op f).Legible s where
  value := Snippet.isStem_name e.names.isIdent_variable
  listing := (Legible.declare he.listing ⟨rfl, hbool⟩ he.value.legible).listing.append
    ⟨legible_test op e.names.isIdent_variable, (hf.assign (leads_variable hs e.names)).listing, trivial⟩

end Emitted

/-- **What is written for a formula can be read.** -/
theorem Emits.legible (h : Emits σ ns n t e) (hs : Ty.Heard known s) (hwhole : Leads s σ.whole)
    (hfields : ∀ p ∈ σ.fields, Leads s p) :
    (∀ u ∈ e.types, u.isData = true ∧ IsTypeWord s u.name) → e.Legible s := by
  induction h with
  | arg => exact fun _ => ⟨hwhole.1, trivial⟩
  | field hp _ => exact fun _ => ⟨(hfields _ (List.mem_of_getElem? hp)).1, trivial⟩
  | unary _ ht ih =>
    intro hknown
    obtain ⟨htypes, ht'⟩ := List.forall_mem_append.mp hknown
    have hx := ih htypes
    exact .declare hx.listing (ht' _ List.mem_cons_self)
      (Snippet.legible_unary (Operation.unaryOp?_token (isUnary_of_unaryTy ht)) hx.value.operand)
  | binary _ _ hlog ht ihx ihy =>
    intro hknown
    obtain ⟨htypes, ht'⟩ := List.forall_mem_append.mp hknown
    obtain ⟨hxtypes, hytypes⟩ := List.forall_mem_append.mp htypes
    have hx := ihx hxtypes
    have hy := ihy hytypes
    exact .declare (hx.listing.append hy.listing) (ht' _ List.mem_cons_self)
      (Snippet.legible_binary (ht.isInfix hlog) hx.value.operand hy.value.operand)
  | logical _ _ _ ihx ihy =>
    intro hknown
    obtain ⟨htypes, hytypes⟩ := List.forall_mem_append.mp hknown
    obtain ⟨hxtypes, hbool⟩ := List.forall_mem_append.mp htypes
    exact .guard hs (ihx hxtypes) (ihy hytypes) (hbool _ List.mem_cons_self).2 _
  | get _ ht ih =>
    intro hknown
    obtain ⟨htypes, ht'⟩ := List.forall_mem_append.mp hknown
    have hx := ih htypes
    exact .declare hx.listing (ht' _ List.mem_cons_self)
      (Snippet.isStem_select hx.value (isIdent_elementName ht)).legible
  | set _ hl _ _ ih => exact fun hknown => (ih hknown).assign (hl.leads hwhole hfields)

end Reading

/-! ### Writing -/

section Writing

open Drafting Draft

variable {σ : Referent} {n x : Formula} {s t : Ty} {index : Int} {d d₁ d₂ : Draft} {e f : Emitted}

/-- The operands of `&&` and `||` are numbers. -/
theorem BinaryTyped.of_isLogical {op : Operator} {s r t : Ty} (h : BinaryTyped op s r t)
    (hlog : op.isLogical = true) : ∃ a b, s = .scalar a ∧ r = .scalar b ∧ t = .scalar .bool := by
  cases h with
  | truth _ => exact ⟨_, _, rfl, rfl, rfl⟩
  | common _ hlog' => rw [hlog] at hlog'; cases hlog'

theorem infer_single {i : Int} {u : Ty} (h : (arg i).infer [u] = .ok t) : i.toNat = 0 ∧ t = u := by
  have htype := infer_arg h
  cases hi : i.toNat with
  | zero =>
    rw [hi] at htype
    exact ⟨rfl, (Option.some.inj htype).symm⟩
  | succ k =>
    rw [hi] at htype
    cases htype

theorem expr_single {i : Int} (hi : i.toNat = 0) : (bindingAt [σ.binding] i).expr = σ.whole.text := by
  rw [bindingAt, hi]
  rfl

/-- A field that lies apart, or an element of what is computed as a whole. -/
theorem fieldBinding_cases (hσ : σ.Apt) (hx : x.infer [σ.type] = .ok s) (ht : HasElement index s t) :
    (∃ i p, x = .arg i ∧ s = σ.type ∧ σ.fields[index.toNat]? = some p ∧
      fieldBinding? [σ.binding] index x = some p.text) ∨
    (fieldBinding? [σ.binding] index x = none ∧ ∀ i, x = .arg i → σ.fields = []) := by
  cases x with
  | arg i =>
    obtain ⟨hi, rfl⟩ := infer_single hx
    have hbinding : fieldBinding? [σ.binding] index (.arg i) =
        (σ.fields[index.toNat]?).map Snippet.text := by
      rw [fieldBinding?, bindingAt, hi]
      exact List.getElem?_map ..
    rcases hσ.fields with hnil | ⟨ts, hts, hlen⟩
    · exact .inr ⟨by rw [hbinding, hnil]; rfl, fun _ _ => hnil⟩
    · rw [hts] at ht
      cases ht with
      | field _ ht =>
        have hlt := (List.getElem?_eq_some_iff.mp ht).1
        rw [hlen] at hlt
        have hp := List.getElem?_eq_getElem hlt
        exact .inl ⟨i, _, rfl, rfl, hp, by rw [hbinding, hp]; rfl⟩
  | _ => exact .inr ⟨rfl, fun _ hi => by cases hi⟩

/-- What is written as fields is not assigned to as a whole. -/
theorem fields_of_checkPlace {lhs : Formula} (hinfer : lhs.infer [σ.type] = .ok t)
    (hplace : checkPlace [σ.binding] lhs = .ok ()) {i : Int} (hi : lhs = .arg i) : σ.fields = [] := by
  subst hi
  obtain ⟨hzero, -⟩ := infer_single hinfer
  have hbinding : bindingAt [σ.binding] i = σ.binding := by
    rw [bindingAt, hzero]
    rfl
  rw [checkPlace, hbinding] at hplace
  cases hfields : σ.fields with
  | nil => rfl
  | cons p ps => simp [Referent.binding, hfields] at hplace

/-- A place that passed its check is written as it is, and nothing else is. -/
theorem exists_locates (hσ : σ.Apt) : ∀ {n : Formula} {t : Ty}, n.infer [σ.type] = .ok t →
    checkPlace [σ.binding] n = .ok () →
      ∃ p, Locates σ n t p ∧ ∀ d, place [σ.binding] n d = (.ok p.text, d)
  | .arg i, t, h, hplace => by
    obtain ⟨hi, rfl⟩ := infer_single h
    refine ⟨σ.whole, .whole, fun d => ?_⟩
    rw [place, hplace, ← expr_single hi]
    rfl
  | .get index x, t, h, hplace => by
    obtain ⟨s, hs, ht⟩ := infer_get h
    rcases fieldBinding_cases hσ hs ht with ⟨i, p, rfl, rfl, hp, hfield⟩ | ⟨hfield, hwhole⟩
    · refine ⟨p, .field hp ht, fun d => ?_⟩
      rw [place, hplace]
      simp only [hfield]
      rfl
    · have hparent : checkPlace [σ.binding] x = .ok () := by rw [← checkPlace_get hfield, hplace]
      obtain ⟨p, hp, hwrite⟩ := exists_locates hσ hs hparent
      refine ⟨_, .element hp hwhole ht, fun d => ?_⟩
      have hinfer : x.infer ([σ.binding].map (·.type)) = .ok s := hs
      rw [place, hplace]
      simp only [hfield, hinfer]
      show (place [σ.binding] x >>= _) d = _
      rw [bind_ok (hwrite d)]
      simp only [Snippet.select, String.append_assoc]
      rfl
  | .missing, _, _, hplace => by cases hplace
  | .literal _ _, _, _, hplace => by cases hplace
  | .unary _ _, _, _, hplace => by cases hplace
  | .binary _ _ _, _, _, hplace => by cases hplace
  | .call _ _, _, _, hplace => by cases hplace
  | .apply _ _, _, _, hplace => by cases hplace
  | .helper _, _, _, hplace => by cases hplace
  | .set _ _, _, _, hplace => by cases hplace

/-- From a draft something has been written, and this is its value. -/
def Gives (d : Draft) (x : Drafting String) (e : Emitted) : Prop :=
  ∃ d', x d = (.ok e.value.text, d') ∧ d.Wrote d' (e.listing.text d.part.indent) e.names e.types

theorem gives_nothing (h : d.part.own? = none) (p : Snippet) :
    Gives d (pure p.text) { value := p, names := d.pre.names } :=
  ⟨d, rfl, .nothing h⟩

/-- A variable is declared for a result. -/
theorem take_declare (h : d.Wrote d₁ (e.listing.text d.part.indent) e.names e.types)
    (ht : t.isData = true) (init : Snippet) :
    ∃ d₂, Drafting.take (·.declare t init.text) d₁ = (.ok (e.declare t init).value.text, d₂) ∧
      d.Wrote d₂ ((e.declare t init).listing.text d.part.indent) (e.declare t init).names
        (e.declare t init).types := by
  obtain ⟨hname, hwrote⟩ := wrote_declare h.kernel ht init.text
  rw [h.names] at hname hwrote
  rw [h.indent] at hwrote
  refine ⟨_, congrArg (fun x => (Except.ok x, (d₁.declare t init.text).2)) hname, ?_⟩
  simpa [Emitted.declare, Listing.text_append, Listing.text, Listing.qualifierText] using h.trans hwrote

theorem declare_infer (hinfer : n.infer [σ.type] = .ok t) (init : String) :
    Formula.declare [σ.binding] n init = Drafting.take (·.declare t init) := by
  have h : n.infer ([σ.binding].map (·.type)) = .ok t := hinfer
  rw [Formula.declare, h]
  rfl

theorem parenthesized_of_isBasic (h : x.isBasic = true) (text : String) : parenthesized x text = text := by
  cases x with
  | literal _ _ => cases h
  | _ => rfl

/-- What was written in two steps. -/
theorem wrote_andThen (h : d.Wrote d₁ (e.listing.text d.part.indent) e.names e.types)
    (h' : d₁.Wrote d₂ (f.listing.text d₁.part.indent) f.names f.types) :
    d.Wrote d₂ ((e.andThen f).listing.text d.part.indent) (e.andThen f).names (e.andThen f).types := by
  rw [h.indent] at h'
  rw [Emitted.andThen, Listing.text_append]
  exact h.trans h'

theorem wrote_assign (h : d.Wrote d₁ (e.listing.text d.part.indent) e.names e.types) (p : Snippet) :
    d.Wrote (d₁.line (p.text ++ " = " ++ e.value.text ++ ";")) ((e.assign p).listing.text d.part.indent)
      (e.assign p).names (e.assign p).types := by
  have hline := wrote_line h.kernel (p.text ++ " = " ++ e.value.text ++ ";")
  rw [h.indent, h.names] at hline
  simpa [Emitted.assign, Listing.text_append, Listing.text] using h.trans hline

theorem test_text (op : Operator) (x : String) :
    (Emitted.test op x).text = if op = .lor then "!" ++ x else x := by
  unfold Emitted.test
  split <;> rfl

/-- The right operand of `&&` and `||` is written under a condition, one step further in. -/
theorem gives_guard {op : Operator} {k : Drafting String}
    (h : d.Wrote d₁ ((e.declare (.scalar .bool) e.value).listing.text d.part.indent)
      (e.names.indexed "_v").2 (e.declare (.scalar .bool) e.value).types)
    (hk : Gives (d₁.line ("if (" ++ (Emitted.test op (e.names.indexed "_v").1).text ++ ") \x7b")).indent
      k f) :
    ∃ d₂, (do
        let result := (e.names.indexed "_v").1
        let test := if op = .lor then "!" ++ result else result
        Drafting.edit fun d => (d.line ("if (" ++ test ++ ") \x7b")).indent
        let w ← k
        Drafting.edit fun d => ((d.line (result ++ " = " ++ w ++ ";")).dedent).line "\x7d"
        return result : Drafting String) d₁ = (.ok (e.guard op f).value.text, d₂) ∧
      d.Wrote d₂ ((e.guard op f).listing.text d.part.indent) (e.guard op f).names
        (e.guard op f).types := by
  have hedit : ∀ f : Draft → Draft, ∀ d, Drafting.edit f d = (.ok (), f d) := fun _ _ => rfl
  obtain ⟨d₂, hrun, h'⟩ := hk
  have hindent : d₂.part.indent = d₁.part.indent + 1 := h'.indent
  refine ⟨((d₂.line ((e.names.indexed "_v").1 ++ " = " ++ f.value.text ++ ";")).dedent).line "\x7d", ?_, ?_⟩
  · rw [test_text] at hrun
    show (Drafting.edit _ >>= _) d₁ = _
    rw [bind_ok (hedit _ d₁), bind_ok hrun, bind_ok (hedit _ d₂)]
    rfl
  · exact {
      name := h'.name.trans h.name
      args := h'.args.trans h.args
      kernel := h'.kernel
      indent := by simp [line, append, dedent, hindent, h.indent]
      body := by
        have hbody := h'.body
        simp only [indent, line, append, h.body, h.indent] at hbody
        simp [Emitted.guard, Emitted.assign, Listing.text, Listing.text_append, Script.lineText,
          Snippet.name, line, append, dedent, hbody, hindent, h.indent, String.append_assoc]
      names := h'.names
      declares := fun known fp64 hd => by
        obtain ⟨known₁, fp64₁, hd₁, hsub₁, hmono₁, hts₁⟩ := h.declares known fp64 hd
        obtain ⟨known₂, fp64₂, hd₂, hsub₂, hmono₂, hts₂⟩ := h'.declares known₁ fp64₁ hd₁
        refine ⟨known₂, fp64₂, hd₂, fun _ h => hsub₂ (hsub₁ h), fun h => hmono₂ (hmono₁ h), ?_⟩
        exact List.forall_mem_append.mpr ⟨fun t ht => (hts₁ t ht).mono hsub₂ hmono₂, hts₂⟩ }

theorem infer_stores {types : List Ty} {lhs rhs : Formula} (h : (set lhs rhs).infer types = .ok t) :
    ∃ r, lhs.infer types = .ok t ∧ rhs.infer types = .ok r ∧ r.storableAs t = true := by
  obtain ⟨hplace, s, hs, r, hr⟩ := infer_set h
  rw [infer, hplace] at h
  simp only [hs, hr, bind, Except.bind, Bool.not_true, Bool.false_eq_true, if_false] at h
  split at h
  · cases h
    exact ⟨r, hs, hr, ‹_›⟩
  · cases h

/-- **A basic formula that passes its checks is written.** -/
theorem exists_emits (hσ : σ.Apt) : ∀ {n : Formula} {t : Ty} {d : Draft}, n.isBasic = true →
    n.infer [σ.type] = .ok t → checkAssignments [σ.binding] n = .ok () → d.part.own? = none →
      ∃ e, Emits σ d.pre.names n t e ∧ Gives d (write [σ.binding] n) e
  | .arg i, t, d, _, h, _, hd => by
    obtain ⟨hi, rfl⟩ := infer_single h
    refine ⟨_, .arg, ?_⟩
    rw [write, expr_single hi]
    exact gives_nothing hd σ.whole
  | .unary op x, t, d, hbasic, h, hcheck, hd => by
    rw [isBasic] at hbasic
    rw [checkAssignments] at hcheck
    obtain ⟨s, hs, ht⟩ := infer_unary h
    obtain ⟨e, he, d₁, hx, hd₁⟩ := exists_emits hσ hbasic hs hcheck hd
    have hn := Emits.unary he ht
    obtain ⟨d₂, hdeclare, hd₂⟩ := take_declare hd₁ (hn.isData hσ.data)
      (.unary (Operation.unaryToken op) op e.value)
    refine ⟨_, hn, d₂, ?_, hd₂⟩
    rw [write, bind_ok hx, declare_infer h, Operation.unarySign_eq (isUnary_of_unaryTy ht)]
    exact hdeclare
  | .binary op x y, t, d, hbasic, h, hcheck, hd => by
    rw [isBasic, Bool.and_eq_true] at hbasic
    rw [checkAssignments] at hcheck
    obtain ⟨s, r, hs, hr, hop⟩ := infer_binary h
    have hop := binaryTyped_of_binaryTy hop
    obtain ⟨⟨⟩, hcheckx, hchecky⟩ := bind_eq_ok.mp hcheck
    obtain ⟨e, he, d₁, hx, hd₁⟩ := exists_emits hσ hbasic.1 hs hcheckx hd
    rw [write]
    cases hlog : op.isLogical with
    | false =>
      obtain ⟨f, hf, d₂, hy, hd₂⟩ := exists_emits hσ hbasic.2 hr hchecky hd₁.kernel
      rw [hd₁.names] at hf
      have hn := Emits.binary he hf hlog hop
      obtain ⟨d₃, hdeclare, hd₃⟩ := take_declare (wrote_andThen hd₁ hd₂) (hn.isData hσ.data)
        (.binary op e.value f.value)
      refine ⟨_, hn, d₃, ?_, hd₃⟩
      rw [if_neg Bool.false_ne_true, bind_ok hx, bind_ok hy, declare_infer h]
      exact hdeclare
    | true =>
      obtain ⟨a, b, rfl, rfl, rfl⟩ := hop.of_isLogical hlog
      obtain ⟨d₂, hdeclare, hd₂⟩ := take_declare hd₁ (t := .scalar .bool) rfl e.value
      have hnames : d₂.pre.names = (e.names.indexed "_v").2 := hd₂.names
      obtain ⟨f, hf, hy⟩ := exists_emits hσ hbasic.2 hr hchecky (d := (d₂.line
        ("if (" ++ (Emitted.test op (e.names.indexed "_v").1).text ++ ") \x7b")).indent) hd₂.kernel
      obtain ⟨d₃, hguard, hd₃⟩ := gives_guard hd₂ hy
      refine ⟨_, .logical hlog he (hnames ▸ hf), d₃, ?_, hd₃⟩
      rw [if_pos rfl, bind_ok hx, bind_ok hdeclare]
      exact hguard
  | .get index x, t, d, hbasic, h, hcheck, hd => by
    rw [isBasic] at hbasic
    rw [checkAssignments] at hcheck
    obtain ⟨s, hs, ht⟩ := infer_get h
    rw [write]
    rcases fieldBinding_cases hσ hs ht with ⟨i, p, rfl, rfl, hp, hfield⟩ | ⟨hfield, hwhole⟩
    · refine ⟨_, .field hp ht, ?_⟩
      simp only [hfield]
      exact gives_nothing hd p
    · obtain ⟨e, he, d₁, hx, hd₁⟩ := exists_emits hσ hbasic hs hcheck hd
      have hn := Emits.get he ht
      obtain ⟨d₂, hdeclare, hd₂⟩ := take_declare hd₁ (hn.isData hσ.data)
        (e.value.select (elementName index s))
      refine ⟨_, hn, d₂, ?_, hd₂⟩
      have hinfer : x.infer ([σ.binding].map (·.type)) = .ok s := hs
      simp only [hfield, hinfer]
      rw [bind_ok hx]
      show declare [σ.binding] (get index x) _ d₁ = _
      rw [declare_infer h, parenthesized_of_isBasic hbasic]
      exact hdeclare
  | .set lhs rhs, t, d, hbasic, h, hcheck, hd => by
    rw [isBasic, Bool.and_eq_true] at hbasic
    rw [checkAssignments] at hcheck
    obtain ⟨r, hl, hr, hstore⟩ := infer_stores h
    obtain ⟨⟨⟩, hcheckr, hplace⟩ := bind_eq_ok.mp hcheck
    obtain ⟨e, he, d₁, hx, hd₁⟩ := exists_emits hσ hbasic.2 hr hcheckr hd
    obtain ⟨p, hp, hwrite⟩ := exists_locates hσ hl hplace
    have hwhole : ∀ i, lhs = .arg i → σ.fields = [] := fun i => fields_of_checkPlace hl hplace
    refine ⟨_, .set he hp hwhole hstore, _, ?_, wrote_assign hd₁ p⟩
    rw [write, bind_ok hx, bind_ok (hwrite d₁)]
    rfl
  | .missing, _, _, hbasic, _, _, _ => by cases hbasic
  | .literal _ _, _, _, hbasic, _, _, _ => by cases hbasic
  | .call _ _, _, _, hbasic, _, _, _ => by cases hbasic
  | .apply _ _, _, _, hbasic, _, _, _ => by cases hbasic
  | .helper _, _, _, hbasic, _, _, _ => by cases hbasic

/-- **Lowering a basic formula**, where it succeeds, writes what the formula comes to. -/
theorem emits_of_lower (hσ : σ.Apt) (hbasic : n.isBasic = true) (hd : d.part.own? = none) {v : String}
    {d' : Draft} (h : lower [σ.binding] n d = (.ok v, d')) :
    ∃ t e, Emits σ d.pre.names n t e ∧
      d.Wrote d' (e.listing.text d.part.indent) e.names (σ.type :: e.types) := by
  cases hcheck : check [σ.binding] n with
  | error c =>
    rw [lower_of_check_error hcheck] at h
    cases h
  | ok u =>
    obtain ⟨t, ht, hassign⟩ := bind_eq_ok.mp hcheck
    have hinject := wrote_inject hd hσ.data
    obtain ⟨e, he, d₁, hwrite, hd₁⟩ := exists_emits hσ hbasic ht hassign hinject.kernel
    rw [hinject.names] at he
    refine ⟨t, e, he, ?_⟩
    have hlower : lower [σ.binding] n d = (.ok e.value.text, d₁) := by
      rw [lower, hcheck]
      exact hwrite
    rw [hlower] at h
    cases h
    rw [hinject.indent] at hd₁
    have hall := hinject.trans hd₁
    rwa [String.empty_append] at hall

end Writing

theorem made_of_isBasic : ∀ {n : Formula}, n.isBasic = true → n.Made
  | .unary op x, hn | .get index x, hn => by
    rw [isBasic] at hn
    exact (made_of_isBasic hn : x.Made)
  | .binary op x y, hn | .set x y, hn => by
    rw [isBasic, Bool.and_eq_true] at hn
    exact ⟨made_of_isBasic hn.1, made_of_isBasic hn.2⟩
  | .arg _, _ => trivial
  | .missing, hn | .literal _ _, hn | .call _ _, hn | .apply _ _, hn | .helper _, hn => by cases hn

end Formula
end KernelForge
