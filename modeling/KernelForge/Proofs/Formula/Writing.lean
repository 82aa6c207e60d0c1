/-
What is written is the text of the script.

Lowering goes through the formula and changes the draft as it goes.  Seen from outside it does three
things: it appends the text of the compiled script to the body, takes the names that the script
declares, and declares what the types of the script need.
-/
import KernelForge.Proofs.Formula.Inference

namespace KernelForge

/-! ### Changes of a draft -/

namespace Draft

/-- A draft after some text has been written: names have been taken, and the needs of some types
have been declared. -/
structure Wrote (d d' : Draft) (text : String) (names : Names) (types : List Ty) : Prop where
  name : d'.name = d.name
  args : d'.part.args = d.part.args
  kernel : d'.part.own? = none
  indent : d'.part.indent = d.part.indent
  body : d'.part.body = d.part.body ++ text
  names : d'.pre.names = names
  declares : ∀ known fp64, d.pre.Declares known fp64 → d'.pre.Injected known fp64 types

variable {d d₁ d₂ : Draft} {text text₁ text₂ : String} {ns ns₁ ns₂ : Names} {ts ts₁ ts₂ : List Ty}

theorem Wrote.nothing (h : d.part.own? = none) : d.Wrote d "" d.pre.names [] where
  name := rfl
  args := rfl
  kernel := h
  indent := rfl
  body := by simp
  names := rfl
  declares := fun known fp64 hd => ⟨known, fp64, hd, fun _ h => h, id, by simp⟩

/-- One text after another. -/
theorem Wrote.trans (h₁ : d.Wrote d₁ text₁ ns₁ ts₁) (h₂ : d₁.Wrote d₂ text₂ ns₂ ts₂) :
    d.Wrote d₂ (text₁ ++ text₂) ns₂ (ts₁ ++ ts₂) where
  name := h₂.name.trans h₁.name
  args := h₂.args.trans h₁.args
  kernel := h₂.kernel
  indent := h₂.indent.trans h₁.indent
  body := by rw [h₂.body, h₁.body, String.append_assoc]
  names := h₂.names
  declares := fun known fp64 hd => by
    obtain ⟨known₁, fp64₁, hd₁, hsub₁, hmono₁, hts₁⟩ := h₁.declares known fp64 hd
    obtain ⟨known₂, fp64₂, hd₂, hsub₂, hmono₂, hts₂⟩ := h₂.declares known₁ fp64₁ hd₁
    refine ⟨known₂, fp64₂, hd₂, fun _ h => hsub₂ (hsub₁ h), fun h => hmono₂ (hmono₁ h), ?_⟩
    exact List.forall_mem_append.mpr ⟨fun t ht => (hts₁ t ht).mono hsub₂ hmono₂, hts₂⟩

theorem wrote_inject (h : d.part.own? = none) {t : Ty} (ht : t.isData = true) :
    d.Wrote (d.inject t) "" d.pre.names [t] where
  name := rfl
  args := rfl
  kernel := h
  indent := rfl
  body := by simp [inject]
  names := Preamble.names_inject t d.pre
  declares := fun _ _ hd => hd.inject ht

theorem wrote_line (h : d.part.own? = none) (text : String) :
    d.Wrote (d.line text) (Script.lineText d.part.indent text) d.pre.names [] where
  name := rfl
  args := rfl
  kernel := h
  indent := rfl
  body := rfl
  names := rfl
  declares := fun known fp64 hd => ⟨known, fp64, hd, fun _ h => h, id, by simp⟩

theorem indexed_eq (h : d.part.own? = none) (root : String) :
    d.indexed root = ((d.pre.names.indexed root).1,
      { d with pre := { d.pre with names := (d.pre.names.indexed root).2 } }) := by
  rw [indexed, withNames, h]

theorem wrote_names (h : d.part.own? = none) (ns : Names) :
    d.Wrote { d with pre := { d.pre with names := ns } } "" ns [] where
  name := rfl
  args := rfl
  kernel := h
  indent := rfl
  body := by simp
  names := rfl
  declares := fun known fp64 hd =>
    ⟨known, fp64, ⟨hd.structs, hd.extensions, hd.functions, hd.ordered, hd.double⟩, fun _ h => h, id,
      by simp⟩

/-- A declaration takes the next name and is written on a line. -/
theorem wrote_declare (h : d.part.own? = none) {t : Ty} (ht : t.isData = true) (init : String) :
    (d.declare t init).1 = (d.pre.names.indexed "_v").1 ∧
      d.Wrote (d.declare t init).2
        (Script.lineText d.part.indent
          (t.name ++ " " ++ (d.pre.names.indexed "_v").1 ++ " = " ++ init ++ ";"))
        (d.pre.names.indexed "_v").2 [t] := by
  rw [declare, indexed_eq h]
  refine ⟨rfl, ?_⟩
  have hnames := wrote_names h (d.pre.names.indexed "_v").2
  have hinject := wrote_inject hnames.kernel ht
  have hline := wrote_line hinject.kernel
    (t.name ++ " " ++ (d.pre.names.indexed "_v").1 ++ " = " ++ init ++ ";")
  have hall := (hnames.trans hinject).trans hline
  simpa only [inject, Preamble.names_inject, String.empty_append, List.nil_append,
    List.append_nil] using hall

end Draft

/-! ### Writing formulas -/

namespace Formula

open Drafting Draft

/-- Placeholders that stand for sources. -/
structure Bound (bs : List Binding) (sources : List Source) : Prop where
  texts : bs.map (·.expr) = sources.map Source.text
  whole : ∀ b ∈ bs, b.fields = []

variable {bs : List Binding} {sources : List Source}

theorem Bound.expr (h : Bound bs sources) {i : Int} {t : Ty}
    (ht : (bs.map (·.type))[i.toNat]? = some t) :
    (bindingAt bs i).expr = (sources.getD i.toNat default).text := by
  rw [List.getElem?_map] at ht
  obtain ⟨b, hb, -⟩ := Option.map_eq_some_iff.mp ht
  have hexpr : (sources.map Source.text)[i.toNat]? = some b.expr := by
    rw [← h.texts, List.getElem?_map, hb]
    rfl
  rw [List.getElem?_map] at hexpr
  obtain ⟨a, ha, htext⟩ := Option.map_eq_some_iff.mp hexpr
  rw [bindingAt, List.getD_eq_getElem?_getD, List.getD_eq_getElem?_getD, hb, ha]
  exact htext.symm

theorem Bound.fieldBinding? (h : Bound bs sources) (index : Int) (x : Formula) :
    fieldBinding? bs index x = none := by
  cases x with
  | arg i =>
    have hfields : (bindingAt bs i).fields = [] := by
      rw [bindingAt, List.getD_eq_getElem?_getD]
      cases hb : bs[i.toNat]? with
      | none => rfl
      | some b => exact h.whole b (List.mem_of_getElem? hb)
    rw [Formula.fieldBinding?, hfields]
    rfl
  | _ => rfl

/-- From a draft, writing gives a text, and the draft changes as the compiled script says. -/
def Writes {α : Type} (x : Drafting α) (d : Draft) (a : α) (script : Script) (ns : Names) : Prop :=
  ∃ d', x d = (.ok a, d') ∧ d.Wrote d' (script.text d.part.indent) ns script.types

theorem Writes.bind {α β : Type} {x : Drafting α} {f : α → Drafting β} {d : Draft} {a : α} {b : β}
    {s₁ s₂ : Script} {ns₁ ns₂ : Names} (hx : Writes x d a s₁ ns₁)
    (hf : ∀ d', d'.part.own? = none → d'.pre.names = ns₁ → Writes (f a) d' b s₂ ns₂) :
    Writes (x >>= f) d b (s₁ ++ s₂) ns₂ := by
  obtain ⟨d₁, hd₁, h₁⟩ := hx
  obtain ⟨d₂, hd₂, h₂⟩ := hf d₁ h₁.kernel h₁.names
  rw [h₁.indent] at h₂
  refine ⟨d₂, by rw [bind_ok hd₁, hd₂], ?_⟩
  rw [Script.text_append, Script.types_append]
  exact h₁.trans h₂

theorem writes_variable {t : Ty} (ht : t.isData = true) {d : Draft} (hd : d.part.own? = none)
    (r : Operation) :
    Writes (Drafting.take (·.declare t r.text)) d (d.pre.names.indexed "_v").1
      (.declare t (d.pre.names.indexed "_v").1 r .done) (d.pre.names.indexed "_v").2 := by
  obtain ⟨hname, hwrote⟩ := wrote_declare hd ht r.text
  refine ⟨(d.declare t r.text).2, by rw [← hname]; rfl, ?_⟩
  rw [Script.text, Script.text, String.append_empty, Script.types, Script.types]
  exact hwrote

/-- The declaration of a variable for the value of a formula. -/
theorem writes_declare {n : Formula} {t : Ty} (ht : n.infer (bs.map (·.type)) = .ok t)
    (hdata : t.isData = true) {d : Draft} (hd : d.part.own? = none) (r : Operation) :
    Writes (declare bs n r.text) d (d.pre.names.indexed "_v").1
      (.declare t (d.pre.names.indexed "_v").1 r .done) (d.pre.names.indexed "_v").2 := by
  rw [declare, ht]
  exact writes_variable hdata hd r

/-- One operation on what has been written before. -/
theorem writes_operation {α β : Type} {x : Drafting α} {d : Draft} {a : α} {c : Compiled β}
    (hx : Writes x d a c.script c.names) {n : Formula} {t : Ty}
    (ht : n.infer (bs.map (·.type)) = .ok t) (hdata : t.isData = true) {init : α → String}
    {r : Operation} (hinit : init a = r.text) :
    Writes (x >>= fun a => declare bs n (init a)) d (compileOperation t c r).value.text
      (compileOperation t c r).script (compileOperation t c r).names := by
  unfold compileOperation
  refine hx.bind fun d' hd' hns => ?_
  simp only [hinit, ← hns, Operand.text, Source.text]
  exact writes_declare ht hdata hd' r

/-- A source can have a field selected as it stands. -/
theorem parenthesized_eq {x : Formula} {s t : Ty} {index : Int} {types : List Ty}
    (hx : x.infer types = .ok s) (hpure : x.isPure = true) (ht : HasElement index s t) (text : String) :
    parenthesized x text = text := by
  cases x with
  | literal type value =>
    obtain ⟨s', i, hi, -⟩ := integer_of_isPure hpure
    rw [infer_literal hi] at hx
    cases hx
    cases ht
  | _ => rfl

theorem exists_source {types : List Ty} {x : Formula} {s t : Ty} {index : Int} {ns : Names}
    (hx : x.infer types = .ok s) (hpure : x.isPure = true) (ht : HasElement index s t) :
    ∃ a, (compile types sources ns x).value = .source a := by
  cases x with
  | literal type value =>
    obtain ⟨s', i, hi, -⟩ := integer_of_isPure hpure
    rw [infer_literal hi] at hx
    cases hx
    cases ht
  | arg i => exact ⟨_, by rw [compile]⟩
  | unary op x => exact ⟨_, by rw [compile]; rfl⟩
  | binary op x y =>
    rw [compile]
    simp only
    split
    · exact ⟨_, rfl⟩
    · exact ⟨_, rfl⟩
  | call name xs => exact ⟨_, by rw [compile]; rfl⟩
  | get index x => exact ⟨_, by rw [compile]; rfl⟩
  | _ => cases hpure

/-- The right operand of `&&` and `||`: it is written under a condition, one step further in. -/
theorem writes_guard {y : Formula} {name test : String} {negated : Bool}
    (htest : test = Script.testText negated name) {value : Operand} {body : Script} {ns : Names}
    {d : Draft} (hd : d.part.own? = none)
    (hy : ∀ d', d'.part.own? = none → d'.pre.names = d.pre.names →
      Writes (write bs y) d' value.text body ns) :
    Writes (do
        Drafting.edit fun d => (d.line ("if (" ++ test ++ ") \x7b")).indent
        let w ← write bs y
        Drafting.edit fun d => ((d.line (name ++ " = " ++ w ++ ";")).dedent).line "\x7d"
        return name) d name (.guard negated name (body ++ .assign (.var name) value .done) .done) ns := by
  subst htest
  have hedit : ∀ f : Draft → Draft, ∀ d, Drafting.edit f d = (.ok (), f d) := fun _ _ => rfl
  obtain ⟨d₂, hd₂, h₂⟩ := hy (d.line ("if (" ++ Script.testText negated name ++ ") \x7b")).indent hd rfl
  have hindent : d₂.part.indent = d.part.indent + 1 := h₂.indent
  refine ⟨((d₂.line (name ++ " = " ++ value.text ++ ";")).dedent).line "\x7d", ?_, ?_⟩
  · rw [bind_ok (hedit _ d), bind_ok hd₂, bind_ok (hedit _ d₂)]
    rfl
  · exact {
      name := h₂.name
      args := h₂.args
      kernel := h₂.kernel
      indent := by simp [line, append, dedent, hindent]
      body := by
        have hbody := h₂.body
        simp only [indent, line, append] at hbody
        simp [Script.text, Script.text_append, Script.lineText, Source.text, line, append, dedent, hbody, hindent,
          String.append_assoc]
      names := h₂.names
      declares := fun known fp64 hd => by
        rw [Script.types, Script.types_append, Script.types, Script.types, List.append_nil]
        show Preamble.Injected _ _ _ (body.types ++ [])
        rw [List.append_nil]
        exact h₂.declares known fp64 hd }

section Pairs

variable {x y : Formula} {d : Draft} {c e : Compiled Operand}

theorem writes_binary (hx : Writes (write bs x) d c.value.text c.script c.names)
    (hy : ∀ d', d'.part.own? = none → d'.pre.names = c.names →
      Writes (write bs y) d' e.value.text e.script e.names) {n : Formula} {t : Ty}
    (ht : n.infer (bs.map (·.type)) = .ok t) (hdata : t.isData = true) (op : Operator) :
    let r := compileOperation t ⟨e.value, c.script ++ e.script, e.names⟩ (.binary op c.value e.value)
    Writes (do
        let v ← write bs x
        let w ← write bs y
        declare bs n (v ++ " " ++ op.spelling ++ " " ++ w)) d r.value.text r.script r.names := by
  simp only [compileOperation, Script.append_assoc]
  refine hx.bind fun d₁ hd₁ hns₁ => (hy d₁ hd₁ hns₁).bind fun d₂ hd₂ hns₂ => ?_
  rw [← hns₂]
  exact writes_declare ht hdata hd₂ (.binary op c.value e.value)

/-- `&&` and `||`. -/
theorem writes_logical (hx : Writes (write bs x) d c.value.text c.script c.names)
    (hy : ∀ d', d'.part.own? = none → d'.pre.names = (c.names.indexed "_v").2 →
      Writes (write bs y) d' e.value.text e.script e.names) (op : Operator) :
    let name := (c.names.indexed "_v").1
    Writes (do
        let v ← write bs x
        let result ← Drafting.take (·.declare (.scalar .bool) v)
        let test := if op = .lor then "!" ++ result else result
        Drafting.edit fun d => (d.line ("if (" ++ test ++ ") \x7b")).indent
        let w ← write bs y
        Drafting.edit fun d => ((d.line (result ++ " = " ++ w ++ ";")).dedent).line "\x7d"
        return result) d name
      ((compileOperation (.scalar .bool) c (.copy c.value)).script ++
        .guard (op = .lor) name (e.script ++ .assign (.var name) e.value .done) .done) e.names := by
  simp only [compileOperation, Script.append_assoc]
  refine hx.bind fun d₁ hd₁ hns₁ => ?_
  rw [← hns₁] at hy ⊢
  refine (writes_variable (t := .scalar .bool) rfl hd₁ (.copy c.value)).bind fun d₂ hd₂ hns₂ => ?_
  rw [← hns₂] at hy
  exact writes_guard (by simp [Script.testText]) hd₂ hy

end Pairs

mutual

/-- **Writing a formula writes its script.** -/
theorem writes_compile {types : List Ty} (htypes : bs.map (·.type) = types)
    (hdata : Ty.areData types = true) (hbound : Bound bs sources) :
    ∀ {n : Formula} {t : Ty} {d : Draft}, n.isPure = true → n.infer types = .ok t →
      d.part.own? = none →
      Writes (write bs n) d (compile types sources d.pre.names n).value.text
        (compile types sources d.pre.names n).script (compile types sources d.pre.names n).names
  | .literal type value, t, d, hpure, h, hd => by
    obtain ⟨s, i, hi, -⟩ := integer_of_isPure hpure
    rw [write, compile, hi, Literal.ofHost_of_integer? hi]
    have hinject := wrote_inject hd (t := .scalar s) rfl
    exact ⟨d.inject (.scalar s), rfl, { hinject with
      declares := fun known fp64 hd => by
        obtain ⟨known', fp64', hd', hsub, hmono, -⟩ := hinject.declares known fp64 hd
        exact ⟨known', fp64', hd', hsub, hmono, nofun⟩ }⟩
  | .arg i, t, d, _, h, hd => by
    rw [write, compile, hbound.expr (htypes ▸ infer_arg h)]
    exact ⟨d, rfl, .nothing hd⟩
  | .unary op x, t, d, hpure, h, hd => by
    have hpure' : x.isPure = true := by simpa only [isPure] using hpure
    obtain ⟨s, hs, -⟩ := infer_unary h
    have hx := writes_compile htypes hdata hbound hpure' hs hd
    have ht := isData_infer hdata hpure h
    rw [write, compile, typeOf_eq h]
    rw [← htypes] at h
    exact writes_operation hx h ht rfl
  | .binary op x y, t, d, hpure, h, hd => by
    have hpure' := hpure
    rw [isPure, Bool.and_eq_true] at hpure'
    obtain ⟨s, r, hs, hr, -⟩ := infer_binary h
    have hx := writes_compile htypes hdata hbound hpure'.1 hs hd
    have ht := isData_infer hdata hpure h
    rw [write, compile]
    simp only
    have hy : ∀ d' : Draft, d'.part.own? = none → ∀ ns, d'.pre.names = ns →
        Writes (write bs y) d' (compile types sources ns y).value.text
          (compile types sources ns y).script (compile types sources ns y).names := by
      rintro d' hd' ns rfl
      exact writes_compile htypes hdata hbound hpure'.2 hr hd'
    split
    · exact writes_logical hx (fun d' hd' hns => hy d' hd' _ hns) op
    · rw [typeOf_eq h]
      rw [← htypes] at h
      exact writes_binary hx (fun d' hd' hns => hy d' hd' _ hns) h ht op
  | .call name xs, t, d, hpure, h, hd => by
    have hpure' : arePure xs = true := by simpa only [isPure] using hpure
    obtain ⟨ts, -, -, hts, -⟩ := infer_call h
    have hxs := writes_compileAll htypes hdata hbound hpure' hts hd
    have ht := isData_infer hdata hpure h
    rw [write, compile, typeOf_eq h]
    rw [← htypes] at h
    exact writes_operation hxs h ht rfl
  | .get index x, t, d, hpure, h, hd => by
    have hpure' : x.isPure = true := by simpa only [isPure] using hpure
    obtain ⟨s, hs, helem⟩ := infer_get h
    have hx := writes_compile htypes hdata hbound hpure' hs hd
    have ht := isData_infer hdata hpure h
    obtain ⟨a, ha⟩ := @exists_source sources types x s t index d.pre.names hs hpure' helem
    rw [write, hbound.fieldBinding?, compile, typeOf_eq h, typeOf_eq hs, ha]
    simp only [parenthesized_eq hs hpure' helem, htypes, hs]
    rw [← htypes] at h
    refine writes_operation hx h ht ?_
    rw [ha]
    rfl
  | .missing, t, d, hpure, h, hd => by cases hpure
  | .apply fn xs, t, d, hpure, h, hd => by cases hpure
  | .helper fn, t, d, hpure, h, hd => by cases hpure
  | .set lhs rhs, t, d, hpure, h, hd => by cases hpure

theorem writes_compileAll {types : List Ty} (htypes : bs.map (·.type) = types)
    (hdata : Ty.areData types = true) (hbound : Bound bs sources) :
    ∀ {ns : List Formula} {ts : List Ty} {d : Draft}, arePure ns = true →
      inferAll types ns = .ok ts → d.part.own? = none →
      Writes (writeAll bs ns) d ((compileAll types sources d.pre.names ns).value.map Operand.text)
        (compileAll types sources d.pre.names ns).script
        (compileAll types sources d.pre.names ns).names
  | [], ts, d, _, _, hd => by
    rw [writeAll, compileAll]
    exact ⟨d, rfl, .nothing hd⟩
  | n :: ns, ts, d, hpure, h, hd => by
    rw [arePure, Bool.and_eq_true] at hpure
    obtain ⟨t, ts', ht, hts', -⟩ := inferAll_cons h
    have hn := writes_compile htypes hdata hbound hpure.1 ht hd
    rw [writeAll, compileAll]
    refine hn.bind fun d' hd' hns => ?_
    obtain ⟨d'', hrest, hwrote⟩ := writes_compileAll htypes hdata hbound hpure.2 hts' hd'
    rw [hns] at hrest hwrote
    exact ⟨d'', by rw [bind_ok hrest]; rfl, hwrote⟩

end

/-! ### Lowering -/

mutual

/-- A formula without assignments has none that could be refused. -/
theorem checkAssignments_pure (bs : List Binding) : ∀ {n : Formula}, n.isPure = true →
    checkAssignments bs n = .ok ()
  | .literal type value, _ => by rw [checkAssignments]
  | .arg i, _ => by rw [checkAssignments]
  | .unary op x, h => by
    rw [isPure] at h
    rw [checkAssignments, checkAssignments_pure bs h]
  | .binary op x y, h => by
    rw [isPure, Bool.and_eq_true] at h
    rw [checkAssignments, checkAssignments_pure bs h.1, checkAssignments_pure bs h.2]
    rfl
  | .call name xs, h => by
    rw [isPure] at h
    rw [checkAssignments, checkAllAssignments_pure bs h]
  | .get index x, h => by
    rw [isPure] at h
    rw [checkAssignments, checkAssignments_pure bs h]
  | .missing, h => by cases h
  | .apply fn xs, h => by cases h
  | .helper fn, h => by cases h
  | .set lhs rhs, h => by cases h

theorem checkAllAssignments_pure (bs : List Binding) : ∀ {ns : List Formula}, arePure ns = true →
    checkAllAssignments bs ns = .ok ()
  | [], _ => by rw [checkAllAssignments]
  | n :: ns, h => by
    rw [arePure, Bool.and_eq_true] at h
    rw [checkAllAssignments, checkAssignments_pure bs h.1, checkAllAssignments_pure bs h.2]
    rfl

end

theorem wrote_injects : ∀ {bs : List Binding} {d : Draft}, d.part.own? = none →
    Ty.areData (bs.map (·.type)) = true →
    d.Wrote (bs.foldl (fun d b => d.inject b.type) d) "" d.pre.names (bs.map (·.type))
  | [], d, hd, _ => .nothing hd
  | b :: bs, d, hd, hdata => by
    rw [List.map_cons, Ty.areData, Bool.and_eq_true] at hdata
    have hfirst := wrote_inject hd hdata.1
    have hrest := wrote_injects hfirst.kernel hdata.2
    have hall := hfirst.trans hrest
    rw [hfirst.names, String.empty_append] at hall
    exact hall

/-- **Lowering a formula writes its script.** -/
theorem writes_lower (hdata : Ty.areData (bs.map (·.type)) = true) (hbound : Bound bs sources)
    {n : Formula} {t : Ty} {d : Draft} (hpure : n.isPure = true)
    (h : n.infer (bs.map (·.type)) = .ok t) (hd : d.part.own? = none) :
    let c := compile (bs.map (·.type)) sources d.pre.names n
    Writes (lower bs n) d c.value.text c.script c.names := by
  have hcheck : check bs n = .ok () := by
    rw [check, h, checkAssignments_pure bs hpure]
    rfl
  have hinject := wrote_injects hd hdata
  obtain ⟨d', hwrite, hwrote⟩ := writes_compile rfl hdata hbound hpure h hinject.kernel
  rw [hinject.names, hinject.indent] at hwrote
  rw [hinject.names] at hwrite
  refine ⟨d', ?_, ?_⟩
  · rw [lower, hcheck]
    exact hwrite
  · have hall := hinject.trans hwrote
    rw [String.empty_append] at hall
    refine { hall with declares := fun known fp64 hdeclares => ?_ }
    obtain ⟨known', fp64', hd', hsub, hmono, htypes⟩ := hall.declares known fp64 hdeclares
    exact ⟨known', fp64', hd', hsub, hmono, fun u hu => htypes u (List.mem_append_right _ hu)⟩

end Formula
end KernelForge
