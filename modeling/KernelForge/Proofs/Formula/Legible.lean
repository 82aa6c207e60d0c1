/-
What is compiled can be read.

The names that a script declares are words of their own: no keywords, no qualifiers, and no types.
So the text of a compiled script is read as the script, wherever the types of its variables are
known and the sources of the placeholders can be read.
-/
import KernelForge.Proofs.Formula.Trees
import KernelForge.Proofs.Formula.Writing

namespace KernelForge

open Code.Scope (IsTypeWord isQualifier)

/-! ### Names of variables -/

/-- A name that stands in front of an assignment is no type, however many structures there are. -/
structure LeadsPlace (x : String) : Prop where
  plain : isQualifier (.name x) = false
  noType : Ty.isTypeName x = false
  noStruct : ∀ ts, (Ty.tuple ts).name ≠ x
  noLoop : x ≠ "while"

theorem LeadsPlace.starts {x : String} (h : LeadsPlace x) {known : List (List Ty)} {s : Code.Scope}
    (hs : Ty.Heard known s) : Script.StartsPlace s x := by
  refine ⟨?_, h.noLoop⟩
  have hplain := h.plain
  rw [isQualifier] at hplain
  have hstruct : s.typedefs.contains x = false := by
    rw [hs, Bool.eq_false_iff]
    intro hmem
    obtain ⟨ts, -, hts⟩ := List.mem_map.mp (List.contains_iff_mem.mp hmem)
    exact h.noStruct ts hts
  rw [Code.Scope.startsType, hplain, Code.Scope.isTypeWord, h.noType, hstruct]
  rfl

theorem Scalar.parse?_underscore {w : String} (h : w.toList.head? = some '_') :
    Scalar.parse? w = none := by
  have hnone : ∀ e ∈ Scalar.spellings, e.1.toList.head? ≠ some '_' := by decide
  refine List.lookup_eq_none_iff.mpr fun e he => ?_
  rw [bne_iff_ne]
  rintro rfl
  exact hnone e he h

theorem Ty.isTypeName_underscore {w : String} (h : w.toList.head? = some '_') :
    Ty.isTypeName w = false := by
  obtain ⟨cs, hcs⟩ : ∃ cs, w.toList = '_' :: cs := by
    cases hw : w.toList with
    | nil => rw [hw] at h; cases h
    | cons c cs => rw [hw] at h; cases h; exact ⟨cs, rfl⟩
  have hparse : Ty.parse? w = none := by
    unfold Ty.parse?
    rw [Scalar.parse?_underscore h]
    dsimp only
    rw [Scalar.parse?_underscore]
    rw [hcs, String.toList_ofList]
    rfl
  have hvoid : w ≠ "void" := by rintro rfl; cases h
  have hunsigned : w ≠ "unsigned" := by rintro rfl; cases h
  simp [isTypeName, hparse, hvoid, hunsigned]

namespace Names

/-- A name that is handed out for a variable. -/
theorem isIdent_variable (ns : Names) : isIdent (ns.indexed "_v").1 = true := by
  rw [isIdent, Bool.and_eq_true]
  exact ⟨isWord_indexedName (by decide) _, decide_eq_true (word_indexedName _ _)⟩

theorem leadsPlace_variable (ns : Names) : LeadsPlace (ns.indexed "_v").1 where
  plain := isQualifier_indexedName _ _
  noType := Ty.isTypeName_underscore (by rw [indexed, indexedName, String.toList_append]; rfl)
  noStruct := fun ts => Ty.name_tuple_ne ts (by rw [indexed, indexedName, String.toList_append]; rfl)
  noLoop := indexedName_ne (by decide)

end Names

/-! ### Compiled scripts -/

namespace Script

theorem legible_append {s : Code.Scope} {a b : Script} :
    (a ++ b).Legible s ↔ a.Legible s ∧ b.Legible s := by
  induction a with
  | done => simp [Legible]
  | declare t x r next ih => simp only [declare_append, Legible, ih, and_assoc]
  | guard negated x body next _ ih => simp only [guard_append, Legible, ih, and_assoc]
  | assign place o next ih => simp only [assign_append, Legible, ih, and_assoc]

end Script

namespace Formula

theorem isIdent_elementName {index : Int} {s t : Ty} (h : HasElement index s t) :
    isIdent (elementName index s) = true := by
  cases h with
  | lane hlo hhi =>
    rename_i e w
    have hall : ∀ i < 16, isIdent ("s" ++ String.ofList (Nat.toDigits 16 i)) = true := by decide
    have hle : w.lanes ≤ 16 := by cases w <;> decide
    exact hall _ (by omega)
  | field _ _ =>
    rw [isIdent, Bool.and_eq_true]
    exact ⟨Ty.isWord_fieldName _ _, decide_eq_true (Ty.word_fieldName _ _)⟩

theorem isIdent_builtin (fn : Builtin) : isIdent fn.name = true := by
  cases fn <;> decide

theorem isUnary_of_unaryTy {op : Operator} {s t : Ty} (h : unaryTy? op s = some t) :
    isUnary op = true := by
  unfold unaryTy? at h
  split at h <;> first | rfl | cases h

theorem BinaryTyped.isInfix {op : Operator} {s r t : Ty} (h : BinaryTyped op s r t)
    (hlog : op.isLogical = false) : Operation.isInfix op = true := by
  rw [Operation.isInfix, Bool.or_eq_true]
  cases h with
  | truth hop =>
    rw [hlog, or_iff_left Bool.false_ne_true] at hop
    exact .inr hop
  | common _ _ harith _ _ => exact .inl harith

variable {types : List Ty} {sources : List Source} {s : Code.Scope} {known : List (List Ty)}

/-- What is compiled is read as it is meant. -/
structure Compiled.Legible (s : Code.Scope) (c : Compiled Operand) : Prop where
  script : c.script.Legible s
  value : c.value.Legible

theorem legible_operation {α : Type} {c : Compiled α} {r : Operation} {t : Ty}
    (hc : c.script.Legible s) (hr : r.Legible) (ht : t.isData = true) (hword : IsTypeWord s t.name) :
    (compileOperation t c r).Legible s where
  script := Script.legible_append.mpr ⟨hc, ⟨ht, hword⟩,
    ⟨c.names.isIdent_variable, c.names.leadsPlace_variable.plain⟩, hr, trivial⟩
  value := c.names.isIdent_variable

mutual

/-- **What is compiled for a formula can be read.** -/
theorem legible_compile (hdata : Ty.areData types = true) (hs : Ty.Heard known s)
    (hsources : ∀ i t, types[i]? = some t → (sources.getD i default).Legible) :
    ∀ {x : Formula} {t : Ty} {names : Names}, x.isPure = true → x.infer types = .ok t →
      (∀ u ∈ (compile types sources names x).script.types, u.isData = true → IsTypeWord s u.name) →
      (compile types sources names x).Legible s
  | .literal type value, t, names, hpure, h, _ => by
    obtain ⟨s, i, hi, hplain⟩ := integer_of_isPure hpure
    rw [compile, hi]
    exact ⟨trivial, Literal.sized_of_integer? hi, hplain⟩
  | .arg i, t, names, _, h, _ => by
    rw [compile]
    exact ⟨trivial, hsources _ t (infer_arg h)⟩
  | .unary op x, t, names, hpure, h, hknown => by
    have hpure' : x.isPure = true := by simpa only [isPure] using hpure
    obtain ⟨s, hs', ht⟩ := infer_unary h
    have htdata := isData_infer hdata hpure h
    rw [compile, typeOf_eq h] at hknown ⊢
    simp only [compileOperation, Script.types_append, List.forall_mem_append, Script.types,
      List.forall_mem_singleton] at hknown
    have hx := legible_compile hdata hs hsources hpure' hs' hknown.1
    exact legible_operation hx.script ⟨isUnary_of_unaryTy ht, hx.value⟩
      htdata (hknown.2 htdata)
  | .binary op x y, t, names, hpure, h, hknown => by
    have hpure' := hpure
    rw [isPure, Bool.and_eq_true] at hpure'
    obtain ⟨s, r, hs', hr, hop⟩ := infer_binary h
    have htdata := isData_infer hdata hpure h
    rw [compile, typeOf_eq h] at hknown ⊢
    simp only at hknown ⊢
    cases hlog : op.isLogical with
    | true =>
      simp only [hlog, if_true, compileOperation, Script.types_append, Script.types,
        List.append_nil, List.forall_mem_append, List.forall_mem_singleton] at hknown ⊢
      have hx := legible_compile hdata hs hsources hpure'.1 hs' hknown.1.1
      have hy := legible_compile hdata hs hsources hpure'.2 hr hknown.2
      have hname := (compile types sources names x).names.isIdent_variable
      have hleads := (compile types sources names x).names.leadsPlace_variable
      have htest := legible_operation (t := .scalar .bool)
        (r := .copy (compile types sources names x).value) hx.script hx.value rfl (hknown.1.2 rfl)
      refine ⟨Script.legible_append.mpr ⟨htest.script, hname, ?_, trivial⟩, hname⟩
      exact Script.legible_append.mpr ⟨hy.script, ⟨hname, hleads.starts hs⟩, hy.value, trivial⟩
    | false =>
      simp only [hlog, Bool.false_eq_true, if_false] at hknown ⊢
      simp only [compileOperation, Script.types_append, Script.types, List.forall_mem_append,
        List.forall_mem_singleton] at hknown
      have hx := legible_compile hdata hs hsources hpure'.1 hs' hknown.1.1
      have hy := legible_compile hdata hs hsources hpure'.2 hr hknown.1.2
      have hbetween := (binaryTyped_of_binaryTy hop).isInfix hlog
      exact legible_operation (Script.legible_append.mpr ⟨hx.script, hy.script⟩)
        ⟨hbetween, hx.value, hy.value⟩ htdata (hknown.2 htdata)
  | .call name xs, t, names, hpure, h, hknown => by
    have hpure' : arePure xs = true := by simpa only [isPure] using hpure
    obtain ⟨ts, fn, sig, hts, hfn, -, -⟩ := infer_call h
    have htdata := isData_infer hdata hpure h
    rw [compile, typeOf_eq h] at hknown ⊢
    simp only [compileOperation, Script.types_append, List.forall_mem_append, Script.types,
      List.forall_mem_singleton] at hknown
    obtain ⟨hscript, hvalues⟩ := legible_compileAll hdata hs hsources hpure' hts hknown.1
    have hname : isIdent name = true := Builtin.name_of_ofName? hfn ▸ isIdent_builtin fn
    exact legible_operation hscript ⟨hname, hvalues⟩ htdata (hknown.2 htdata)
  | .get index x, t, names, hpure, h, hknown => by
    have hpure' : x.isPure = true := by simpa only [isPure] using hpure
    obtain ⟨s, hs', helem⟩ := infer_get h
    have htdata := isData_infer hdata hpure h
    obtain ⟨a, ha⟩ := @exists_source sources types x s t index names hs' hpure' helem
    rw [compile, typeOf_eq h, typeOf_eq hs'] at hknown ⊢
    simp only [compileOperation, Script.types_append, List.forall_mem_append, Script.types,
      List.forall_mem_singleton] at hknown
    have hx := legible_compile hdata hs hsources hpure' hs' hknown.1
    have hvalue := hx.value
    rw [ha] at hvalue ⊢
    exact legible_operation hx.script ⟨hvalue, isIdent_elementName helem⟩
      htdata (hknown.2 htdata)
  | .missing, t, names, hpure, _, _ => by cases hpure
  | .apply fn xs, t, names, hpure, _, _ => by cases hpure
  | .helper fn, t, names, hpure, _, _ => by cases hpure
  | .set lhs rhs, t, names, hpure, _, _ => by cases hpure

theorem legible_compileAll (hdata : Ty.areData types = true) (hs : Ty.Heard known s)
    (hsources : ∀ i t, types[i]? = some t → (sources.getD i default).Legible) :
    ∀ {xs : List Formula} {ts : List Ty} {names : Names}, arePure xs = true →
      inferAll types xs = .ok ts →
      (∀ u ∈ (compileAll types sources names xs).script.types, u.isData = true → IsTypeWord s u.name) →
      (compileAll types sources names xs).script.Legible s ∧
        ∀ a ∈ (compileAll types sources names xs).value, a.Legible
  | [], ts, names, _, _, _ => by
    rw [compileAll]
    exact ⟨trivial, List.forall_mem_nil _⟩
  | x :: xs, ts, names, hpure, h, hknown => by
    rw [arePure, Bool.and_eq_true] at hpure
    obtain ⟨t, ts', ht, hts', -⟩ := inferAll_cons h
    rw [compileAll] at hknown ⊢
    simp only [Script.types_append, List.forall_mem_append] at hknown
    have hx := legible_compile hdata hs hsources hpure.1 ht hknown.1
    obtain ⟨hscript, hvalues⟩ := legible_compileAll hdata hs hsources hpure.2 hts' hknown.2
    exact ⟨Script.legible_append.mpr ⟨hx.script, hscript⟩,
      List.forall_mem_cons.mpr ⟨hx.value, hvalues⟩⟩

end

end Formula

end KernelForge
