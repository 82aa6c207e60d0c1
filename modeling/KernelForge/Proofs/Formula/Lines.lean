/-
The lines that lowering writes.

The statements for a formula are few in kind: a variable is declared with the result of one
operation, a value is assigned to a place, and the right operand of `&&` and `||` stands between two
lines that guard it.  Here the lines have a form of their own, from which it can be read which types
a line names and which helper functions it calls, and it is said which lines a formula comes to.
Nothing is left out: formulas may assign, and call helpers whose bodies are formulas again.
-/
import KernelForge.Proofs.Formula.Inference
import KernelForge.Proofs.Host.Codec

namespace KernelForge

/-! ### Types in calls -/

namespace Ty

/-- The types that may be asked for: data, pointers to it, and the absence of a value. -/
def isClean : Ty → Bool
  | void => true
  | pointer t _ _ => t.isClean
  | t => t.isData

theorem isClean_of_isData {t : Ty} (h : t.isData = true) : t.isClean = true := by
  cases t with
  | void | pointer => cases h
  | _ => exact h

theorem isData_of_isClean {t : Ty} (h : t.isClean = true) (hvoid : t ≠ .void)
    (hpointer : ∀ u space readOnly, t ≠ .pointer u space readOnly) : t.isData = true := by
  cases t with
  | void => exact absurd rfl hvoid
  | pointer u space readOnly => exact absurd rfl (hpointer u space readOnly)
  | _ =>
    rw [isClean] at h
    · exact h
    all_goals nofun

/-- Operands with a common type are numbers or vectors of numbers. -/
theorem isData_of_broadcast {s r t : Ty} (h : broadcast? s r = some t) (hs : s.isClean = true)
    (hr : r.isClean = true) : s.isData = true ∧ r.isData = true := by
  unfold broadcast? at h
  split at h
  · exact ⟨rfl, rfl⟩
  · exact ⟨rfl, hr⟩
  · exact ⟨hs, rfl⟩
  · exact ⟨hs, hr⟩
  · cases h

end Ty

theorem Builtin.Signed.areData {f : Builtin} {args : List Ty} {sig : Signature}
    (h : f.Signed args sig) (hargs : ∀ t ∈ args, t.isClean = true) : Ty.areData args = true := by
  have hadmits : ∀ {t : Ty}, f.Admits t → t.isClean = true → t.isData = true := by
    intro t ht hclean
    cases t with
    | void | pointer => cases ht.numeric
    | _ => exact hclean
  rw [Ty.areData_iff]
  cases h with
  | keeps _ hx => simpa using hadmits hx (hargs _ (by simp))
  | joins _ ht _ =>
    have hdata := Ty.isData_of_broadcast ht (hargs _ (by simp)) (hargs _ (by simp))
    simpa using hdata
  | @clamps x lo hi l h hk hx hl hh =>
    have hdata := hadmits hx (hargs _ (by simp))
    have hbound : ∀ {b l : Ty}, clampBound? b x = some l → b.isData = true := by
      intro b l hb
      unfold clampBound? at hb
      split at hb
      · rename_i heq
        rw [heq]
        exact hdata
      · split at hb
        · rfl
        · cases hb
    simpa using ⟨hdata, hbound hl, hbound hh⟩
  | dots _ hx _ => simpa using hadmits hx (hargs _ (by simp))
  | measures _ hx _ => simpa using hadmits hx (hargs _ (by simp))

namespace HostTy

mutual

theorem isData_of_kernelTy : ∀ {h : HostTy} {t : Ty}, h.kernelTy = .ok t → t.isData = true
  | .array n elem, t, h => by
    simp only [kernelTy] at h
    split at h
    · cases h
    · split at h
      · rename_i hv
        cases h
        simp only [Ty.vectorOf?, Option.ite_none_left_eq_some, Option.map_eq_some_iff] at hv
        obtain ⟨hbool, w, -, rfl⟩ := hv
        rw [Ty.isData, Bool.eq_false_iff.mpr hbool]
        rfl
      · cases h
    · cases h
  | .struct fs, t, h => by
    obtain ⟨ts, hts, -, rfl⟩ := kernelTy_struct h
    rw [Ty.isData]
    exact areData_of_fieldTys hts
  | .bool, t, h => by cases h; rfl
  | .int w, t, h => by cases w <;> cases h <;> rfl
  | .uint w, t, h => by cases w <;> cases h <;> rfl
  | .float32, t, h => by cases h; rfl
  | .float64, t, h => by cases h; rfl
  | .string, t, h => by cases h
  | .complex64, t, h => by cases h
  | .slice _, t, h => by cases h
  | .pointer _, t, h => by cases h

theorem areData_of_fieldTys : ∀ {fs : List (Bool × HostTy)} {ts : List Ty},
    fieldTys fs = .ok ts → Ty.areData ts = true
  | [], ts, h => by
    cases h
    rfl
  | (true, t) :: fs, ts, h => by
    rw [fieldTys_hidden] at h
    exact areData_of_fieldTys h
  | (false, t) :: fs, ts, h => by
    obtain ⟨k, ks, hk, hks, rfl⟩ := fieldTys_shown h
    rw [Ty.areData, isData_of_kernelTy hk, areData_of_fieldTys hks]
    rfl

end

end HostTy

/-- So are the types of literals. -/
theorem Literal.isData_of_ofHost {h? : Option HostTy} {v : HostValue} {t : Ty} {src : String}
    (h : ofHost h? v = .ok (t, src)) : t.isData = true := by
  unfold ofHost at h
  split at h
  · cases h
  · rename_i k hk
    have hdata : k.isData = true := by
      cases h? with
      | none => cases hk
      | some h => exact HostTy.isData_of_kernelTy hk
    simp only at h
    split at h
    · cases h
    · cases h
      split
      · split
        · exact hdata
        · rfl
      · split
        · exact hdata
        · rfl
      · exact hdata

/-! ### Helpers -/

mutual

/-- The helper functions that a formula calls, and those that they call. -/
def Formula.helpers : Formula → List HelperFn
  | .unary _ x => x.helpers
  | .binary _ x y => x.helpers ++ y.helpers
  | .call _ xs => Formula.allHelpers xs
  | .apply fn xs => fn.helpers ++ Formula.allHelpers xs
  | .helper fn => fn.helpers
  | .get _ x => x.helpers
  | .set lhs rhs => lhs.helpers ++ rhs.helpers
  | .missing | .literal _ _ | .arg _ => []

def Formula.allHelpers : List Formula → List HelperFn
  | [] => []
  | x :: xs => x.helpers ++ Formula.allHelpers xs

/-- A helper function, and those that its body calls. -/
def HelperFn.helpers : HelperFn → List HelperFn
  | .mk id name body params result => .mk id name body params result :: body.helpers

end

mutual

/-- Helpers are parts of the formula that calls them. -/
theorem Formula.sizeOf_helpers : ∀ {n : Formula} {fn : HelperFn}, fn ∈ n.helpers →
    sizeOf fn < sizeOf n
  | .unary op x, fn, h => by
    rw [Formula.helpers] at h
    have := Formula.sizeOf_helpers h
    simp only [Formula.unary.sizeOf_spec]
    omega
  | .binary op x y, fn, h => by
    rw [Formula.helpers, List.mem_append] at h
    simp only [Formula.binary.sizeOf_spec]
    rcases h with h | h
    · have := Formula.sizeOf_helpers h
      omega
    · have := Formula.sizeOf_helpers h
      omega
  | .call name xs, fn, h => by
    rw [Formula.helpers] at h
    have := Formula.sizeOf_allHelpers h
    simp only [Formula.call.sizeOf_spec]
    omega
  | .apply g xs, fn, h => by
    rw [Formula.helpers, List.mem_append] at h
    simp only [Formula.apply.sizeOf_spec]
    rcases h with h | h
    · have := HelperFn.sizeOf_helpers h
      omega
    · have := Formula.sizeOf_allHelpers h
      omega
  | .helper g, fn, h => by
    rw [Formula.helpers] at h
    have := HelperFn.sizeOf_helpers h
    simp only [Formula.helper.sizeOf_spec]
    omega
  | .get index x, fn, h => by
    rw [Formula.helpers] at h
    have := Formula.sizeOf_helpers h
    simp only [Formula.get.sizeOf_spec]
    omega
  | .set lhs rhs, fn, h => by
    rw [Formula.helpers, List.mem_append] at h
    simp only [Formula.set.sizeOf_spec]
    rcases h with h | h
    · have := Formula.sizeOf_helpers h
      omega
    · have := Formula.sizeOf_helpers h
      omega
  | .missing, fn, h => by cases h
  | .literal _ _, fn, h => by cases h
  | .arg _, fn, h => by cases h

theorem Formula.sizeOf_allHelpers : ∀ {ns : List Formula} {fn : HelperFn},
    fn ∈ Formula.allHelpers ns → sizeOf fn < sizeOf ns
  | [], fn, h => by cases h
  | n :: ns, fn, h => by
    rw [Formula.allHelpers, List.mem_append] at h
    simp only [List.cons.sizeOf_spec]
    rcases h with h | h
    · have := Formula.sizeOf_helpers h
      omega
    · have := Formula.sizeOf_allHelpers h
      omega

theorem HelperFn.sizeOf_helpers : ∀ {g fn : HelperFn}, fn ∈ g.helpers → sizeOf fn ≤ sizeOf g
  | .mk id name body params result, fn, h => by
    rw [HelperFn.helpers, List.mem_cons] at h
    rcases h with rfl | h
    · exact Nat.le_refl _
    · have := Formula.sizeOf_helpers h
      simp only [HelperFn.mk.sizeOf_spec]
      omega

end

/-- A helper with types that may be asked for, and the number that it has in a table. -/
structure HelperFn.Sound (table : Nat → HelperFn) (fn : HelperFn) : Prop where
  number : table fn.id = fn
  result : fn.result.isClean = true
  params : ∀ t ∈ fn.params, t.isClean = true

/-! ### Types of formulas -/

namespace Formula

theorem infer_apply {types : List Ty} {fn : HelperFn} {xs : List Formula} {t : Ty}
    (h : (apply fn xs).infer types = .ok t) : t = fn.result := by
  rw [infer] at h
  obtain ⟨ts, -, h⟩ := bind_eq_ok.mp h
  unfold helperTy at h
  split at h
  · cases h
  · split at h
    · cases h
      rfl
    · cases h

theorem infer_helper {types : List Ty} {fn : HelperFn} {t : Ty}
    (h : (helper fn).infer types = .ok t) : t = fn.result := by
  rw [infer] at h
  obtain ⟨ts, -, h⟩ := bind_eq_ok.mp h
  unfold helperTy at h
  split at h
  · cases h
  · split at h
    · cases h
      rfl
    · cases h

theorem HasElement.clean {index : Int} {s t : Ty} (h : HasElement index s t)
    (hs : s.isClean = true) : t.isClean = true := by
  cases h with
  | lane _ _ => rfl
  | field _ ht =>
    have hs : (Ty.tuple _).isData = true := hs
    rw [Ty.isData, Ty.areData_iff] at hs
    exact Ty.isClean_of_isData (hs _ (List.mem_of_getElem? ht))

theorem isClean_unaryTy {op : Operator} {s t : Ty} (h : unaryTy? op s = some t)
    (hs : s.isClean = true) : t.isClean = true := by
  have hdata : s.isData = true := by
    unfold unaryTy? at h
    split at h <;> first | exact hs | cases h
  exact Ty.isClean_of_isData (Ty.isData_of_isPlain (isPlain_unaryTy h hdata))

theorem BinaryTyped.clean {op : Operator} {s r t : Ty} (h : BinaryTyped op s r t)
    (hs : s.isClean = true) (hr : r.isClean = true) : t.isClean = true := by
  have hdata : s.isData = true ∧ r.isData = true := by
    cases h with
    | truth _ => exact ⟨rfl, rfl⟩
    | common _ _ _ ht _ => exact Ty.isData_of_broadcast ht hs hr
  exact Ty.isClean_of_isData (Ty.isData_of_isPlain (h.isPlain hdata.1 hdata.2))

section
variable {table : Nat → HelperFn} {types : List Ty}

mutual

/-- What can be computed from types that may be asked for has such a type. -/
theorem isClean_infer (htypes : ∀ t ∈ types, t.isClean = true) :
    ∀ {n : Formula} {t : Ty}, (∀ fn ∈ n.helpers, fn.Sound table) → n.infer types = .ok t →
      t.isClean = true
  | .missing, t, _, h => by cases h
  | .literal type value, t, _, h => by
    rw [infer] at h
    split at h
    · rename_i hlit
      cases h
      exact Ty.isClean_of_isData (Literal.isData_of_ofHost hlit)
    · cases h
  | .arg i, t, _, h => htypes t (List.mem_of_getElem? (infer_arg h))
  | .unary op x, t, hsound, h => by
    rw [helpers] at hsound
    obtain ⟨s, hs, ht⟩ := infer_unary h
    exact isClean_unaryTy ht (isClean_infer htypes hsound hs)
  | .binary op x y, t, hsound, h => by
    rw [helpers, List.forall_mem_append] at hsound
    obtain ⟨s, r, hs, hr, ht⟩ := infer_binary h
    exact (binaryTyped_of_binaryTy ht).clean (isClean_infer htypes hsound.1 hs)
      (isClean_infer htypes hsound.2 hr)
  | .call name xs, t, hsound, h => by
    rw [helpers] at hsound
    obtain ⟨ts, f, sig, hts, -, hsig, rfl⟩ := infer_call h
    have hsigned := Builtin.signed_of_signature hsig
    have hdata := hsigned.areData (areClean_inferAll htypes hsound hts)
    exact Ty.isClean_of_isData (Ty.isData_of_isPlain (hsigned.isPlain hdata).1)
  | .apply (.mk id name body params result) xs, t, hsound, h => by
    rw [helpers, List.forall_mem_append] at hsound
    rw [infer_apply h]
    exact (hsound.1 _ List.mem_cons_self).result
  | .helper (.mk id name body params result), t, hsound, h => by
    rw [helpers] at hsound
    rw [infer_helper h]
    exact (hsound _ List.mem_cons_self).result
  | .get index x, t, hsound, h => by
    rw [helpers] at hsound
    obtain ⟨s, hs, ht⟩ := infer_get h
    exact ht.clean (isClean_infer htypes hsound hs)
  | .set lhs rhs, t, hsound, h => by
    rw [helpers, List.forall_mem_append] at hsound
    rw [infer] at h
    split at h
    · cases h
    · obtain ⟨s, hs, h⟩ := bind_eq_ok.mp h
      obtain ⟨u, -, h⟩ := bind_eq_ok.mp h
      split at h
      · cases h
        exact isClean_infer htypes hsound.1 hs
      · cases h

theorem areClean_inferAll (htypes : ∀ t ∈ types, t.isClean = true) :
    ∀ {ns : List Formula} {ts : List Ty}, (∀ fn ∈ allHelpers ns, fn.Sound table) →
      inferAll types ns = .ok ts → ∀ t ∈ ts, t.isClean = true
  | [], ts, _, h => by
    rw [inferAll] at h
    cases h
    nofun
  | n :: ns, ts, hsound, h => by
    rw [allHelpers, List.forall_mem_append] at hsound
    obtain ⟨t, ts', ht, hts', rfl⟩ := inferAll_cons h
    exact List.forall_mem_cons.mpr ⟨isClean_infer htypes hsound.1 ht,
      areClean_inferAll htypes hsound.2 hts'⟩

end

end

end Formula

/-! ### Lines -/

/-- What stands for a value: the name of a place, or a literal. -/
inductive Atom where
  | place (text : String)
  | literal (t : Ty) (text : String)

/-- What a variable is declared with. -/
inductive Initial where
  /-- A text that was made elsewhere. -/
  | given (text : String)
  | copy (a : Atom)
  | unary (op : Operator) (a : Atom)
  | binary (op : Operator) (a b : Atom)
  /-- A call of a function that the device has. -/
  | call (fn : String) (as : List Atom)
  /-- A call of a helper function, under the name that it was given. -/
  | apply (fn : HelperFn) (name : String) (as : List Atom)
  | element (a : Atom) (field : String)

/-- A line of a body. -/
inductive Line where
  | declare (t : Ty) (x : String) (value : Initial)
  | guard (test : String)
  | assign (place : String) (a : Atom)
  | close

namespace Atom

def text : Atom → String
  | place s => s
  | literal _ s => s

/-- The text in a form that a field may follow. -/
def operand : Atom → String
  | place s => s
  | literal _ s => "(" ++ s ++ ")"

def types : Atom → List Ty
  | place _ => []
  | literal t _ => [t]

end Atom

namespace Initial

def text : Initial → String
  | given s => s
  | copy a => a.text
  | unary op a => Formula.unarySign op ++ a.text
  | binary op a b => a.text ++ " " ++ op.spelling ++ " " ++ b.text
  | call fn as => fn ++ "(" ++ ", ".intercalate (as.map Atom.text) ++ ")"
  | apply _ name as => name ++ "(" ++ ", ".intercalate (as.map Atom.text) ++ ")"
  | element a field => a.operand ++ "." ++ field

def types : Initial → List Ty
  | given _ => []
  | copy a => a.types
  | unary _ a => a.types
  | binary _ a b => a.types ++ b.types
  | call _ as => as.flatMap Atom.types
  | apply _ _ as => as.flatMap Atom.types
  | element a _ => a.types

def calls : Initial → List (HelperFn × String)
  | apply fn name _ => [(fn, name)]
  | _ => []

end Initial

namespace Line

def text : Line → String
  | declare t x value => t.name ++ " " ++ x ++ " = " ++ value.text ++ ";"
  | guard test => "if (" ++ test ++ ") \x7b"
  | assign place a => place ++ " = " ++ a.text ++ ";"
  | close => "\x7d"

/-- The types that a line names. -/
def types : Line → List Ty
  | declare t _ value => t :: value.types
  | assign _ a => a.types
  | guard _ | close => []

/-- The helper functions that a line calls. -/
def calls : Line → List (HelperFn × String)
  | declare _ _ value => value.calls
  | _ => []

/-- The text of lines, each of which has a depth. -/
def texts (ls : List (Nat × Line)) : String :=
  String.join (ls.map fun l => Script.lineText l.1 l.2.text)

@[simp] theorem texts_nil : texts [] = "" := rfl

@[simp] theorem texts_cons (l : Nat × Line) (ls : List (Nat × Line)) :
    texts (l :: ls) = Script.lineText l.1 l.2.text ++ texts ls := by
  simp [texts]

@[simp] theorem texts_append (ls ms : List (Nat × Line)) :
    texts (ls ++ ms) = texts ls ++ texts ms := by
  simp [texts]

end Line

/-! ### Lines of formulas -/

namespace Formula

mutual

/-- The lines that compute a formula, from a depth on, and what stands for its value.  The names of
variables and of helper functions are whatever was free. -/
inductive Lowers (bs : List Binding) : Nat → Formula → List (Nat × Line) → Atom → Prop
  | literal {k : Nat} {type : Option HostTy} {value : HostValue} {t : Ty} {src : String}
      (h : Literal.ofHost type value = .ok (t, src)) :
      Lowers bs k (.literal type value) [] (.literal t src)
  | arg {k : Nat} {i : Int} : Lowers bs k (.arg i) [] (.place (bindingAt bs i).expr)
  | unary {k : Nat} {op : Operator} {x : Formula} {ls : List (Nat × Line)} {a : Atom} {t : Ty}
      {v : String} (hx : Lowers bs k x ls a) (ht : (unary op x).infer (bs.map (·.type)) = .ok t) :
      Lowers bs k (.unary op x) (ls ++ [(k, .declare t v (.unary op a))]) (.place v)
  | logical {k : Nat} {op : Operator} {x y : Formula} {ls ms : List (Nat × Line)} {a b : Atom}
      {v : String} (hop : op.isLogical = true) (hx : Lowers bs k x ls a)
      (hy : Lowers bs (k + 1) y ms b) :
      Lowers bs k (.binary op x y)
        (ls ++ (k, .declare (.scalar .bool) v (.copy a)) ::
          (k, .guard (Script.testText (op = .lor) v)) ::
            (ms ++ [(k + 1, .assign v b), (k, .close)])) (.place v)
  | binary {k : Nat} {op : Operator} {x y : Formula} {ls ms : List (Nat × Line)} {a b : Atom} {t : Ty}
      {v : String} (hop : op.isLogical = false) (hx : Lowers bs k x ls a) (hy : Lowers bs k y ms b)
      (ht : (binary op x y).infer (bs.map (·.type)) = .ok t) :
      Lowers bs k (.binary op x y) (ls ++ (ms ++ [(k, .declare t v (.binary op a b))])) (.place v)
  | call {k : Nat} {fn : String} {xs : List Formula} {ls : List (Nat × Line)} {as : List Atom} {t : Ty}
      {v : String} (hxs : LowersAll bs k xs ls as)
      (ht : (call fn xs).infer (bs.map (·.type)) = .ok t) :
      Lowers bs k (.call fn xs) (ls ++ [(k, .declare t v (.call fn as))]) (.place v)
  | apply {k : Nat} {fn : HelperFn} {xs : List Formula} {ls : List (Nat × Line)} {as : List Atom}
      {t : Ty} {name v : String} (hxs : LowersAll bs k xs ls as)
      (ht : (apply fn xs).infer (bs.map (·.type)) = .ok t) :
      Lowers bs k (.apply fn xs) (ls ++ [(k, .declare t v (.apply fn name as))]) (.place v)
  | helper {k : Nat} {fn : HelperFn} {t : Ty} {name v : String}
      (ht : (helper fn).infer (bs.map (·.type)) = .ok t) :
      Lowers bs k (.helper fn)
        [(k, .declare t v (.apply fn name
          ((List.range fn.params.length).map fun (i : Nat) => .place (bindingAt bs i).expr)))] (.place v)
  | field {k : Nat} {index : Int} {x : Formula} {expr : String}
      (h : fieldBinding? bs index x = some expr) : Lowers bs k (.get index x) [] (.place expr)
  | get {k : Nat} {index : Int} {x : Formula} {ls : List (Nat × Line)} {a : Atom} {s t : Ty}
      {v : String} (h : fieldBinding? bs index x = none) (hx : Lowers bs k x ls a)
      (hs : x.infer (bs.map (·.type)) = .ok s)
      (ht : (get index x).infer (bs.map (·.type)) = .ok t) :
      Lowers bs k (.get index x) (ls ++ [(k, .declare t v (.element a (elementName index s)))]) (.place v)
  | set {k : Nat} {lhs rhs : Formula} {ls : List (Nat × Line)} {a : Atom} {l : String}
      (hrhs : Lowers bs k rhs ls a) (hlhs : ∀ d, place bs lhs d = (.ok l, d)) :
      Lowers bs k (.set lhs rhs) (ls ++ [(k, .assign l a)]) (.place l)

inductive LowersAll (bs : List Binding) :
    Nat → List Formula → List (Nat × Line) → List Atom → Prop
  | nil {k : Nat} : LowersAll bs k [] [] []
  | cons {k : Nat} {x : Formula} {xs : List Formula} {ls ms : List (Nat × Line)} {a : Atom}
      {as : List Atom} (hx : Lowers bs k x ls a) (hxs : LowersAll bs k xs ms as) :
      LowersAll bs k (x :: xs) (ls ++ ms) (a :: as)

end

/-- Literals, and nothing else, stand for themselves. -/
theorem Lowers.operand {bs : List Binding} {k : Nat} {x : Formula} {ls : List (Nat × Line)} {a : Atom}
    (h : Lowers bs k x ls a) : parenthesized x a.text = a.operand := by
  cases h <;> rfl

end Formula

end KernelForge
