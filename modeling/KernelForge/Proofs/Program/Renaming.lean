/-
Renaming a variable, and checking a source in which one is renamed.

A declaration gets a fresh name, and so does exactly each occurrence that is bound to it: an
occurrence is bound to the last declaration of its name before it, in the innermost scope that has
one.  The relation between a tree and the renamed one says which scopes there are and what is
declared in them; where things stand in the text is left open, since a name of another length moves
whatever follows it.

The checker looks names up in scopes of its own.  What carries the argument is that these and the
scopes of the renaming grow in step: variables are found in the same slots under their old and their
new names, so the same code is generated.
-/
import KernelForge.Program.Build
import KernelForge.Proofs.Basic
import KernelForge.Proofs.Code.Phrases
import Mathlib.Data.List.Forall2

namespace KernelForge

/-! ### Renaming trees -/

/-- A declaration, and the name that it gets. -/
structure Renaming where
  target : Code.Ident
  fresh : String

namespace Renaming

/-- The declarations in force: the innermost scope first, and in each the last declaration first. -/
abbrev Scopes := List (List Code.Ident)

/-- The declaration that a name is bound to. -/
def binder? (scopes : Scopes) (name : String) : Option Code.Ident :=
  scopes.flatten.find? fun id => id.name = name

/-- The scopes after a declaration in the innermost of them. -/
def declare (id : Code.Ident) (scopes : Scopes) : Scopes :=
  (id :: scopes.head?.getD []) :: scopes.tail

variable (ρ : Renaming)

/-- What a declaration is called after the renaming. -/
def declared (id : Code.Ident) : String := if id = ρ.target then ρ.fresh else id.name

/-- How an occurrence refers to what it is bound to after the renaming. -/
def used (scopes : Scopes) (name : String) : String :=
  if binder? scopes name = some ρ.target then ρ.fresh else name

mutual

/-- An expression and the renamed one.  Functions, types and the fields of structures have names of
other kinds, which stay. -/
inductive Expr (scopes : Scopes) : Code.Expr → Code.Expr → Prop
  | ident {id : Code.Ident} {o : Nat} (hfresh : id.name ≠ ρ.fresh) :
      Expr scopes (.ident id) (.ident ⟨o, ρ.used scopes id.name⟩)
  | number {o o' : Nat} {kind : Code.NumberKind} {text : String} :
      Expr scopes (.number o kind text) (.number o' kind text)
  | unary {o o' : Nat} {op : Operator} {x x' : Code.Expr} (hx : Expr scopes x x') :
      Expr scopes (.unary o op x) (.unary o' op x')
  | binary {o o' : Nat} {op : Operator} {x x' y y' : Code.Expr}
      (hx : Expr scopes x x') (hy : Expr scopes y y') :
      Expr scopes (.binary x o op y) (.binary x' o' op y')
  | cond {test test' x x' y y' : Code.Expr} (htest : Expr scopes test test')
      (hx : Expr scopes x x') (hy : Expr scopes y y') :
      Expr scopes (.cond test x y) (.cond test' x' y')
  | call {fn : Code.Ident} {o paren paren' : Nat} {args args' : List Code.Expr}
      (hfresh : fn.name ≠ ρ.fresh) (hargs : Exprs scopes args args') :
      Expr scopes (.call fn paren args) (.call { fn with offset := o } paren' args')
  | cast {o o' p : Nat} {spec : Code.TypeSpec} {x x' : Code.Expr}
      (hx : Expr scopes x x') :
      Expr scopes (.cast o spec x) (.cast o' { spec with offset := p } x')
  | vectorLit {o o' p : Nat} {spec : Code.TypeSpec} {items items' : List Code.Expr}
      (hitems : Exprs scopes items items') :
      Expr scopes (.vectorLit o spec items) (.vectorLit o' { spec with offset := p } items')
  | structLit {o o' p : Nat} {spec : Code.TypeSpec} {items items' : List Code.Expr}
      (hitems : Exprs scopes items items') :
      Expr scopes (.structLit o spec items) (.structLit o' { spec with offset := p } items')
  | index {o o' : Nat} {x x' i i' : Code.Expr} (hx : Expr scopes x x')
      (hi : Expr scopes i i') : Expr scopes (.index x o i) (.index x' o' i')
  | select {x x' : Code.Expr} {field : Code.Ident} {o : Nat} (hx : Expr scopes x x') :
      Expr scopes (.select x field) (.select x' { field with offset := o })
  | paren {o o' : Nat} {x x' : Code.Expr} (hx : Expr scopes x x') :
      Expr scopes (.paren o x) (.paren o' x')

/-- Expressions and the renamed ones. -/
inductive Exprs (scopes : Scopes) : List Code.Expr → List Code.Expr → Prop
  | nil : Exprs scopes [] []
  | cons {x x' : Code.Expr} {xs xs' : List Code.Expr} (hx : Expr scopes x x')
      (hxs : Exprs scopes xs xs') : Exprs scopes (x :: xs) (x' :: xs')

end

/-- Declared variables and the renamed ones, and the scopes after them.  The initial value of a
variable does not see the variable. -/
inductive Vars : Scopes → List (Code.Ident × Option Code.Expr) →
    List (Code.Ident × Option Code.Expr) → Scopes → Prop
  | nil {scopes : Scopes} : Vars scopes [] [] scopes
  | cons {scopes scopes' : Scopes} {id : Code.Ident} {o : Nat} {init init' : Option Code.Expr}
      {rest rest' : List (Code.Ident × Option Code.Expr)} (hfresh : id.name ≠ ρ.fresh)
      (hinit : Option.Rel (ρ.Expr scopes) init init')
      (hrest : Vars (declare id scopes) rest rest' scopes') :
      Vars scopes ((id, init) :: rest) ((⟨o, ρ.declared id⟩, init') :: rest') scopes'

/-- A statement of a loop header and the renamed one, and the scopes after it. -/
inductive Simple : Scopes → Code.Simple → Code.Simple → Scopes → Prop
  | decl {scopes scopes' : Scopes} {spec : Code.TypeSpec} {o : Nat}
      {vars vars' : List (Code.Ident × Option Code.Expr)} (hvars : ρ.Vars scopes vars vars' scopes') :
      Simple scopes (.decl spec vars) (.decl { spec with offset := o } vars') scopes'
  | expr {scopes : Scopes} {x x' : Code.Expr} (hx : ρ.Expr scopes x x') :
      Simple scopes (.expr x) (.expr x') scopes
  | assign {scopes : Scopes} {lhs lhs' rhs rhs' : Code.Expr} {o o' : Nat} {op : Operator}
      (hlhs : ρ.Expr scopes lhs lhs') (hrhs : ρ.Expr scopes rhs rhs') :
      Simple scopes (.assign lhs o op rhs) (.assign lhs' o' op rhs') scopes
  | step {scopes : Scopes} {x x' : Code.Expr} {o o' : Nat} {op : Operator} (hx : ρ.Expr scopes x x') :
      Simple scopes (.step x o op) (.step x' o' op) scopes

/-- A part of a loop header that may be missing. -/
inductive Part : Scopes → Option Code.Simple → Option Code.Simple → Scopes → Prop
  | none {scopes : Scopes} : Part scopes none none scopes
  | some {scopes scopes' : Scopes} {s s' : Code.Simple} (hs : ρ.Simple scopes s s' scopes') :
      Part scopes (some s) (some s') scopes'

mutual

/-- A statement and the renamed one, and the scopes after it.  A block, a branch and the body of a
loop have a scope of their own; what the header of a loop declares is seen in the whole loop. -/
inductive Stmt : Scopes → Code.Stmt → Code.Stmt → Scopes → Prop
  | simple {scopes scopes' : Scopes} {s s' : Code.Simple} (hs : ρ.Simple scopes s s' scopes') :
      Stmt scopes (.simple s) (.simple s') scopes'
  | block {scopes inner : Scopes} {o o' : Nat} {body body' : List Code.Stmt}
      (hbody : Stmts ([] :: scopes) body body' inner) :
      Stmt scopes (.block o body) (.block o' body') scopes
  | ifThen {scopes inner : Scopes} {o o' : Nat} {test test' : Code.Expr} {yes yes' : Code.Stmt}
      (htest : ρ.Expr scopes test test') (hyes : Stmt ([] :: scopes) yes yes' inner) :
      Stmt scopes (.ifThen o test yes) (.ifThen o' test' yes') scopes
  | ifElse {scopes inner inner' : Scopes} {o o' : Nat} {test test' : Code.Expr}
      {yes yes' no no' : Code.Stmt} (htest : ρ.Expr scopes test test')
      (hyes : Stmt ([] :: scopes) yes yes' inner) (hno : Stmt ([] :: scopes) no no' inner') :
      Stmt scopes (.ifElse o test yes no) (.ifElse o' test' yes' no') scopes
  | loop {scopes head inner inner' : Scopes} {o o' : Nat} {init init' post post' : Option Code.Simple}
      {test test' : Option Code.Expr} {body body' : Code.Stmt}
      (hinit : ρ.Part ([] :: scopes) init init' head) (htest : Option.Rel (ρ.Expr head) test test')
      (hpost : ρ.Part ([] :: head) post post' inner) (hbody : Stmt ([] :: head) body body' inner') :
      Stmt scopes (.loop o init test post body) (.loop o' init' test' post' body') scopes
  | ret {scopes : Scopes} {o o' : Nat} {x x' : Option Code.Expr} (hx : Option.Rel (ρ.Expr scopes) x x') :
      Stmt scopes (.ret o x) (.ret o' x') scopes
  | brk {scopes : Scopes} {o o' : Nat} : Stmt scopes (.brk o) (.brk o') scopes
  | cont {scopes : Scopes} {o o' : Nat} : Stmt scopes (.cont o) (.cont o') scopes
  | empty {scopes : Scopes} {o o' : Nat} : Stmt scopes (.empty o) (.empty o') scopes

/-- Statements and the renamed ones, and the scopes after them. -/
inductive Stmts : Scopes → List Code.Stmt → List Code.Stmt → Scopes → Prop
  | nil {scopes : Scopes} : Stmts scopes [] [] scopes
  | cons {scopes scopes' scopes'' : Scopes} {s s' : Code.Stmt} {ss ss' : List Code.Stmt}
      (hs : Stmt scopes s s' scopes') (hss : Stmts scopes' ss ss' scopes'') :
      Stmts scopes (s :: ss) (s' :: ss') scopes''

end

/-- Parameters and the renamed ones, and the scopes after them. -/
inductive Params : Scopes → List Code.Field → List Code.Field → Scopes → Prop
  | nil {scopes : Scopes} : Params scopes [] [] scopes
  | cons {scopes scopes' : Scopes} {f : Code.Field} {o p : Nat} {fs fs' : List Code.Field}
      (hfresh : f.name.name ≠ ρ.fresh) (hfs : Params (declare f.name scopes) fs fs' scopes') :
      Params scopes (f :: fs) (⟨{ f.type with offset := o }, ⟨p, ρ.declared f.name⟩⟩ :: fs') scopes'

/-- A function and the renamed one. -/
structure Func (d d' : Code.Func) : Prop where
  isKernel : d'.isKernel = d.isKernel
  result : d'.result.bare = d.result.bare
  name : d'.name.name = d.name.name
  inner : ∃ scopes scopes', ρ.Params [[]] d.params d'.params scopes ∧
    ρ.Stmts ([] :: scopes) d.body d'.body scopes'

end Renaming

namespace Code

/-- A field without the offsets of its parts. -/
def Field.bare (f : Field) : Field := ⟨f.type.bare, f.name.bare⟩

/-- The declaration of a structure without the offsets of its parts. -/
def Typedef.bare (d : Typedef) : Typedef := ⟨0, d.fields.map Field.bare, d.name.bare⟩

end Code

/-- A source and the renamed one. -/
structure Renaming.File (ρ : Renaming) (file file' : Code.File) : Prop where
  pragmas : List.Forall₂ (fun p p' => p'.text = p.text) file.pragmas file'.pragmas
  typedefs : List.Forall₂ (fun d d' => d'.bare = d.bare) file.typedefs file'.typedefs
  funcs : List.Forall₂ ρ.Func file.funcs file'.funcs

end KernelForge

namespace KernelForge

/-! ### Checks that accept what others accept -/

namespace Check

variable {α β γ δ : Type} {R : α → β → Prop} {S : γ → δ → Prop}

/-- What the first check accepts the second accepts too, with a related result. -/
def Follows (R : α → β → Prop) (r : Check α) (r' : Check β) : Prop :=
  ∀ a, r = .ok a → ∃ b, r' = .ok b ∧ R a b

theorem follows_ok {a : α} {b : β} (h : R a b) : Follows R (.ok a) (.ok b) := by
  rintro _ ⟨⟩
  exact ⟨b, rfl, h⟩

theorem follows_error {o : Objection} {r : Check β} : Follows R (.error o) r := by rintro _ ⟨⟩

theorem follows_complain {offset : Nat} {e : CheckError} {r : Check β} :
    Follows R (complain offset e) r := follows_error

theorem follows_refl {r : Check α} : Follows Eq r r := fun a h => ⟨a, h, rfl⟩

theorem Follows.bind {r : Check α} {r' : Check β} {f : α → Check γ} {f' : β → Check δ}
    (h : Follows R r r') (hf : ∀ a b, R a b → Follows S (f a) (f' b)) :
    Follows S (r >>= f) (r' >>= f') := by
  intro c hc
  obtain ⟨a, ha, hc⟩ := bind_eq_ok.mp hc
  obtain ⟨b, hb, hab⟩ := h a ha
  obtain ⟨d, hd, hcd⟩ := hf a b hab c hc
  exact ⟨d, bind_eq_ok.mpr ⟨b, hb, hd⟩, hcd⟩

/-- A step that gives the same result, and what comes after it. -/
theorem Follows.step {r r' : Check α} {f : α → Check γ} {f' : α → Check δ} (h : Follows Eq r r')
    (hf : ∀ a, Follows S (f a) (f' a)) : Follows S (r >>= f) (r' >>= f') :=
  h.bind fun a b hab => by
    subst hab
    exact hf a

theorem Follows.map {r r' : Check α} (h : Follows Eq r r') (f : α → γ) :
    Follows Eq (f <$> r) (f <$> r') := by
  intro c hc
  cases r with
  | error o => cases hc
  | ok a =>
    obtain ⟨b, rfl, rfl⟩ := h a rfl
    exact ⟨c, hc, rfl⟩

theorem follows_forIn {f f' : α → β → Check (ForInStep β)}
    (h : ∀ a b, Follows Eq (f a b) (f' a b)) (as : List α) (b : β) :
    Follows Eq (forIn as b f) (forIn as b f') := by
  induction as generalizing b with
  | nil => exact follows_refl
  | cons a as ih =>
    rw [List.forIn_cons, List.forIn_cons]
    refine (h a b).step fun s => ?_
    cases s with
    | done b => exact follows_refl
    | yield b => exact ih b

end Check

open Check

/-! ### Where an objection would be made -/

namespace Checked

variable {x y : Checked} (o o' : Nat)

theorem follows_convert (x : Checked) (dst : NamedTy) : Follows Eq (x.convert o dst) (x.convert o' dst) := by
  unfold convert
  split
  · exact follows_refl
  · split
    · exact follows_refl
    · exact follows_refl
    · split
      · exact follows_refl
      · exact follows_complain
    · exact follows_complain

theorem follows_truth (x : Checked) : Follows Eq (x.truth o) (x.truth o') := by
  unfold truth
  split
  · exact follows_convert o o' x _
  · exact follows_complain

theorem follows_unary (op : Operator) (x : Checked) : Follows Eq (x.unary o op) (x.unary o' op) := by
  have hrest : ∀ p : NamedTy × Scalar, Follows Eq
      (if op = .xor && !p.2.isInteger then complain o (.unaryOperand x.type.ty)
        else do
          let y ← x.convert o p.1
          return { type := p.1, term := .unary op p.1.ty y.term : Checked })
      (if op = .xor && !p.2.isInteger then complain o' (.unaryOperand x.type.ty)
        else do
          let y ← x.convert o' p.1
          return { type := p.1, term := .unary op p.1.ty y.term : Checked }) := by
    intro p
    split
    · exact follows_complain
    · exact (follows_convert o o' x p.1).step fun _ => follows_refl
  unfold unary
  dsimp only
  split
  · exact Follows.step follows_refl hrest
  · exact Follows.step follows_refl hrest
  · exact Follows.step follows_complain hrest

theorem follows_not (x : Checked) : Follows Eq (x.not o) (x.not o') :=
  (follows_truth o o' x).step fun _ => follows_refl

theorem follows_advance (op : Operator) (x y : Checked) :
    Follows Eq (advance o op x y) (advance o' op x y) := by
  unfold advance
  dsimp only
  split
  · split
    · exact follows_complain
    · exact (follows_convert o o' y _).step fun _ => follows_refl
  · exact follows_complain

theorem follows_logical (op : Operator) (x y : Checked) :
    Follows Eq (logical o op x y) (logical o' op x y) := by
  refine Follows.step (follows_forIn (fun z _ => ?_) _ _) fun _ =>
    (follows_convert o o' x _).step fun _ => (follows_convert o o' y _).step fun _ => follows_refl
  split
  · exact follows_complain
  · exact follows_refl

theorem follows_arithmetic (op : Operator) (x y : Checked) :
    Follows Eq (arithmetic o op x y) (arithmetic o' op x y) := by
  unfold arithmetic
  split
  · split
    · exact follows_complain
    · exact (follows_convert o o' x _).step fun _ => (follows_convert o o' y _).step fun _ => follows_refl
  · split
    · exact follows_complain
    · split
      · exact follows_complain
      · exact (follows_convert o o' x _).step fun _ => (follows_convert o o' y _).step fun _ => follows_refl
  · exact follows_complain

theorem follows_binary (op : Operator) (x y : Checked) :
    Follows Eq (binary o op x y) (binary o' op x y) := by
  unfold binary
  split
  · exact follows_logical o o' op x y
  · split
    · exact follows_advance o o' op x y
    · split
      · exact follows_advance o o' op y x
      · exact follows_arithmetic o o' op x y

theorem follows_choose (p p' : Nat) (test x y : Checked) :
    Follows Eq (choose test x y o p) (choose test x y o' p') := by
  have hrest : ∀ t : NamedTy, Follows Eq
      (do
        let x ← x.convert o t
        let y ← y.convert p t
        return { type := t, term := .cond test.term x.term y.term : Checked })
      (do
        let x ← x.convert o' t
        let y ← y.convert p' t
        return { type := t, term := .cond test.term x.term y.term : Checked }) := fun t =>
    (follows_convert o o' x t).step fun _ => (follows_convert p p' y t).step fun _ => follows_refl
  unfold choose
  dsimp only
  split
  · exact Follows.step follows_refl hrest
  · split
    · exact Follows.step follows_refl hrest
    · exact Follows.step follows_complain hrest

theorem follows_castTo (x : Checked) (dst : NamedTy) : Follows Eq (x.castTo o dst) (x.castTo o' dst) := by
  unfold castTo
  dsimp only
  split
  · split
    · exact follows_convert o o' x _
    · exact follows_complain
  · exact follows_convert o o' x _
  · split
    · split
      · exact follows_refl
      · exact follows_complain
    · exact follows_complain
  · exact follows_refl
  · split
    · exact follows_refl
    · exact follows_complain

theorem follows_deref (x y : Checked) : Follows Eq (x.deref o y) (x.deref o' y) := by
  unfold deref
  split
  · exact follows_refl
  · exact follows_complain

theorem follows_subscript (x y : Checked) : Follows Eq (x.subscript o y) (x.subscript o' y) := by
  unfold subscript
  split
  · split
    · exact (follows_convert o o' y _).step fun i => follows_deref o o' x i
    · exact follows_complain
  · exact follows_complain

theorem follows_addressOf (form form' : String) (x : Checked) :
    Follows Eq (x.addressOf o form) (x.addressOf o' form') := by
  unfold addressOf
  split
  · exact follows_refl
  · exact follows_complain

theorem follows_select (x : Checked) (name : String) :
    Follows Eq (x.select ⟨o, name⟩) (x.select ⟨o', name⟩) := by
  unfold select
  split
  · rename_i names fields _
    dsimp only
    cases names.findIdx? (· = name) with
    | none => exact follows_complain
    | some i => exact follows_refl
  · rename_i s w _
    dsimp only
    cases Component.lanes? w.lanes name with
    | none => exact follows_complain
    | some lanes =>
      dsimp only
      split
      · exact follows_refl
      · split
        · exact follows_refl
        · exact follows_complain
  · exact follows_complain

theorem follows_convertAll : ∀ {os os' : List Nat} (xs : List Checked) (ts : List NamedTy),
    os.length = os'.length → Follows Eq (convertAll os xs ts) (convertAll os' xs ts) := by
  intro os
  induction os with
  | nil =>
    intro os' xs ts h
    obtain rfl := List.length_eq_zero_iff.mp h.symm
    exact follows_refl
  | cons o os ih =>
    intro os' xs ts h
    cases os' with
    | nil => cases h
    | cons o' os' =>
      cases xs with
      | nil => exact follows_refl
      | cons x xs =>
        cases ts with
        | nil => exact follows_refl
        | cons t ts =>
          exact (follows_convert o o' x t).step fun _ =>
            (ih xs ts (Nat.succ.inj h)).step fun _ => follows_refl

theorem follows_vectorPart (vec : Ty) (s : Scalar) (x : Checked) :
    Follows Eq (vectorPart vec s o x) (vectorPart vec s o' x) := by
  unfold vectorPart
  split
  · exact (follows_convert o o' x _).step fun _ => follows_refl
  · split
    · exact follows_refl
    · exact follows_complain
  · exact follows_complain

theorem follows_vectorOf (s : Scalar) (w : Width) (parts : List (Nat × Checked)) :
    Follows Eq (vectorOf o s w parts) (vectorOf o' s w parts) := by
  unfold vectorOf
  dsimp only
  split
  · exact follows_refl
  · exact follows_complain

theorem follows_requireArgs (fn fn' : Code.Ident) (want got : Nat) :
    Follows Eq (requireArgs fn o want got) (requireArgs fn' o' want got) := by
  unfold requireArgs
  split
  · exact follows_refl
  · exact follows_complain

theorem follows_callWorkItem (fn : WorkItemFn) (x : Checked) :
    Follows Eq (callWorkItem o fn x) (callWorkItem o' fn x) :=
  (follows_convert o o' x _).step fun _ => follows_refl

theorem follows_atomicElem (fn : AtomicFn) (x : Checked) :
    Follows Eq (atomicElem o fn x) (atomicElem o' fn x) := by
  unfold atomicElem
  split
  · split
    · exact follows_complain
    · exact follows_refl
  · exact follows_complain
  · exact follows_complain

theorem follows_callConvert (t : Ty) (x : Checked) :
    Follows Eq (callConvert o t x) (callConvert o' t x) := by
  unfold callConvert
  split
  · exact follows_refl
  · split
    · exact follows_refl
    · exact follows_complain
  · exact follows_complain

theorem follows_callMath (fn : Builtin) {os os' : List Nat} (xs : List Checked)
    (h : os.length = os'.length) : Follows Eq (callMath o fn os xs) (callMath o' fn os' xs) := by
  unfold callMath
  split
  · exact follows_complain
  · exact (follows_convertAll xs _ h).step fun _ => follows_refl

end Checked


theorem Env.follows_resolve (env : Env) {spec spec' : Code.TypeSpec} (h : spec'.bare = spec.bare) :
    Follows Eq (env.resolve spec) (env.resolve spec') := by
  obtain ⟨o, name, space, readOnly, pointer⟩ := spec
  obtain ⟨o', name', space', readOnly', pointer'⟩ := spec'
  cases h
  unfold Env.resolve
  dsimp only
  split
  · exact follows_complain
  · split
    · exact follows_complain
    · split
      · exact follows_refl
      · split
        · exact follows_complain
        · exact follows_refl

/-! ### Scopes that grow in step -/

namespace Renaming

variable {ρ : Renaming} {scopes scopes' : Scopes} {env env' : Env}

/-- Variables in their scopes, each with the declaration that it stems from. -/
abbrev Ledger := List (List (Code.Ident × Variable))

/-- The declarations of a ledger. -/
def Ledger.idents (L : Ledger) : Scopes := L.map fun scope => scope.map Prod.fst

/-- The scopes of the checker, when the declarations have some names. -/
def Ledger.named (f : Code.Ident → String) (L : Ledger) : List (List (String × Variable)) :=
  L.map fun scope => scope.map fun v => (f v.1, v.2)

/-- Two environments that differ only in that variables are called otherwise in the second. -/
structure Matches (ρ : Renaming) (scopes : Scopes) (env env' : Env) : Prop where
  fresh : ∀ id ∈ scopes.flatten, id.name ≠ ρ.fresh
  ledger : ∃ L : Ledger, L.idents = scopes ∧ env.scopes = L.named (·.name) ∧
    env' = { env with scopes := L.named ρ.declared }

/-- The same result, and environments that match. -/
def Together {α : Type} (ρ : Renaming) (scopes : Scopes) (r r' : α × Env) : Prop :=
  r'.1 = r.1 ∧ Matches ρ scopes r.2 r'.2

theorem lookup_named (f : Code.Ident → String) (vs : List (Code.Ident × Variable)) (name : String) :
    (vs.map fun v => (f v.1, v.2)).lookup name = (vs.find? fun v => f v.1 = name).map Prod.snd := by
  induction vs with
  | nil => rfl
  | cons v vs ih =>
    rw [List.map_cons, List.lookup_cons, List.find?_cons]
    by_cases hv : f v.1 = name
    · simp [hv]
    · simpa [hv, beq_false_of_ne (Ne.symm hv)] using ih

theorem findSome?_named (f : Code.Ident → String) (L : Ledger) (name : String) :
    (L.named f).findSome? (fun scope => scope.lookup name) =
      (L.flatten.find? fun v => f v.1 = name).map Prod.snd := by
  induction L with
  | nil => rfl
  | cons scope L ih =>
    rw [Ledger.named, List.map_cons, List.findSome?_cons, lookup_named, List.flatten_cons, List.find?_append]
    cases scope.find? fun v => f v.1 = name with
    | none => exact ih
    | some v => rfl

/-- The same variable is found under the new name of an occurrence. -/
theorem find?_declared {vs : List (Code.Ident × Variable)} {name : String} (hname : name ≠ ρ.fresh)
    (hfresh : ∀ v ∈ vs, v.1.name ≠ ρ.fresh) :
    (vs.find? fun v => ρ.declared v.1 =
        if (vs.map Prod.fst).find? (fun id => id.name = name) = some ρ.target then ρ.fresh else name) =
      vs.find? fun v => v.1.name = name := by
  induction vs with
  | nil => rfl
  | cons v vs ih =>
    have ih := ih fun w hw => hfresh w (List.mem_cons_of_mem _ hw)
    by_cases hv : v.1.name = name
    · have hbound : ((v :: vs).map Prod.fst).find? (fun id => id.name = name) = some v.1 :=
        List.find?_cons_of_pos (by simpa using hv)
      have hfound : (v :: vs).find? (fun v => v.1.name = name) = some v :=
        List.find?_cons_of_pos (by simpa using hv)
      rw [hbound, hfound]
      refine List.find?_cons_of_pos (decide_eq_true ?_)
      by_cases ht : v.1 = ρ.target
      · rw [declared, if_pos ht, if_pos (congrArg some ht)]
      · rw [declared, if_neg ht, if_neg fun h => ht (Option.some.inj h), hv]
    · have hbound : ((v :: vs).map Prod.fst).find? (fun id => id.name = name) =
          (vs.map Prod.fst).find? fun id => id.name = name :=
        List.find?_cons_of_neg (by simpa using hv)
      have hpassed : (v :: vs).find? (fun v => v.1.name = name) = vs.find? fun v => v.1.name = name :=
        List.find?_cons_of_neg (by simpa using hv)
      rw [hbound, hpassed, ← ih]
      refine List.find?_cons_of_neg fun heq => ?_
      have heq := of_decide_eq_true heq
      split at heq
      · rename_i hfound
        have hcalled := List.find?_some hfound
        by_cases ht : v.1 = ρ.target
        · exact hv (by simpa [ht] using hcalled)
        · rw [declared, if_neg ht] at heq
          exact hfresh v List.mem_cons_self heq
      · unfold declared at heq
        split at heq
        · exact hname heq.symm
        · exact hv heq

theorem binder?_idents (L : Ledger) (name : String) :
    binder? L.idents name = (L.flatten.map Prod.fst).find? fun id => id.name = name := by
  rw [binder?, Ledger.idents, List.map_flatten]

theorem head_named (f : Code.Ident → String) (L : Ledger) :
    (L.named f).head?.getD [] = (L.head?.getD []).map fun v => (f v.1, v.2) := by
  cases L <;> rfl

theorem mem_idents {L : Ledger} {v : Code.Ident × Variable} (h : v ∈ L.head?.getD []) :
    v.1 ∈ L.idents.flatten := by
  cases L with
  | nil => cases h
  | cons scope L => exact List.mem_append_left _ (List.mem_map_of_mem h)

theorem mem_declare {id other : Code.Ident} (h : other ∈ (declare id scopes).flatten) :
    other = id ∨ other ∈ scopes.flatten := by
  cases scopes with
  | nil => simpa [declare] using h
  | cons scope scopes => simpa [declare, or_assoc] using h

/-- Different names stay different. -/
theorem declared_inj {id id' : Code.Ident} (hid : id.name ≠ ρ.fresh) (hid' : id'.name ≠ ρ.fresh)
    (h : ρ.declared id = ρ.declared id') : id.name = id'.name := by
  unfold declared at h
  split at h <;> split at h
  · rename_i heq heq'
    rw [heq, heq']
  · exact absurd h.symm hid'
  · exact absurd h hid
  · exact h

namespace Matches

/-- **A variable is found under its new name where it was found under the old one.** -/
theorem find? (h : Matches ρ scopes env env') {name : String} (hname : name ≠ ρ.fresh) :
    env'.find? (ρ.used scopes name) = env.find? name := by
  obtain ⟨L, rfl, hscopes, rfl⟩ := h.ledger
  have hfresh : ∀ v ∈ L.flatten, v.1.name ≠ ρ.fresh := fun v hv =>
    h.fresh v.1 (by
      rw [Ledger.idents, ← List.map_flatten]
      exact List.mem_map_of_mem hv)
  unfold Env.find? used
  rw [hscopes, findSome?_named, findSome?_named, binder?_idents]
  exact congrArg _ (find?_declared hname hfresh)

/-- A name that is not that of a variable stays. -/
theorem used_eq (h : Matches ρ scopes env env') {name : String} (hnone : env.find? name = none) :
    ρ.used scopes name = name := by
  obtain ⟨L, rfl, hscopes, rfl⟩ := h.ledger
  rw [Env.find?, hscopes, findSome?_named, Option.map_eq_none_iff] at hnone
  have hunbound : binder? L.idents name = none := by
    rw [binder?_idents, List.find?_map, Option.map_eq_none_iff]
    exact hnone
  rw [used, hunbound, if_neg (by simp)]

theorem find?_none (h : Matches ρ scopes env env') {name : String} (hname : name ≠ ρ.fresh)
    (hnone : env.find? name = none) : env'.find? name = none := by
  rw [← h.used_eq hnone, h.find? hname, hnone]

/-- The same functions are known. -/
theorem ofName (h : Matches ρ scopes env env') (name : String) :
    Callee.ofName env' name = Callee.ofName env name := by
  obtain ⟨L, -, -, rfl⟩ := h.ledger
  rfl

theorem inLoop_eq (h : Matches ρ scopes env env') : env'.inLoop = env.inLoop := by
  obtain ⟨L, -, -, rfl⟩ := h.ledger
  rfl

theorem follows_pure {α : Type} (h : Matches ρ scopes env env') (a : α) :
    Follows (Together ρ scopes) (pure (a, env)) (pure (a, env')) := follows_ok ⟨rfl, h⟩

theorem openScope (h : Matches ρ scopes env env') : Matches ρ ([] :: scopes) env.openScope env'.openScope := by
  obtain ⟨L, rfl, hscopes, rfl⟩ := h.ledger
  refine ⟨h.fresh, [] :: L, rfl, ?_, rfl⟩
  rw [Env.openScope, hscopes]
  rfl

/-- Where nothing is declared yet. -/
theorem start (env : Env) : Matches ρ [[]] { env with scopes := [[]] } { env with scopes := [[]] } :=
  ⟨by simp, [[]], rfl, rfl, rfl⟩

theorem withFuncs (h : Matches ρ scopes env env') (funcs : List (String × Header)) :
    Matches ρ scopes { env with funcs } { env' with funcs } := by
  obtain ⟨L, rfl, hscopes, rfl⟩ := h.ledger
  exact ⟨h.fresh, L, rfl, hscopes, rfl⟩

/-- Leaving a scope, whatever was declared in it. -/
theorem closeTo {inner inner' : Env} {scopes' : Scopes} (h : Matches ρ scopes env env')
    (hinner : Matches ρ scopes' inner inner') :
    Matches ρ scopes (env.closeTo inner) (env'.closeTo inner') := by
  obtain ⟨L, rfl, hscopes, rfl⟩ := h.ledger
  obtain ⟨L', rfl, -, rfl⟩ := hinner.ledger
  exact ⟨h.fresh, L, rfl, hscopes, rfl⟩

theorem inLoop (h : Matches ρ scopes env env') :
    Matches ρ scopes { env with inLoop := true } { env' with inLoop := true } := by
  obtain ⟨L, rfl, hscopes, rfl⟩ := h.ledger
  exact ⟨h.fresh, L, rfl, hscopes, rfl⟩

/-- A declaration is accepted again; the new variable has the same slot. -/
theorem follows_declare (h : Matches ρ scopes env env') {id : Code.Ident} (o : Nat)
    (hid : id.name ≠ ρ.fresh) (t : NamedTy) (readOnly : Bool) :
    Follows (Together ρ (Renaming.declare id scopes))
      (env.declare id t readOnly) (env'.declare ⟨o, ρ.declared id⟩ t readOnly) := by
  obtain ⟨L, rfl, hscopes, rfl⟩ := h.ledger
  have hfresh : ∀ v ∈ L.head?.getD [], v.1.name ≠ ρ.fresh := fun v hv => h.fresh v.1 (mem_idents hv)
  unfold Env.declare
  rw [hscopes, head_named, head_named]
  dsimp only
  rw [lookup_named (·.name), lookup_named ρ.declared]
  split
  · exact follows_complain
  · rename_i hnew
    rw [Option.isSome_map, Option.not_isSome_iff_eq_none, List.find?_eq_none] at hnew
    rw [if_neg]
    · have hidents : Ledger.idents ((((id, ⟨env.slots, t, readOnly⟩) : Code.Ident × Variable) ::
          L.head?.getD []) :: L.tail) = Renaming.declare id L.idents := by
        cases L <;> rfl
      refine follows_ok ⟨rfl, ?_, _, hidents, ?_, ?_⟩
      · intro other hother
        rcases mem_declare hother with rfl | hother
        · exact hid
        · exact h.fresh other hother
      · cases L <;> rfl
      · cases L <;> rfl
    · rw [Option.isSome_map, Option.not_isSome_iff_eq_none, List.find?_eq_none]
      intro v hv heq
      exact hnew v hv (by simpa using declared_inj (hfresh v hv) hid (of_decide_eq_true heq))

end Matches

/-! ### Expressions -/

theorem Exprs.length_eq : ∀ {es es' : List Code.Expr}, ρ.Exprs scopes es es' → es'.length = es.length
  | _, _, .nil => rfl
  | _, _, .cons _ hxs => congrArg Nat.succ hxs.length_eq

theorem Exprs.length_offsets {es es' : List Code.Expr} (h : ρ.Exprs scopes es es') :
    (es.map (·.offset)).length = (es'.map (·.offset)).length := by
  rw [List.length_map, List.length_map, h.length_eq]

theorem Exprs.map_const {es es' : List Code.Expr} (h : ρ.Exprs scopes es es') {α : Type} (a : α) :
    es'.map (fun _ => a) = es.map fun _ => a := by
  rw [List.map_const', List.map_const', h.length_eq]

namespace Matches

theorem follows_resolve (h : Matches ρ scopes env env') (spec : Code.TypeSpec) (o : Nat) :
    Follows Eq (env.resolve spec) (env'.resolve { spec with offset := o }) := by
  obtain ⟨L, rfl, -, rfl⟩ := h.ledger
  exact env.follows_resolve rfl

theorem follows_name (h : Matches ρ scopes env env') {id : Code.Ident} (o : Nat)
    (hid : id.name ≠ ρ.fresh) :
    Follows Eq (env.checkName id) (env'.checkName ⟨o, ρ.used scopes id.name⟩) := by
  unfold Env.checkName
  dsimp only
  rw [h.find? hid]
  cases hfind : env.find? id.name with
  | some v => exact follows_refl
  | none =>
    have hused : ρ.used scopes id.name = id.name := h.used_eq hfind
    dsimp only
    rw [hused]
    cases Constant.named? id.name with
    | some c => exact follows_refl
    | none => exact follows_complain

theorem follows_structNamed (h : Matches ρ scopes env env') (spec : Code.TypeSpec) (o o' p : Nat)
    (count : Nat) : Follows Eq (env.structNamed o spec count)
      (env'.structNamed o' { spec with offset := p } count) := by
  refine (h.follows_resolve spec p).step fun t => ?_
  cases t with
  | struct names fields =>
    dsimp only
    split
    · exact follows_complain
    · split
      · exact follows_complain
      · exact follows_refl
  | _ => exact follows_complain

end Matches

mutual

/-- **A renamed expression is checked to the same term.** -/
theorem Expr.follows (h : Matches ρ scopes env env') : ∀ {e e' : Code.Expr}, ρ.Expr scopes e e' →
    Follows Eq (env.checkExpr e) (env'.checkExpr e')
  | _, _, .ident hfresh => h.follows_name _ hfresh
  | _, _, .number => by
    obtain ⟨L, rfl, -, rfl⟩ := h.ledger
    rw [Env.checkExpr, Env.checkExpr]
    dsimp only
    split
    · exact follows_refl
    · exact follows_complain
  | _, _, .paren hx => by
    rw [Env.checkExpr, Env.checkExpr]
    exact hx.follows h
  | _, _, .unary hx => by
    rw [Env.checkExpr, Env.checkExpr]
    refine (hx.follows h).step fun y => ?_
    split
    · exact Checked.follows_deref _ _ y _
    · exact Checked.follows_addressOf _ _ _ _ y
    · exact Checked.follows_not _ _ y
    · exact Checked.follows_unary _ _ _ y
  | _, _, .binary hx hy => by
    rw [Env.checkExpr, Env.checkExpr]
    exact (hx.follows h).step fun x => (hy.follows h).step fun y => Checked.follows_binary _ _ _ x y
  | _, _, .cond htest hx hy => by
    rw [Env.checkExpr, Env.checkExpr]
    exact (htest.follows h).step fun t => (Checked.follows_truth _ _ t).step fun t =>
      (hx.follows h).step fun x => (hy.follows h).step fun y => Checked.follows_choose _ _ _ _ t x y
  | _, _, .cast hx => by
    rw [Env.checkExpr, Env.checkExpr]
    exact (h.follows_resolve _ _).step fun t => (hx.follows h).step fun x =>
      Checked.follows_castTo _ _ x t
  | _, _, .vectorLit hitems => by
    rw [Env.checkExpr, Env.checkExpr]
    refine (h.follows_resolve _ _).step fun t => ?_
    cases t with
    | vector s w =>
      dsimp only
      cases hitems with
      | nil => exact (Exprs.nil.follows_parts h _ s).step fun parts => Checked.follows_vectorOf _ _ s w parts
      | cons hx hxs =>
        cases hxs with
        | nil => exact (hx.follows h).step fun x => Checked.follows_convert _ _ x _
        | cons hy hys =>
          exact ((Exprs.cons hx (.cons hy hys)).follows_parts h _ s).step fun parts =>
            Checked.follows_vectorOf _ _ s w parts
    | _ => exact follows_error
  | _, _, .structLit hitems => by
    rw [Env.checkExpr, Env.checkExpr, hitems.length_eq]
    exact (h.follows_structNamed _ _ _ _ _).step fun t => (hitems.follows_fields h t.2).step fun xs =>
      follows_refl
  | _, _, .index hx hi => by
    rw [Env.checkExpr, Env.checkExpr]
    exact (hx.follows h).step fun x => (hi.follows h).step fun i => Checked.follows_subscript _ _ x i
  | _, _, .select hx => by
    rw [Env.checkExpr, Env.checkExpr]
    exact (hx.follows h).step fun x => Checked.follows_select _ _ x _
  | .call fn _ _, _, .call hfresh hargs => by
    rw [Env.checkExpr, Env.checkExpr, hargs.length_eq]
    dsimp only
    cases hfind : env.find? fn.name with
    | some v => exact follows_complain
    | none =>
      rw [h.find?_none hfresh hfind, h.ofName]
      dsimp only [Option.isSome_none]
      rw [if_neg Bool.false_ne_true, if_neg Bool.false_ne_true]
      split
      · exact (Checked.follows_requireArgs _ _ _ _ _ _).step fun _ => (hargs.follows h).step fun xs =>
          Checked.follows_callWorkItem _ _ _ _
      · exact (Checked.follows_requireArgs _ _ _ _ _ _).step fun _ => follows_refl
      · refine (Checked.follows_requireArgs _ _ _ _ _ _).step fun _ => ?_
        cases hargs with
        | nil => exact follows_error
        | cons hx hxs =>
          refine (hx.follows h).step fun ptr => (Checked.follows_atomicElem _ _ _ ptr).step fun s =>
            (hxs.follows h).step fun xs => ?_
          rw [hxs.map_const]
          exact (Checked.follows_convertAll xs _ hxs.length_offsets).step fun xs => follows_refl
      · refine (Checked.follows_requireArgs _ _ _ _ _ _).step fun _ => ?_
        split
        · exact follows_complain
        · exact (hargs.follows h).step fun xs => Checked.follows_callConvert _ _ _ _
      · exact (hargs.follows h).step fun xs => Checked.follows_callMath _ _ _ xs hargs.length_offsets
      · split
        · exact follows_complain
        · exact (Checked.follows_requireArgs _ _ _ _ _ _).step fun _ => (hargs.follows h).step fun xs =>
            (Checked.follows_convertAll xs _ hargs.length_offsets).step fun xs => follows_refl
      · split
        · exact follows_complain
        · exact follows_complain
termination_by e => sizeOf e
decreasing_by all_goals (subst_vars; simp +arith)

theorem Exprs.follows (h : Matches ρ scopes env env') : ∀ {es es' : List Code.Expr},
    ρ.Exprs scopes es es' → Follows Eq (env.checkExprs es) (env'.checkExprs es')
  | _, _, .nil => follows_refl
  | _, _, .cons hx hxs => by
    rw [Env.checkExprs, Env.checkExprs]
    exact (hx.follows h).step fun x => (hxs.follows h).step fun xs => follows_refl
termination_by es => sizeOf es
decreasing_by all_goals simp +arith

theorem Exprs.follows_parts (h : Matches ρ scopes env env') (vec : Ty) (s : Scalar) :
    ∀ {es es' : List Code.Expr}, ρ.Exprs scopes es es' →
      Follows Eq (env.checkParts vec s es) (env'.checkParts vec s es')
  | _, _, .nil => follows_refl
  | _, _, .cons hx hxs => by
    rw [Env.checkParts, Env.checkParts]
    exact (hx.follows h).step fun x => (Checked.follows_vectorPart _ _ vec s x).step fun part =>
      (hxs.follows_parts h vec s).step fun parts => follows_refl
termination_by es => sizeOf es
decreasing_by all_goals simp +arith

theorem Exprs.follows_fields (h : Matches ρ scopes env env') : ∀ {es es' : List Code.Expr},
    ρ.Exprs scopes es es' → ∀ ts : List NamedTy,
      Follows Eq (env.checkFields es ts) (env'.checkFields es' ts)
  | _, _, .nil, ts => by
    unfold Env.checkFields
    exact follows_refl
  | _, _, .cons hx hxs, [] => by
    unfold Env.checkFields
    exact follows_refl
  | _, _, .cons hx hxs, t :: ts => by
    rw [Env.checkFields, Env.checkFields]
    exact (hx.follows h).step fun x => (Checked.follows_convert _ _ x t).step fun x =>
      (hxs.follows_fields h ts).step fun xs => follows_refl
termination_by es => sizeOf es
decreasing_by all_goals simp +arith

end

/-! ### Statements -/

section
variable (o o' : Nat)

theorem follows_assignable (x : Checked) : Follows Eq (Env.assignable o x) (Env.assignable o' x) := by
  unfold Env.assignable
  split
  · exact follows_complain
  · split
    · exact follows_complain
    · exact follows_refl

theorem follows_checkUpdate (lhs : Checked) (op : Operator) (rhs : Checked) :
    Follows Eq (Env.checkUpdate o lhs op rhs) (Env.checkUpdate o' lhs op rhs) :=
  (follows_assignable o o' lhs).step fun _ => (Checked.follows_binary o o' op _ rhs).step fun next =>
    (Checked.follows_convert o o' next lhs.type).step fun _ => follows_refl

end

theorem follows_init (h : Matches ρ scopes env env') (t : NamedTy) (readOnly : Bool) {id id' : Code.Ident}
    {init init' : Option Code.Expr} (hinit : Option.Rel (ρ.Expr scopes) init init') :
    Follows Eq (env.checkInit t readOnly id init) (env'.checkInit t readOnly id' init') := by
  cases hinit with
  | none =>
    unfold Env.checkInit
    dsimp only
    split
    · exact follows_complain
    · exact follows_refl
  | some hx =>
    exact (hx.follows h).step fun x => (Checked.follows_convert _ _ x t).step fun _ => follows_refl

theorem Vars.follows {vars vars' : List (Code.Ident × Option Code.Expr)}
    (hvars : ρ.Vars scopes vars vars' scopes') (t : NamedTy) (readOnly : Bool) {env env' : Env}
    (h : Matches ρ scopes env env') : Follows (Together ρ scopes')
      (env.checkVariables t readOnly vars) (env'.checkVariables t readOnly vars') := by
  induction hvars generalizing env env' with
  | nil => exact follows_ok ⟨rfl, h⟩
  | cons hfresh hinit hrest ih =>
    rw [Env.checkVariables, Env.checkVariables]
    refine (follows_init h t readOnly hinit).step fun init => ?_
    refine (h.follows_declare _ hfresh t readOnly).bind fun d d' hd => ?_
    obtain ⟨slot, mid⟩ := d
    obtain ⟨slot', mid'⟩ := d'
    obtain ⟨rfl, hmid⟩ := hd
    refine (ih hmid).bind fun r r' hr => ?_
    obtain ⟨after, last⟩ := r
    obtain ⟨after', last'⟩ := r'
    obtain ⟨rfl, hlast⟩ := hr
    exact follows_ok ⟨rfl, hlast⟩

theorem Simple.follows {st st' : Code.Simple} (hst : ρ.Simple scopes st st' scopes')
    (h : Matches ρ scopes env env') :
    Follows (Together ρ scopes') (env.checkSimple st) (env'.checkSimple st') := by
  cases hst with
  | decl hvars =>
    refine (h.follows_resolve _ _).step fun t => ?_
    split
    · exact follows_complain
    · exact hvars.follows t _ h
  | expr hx => exact (hx.follows h).step fun x => h.follows_pure _
  | assign hlhs hrhs =>
    refine (hlhs.follows h).step fun lhs => (hrhs.follows h).step fun rhs => ?_
    split
    · exact (follows_checkUpdate _ _ lhs _ rhs).step fun _ => h.follows_pure _
    · exact (follows_assignable _ _ lhs).step fun place =>
        (Checked.follows_convert _ _ rhs lhs.type).step fun _ => h.follows_pure _
  | step hx =>
    exact (hx.follows h).step fun x => (follows_checkUpdate _ _ x _ _).step fun _ => h.follows_pure _

theorem Part.follows {init init' : Option Code.Simple} (hinit : ρ.Part scopes init init' scopes')
    (h : Matches ρ scopes env env') :
    Follows (Together ρ scopes') (env.checkOptional init) (env'.checkOptional init') := by
  cases hinit with
  | none => exact h.follows_pure _
  | some hst => exact hst.follows h

theorem Matches.follows_test (h : Matches ρ scopes env env') {x x' : Code.Expr}
    (hx : ρ.Expr scopes x x') : Follows Eq (env.checkTest x) (env'.checkTest x') :=
  (hx.follows h).step fun x => (Checked.follows_truth _ _ x).step fun _ => follows_refl

theorem Matches.follows_return (h : Matches ρ scopes env env') (o o' : Nat)
    {x x' : Option Code.Expr} (hx : Option.Rel (ρ.Expr scopes) x x') :
    Follows Eq (env.checkReturn o x) (env'.checkReturn o' x') := by
  have hresult : env'.result = env.result := by
    obtain ⟨L, -, -, rfl⟩ := h.ledger
    rfl
  unfold Env.checkReturn
  rw [hresult]
  cases hx with
  | none =>
    dsimp only
    split
    · exact follows_refl
    · exact follows_complain
  | some hx =>
    dsimp only
    split
    · exact follows_complain
    · exact (hx.follows h).step fun x => (Checked.follows_convert _ _ x _).step fun _ => follows_refl

mutual

/-- **A renamed statement is checked to the same action.** -/
theorem Stmt.follows {scopes scopes' : Scopes} {env env' : Env} (h : Matches ρ scopes env env') :
    ∀ {a a' : Code.Stmt}, ρ.Stmt scopes a a' scopes' →
      Follows (Together ρ scopes') (env.checkStmt a) (env'.checkStmt a')
  | _, _, .simple hst => by
    rw [Env.checkStmt, Env.checkStmt]
    exact hst.follows h
  | _, _, .block hbody => by
    rw [Env.checkStmt, Env.checkStmt]
    refine (hbody.follows h.openScope).bind fun r r' hr => ?_
    exact follows_ok ⟨hr.1, h.closeTo hr.2⟩
  | _, _, .empty => by
    rw [Env.checkStmt, Env.checkStmt]
    exact h.follows_pure _
  | _, _, .ifThen htest hyes => by
    rw [Env.checkStmt, Env.checkStmt]
    refine (h.follows_test htest).step fun test => (hyes.follows h.openScope).bind fun r r' hr => ?_
    exact follows_ok ⟨by rw [hr.1], h.closeTo hr.2⟩
  | _, _, .ifElse htest hyes hno => by
    rw [Env.checkStmt, Env.checkStmt]
    refine (h.follows_test htest).step fun test => (hyes.follows h.openScope).bind fun r r' hr => ?_
    have hmid := h.closeTo hr.2
    refine (hno.follows hmid.openScope).bind fun q q' hq => ?_
    exact follows_ok ⟨by rw [hr.1, hq.1], hmid.closeTo hq.2⟩
  | .loop _ _ _ post body, .loop _ _ _ post' body', .loop hinit htest hpost hbody => by
    rw [Env.checkStmt, Env.checkStmt]
    refine (hinit.follows h.openScope).bind fun r r' hr => ?_
    have hrest (test : Option Term) : Follows (Together ρ scopes)
        (do
          let (post, inner) ← r.2.openScope.checkOptional post
          let (body, inner) ← { (r.2.closeTo inner).openScope with inLoop := true }.checkStmt body
          return (Action.seq r.1 (.loop test post body), env.closeTo inner))
        (do
          let (post, inner) ← r'.2.openScope.checkOptional post'
          let (body, inner) ← { (r'.2.closeTo inner).openScope with inLoop := true }.checkStmt body'
          return (Action.seq r'.1 (.loop test post body), env'.closeTo inner)) := by
      refine (hpost.follows hr.2.openScope).bind fun p p' hp => ?_
      refine (hbody.follows (hr.2.closeTo hp.2).openScope.inLoop).bind fun q q' hq => ?_
      exact follows_ok ⟨by rw [hr.1, hp.1, hq.1], h.closeTo hq.2⟩
    cases htest with
    | none => exact Follows.step follows_refl hrest
    | some hx => exact ((hr.2.follows_test hx).map some).step hrest
  | _, _, .brk => by
    rw [Env.checkStmt, Env.checkStmt, h.inLoop_eq]
    split
    · exact h.follows_pure _
    · exact follows_complain
  | _, _, .cont => by
    rw [Env.checkStmt, Env.checkStmt, h.inLoop_eq]
    split
    · exact h.follows_pure _
    · exact follows_complain
  | _, _, .ret hx => by
    rw [Env.checkStmt, Env.checkStmt]
    exact (h.follows_return _ _ hx).step fun _ => h.follows_pure _

theorem Stmts.follows {scopes scopes' : Scopes} {env env' : Env} (h : Matches ρ scopes env env') :
    ∀ {as as' : List Code.Stmt}, ρ.Stmts scopes as as' scopes' →
      Follows (Together ρ scopes') (env.checkStmts as) (env'.checkStmts as')
  | _, _, .nil => by
    rw [Env.checkStmts, Env.checkStmts]
    exact h.follows_pure _
  | _, _, .cons hs hss => by
    rw [Env.checkStmts, Env.checkStmts]
    refine (hs.follows h).bind fun r r' hr => (hss.follows hr.2).bind fun q q' hq => ?_
    exact follows_ok ⟨by rw [hr.1, hq.1], hq.2⟩

end

end Renaming

end KernelForge
