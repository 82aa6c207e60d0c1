/-
The types that are written in the bodies of functions.

A type in brackets makes a cast, a vector or a structure, and the parser decides from the spelling
of the type which of them it is.  Here these uses of types are collected from trees.  A rule about
them that holds of the expressions which are read from lexemes of some kind holds of whole functions,
since each reader of statements leaves lexemes of the kind again.

By such a rule a literal was read as a vector only where its type is spelled as one; whether the name
means a vector is left to the checker.
-/
import KernelForge.Proofs.Code.Precedence

namespace KernelForge.Code

/-- What a type in brackets is there for. -/
inductive TypeUse where
  | cast
  | vector
  | struct
deriving DecidableEq, Repr

mutual

/-- The types in brackets in an expression. -/
def Expr.typeUses : Expr → List (TypeUse × TypeSpec)
  | .ident _ => []
  | .number _ _ _ => []
  | .unary _ _ x => x.typeUses
  | .binary x _ _ y => x.typeUses ++ y.typeUses
  | .cond test x y => test.typeUses ++ (x.typeUses ++ y.typeUses)
  | .call _ _ args => Expr.allTypeUses args
  | .cast _ spec x => (.cast, spec) :: x.typeUses
  | .vectorLit _ spec items => (.vector, spec) :: Expr.allTypeUses items
  | .structLit _ spec items => (.struct, spec) :: Expr.allTypeUses items
  | .index x _ i => x.typeUses ++ i.typeUses
  | .select x _ => x.typeUses
  | .paren _ x => x.typeUses

def Expr.allTypeUses : List Expr → List (TypeUse × TypeSpec)
  | [] => []
  | x :: xs => x.typeUses ++ Expr.allTypeUses xs

end

/-- The types in brackets in something that may be absent. -/
def optionTypeUses {α : Type} (uses : α → List (TypeUse × TypeSpec)) :
    Option α → List (TypeUse × TypeSpec)
  | none => []
  | some x => uses x

/-- The types in brackets in the initial values of variables. -/
def initTypeUses : List (Ident × Option Expr) → List (TypeUse × TypeSpec)
  | [] => []
  | (_, init) :: vars => optionTypeUses Expr.typeUses init ++ initTypeUses vars

def Simple.typeUses : Simple → List (TypeUse × TypeSpec)
  | .decl _ vars => initTypeUses vars
  | .expr x => x.typeUses
  | .assign lhs _ _ rhs => lhs.typeUses ++ rhs.typeUses
  | .step x _ _ => x.typeUses

mutual

def Stmt.typeUses : Stmt → List (TypeUse × TypeSpec)
  | .simple s => s.typeUses
  | .block _ body => Stmt.allTypeUses body
  | .ifThen _ test yes => test.typeUses ++ yes.typeUses
  | .ifElse _ test yes no => test.typeUses ++ (yes.typeUses ++ no.typeUses)
  | .loop _ init test post body =>
    optionTypeUses Simple.typeUses init ++ (optionTypeUses Expr.typeUses test ++
      (optionTypeUses Simple.typeUses post ++ body.typeUses))
  | .ret _ result => optionTypeUses Expr.typeUses result
  | .brk _ => []
  | .cont _ => []
  | .empty _ => []

def Stmt.allTypeUses : List Stmt → List (TypeUse × TypeSpec)
  | [] => []
  | s :: ss => s.typeUses ++ Stmt.allTypeUses ss

end

/-- The types in brackets in the body of a function. -/
def Func.typeUses (f : Func) : List (TypeUse × TypeSpec) := Stmt.allTypeUses f.body

/-! ### Rules -/

/-- Every use of a type is an allowed one. -/
def Allowed (G : TypeUse → TypeSpec → Prop) (uses : List (TypeUse × TypeSpec)) : Prop :=
  ∀ use spec, (use, spec) ∈ uses → G use spec

section
variable {G : TypeUse → TypeSpec → Prop} {us vs : List (TypeUse × TypeSpec)}

theorem allowed_nil : Allowed G [] := fun _ _ => nofun

theorem allowed_append (hus : Allowed G us) (hvs : Allowed G vs) : Allowed G (us ++ vs) := by
  intro use spec hmem
  rcases List.mem_append.mp hmem with h | h
  · exact hus use spec h
  · exact hvs use spec h

theorem allowed_cons {use : TypeUse} {spec : TypeSpec} (hfirst : G use spec) (hus : Allowed G us) :
    Allowed G ((use, spec) :: us) := by
  intro use' spec' hmem
  rcases List.mem_cons.mp hmem with h | h
  · cases h
    exact hfirst
  · exact hus use' spec' h

end

namespace Scope

/-- Lexemes of the kind `T` stay of the kind when the first ones are taken away, and expressions that
are read from them use types only as `G` allows. -/
structure Rule (T : Lexemes → Prop) (G : TypeUse → TypeSpec → Prop) : Prop where
  suffix : ∀ {ls rest : Lexemes}, T ls → rest <:+ ls → T rest
  uses : ∀ {s : Scope} {ls rest : Lexemes} {x : Expr}, T ls → Wrote s ls rest x →
    Allowed G x.typeUses

/-- What is read from lexemes of a kind uses types as it may, and what is left is of the kind. -/
def Obeys {α : Type} {Q : Lexemes → Prop} (T : Lexemes → Prop) (G : TypeUse → TypeSpec → Prop)
    (uses : α → List (TypeUse × TypeSpec)) (ls : Lexemes)
    (r : Except Misparse (α × { rest : Lexemes // Q rest })) : Prop :=
  T ls → Leaves (fun x rest => Allowed G (uses x) ∧ T rest) r

/-- What is left is of the same kind. -/
def Drops {α : Type} {Q : Lexemes → Prop} (T : Lexemes → Prop) (ls : Lexemes)
    (r : Except Misparse (α × { rest : Lexemes // Q rest })) : Prop :=
  T ls → Leaves (fun _ rest => T rest) r

variable {s : Scope} {T : Lexemes → Prop} {G : TypeUse → TypeSpec → Prop}

/-! Words that are passed over. -/

theorem optionalName_suffix (ls : Lexemes) : (optionalName ls).val <:+ ls := by
  unfold optionalName
  split
  · exact List.suffix_cons _ _
  · exact List.suffix_rfl

theorem noParams_suffix (ls : Lexemes) : (noParams ls).val <:+ ls := by
  unfold noParams
  split
  · split
    · exact List.suffix_cons _ _
    · exact List.suffix_rfl
  · exact List.suffix_rfl

theorem funcWords_suffix (isKernel : Bool) (ls : Lexemes) : (funcWords isKernel ls).2.val <:+ ls := by
  induction ls generalizing isKernel with
  | nil => exact List.suffix_rfl
  | cons l ls ih =>
    rw [funcWords]
    split
    · exact (ih true).trans (List.suffix_cons l ls)
    · split
      · exact (ih isKernel).trans (List.suffix_cons l ls)
      · exact List.suffix_rfl

namespace Rule

variable (rule : Rule T G)
include rule

theorem tail {l : Lexeme} {ls : Lexemes} (h : T (l :: ls)) : T ls :=
  rule.suffix h (List.suffix_cons l ls)

/-! ### Single lexemes, types and expressions -/

theorem expect (t : Token) (ls : Lexemes) : Drops T ls (s.expect t ls) := by
  intro hls
  unfold Scope.expect
  split
  · split
    · exact leaves_ok (rule.tail hls)
    · exact leaves_error
  · exact leaves_error

theorem expectOp (o : Operator) (ls : Lexemes) : Drops T ls (s.expectOp o ls) := rule.expect _ ls

theorem ident (ls : Lexemes) : Drops T ls (s.ident ls) := by
  intro hls _ rest h
  have hcons := leaves_ident ls _ _ h
  rw [hcons] at hls
  exact rule.tail hls

theorem typeSpec (ls : Lexemes) : Drops T ls (s.typeSpec ls) := by
  intro hls _ rest h
  obtain ⟨used, hused, -⟩ := spelled_spec h
  exact rule.suffix hls ⟨used, hused.symm⟩

/-- An expression that was read obeys the rule. -/
theorem wrote {ls rest : Lexemes} {x : Expr} (hls : T ls) (h : Wrote s ls rest x) :
    Allowed G x.typeUses ∧ T rest := by
  obtain ⟨used, hused, -⟩ := h.spelled
  exact ⟨rule.uses hls h, rule.suffix hls ⟨used, hused.symm⟩⟩

theorem expr (ls : Lexemes) : Obeys T G Expr.typeUses ls (s.expr ls) :=
  fun hls x rest h => rule.wrote hls (wrote_expr ls x rest h)

theorem unary (ls : Lexemes) : Obeys T G Expr.typeUses ls (s.unary ls) :=
  fun hls x rest h => rule.wrote hls (wrote_unary_of ls x rest h).1

/-! ### Statements -/

theorem initializer (ls : Lexemes) :
    Obeys T G (optionTypeUses Expr.typeUses) ls (s.initializer ls) := by
  intro hls
  rw [Scope.initializer.eq_def]
  split
  · exact leaves_error
  · rename_i ls₁
    exact (rule.expr ls₁ (rule.tail hls)).elim leaves_error fun x ls₂ h₂ hx => leaves_ok hx
  · exact leaves_ok ⟨allowed_nil, hls⟩

theorem declarators (ls : Lexemes) : Obeys T G initTypeUses ls (s.declarators ls) := by
  intro hls
  rw [Scope.declarators]
  refine (rule.ident ls hls).elim leaves_error fun name ls₁ h₁ hls₁ => ?_
  dsimp only
  refine (rule.initializer ls₁ hls₁).elim leaves_error fun init ls₂ h₂ hinit => ?_
  obtain ⟨hinit, hls₂⟩ := hinit
  dsimp only
  split
  · rename_i ls₃ hless
    refine (declarators ls₃ (rule.tail hls₂)).elim leaves_error fun vars ls₄ h₄ hvars => ?_
    obtain ⟨hvars, hls₄⟩ := hvars
    exact leaves_ok ⟨allowed_append hinit hvars, hls₄⟩
  · exact leaves_ok ⟨allowed_append hinit allowed_nil, hls₂⟩
termination_by ls.length
decreasing_by all_goals grind

theorem afterExpr {x : Expr} (hx : Allowed G x.typeUses) (ls : Lexemes) :
    Obeys T G Simple.typeUses ls (s.afterExpr x ls) := by
  intro hls
  rw [Scope.afterExpr.eq_def]
  split
  · rename_i ls₁
    split
    · refine (rule.expr ls₁ (rule.tail hls)).elim leaves_error fun y ls₂ h₂ hy => ?_
      obtain ⟨hy, hls₂⟩ := hy
      exact leaves_ok ⟨allowed_append hx hy, hls₂⟩
    · split
      · exact leaves_ok ⟨hx, rule.tail hls⟩
      · exact leaves_ok ⟨hx, hls⟩
  · exact leaves_ok ⟨hx, hls⟩

theorem exprSimple (ls : Lexemes) : Obeys T G Simple.typeUses ls (s.exprSimple ls) := by
  intro hls
  rw [Scope.exprSimple]
  refine (rule.expr ls hls).elim leaves_error fun x ls₁ h₁ hx => ?_
  obtain ⟨hx, hls₁⟩ := hx
  dsimp only
  exact (rule.afterExpr hx ls₁ hls₁).elim leaves_error fun st ls₂ h₂ hst => leaves_ok hst

theorem simple (ls : Lexemes) : Obeys T G Simple.typeUses ls (s.simple ls) := by
  intro hls
  rw [Scope.simple.eq_def]
  split
  · refine (rule.typeSpec ls hls).elim leaves_error fun spec ls₁ h₁ hls₁ => ?_
    dsimp only
    exact (rule.declarators ls₁ hls₁).elim leaves_error fun vars ls₂ h₂ hvars => leaves_ok hvars
  · split
    · rename_i ls₁ _
      split
      · exact (rule.unary ls₁ (rule.tail hls)).elim leaves_error fun x ls₂ h₂ hx => leaves_ok hx
      · exact rule.exprSimple _ hls
    · exact rule.exprSimple _ hls

theorem terminated {α : Type} {uses : α → List (TypeUse × TypeSpec)} {ls : Lexemes}
    {p : Parse α ls} (hp : Obeys T G uses ls p) : Obeys T G uses ls (s.terminated ls p) := by
  intro hls
  rw [Scope.terminated.eq_def]
  refine (hp hls).elim leaves_error fun x ls₁ h₁ hx => ?_
  obtain ⟨hx, hls₁⟩ := hx
  dsimp only
  exact (rule.expectOp _ ls₁ hls₁).elim leaves_error fun _ ls₂ h₂ hls₂ => leaves_ok ⟨hx, hls₂⟩

theorem unlessOp {α : Type} {uses : α → List (TypeUse × TypeSpec)} {o : Operator}
    {p : (ls : Lexemes) → Parse α ls} (hp : ∀ ls, Obeys T G uses ls (p ls)) (ls : Lexemes) :
    Obeys T G (optionTypeUses uses) ls (s.unlessOp o ls p) := by
  intro hls
  rw [Scope.unlessOp]
  split
  · exact (rule.expectOp _ ls hls).elim leaves_error fun _ rest h hrest => leaves_ok ⟨allowed_nil, hrest⟩
  · refine (hp ls hls).elim leaves_error fun x ls₁ h₁ hx => ?_
    obtain ⟨hx, hls₁⟩ := hx
    dsimp only
    exact (rule.expectOp _ ls₁ hls₁).elim leaves_error fun _ ls₂ h₂ hls₂ => leaves_ok ⟨hx, hls₂⟩

theorem condition (ls : Lexemes) : Obeys T G Expr.typeUses ls (s.condition ls) := by
  intro hls
  rw [Scope.condition]
  refine (rule.expectOp _ ls hls).elim leaves_error fun _ ls₁ h₁ hls₁ => ?_
  dsimp only
  refine (rule.expr ls₁ hls₁).elim leaves_error fun x ls₂ h₂ hx => ?_
  obtain ⟨hx, hls₂⟩ := hx
  dsimp only
  exact (rule.expectOp _ ls₂ hls₂).elim leaves_error fun _ ls₃ h₃ hls₃ => leaves_ok ⟨hx, hls₃⟩

end Rule

/-- The types in brackets in the header of a loop. -/
def Header.typeUses (h : Header) : List (TypeUse × TypeSpec) :=
  optionTypeUses Simple.typeUses h.init ++
    (optionTypeUses Expr.typeUses h.test ++ optionTypeUses Simple.typeUses h.post)

theorem allowed_loop {o : Nat} {h : Header} {body : Stmt} (hh : Allowed G h.typeUses)
    (hbody : Allowed G body.typeUses) :
    Allowed G (Stmt.loop o h.init h.test h.post body).typeUses := by
  have huses : (Stmt.loop o h.init h.test h.post body).typeUses = h.typeUses ++ body.typeUses := by
    simp only [Stmt.typeUses, Header.typeUses, List.append_assoc]
  rw [huses]
  exact allowed_append hh hbody

namespace Rule

variable (rule : Rule T G)
include rule

theorem header (ls : Lexemes) : Obeys T G Header.typeUses ls (s.header ls) := by
  intro hls
  rw [Scope.header]
  refine (rule.expectOp _ ls hls).elim leaves_error fun _ ls₁ h₁ hls₁ => ?_
  dsimp only
  refine (rule.unlessOp rule.simple ls₁ hls₁).elim leaves_error fun init ls₂ h₂ hinit => ?_
  obtain ⟨hinit, hls₂⟩ := hinit
  dsimp only
  refine (rule.unlessOp rule.expr ls₂ hls₂).elim leaves_error fun test ls₃ h₃ htest => ?_
  obtain ⟨htest, hls₃⟩ := htest
  dsimp only
  refine (rule.unlessOp rule.simple ls₃ hls₃).elim leaves_error fun post ls₄ h₄ hpost => ?_
  obtain ⟨hpost, hls₄⟩ := hpost
  exact leaves_ok ⟨allowed_append hinit (allowed_append htest hpost), hls₄⟩

theorem stmt_of {ls : Lexemes}
    (hstmt : ∀ ls' : Lexemes, ls'.length < ls.length → Obeys T G Stmt.typeUses ls' (s.stmt ls'))
    (hstmts : ∀ ls' : Lexemes, ls'.length < ls.length →
      Obeys T G Stmt.allTypeUses ls' (s.stmts ls')) :
    Obeys T G Stmt.typeUses ls (s.stmt ls) := by
  intro hls
  rw [Scope.stmt.eq_def]
  split
  · rename_i ls₁
    refine (hstmts ls₁ (by simp) (rule.tail hls)).elim leaves_error fun body ls₂ h₂ hbody => ?_
    exact leaves_ok hbody
  · exact leaves_ok ⟨allowed_nil, rule.tail hls⟩
  · rename_i ls₁
    refine (rule.condition ls₁ (rule.tail hls)).elim leaves_error fun test ls₂ h₂ htest => ?_
    obtain ⟨htest, hls₂⟩ := htest
    dsimp only
    refine (hstmt ls₂ (by simp only [List.length_cons]; omega) hls₂).elim leaves_error
      fun yes ls₃ h₃ hyes => ?_
    obtain ⟨hyes, hls₃⟩ := hyes
    dsimp only
    split
    · rename_i ls₄ hless
      simp only [List.length_cons] at hless
      refine (hstmt ls₄ (by simp only [List.length_cons]; omega) (rule.tail hls₃)).elim leaves_error
        fun no ls₅ h₅ hno => ?_
      obtain ⟨hno, hls₅⟩ := hno
      exact leaves_ok ⟨allowed_append htest (allowed_append hyes hno), hls₅⟩
    · exact leaves_ok ⟨allowed_append htest hyes, hls₃⟩
  · rename_i ls₁
    refine (rule.header ls₁ (rule.tail hls)).elim leaves_error fun h ls₂ h₂ hh => ?_
    obtain ⟨hh, hls₂⟩ := hh
    dsimp only
    refine (hstmt ls₂ (by simp only [List.length_cons]; omega) hls₂).elim leaves_error
      fun body ls₃ h₃ hbody => ?_
    obtain ⟨hbody, hls₃⟩ := hbody
    exact leaves_ok ⟨allowed_loop hh hbody, hls₃⟩
  · rename_i ls₁
    refine (rule.condition ls₁ (rule.tail hls)).elim leaves_error fun test ls₂ h₂ htest => ?_
    obtain ⟨htest, hls₂⟩ := htest
    dsimp only
    refine (hstmt ls₂ (by simp only [List.length_cons]; omega) hls₂).elim leaves_error
      fun body ls₃ h₃ hbody => ?_
    obtain ⟨hbody, hls₃⟩ := hbody
    exact leaves_ok ⟨@allowed_loop _ _ ⟨none, some test, none⟩ _
      (allowed_append allowed_nil (allowed_append htest allowed_nil)) hbody, hls₃⟩
  · rename_i ls₁
    refine (rule.unlessOp rule.expr ls₁ (rule.tail hls)).elim leaves_error fun x ls₂ h₂ hx => ?_
    exact leaves_ok hx
  · rename_i ls₁
    refine (rule.expectOp _ ls₁ (rule.tail hls)).elim leaves_error fun _ ls₂ h₂ hls₂ => ?_
    exact leaves_ok ⟨allowed_nil, hls₂⟩
  · rename_i ls₁
    refine (rule.expectOp _ ls₁ (rule.tail hls)).elim leaves_error fun _ ls₂ h₂ hls₂ => ?_
    exact leaves_ok ⟨allowed_nil, hls₂⟩
  · exact (rule.terminated (rule.simple _) hls).elim leaves_error fun x rest h hx => leaves_ok hx

mutual

theorem stmt (ls : Lexemes) : Obeys T G Stmt.typeUses ls (s.stmt ls) :=
  rule.stmt_of (fun ls' _ => stmt ls') (fun ls' _ => stmts ls')
termination_by 2 * ls.length
decreasing_by all_goals omega

theorem stmts (ls : Lexemes) : Obeys T G Stmt.allTypeUses ls (s.stmts ls) := by
  intro hls
  cases ls with
  | nil =>
    rw [Scope.stmts]
    exact leaves_error
  | cons l ls₁ =>
    rw [Scope.stmts]
    split
    · exact leaves_ok ⟨allowed_nil, rule.tail hls⟩
    · refine (stmt (l :: ls₁) hls).elim leaves_error fun x ls₂ h₂ hx => ?_
      obtain ⟨hx, hls₂⟩ := hx
      dsimp only
      refine (stmts ls₂ hls₂).elim leaves_error fun xs ls₃ h₃ hxs => ?_
      obtain ⟨hxs, hls₃⟩ := hxs
      exact leaves_ok ⟨allowed_append hx hxs, hls₃⟩
termination_by 2 * ls.length + 1
decreasing_by all_goals grind

end

/-! ### Declarations -/

theorem names (ls : Lexemes) : Drops T ls (s.names ls) := by
  intro hls
  rw [Scope.names]
  refine (rule.ident ls hls).elim leaves_error fun name ls₁ h₁ hls₁ => ?_
  dsimp only
  split
  · rename_i ls₂ hless
    exact (names ls₂ (rule.tail hls₁)).elim leaves_error fun more ls₃ h₃ hls₃ => leaves_ok hls₃
  · exact leaves_ok hls₁
termination_by ls.length
decreasing_by all_goals grind

theorem structFields (ls : Lexemes) : Drops T ls (s.structFields ls) := by
  intro hls
  rw [Scope.structFields]
  split
  · exact (rule.expectOp _ ls hls).elim leaves_error fun _ rest h hrest => leaves_ok hrest
  · refine (rule.typeSpec ls hls).elim leaves_error fun type ls₁ h₁ hls₁ => ?_
    dsimp only
    refine (rule.names ls₁ hls₁).elim leaves_error fun names ls₂ h₂ hls₂ => ?_
    dsimp only
    refine (rule.expectOp _ ls₂ hls₂).elim leaves_error fun _ ls₃ h₃ hls₃ => ?_
    dsimp only
    exact (structFields ls₃ hls₃).elim leaves_error fun more ls₄ h₄ hls₄ => leaves_ok hls₄
termination_by ls.length
decreasing_by all_goals grind

theorem typedef (offset : Nat) (ls : Lexemes) : Drops T ls (s.typedef offset ls) := by
  intro hls
  rw [Scope.typedef]
  refine (rule.expect _ ls hls).elim leaves_error fun _ ls₁ h₁ hls₁ => ?_
  have hname := rule.suffix hls₁ (optionalName_suffix ls₁)
  dsimp only
  refine (rule.expectOp _ _ hname).elim leaves_error fun _ ls₃ h₃ hls₃ => ?_
  dsimp only
  refine (rule.structFields ls₃ hls₃).elim leaves_error fun fields ls₄ h₄ hls₄ => ?_
  have hident : Obeys T G (fun _ : Ident => []) ls₄ (s.ident ls₄) :=
    fun hls x rest h => ⟨allowed_nil, rule.ident ls₄ hls x rest h⟩
  dsimp only
  exact (rule.terminated hident hls₄).elim leaves_error fun name ls₅ h₅ hend => leaves_ok hend.2

theorem params (ls : Lexemes) : Drops T ls (s.params ls) := by
  intro hls
  rw [Scope.params]
  split
  · exact (rule.expectOp _ ls hls).elim leaves_error fun _ rest h hrest => leaves_ok hrest
  · refine (rule.typeSpec ls hls).elim leaves_error fun type ls₁ h₁ hls₁ => ?_
    dsimp only
    refine (rule.ident ls₁ hls₁).elim leaves_error fun name ls₂ h₂ hls₂ => ?_
    dsimp only
    split
    · rename_i ls₃ hless
      exact (params ls₃ (rule.tail hls₂)).elim leaves_error fun more ls₄ h₄ hls₄ => leaves_ok hls₄
    · exact (rule.expectOp _ ls₂ hls₂).elim leaves_error fun _ ls₃ h₃ hls₃ => leaves_ok hls₃
termination_by ls.length
decreasing_by all_goals grind

theorem func (ls : Lexemes) : Obeys T G Func.typeUses ls (s.func ls) := by
  intro hls
  rw [Scope.func]
  have hwords := rule.suffix hls (funcWords_suffix false ls)
  dsimp only
  refine (rule.typeSpec _ hwords).elim leaves_error fun result ls₂ h₂ hls₂ => ?_
  dsimp only
  refine (rule.ident ls₂ hls₂).elim leaves_error fun name ls₃ h₃ hls₃ => ?_
  dsimp only
  refine (rule.expectOp _ ls₃ hls₃).elim leaves_error fun _ ls₄ h₄ hls₄ => ?_
  have hvoid := rule.suffix hls₄ (noParams_suffix ls₄)
  dsimp only
  refine (rule.params _ hvoid).elim leaves_error fun params ls₆ h₆ hls₆ => ?_
  dsimp only
  refine (rule.expectOp _ ls₆ hls₆).elim leaves_error fun brace ls₇ h₇ hls₇ => ?_
  dsimp only
  exact (rule.stmts ls₇ hls₇).elim leaves_error fun body ls₈ h₈ hbody => leaves_ok hbody

end Rule

/-! ### Whole sources -/

/-- A rule that allows everything, to follow what is left. -/
theorem rule_suffix (start : Lexemes) : Rule (· <:+ start) fun _ _ => True :=
  ⟨fun h h' => h'.trans h, fun _ _ _ _ _ => trivial⟩

/-- Each function of a source was read from lexemes that are left at some place of the source. -/
theorem exists_func_of_mem (ls : Lexemes) : ∀ {s : Scope} {f : File}, s.file ls = .ok f →
    ∀ fn ∈ f.funcs, ∃ (s' : Scope) (ls' : Lexemes) (rest : Less ls'), ls' <:+ ls ∧
      s'.func ls' = .ok (fn, rest) := by
  induction hn : ls.length using Nat.strongRecOn generalizing ls with
  | ind n ih =>
    subst hn
    intro s f h
    cases ls with
    | nil =>
      rw [file] at h
      cases h
      exact fun fn hmem => absurd hmem List.not_mem_nil
    | cons l rest =>
      have hlater : ∀ {ls₁ : Lexemes}, ls₁.length < (l :: rest).length → ls₁ <:+ l :: rest →
          ∀ {s₁ : Scope} {g : File}, s₁.file ls₁ = .ok g → ∀ fn ∈ g.funcs,
          ∃ (s' : Scope) (ls' : Lexemes) (rest' : Less ls'), ls' <:+ l :: rest ∧
            s'.func ls' = .ok (fn, rest') := by
        intro ls₁ hlt hsuffix s₁ g hg fn hmem
        obtain ⟨s', ls', rest', hls', hfn⟩ := ih ls₁.length hlt ls₁ rfl hg fn hmem
        exact ⟨s', ls', rest', hls'.trans hsuffix, hfn⟩
      rw [file] at h
      split at h
      · split at h
        · cases h
        · rename_i t ls₁ h₁ ht
          have hsuffix := (rule_suffix rest).typedef l.offset rest List.suffix_rfl t ⟨ls₁, h₁⟩ ht
          split at h
          · cases h
          · rename_i g hg
            cases h
            intro fn hmem
            exact hlater (by simp only [List.length_cons]; omega)
              (hsuffix.trans (List.suffix_cons l rest)) hg fn hmem
      · split at h
        · cases h
        · rename_i fn ls₁ h₁ hfn
          have hsuffix := ((rule_suffix (l :: rest)).func _ List.suffix_rfl fn ⟨ls₁, h₁⟩ hfn).2
          split at h
          · cases h
          · rename_i g hg
            cases h
            intro fn' hmem
            rcases List.mem_cons.mp hmem with rfl | hmem
            · exact ⟨s, l :: rest, ⟨ls₁, h₁⟩, List.suffix_rfl, hfn⟩
            · exact hlater h₁ hsuffix hg fn' hmem

end Scope

namespace File

variable {stream : TokenStream} {file : File}

theorem exists_func_of_ofStream (h : File.ofStream stream = .ok file) : ∀ fn ∈ file.funcs,
    ∃ (s : Scope) (ls : Lexemes) (rest : Less ls), ls <:+ stream.lexemes ∧
      s.func ls = .ok (fn, rest) := by
  rw [File.ofStream] at h
  split at h
  · cases h
  · split at h
    · cases h
    · rename_i f hf
      cases h
      intro fn hmem
      exact Scope.exists_func_of_mem stream.lexemes hf fn hmem

/-- **A rule that holds of expressions holds of the functions of a source.** -/
theorem allowed_of_ofStream {T : Lexemes → Prop} {G : TypeUse → TypeSpec → Prop}
    (rule : Scope.Rule T G) (hstream : T stream.lexemes) (h : File.ofStream stream = .ok file) :
    ∀ fn ∈ file.funcs, Allowed G fn.typeUses := by
  intro fn hmem
  obtain ⟨s, ls, rest, hsuffix, hfn⟩ := exists_func_of_ofStream h fn hmem
  exact (rule.func ls (rule.suffix hstream hsuffix) fn rest hfn).1

end File

/-! ### Literals of vectors -/

/-- Types are used for vectors only where they are spelled as vectors. -/
def Spelled (uses : List (TypeUse × TypeSpec)) : Prop :=
  ∀ spec, (.vector, spec) ∈ uses → Scope.isVector spec = true

/-- A type that a literal is made of is spelled as a vector if the literal is one. -/
def MakesVector (use : TypeUse) (spec : TypeSpec) : Prop :=
  use = .vector → Scope.isVector spec = true

mutual

/-- A tree in which everything is in its place has only literals of vectors that are spelled so. -/
theorem makesVector_of_isLevelled : ∀ {x : Expr}, x.isLevelled = true →
    Allowed MakesVector x.typeUses
  | .ident _, _ => allowed_nil
  | .number _ _ _, _ => allowed_nil
  | .unary _ _ x, h => by
    simp only [Expr.isLevelled, Bool.and_eq_true] at h
    exact makesVector_of_isLevelled (x := x) h.2
  | .binary x _ _ y, h => by
    simp only [Expr.isLevelled, Bool.and_eq_true] at h
    exact allowed_append (makesVector_of_isLevelled h.1.2) (makesVector_of_isLevelled h.2)
  | .cond c x y, h => by
    simp only [Expr.isLevelled, Bool.and_eq_true] at h
    exact allowed_append (makesVector_of_isLevelled h.1.1.2)
      (allowed_append (makesVector_of_isLevelled h.1.2) (makesVector_of_isLevelled h.2))
  | .call _ _ args, h => by
    have hargs : Expr.areLevelled args = true := h
    exact makesVector_of_areLevelled hargs
  | .cast _ spec x, h => by
    simp only [Expr.isLevelled, Bool.and_eq_true] at h
    exact allowed_cons (fun heq => by cases heq) (makesVector_of_isLevelled h.2)
  | .vectorLit _ spec items, h => by
    simp only [Expr.isLevelled, Bool.and_eq_true] at h
    exact allowed_cons (fun _ => h.1) (makesVector_of_areLevelled h.2)
  | .structLit _ spec items, h => by
    have hitems : Expr.areLevelled items = true := h
    exact allowed_cons (fun heq => by cases heq) (makesVector_of_areLevelled hitems)
  | .index x _ i, h => by
    simp only [Expr.isLevelled, Bool.and_eq_true] at h
    exact allowed_append (makesVector_of_isLevelled h.1.2) (makesVector_of_isLevelled h.2)
  | .select x _, h => by
    simp only [Expr.isLevelled, Bool.and_eq_true] at h
    exact makesVector_of_isLevelled (x := x) h.2
  | .paren _ x, h => makesVector_of_isLevelled (x := x) h

theorem makesVector_of_areLevelled : ∀ {xs : List Expr}, Expr.areLevelled xs = true →
    Allowed MakesVector (Expr.allTypeUses xs)
  | [], _ => allowed_nil
  | x :: xs, h => by
    rw [Expr.areLevelled, Bool.and_eq_true] at h
    exact allowed_append (makesVector_of_isLevelled h.1) (makesVector_of_areLevelled h.2)

end

theorem Scope.rule_makesVector : Scope.Rule (fun _ => True) MakesVector :=
  ⟨fun _ _ => trivial, fun _ h => makesVector_of_isLevelled h.levelled⟩

/-- **A literal is read as a vector only where its type is spelled as one.** -/
theorem File.spelled_of_ofStream {stream : TokenStream} {file : File}
    (h : File.ofStream stream = .ok file) : ∀ fn ∈ file.funcs, Spelled fn.typeUses :=
  fun fn hmem spec hspec => allowed_of_ofStream Scope.rule_makesVector trivial h fn hmem _ spec hspec rfl

end KernelForge.Code
