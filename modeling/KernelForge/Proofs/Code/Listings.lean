/-
Listings: texts of statements.

A listing is made of snippets as a block is made of expressions.  It is scanned to its tokens and
read as its trees when its snippets are legible and no statement starts like another kind of
statement.
-/
import KernelForge.Proofs.Code.Snippets

namespace KernelForge

open Code Code.Scope
open Token (Scans Ends startsOperand isNumberTail commaTokens halves?)

namespace Code.Scope

variable {s : Scope} {ls ls₁ ls₂ ls₃ : Lexemes} {x y : Expr} {st : Simple} {a : Stmt}

/-! ### Statements that start with an expression -/

/-- The tokens that statements without a keyword of their own start with. -/
def startsSimple : Token → Bool
  | .name w => w ≠ "while"
  | .keyword .const => true
  | .op .mul | .op .lparen => true
  | _ => false

theorem gives_simple_stmt {l : Lexeme} {o : Nat} (hl : startsSimple l.token = true)
    (h : Gives (s.simple (l :: ls)) st (⟨o, .op .semicolon⟩ :: ls₁)) :
    Gives (s.stmt (l :: ls)) (.simple st) ls₁ := by
  obtain ⟨hlt, h⟩ := h
  obtain ⟨hlt', hclose⟩ := @gives_expect s ls₁ o (.op .semicolon)
  refine ⟨by simp only [List.length_cons] at hlt ⊢; omega, ?_⟩
  rw [stmt]
  · simp only [terminated, h, expectOp, hclose]
  all_goals
    intros
    simp_all [startsSimple]

theorem gives_expr_simple {l : Lexeme} (htype : s.startsType l.token = false)
    (hl : startsSimple l.token = true) (h : Gives (s.expr (l :: ls)) x ls₁)
    (hafter : Gives (s.afterExpr x ls₁) st ls₂) : Gives (s.simple (l :: ls)) st ls₂ := by
  obtain ⟨hlt, h⟩ := h
  obtain ⟨hle, hafter⟩ := hafter
  refine ⟨by omega, ?_⟩
  have hexpr : s.exprSimple (l :: ls) = .ok (st, ⟨ls₂, by omega⟩) := by
    rw [exprSimple, h]
    simp only [hafter]
  obtain ⟨offset, t⟩ := l
  unfold simple
  rw [if_neg (by rw [typeNext, htype]; decide)]
  cases t with
  | op o =>
    have ho : ¬ (o = .inc || o = .dec) = true := by
      simp only [Bool.or_eq_true, decide_eq_true_eq]
      rintro (rfl | rfl) <;> cases hl
    dsimp only
    rw [if_neg ho]
    exact hexpr
  | _ => exact hexpr

theorem gives_after_assign {o : Nat} (h : Gives (s.expr ls) y ls₁) :
    Gives (s.afterExpr x (⟨o, .op .assign⟩ :: ls)) (.assign x o .assign y) ls₁ := by
  obtain ⟨hlt, h⟩ := h
  refine ⟨by simp only [List.length_cons]; omega, ?_⟩
  simp only [afterExpr, h]
  rfl

theorem gives_after_step {o : Nat} :
    Gives (s.afterExpr x (⟨o, .op .inc⟩ :: ls)) (.step x o .inc) ls := ⟨by simp, rfl⟩

theorem gives_after_nothing {o : Nat} :
    Gives (s.afterExpr x (⟨o, .op .semicolon⟩ :: ls)) (.expr x) (⟨o, .op .semicolon⟩ :: ls) :=
  ⟨by simp, rfl⟩

/-! ### Loops and results -/

theorem gives_for {o paren semi semi' close : Nat} {init post : Simple}
    (hinit : nextIs (.op .semicolon) ls = false)
    (h₁ : Gives (s.simple ls) init (⟨semi, .op .semicolon⟩ :: ls₁))
    (htest : nextIs (.op .semicolon) ls₁ = false)
    (h₂ : Gives (s.expr ls₁) x (⟨semi', .op .semicolon⟩ :: ls₂))
    (hpost : nextIs (.op .rparen) ls₂ = false)
    (h₃ : Gives (s.simple ls₂) post (⟨close, .op .rparen⟩ :: ls₃))
    {ls₄ : Lexemes} (h₄ : Gives (s.stmt ls₃) a ls₄) :
    Gives (s.stmt (⟨o, .keyword .loop⟩ :: ⟨paren, .op .lparen⟩ :: ls))
      (.loop o (some init) (some x) (some post) a) ls₄ := by
  obtain ⟨hlt₁, h₁⟩ := h₁
  obtain ⟨hlt₂, h₂⟩ := h₂
  obtain ⟨hlt₃, h₃⟩ := h₃
  obtain ⟨hlt₄, h₄⟩ := h₄
  obtain ⟨hopen', hopen⟩ := @gives_expect s ls paren (.op .lparen)
  obtain ⟨hsemi', hsemi⟩ := @gives_expect s ls₁ semi (.op .semicolon)
  obtain ⟨hsemi₂', hsemi₂⟩ := @gives_expect s ls₂ semi' (.op .semicolon)
  obtain ⟨hclose', hclose⟩ := @gives_expect s ls₃ close (.op .rparen)
  simp only [List.length_cons] at hlt₁ hlt₂ hlt₃
  refine ⟨by simp only [List.length_cons]; omega, ?_⟩
  rw [stmt]
  simp only [header, unlessOp, expectOp, hopen, hinit, htest, hpost, h₁, h₂, h₃, hsemi, hsemi₂, hclose,
    Bool.false_eq_true, if_false, h₄]

theorem gives_ret {o semi : Nat} (hnext : nextIs (.op .semicolon) ls = false)
    (h : Gives (s.expr ls) x (⟨semi, .op .semicolon⟩ :: ls₁)) :
    Gives (s.stmt (⟨o, .keyword .ret⟩ :: ls)) (.ret o (some x)) ls₁ := by
  obtain ⟨hlt, h⟩ := h
  obtain ⟨hsemi', hsemi⟩ := @gives_expect s ls₁ semi (.op .semicolon)
  simp only [List.length_cons] at hlt
  refine ⟨by simp only [List.length_cons]; omega, ?_⟩
  rw [stmt]
  simp only [unlessOp, expectOp, hnext, h, hsemi, Bool.false_eq_true, if_false]

/-! ### The same for tokens -/

variable {ts us vs ws : List Token} {t : Token} {P Q : Expr → Prop} {A : Simple → Prop} {B : Stmt → Prop}

theorem reads_simple_stmt (ht : startsSimple t = true)
    (h : Reads s.simple (t :: ts) (.op .semicolon :: us) A) :
    Reads s.stmt (t :: ts) us fun a => ∃ b, a = .simple b ∧ A b := by
  intro ls hls
  obtain ⟨b, ls₁, hgives, hls₁, hb⟩ := h ls hls
  obtain ⟨o, rest, rfl, hrest⟩ := exists_lexeme hls₁
  obtain ⟨o', ls₂, rfl, hls₂⟩ := exists_lexeme hls
  exact ⟨_, rest, gives_simple_stmt ht hgives, hrest, b, rfl, hb⟩

theorem reads_assignment (htype : s.startsType t = false) (ht : startsSimple t = true)
    (h : Reads s.expr (t :: ts) (.op .assign :: us) P) (hy : Reads s.expr us vs Q) :
    Reads s.simple (t :: ts) vs fun a => ∃ x o y, a = .assign x o .assign y ∧ P x ∧ Q y := by
  intro ls hls
  obtain ⟨x, ls₁, hgives, hls₁, hx⟩ := h ls hls
  obtain ⟨o, ls₂, rfl, hls₂⟩ := exists_lexeme hls₁
  obtain ⟨y, rest, hgives', hrest, hy⟩ := hy ls₂ hls₂
  obtain ⟨o', ls₃, rfl, hls₃⟩ := exists_lexeme hls
  exact ⟨_, rest, gives_expr_simple htype ht hgives (gives_after_assign hgives'), hrest, x, o, y, rfl, hx,
    hy⟩

theorem reads_step (htype : s.startsType t = false) (ht : startsSimple t = true)
    (h : Reads s.expr (t :: ts) (.op .inc :: us) P) :
    Reads s.simple (t :: ts) us fun a => ∃ x o, a = .step x o .inc ∧ P x := by
  intro ls hls
  obtain ⟨x, ls₁, hgives, hls₁, hx⟩ := h ls hls
  obtain ⟨o, rest, rfl, hrest⟩ := exists_lexeme hls₁
  obtain ⟨o', ls₃, rfl, hls₃⟩ := exists_lexeme hls
  exact ⟨_, rest, gives_expr_simple htype ht hgives gives_after_step, hrest, x, o, rfl, hx⟩

theorem reads_performed (htype : s.startsType t = false) (ht : startsSimple t = true)
    (h : Reads s.expr (t :: ts) (.op .semicolon :: us) P) :
    Reads s.simple (t :: ts) (.op .semicolon :: us) fun a => ∃ x, a = .expr x ∧ P x := by
  intro ls hls
  obtain ⟨x, ls₁, hgives, hls₁, hx⟩ := h ls hls
  obtain ⟨o, rest, rfl, hrest⟩ := exists_lexeme hls₁
  obtain ⟨o', ls₃, rfl, hls₃⟩ := exists_lexeme hls
  exact ⟨_, _, gives_expr_simple htype ht hgives gives_after_nothing, hls₁, x, rfl, hx⟩

theorem reads_for {A₁ A₂ : Simple → Prop} (hinit : ts.head? ≠ some (.op .semicolon))
    (h₁ : Reads s.simple ts (.op .semicolon :: us) A₁) (htest : us.head? ≠ some (.op .semicolon))
    (h₂ : Reads s.expr us (.op .semicolon :: vs) P) (hpost : vs.head? ≠ some (.op .rparen))
    (h₃ : Reads s.simple vs (.op .rparen :: ws) A₂) {left : List Token} (h₄ : Reads s.stmt ws left B) :
    Reads s.stmt (.keyword .loop :: .op .lparen :: ts) left fun a => ∃ o init x post b,
      a = .loop o (some init) (some x) (some post) b ∧ A₁ init ∧ P x ∧ A₂ post ∧ B b := by
  intro ls₀ hls₀
  obtain ⟨o, ls', rfl, hls'⟩ := exists_lexeme hls₀
  obtain ⟨paren, ls, rfl, hls⟩ := exists_lexeme hls'
  obtain ⟨init, ls₁, hgives₁, hls₁, hA₁⟩ := h₁ ls hls
  obtain ⟨semi, ls₂, rfl, hls₂⟩ := exists_lexeme hls₁
  obtain ⟨x, ls₃, hgives₂, hls₃, hP⟩ := h₂ ls₂ hls₂
  obtain ⟨semi', ls₄, rfl, hls₄⟩ := exists_lexeme hls₃
  obtain ⟨post, ls₅, hgives₃, hls₅, hA₂⟩ := h₃ ls₄ hls₄
  obtain ⟨close, ls₆, rfl, hls₆⟩ := exists_lexeme hls₅
  obtain ⟨b, rest, hgives₄, hrest, hB⟩ := h₄ ls₆ hls₆
  exact ⟨_, rest, gives_for (nextIs_of_head (hls ▸ hinit)) hgives₁ (nextIs_of_head (hls₂ ▸ htest)) hgives₂
    (nextIs_of_head (hls₄ ▸ hpost)) hgives₃ hgives₄, hrest, o, init, x, post, b, rfl, hA₁, hP, hA₂, hB⟩

theorem reads_ret (hnext : ts.head? ≠ some (.op .semicolon))
    (h : Reads s.expr ts (.op .semicolon :: us) P) :
    Reads s.stmt (.keyword .ret :: ts) us fun a => ∃ o x, a = .ret o (some x) ∧ P x := by
  intro ls hls
  obtain ⟨o, ls', rfl, hls'⟩ := exists_lexeme hls
  obtain ⟨x, ls₁, hgives, hls₁, hP⟩ := h ls' hls'
  obtain ⟨semi, rest, rfl, hrest⟩ := exists_lexeme hls₁
  exact ⟨_, rest, gives_ret (nextIs_of_head (hls' ▸ hnext)) hgives, hrest, o, x, rfl, hP⟩

end Code.Scope

/-! ### Listings -/

/-- Statements one after another. -/
inductive Listing where
  | done
  /-- The declaration of a variable, which may be read-only. -/
  | declare (readOnly : Bool) (t : Ty) (x : String) (e : Snippet) (next : Listing)
  | assign (place value : Snippet) (next : Listing)
  /-- An expression that is computed for what it does. -/
  | perform (e : Snippet) (next : Listing)
  | branch (test : Snippet) (body next : Listing)
  /-- A loop that counts from one up to a bound. -/
  | count (i bound : String) (body next : Listing)
  | ret (e : Snippet) (next : Listing)

namespace Listing

open Script (lineText scans_line)

/-- What qualifies the type of a declared variable. -/
def qualifierText (readOnly : Bool) : String := if readOnly then "const " else ""

def qualifierTokens (readOnly : Bool) : List Token := if readOnly then [.keyword .const] else []

def text (indent : Nat) : Listing → String
  | done => ""
  | declare readOnly t x e next =>
    lineText indent (qualifierText readOnly ++ t.name ++ " " ++ x ++ " = " ++ e.text ++ ";") ++
      next.text indent
  | assign place value next =>
    lineText indent (place.text ++ " = " ++ value.text ++ ";") ++ next.text indent
  | perform e next => lineText indent (e.text ++ ";") ++ next.text indent
  | branch test body next =>
    lineText indent ("if (" ++ test.text ++ ") \x7b") ++ body.text (indent + 1) ++
      lineText indent "\x7d" ++ next.text indent
  | count i bound body next =>
    lineText indent ("for (uint " ++ i ++ " = 1; " ++ i ++ " < " ++ bound ++ "; " ++ i ++ "++) \x7b") ++
      body.text (indent + 1) ++ lineText indent "\x7d" ++ next.text indent
  | ret e next => lineText indent ("return " ++ e.text ++ ";") ++ next.text indent

def tokens : Listing → List Token
  | done => []
  | declare readOnly t x e next =>
    qualifierTokens readOnly ++ .name t.name :: .name x :: .op .assign ::
      (e.tokens ++ .op .semicolon :: next.tokens)
  | assign place value next =>
    place.tokens ++ .op .assign :: (value.tokens ++ .op .semicolon :: next.tokens)
  | perform e next => e.tokens ++ .op .semicolon :: next.tokens
  | branch test body next =>
    .keyword .cond :: .op .lparen :: (test.tokens ++ .op .rparen :: .op .lbrace ::
      (body.tokens ++ .op .rbrace :: next.tokens))
  | count i bound body next =>
    .keyword .loop :: .op .lparen :: .name "uint" :: .name i :: .op .assign :: .int (toString 1) ::
      .op .semicolon :: .name i :: .op .lss :: .name bound :: .op .semicolon :: .name i :: .op .inc ::
      .op .rparen :: .op .lbrace :: (body.tokens ++ .op .rbrace :: next.tokens)
  | ret e next => .keyword .ret :: (e.tokens ++ .op .semicolon :: next.tokens)

/-- The trees of the statements of a listing. -/
def Trees : Listing → List Stmt → Prop
  | done, ss => ss = []
  | declare readOnly t x e next, ss => ∃ spec o e' ss',
      ss = .simple (.decl spec [(⟨o, x⟩, some e')]) :: ss' ∧
      Says (qualifierTokens readOnly) t.name false spec ∧ e.tree e' ∧ next.Trees ss'
  | assign place value next, ss => ∃ x o y ss', ss = .simple (.assign x o .assign y) :: ss' ∧
      place.tree x ∧ value.tree y ∧ next.Trees ss'
  | perform e next, ss => ∃ x ss', ss = .simple (.expr x) :: ss' ∧ e.tree x ∧ next.Trees ss'
  | branch test body next, ss => ∃ o e o' bs ss', ss = .ifThen o e (.block o' bs) :: ss' ∧
      test.tree e ∧ body.Trees bs ∧ next.Trees ss'
  | count i bound body next, ss => ∃ o spec oi one test x ox o' bs ss',
      ss = .loop o (some (.decl spec [(⟨oi, i⟩, some one)])) (some test) (some (.step x ox .inc))
        (.block o' bs) :: ss' ∧
      Says [] "uint" false spec ∧ (Snippet.digits 1).tree one ∧
      (Snippet.binary .lss (.name i) (.name bound)).tree test ∧ (Snippet.name i).tree x ∧
      body.Trees bs ∧ next.Trees ss'
  | ret e next, ss => ∃ o x ss', ss = .ret o (some x) :: ss' ∧ e.tree x ∧ next.Trees ss'

/-- One listing after another. -/
def append : Listing → Listing → Listing
  | done, l => l
  | declare readOnly t x e next, l => declare readOnly t x e (next.append l)
  | assign place value next, l => assign place value (next.append l)
  | perform e next, l => perform e (next.append l)
  | branch test body next, l => branch test body (next.append l)
  | count i bound body next, l => count i bound body (next.append l)
  | ret e next, l => ret e (next.append l)

instance : Append Listing := ⟨append⟩

/-- A snippet that a statement may start with. -/
def Begins (s : Code.Scope) (p : Snippet) : Prop :=
  ∃ t ts, p.tokens = t :: ts ∧ s.startsType t = false ∧ startsSimple t = true

/-- A name that can be declared. -/
def Fresh (x : String) : Prop := isIdent x = true ∧ isQualifier (.name x) = false

/-- A listing that is read as it is meant. -/
def Legible (s : Code.Scope) : Listing → Prop
  | done => True
  | declare _ t x e next => (t.isData = true ∧ IsTypeWord s t.name) ∧ Fresh x ∧ e.Legible s ∧ next.Legible s
  | assign place value next => (place.Legible s ∧ Begins s place) ∧ value.Legible s ∧ next.Legible s
  | perform e next => (e.Legible s ∧ Begins s e) ∧ next.Legible s
  | branch test body next => test.Legible s ∧ body.Legible s ∧ next.Legible s
  | count i bound body next => (Fresh i ∧ Begins s (.name i)) ∧ isIdent bound = true ∧
      body.Legible s ∧ next.Legible s
  | ret e next => e.Legible s ∧ next.Legible s

variable {s : Code.Scope}

/-! ### One listing after another -/

@[simp] theorem done_append (l : Listing) : done ++ l = l := rfl

@[simp] theorem declare_append (readOnly : Bool) (t : Ty) (x : String) (e : Snippet) (k l : Listing) :
    declare readOnly t x e k ++ l = declare readOnly t x e (k ++ l) := rfl

@[simp] theorem assign_append (place value : Snippet) (k l : Listing) :
    assign place value k ++ l = assign place value (k ++ l) := rfl

@[simp] theorem perform_append (e : Snippet) (k l : Listing) : perform e k ++ l = perform e (k ++ l) := rfl

@[simp] theorem branch_append (test : Snippet) (body k l : Listing) :
    branch test body k ++ l = branch test body (k ++ l) := rfl

@[simp] theorem count_append (i bound : String) (body k l : Listing) :
    count i bound body k ++ l = count i bound body (k ++ l) := rfl

@[simp] theorem ret_append (e : Snippet) (k l : Listing) : ret e k ++ l = ret e (k ++ l) := rfl

theorem text_append (indent : Nat) (k l : Listing) :
    (k ++ l).text indent = k.text indent ++ l.text indent := by
  induction k with
  | done => simp [text]
  | _ => simp_all [text, String.append_assoc]

theorem Legible.append : ∀ {k l : Listing}, k.Legible s → l.Legible s → (k ++ l).Legible s
  | .done, _, _, hl => hl
  | .declare _ _ _ _ _, _, ⟨ht, hx, he, hk⟩, hl => ⟨ht, hx, he, hk.append hl⟩
  | .assign _ _ _, _, ⟨hp, hv, hk⟩, hl => ⟨hp, hv, hk.append hl⟩
  | .perform _ _, _, ⟨he, hk⟩, hl => ⟨he, hk.append hl⟩
  | .branch _ _ _, _, ⟨ht, hb, hk⟩, hl => ⟨ht, hb, hk.append hl⟩
  | .count _ _ _ _, _, ⟨hi, hn, hb, hk⟩, hl => ⟨hi, hn, hb, hk.append hl⟩
  | .ret _ _, _, ⟨he, hk⟩, hl => ⟨he, hk.append hl⟩

/-- The trees of two listings stand one after another. -/
theorem Trees.of_append : ∀ {k l : Listing} {ss : List Stmt}, (k ++ l).Trees ss →
    ∃ ks ls, ss = ks ++ ls ∧ k.Trees ks ∧ l.Trees ls
  | .done, _, ss, h => ⟨[], ss, rfl, rfl, h⟩
  | .declare _ _ _ _ _, _, _, ⟨spec, o, e, _, rfl, hspec, he, h⟩ => by
    obtain ⟨ks, ls, rfl, hk, hl⟩ := Trees.of_append h
    exact ⟨_ :: ks, ls, rfl, ⟨spec, o, e, ks, rfl, hspec, he, hk⟩, hl⟩
  | .assign _ _ _, _, _, ⟨x, o, y, _, rfl, hx, hy, h⟩ => by
    obtain ⟨ks, ls, rfl, hk, hl⟩ := Trees.of_append h
    exact ⟨_ :: ks, ls, rfl, ⟨x, o, y, ks, rfl, hx, hy, hk⟩, hl⟩
  | .perform _ _, _, _, ⟨x, _, rfl, hx, h⟩ => by
    obtain ⟨ks, ls, rfl, hk, hl⟩ := Trees.of_append h
    exact ⟨_ :: ks, ls, rfl, ⟨x, ks, rfl, hx, hk⟩, hl⟩
  | .branch _ _ _, _, _, ⟨o, e, o', bs, _, rfl, he, hbs, h⟩ => by
    obtain ⟨ks, ls, rfl, hk, hl⟩ := Trees.of_append h
    exact ⟨_ :: ks, ls, rfl, ⟨o, e, o', bs, ks, rfl, he, hbs, hk⟩, hl⟩
  | .count _ _ _ _, _, _, ⟨o, spec, oi, one, test, x, ox, o', bs, _, rfl, h₁, h₂, h₃, h₄, h₅, h⟩ => by
    obtain ⟨ks, ls, rfl, hk, hl⟩ := Trees.of_append h
    exact ⟨_ :: ks, ls, rfl, ⟨o, spec, oi, one, test, x, ox, o', bs, ks, rfl, h₁, h₂, h₃, h₄, h₅, hk⟩, hl⟩
  | .ret _ _, _, _, ⟨o, x, _, rfl, hx, h⟩ => by
    obtain ⟨ks, ls, rfl, hk, hl⟩ := Trees.of_append h
    exact ⟨_ :: ks, ls, rfl, ⟨o, x, ks, rfl, hx, hk⟩, hl⟩

/-! ### Scanning and reading -/

theorem scans_closing {indent : Nat} {rest : List Char} {us : List Token} (h : Scans rest us) :
    Scans ((lineText indent "\x7d").toList ++ rest) (.op .rbrace :: us) := by
  have h := h.blank (c := '\n') (.inr rfl)
  have h := h.mark (c := '\x7d') (o := .rbrace) rfl (by decide)
  exact @scans_line indent "\x7d" _ _ h

/-- **A listing is scanned to its tokens.** -/
theorem Legible.scans : ∀ {l : Listing}, l.Legible s → ∀ (indent : Nat) {rest : List Char}
    {us : List Token}, Scans rest us → Scans ((l.text indent).toList ++ rest) (l.tokens ++ us)
  | .done, _, _, _, _, h => h
  | .declare readOnly t x e next, hl, indent, rest, us, h => by
    obtain ⟨⟨ht, -⟩, ⟨hx, -⟩, he, hnext⟩ := hl
    have h := hnext.scans indent h
    have h := h.blank (c := '\n') (.inr rfl)
    have h := h.mark (c := ';') (o := .semicolon) rfl (by decide)
    have h := he.scans (.cons Script.isNumberTail_semicolon _) h
    have h := h.blank (c := ' ') (.inl rfl)
    have h := h.op (o := .assign) rfl (by decide) (.inr (.cons (Token.goesOn_blank _) _))
    have h := h.blank (c := ' ') (.inl rfl)
    have h := scans_ident hx (.cons (by decide) _) h
    have h := h.blank (c := ' ') (.inl rfl)
    have h := h.spelled (Ty.isWord_name ht) (Ty.word_name ht) (.cons (by decide) _)
    rw [text, String.toList_append, List.append_assoc]
    apply scans_line
    cases readOnly with
    | false => simpa [tokens, qualifierText, qualifierTokens, Operator.spelling] using h
    | true =>
      have h := h.blank (c := ' ') (.inl rfl)
      have h := h.spelled (w := "const") (t := .keyword .const) (by decide) rfl (.cons (by decide) _)
      have hconst : "const ".toList = "const".toList ++ [' '] := rfl
      simpa [tokens, qualifierText, qualifierTokens, Operator.spelling, hconst] using h
  | .assign place value next, hl, indent, rest, us, h => by
    obtain ⟨⟨hplace, -⟩, hvalue, hnext⟩ := hl
    have h := hnext.scans indent h
    have h := h.blank (c := '\n') (.inr rfl)
    have h := h.mark (c := ';') (o := .semicolon) rfl (by decide)
    have h := hvalue.scans (.cons Script.isNumberTail_semicolon _) h
    have h := h.blank (c := ' ') (.inl rfl)
    have h := h.op (o := .assign) rfl (by decide) (.inr (.cons (Token.goesOn_blank _) _))
    have h := h.blank (c := ' ') (.inl rfl)
    have h := hplace.scans (.cons Token.isNumberTail_blank _) h
    rw [text, String.toList_append, List.append_assoc]
    apply scans_line
    simpa [tokens, Operator.spelling] using h
  | .perform e next, hl, indent, rest, us, h => by
    obtain ⟨⟨he, -⟩, hnext⟩ := hl
    have h := hnext.scans indent h
    have h := h.blank (c := '\n') (.inr rfl)
    have h := h.mark (c := ';') (o := .semicolon) rfl (by decide)
    have h := he.scans (.cons Script.isNumberTail_semicolon _) h
    rw [text, String.toList_append, List.append_assoc]
    apply scans_line
    simpa [tokens] using h
  | .branch test body next, hl, indent, rest, us, h => by
    obtain ⟨htest, hbody, hnext⟩ := hl
    have h := @scans_closing indent _ _ (hnext.scans indent h)
    have h := hbody.scans (indent + 1) h
    have h := h.blank (c := '\n') (.inr rfl)
    have h := h.mark (c := '\x7b') (o := .lbrace) rfl (by decide)
    have h := h.blank (c := ' ') (.inl rfl)
    have h := h.mark (c := ')') (o := .rparen) rfl (by decide)
    have h := htest.scans (.cons Literal.isNumberTail_rparen _) h
    have h := h.mark (c := '(') (o := .lparen) rfl (by decide)
    have h := h.blank (c := ' ') (.inl rfl)
    have h := h.spelled (w := "if") (t := .keyword .cond) (by decide) rfl (.cons (by decide) _)
    rw [text, String.toList_append, String.toList_append, String.toList_append, List.append_assoc,
      List.append_assoc, List.append_assoc]
    apply scans_line
    have hopen : "if (".toList = "if".toList ++ [' ', '('] := rfl
    have hclose : ") \x7b".toList = [')', ' ', '\x7b'] := rfl
    rw [String.toList_append, String.toList_append, hopen, hclose]
    simpa [tokens] using h
  | .count i bound body next, hl, indent, rest, us, h => by
    obtain ⟨⟨⟨hi, -⟩, -⟩, hbound, hbody, hnext⟩ := hl
    have h := @scans_closing indent _ _ (hnext.scans indent h)
    have h := hbody.scans (indent + 1) h
    have h := h.blank (c := '\n') (.inr rfl)
    have h := h.mark (c := '\x7b') (o := .lbrace) rfl (by decide)
    have h := h.blank (c := ' ') (.inl rfl)
    have h := h.mark (c := ')') (o := .rparen) rfl (by decide)
    have h := h.op (o := .inc) rfl (by decide) (.inr (.cons (by decide) _))
    have hinc : Operator.inc.spelling.toList = ['+', '+'] := rfl
    rw [hinc, List.cons_append, List.singleton_append] at h
    have h := scans_ident hi (.cons (by decide) _) h
    have h := h.blank (c := ' ') (.inl rfl)
    have h := h.mark (c := ';') (o := .semicolon) rfl (by decide)
    have h := scans_ident hbound (.cons (by decide) _) h
    have h := h.blank (c := ' ') (.inl rfl)
    have h := h.op (o := .lss) rfl (by decide) (.inr (.cons (Token.goesOn_blank _) _))
    have hlss : Operator.lss.spelling.toList = ['<'] := rfl
    rw [hlss, List.singleton_append] at h
    have h := h.blank (c := ' ') (.inl rfl)
    have h := scans_ident hi (.cons (by decide) _) h
    have h := h.blank (c := ' ') (.inl rfl)
    have h := h.mark (c := ';') (o := .semicolon) rfl (by decide)
    have h := (Snippet.isOperand_digits (s := s) 1).scans (.cons Script.isNumberTail_semicolon _) h
    have h := h.blank (c := ' ') (.inl rfl)
    have h := h.op (o := .assign) rfl (by decide) (.inr (.cons (Token.goesOn_blank _) _))
    have hassign : Operator.assign.spelling.toList = ['='] := rfl
    rw [hassign, List.singleton_append] at h
    have h := h.blank (c := ' ') (.inl rfl)
    have h := scans_ident hi (.cons (by decide) _) h
    have h := h.blank (c := ' ') (.inl rfl)
    have h := h.spelled (w := "uint") (t := .name "uint") (by decide) rfl (.cons (by decide) _)
    have h := h.mark (c := '(') (o := .lparen) rfl (by decide)
    have h := h.blank (c := ' ') (.inl rfl)
    have h := h.spelled (w := "for") (t := .keyword .loop) (by decide) rfl (.cons (by decide) _)
    rw [text, String.toList_append, String.toList_append, String.toList_append, List.append_assoc,
      List.append_assoc, List.append_assoc]
    apply scans_line
    have hopen : "for (uint ".toList = "for".toList ++ ([' ', '('] ++ ("uint".toList ++ [' '])) := rfl
    have hone : " = 1; ".toList = [' ', '=', ' '] ++ ((Snippet.digits 1).text.toList ++ [';', ' ']) := rfl
    have hless : " < ".toList = [' ', '<', ' '] := rfl
    have hsemi : "; ".toList = [';', ' '] := rfl
    have hclose : "++) \x7b".toList = ['+', '+', ')', ' ', '\x7b'] := rfl
    simp only [String.toList_append, hopen, hone, hless, hsemi, hclose]
    simpa [tokens, Snippet.digits] using h
  | .ret e next, hl, indent, rest, us, h => by
    obtain ⟨he, hnext⟩ := hl
    have h := hnext.scans indent h
    have h := h.blank (c := '\n') (.inr rfl)
    have h := h.mark (c := ';') (o := .semicolon) rfl (by decide)
    have h := he.scans (.cons Script.isNumberTail_semicolon _) h
    have h := h.blank (c := ' ') (.inl rfl)
    have h := h.spelled (w := "return") (t := .keyword .ret) (by decide) rfl (.cons (by decide) _)
    rw [text, String.toList_append, List.append_assoc]
    apply scans_line
    have hreturn : "return ".toList = "return".toList ++ [' '] := rfl
    simpa [tokens, hreturn] using h

/-- No listing starts with what belongs to a condition before it. -/
theorem Legible.head?_ne {l : Listing} (hl : l.Legible s) (us : List Token) :
    (l.tokens ++ .op .rbrace :: us).head? ≠ some (.keyword .els) := by
  cases l with
  | done => simp [tokens]
  | declare readOnly t x e next => cases readOnly <;> simp [tokens, qualifierTokens]
  | assign place value next =>
    obtain ⟨t, ts, hts, -, ht⟩ := hl.1.2
    rw [tokens, hts]
    rintro ⟨rfl⟩
    cases ht
  | perform e next =>
    obtain ⟨t, ts, hts, -, ht⟩ := hl.1.2
    rw [tokens, hts]
    rintro ⟨rfl⟩
    cases ht
  | branch test body next => simp [tokens]
  | count i bound body next => simp [tokens]
  | ret e next => simp [tokens]

theorem Begins.not_rbrace {p : Snippet} (hp : Begins s p) :
    ∃ t ts, p.tokens = t :: ts ∧ s.startsType t = false ∧ startsSimple t = true ∧ t ≠ .op .rbrace := by
  obtain ⟨t, ts, hts, htype, ht⟩ := hp
  refine ⟨t, ts, hts, htype, ht, ?_⟩
  rintro rfl
  cases ht

/-- **The tokens of a listing are read as its trees.** -/
theorem Legible.reads : ∀ {l : Listing}, l.Legible s → ∀ us : List Token,
    Reads s.stmts (l.tokens ++ .op .rbrace :: us) us l.Trees
  | .done, _, us => reads_stmts_nil
  | .declare readOnly t x e next, hl, us => by
    obtain ⟨⟨ht, hword⟩, ⟨hx, hqualifier⟩, he, hnext⟩ := hl
    have hnext := hnext.reads us
    have hexpr := he.reads (u := .op .semicolon :: (next.tokens ++ .op .rbrace :: us)) (.cons (by decide) _)
    have hqs : ∀ q ∈ qualifierTokens readOnly, isQualifier q = true := by
      cases readOnly <;> decide
    have hspec := @reads_typeSpec s (.name x :: .op .assign :: (e.tokens ++ .op .semicolon ::
      (next.tokens ++ .op .rbrace :: us))) (qualifierTokens readOnly) t.name hqs hword
      (Ty.unqualified_name hqualifier _) (by simp)
    have hstmt : Reads s.stmts (qualifierTokens readOnly ++ .name t.name :: .name x :: .op .assign ::
        (e.tokens ++ .op .semicolon :: (next.tokens ++ .op .rbrace :: us))) us
        (declare readOnly t x e next).Trees := by
      have hdone : ∀ ss, (∃ a ss', ss = a :: ss' ∧ (∃ b, a = .simple b ∧ ∃ spec o e',
          b = .decl spec [(⟨o, x⟩, some e')] ∧ Says (qualifierTokens readOnly) t.name false spec ∧
            e.tree e') ∧ next.Trees ss') → (declare readOnly t x e next).Trees ss := by
        rintro _ ⟨_, ss, rfl, ⟨_, rfl, spec, o, e', rfl, hspec, he⟩, hss⟩
        exact ⟨spec, o, e', ss, rfl, hspec, he, hss⟩
      cases readOnly with
      | false =>
        have hdecl := reads_decl (typeAhead_word hword _) hspec hexpr (by simp)
        have hsimple := reads_simple_stmt (by simpa [startsSimple] using Ty.name_ne ht rfl rfl) hdecl
        exact (reads_stmts_cons (by simp) hsimple hnext).mono hdone
      | true =>
        have hdecl := reads_decl rfl hspec hexpr (by simp)
        have hsimple := reads_simple_stmt rfl hdecl
        exact (reads_stmts_cons (by simp) hsimple hnext).mono hdone
    simpa [tokens] using hstmt
  | .assign place value next, hl, us => by
    obtain ⟨⟨hplace, hbegins⟩, hvalue, hnext⟩ := hl
    obtain ⟨t, ts, hts, htype, ht, hne⟩ := hbegins.not_rbrace
    have hleft := hplace.reads (u := .op .assign :: (value.tokens ++ .op .semicolon ::
      (next.tokens ++ .op .rbrace :: us))) (.cons (by decide) _)
    have hright := hvalue.reads (u := .op .semicolon :: (next.tokens ++ .op .rbrace :: us))
      (.cons (by decide) _)
    rw [hts, List.cons_append] at hleft
    have hsimple := reads_simple_stmt ht (reads_assignment htype ht hleft hright)
    have hall := (reads_stmts_cons hne hsimple (hnext.reads us)).mono
      (R := (assign place value next).Trees) <| by
      rintro _ ⟨_, ss, rfl, ⟨_, rfl, x, o, y, rfl, hx, hy⟩, hss⟩
      exact ⟨x, o, y, ss, rfl, hx, hy, hss⟩
    simpa only [tokens, hts, List.cons_append, List.append_assoc] using hall
  | .perform e next, hl, us => by
    obtain ⟨⟨he, hbegins⟩, hnext⟩ := hl
    obtain ⟨t, ts, hts, htype, ht, hne⟩ := hbegins.not_rbrace
    have hexpr := he.reads (u := .op .semicolon :: (next.tokens ++ .op .rbrace :: us)) (.cons (by decide) _)
    rw [hts, List.cons_append] at hexpr
    have hsimple := reads_simple_stmt ht (reads_performed htype ht hexpr)
    have hall := (reads_stmts_cons hne hsimple (hnext.reads us)).mono (R := (perform e next).Trees) <| by
      rintro _ ⟨_, ss, rfl, ⟨_, rfl, x, rfl, hx⟩, hss⟩
      exact ⟨x, ss, rfl, hx, hss⟩
    simpa only [tokens, hts, List.cons_append, List.append_assoc] using hall
  | .branch test body next, hl, us => by
    obtain ⟨htest, hbody, hnext⟩ := hl
    have hexpr := htest.reads (u := .op .rparen :: .op .lbrace :: (body.tokens ++ .op .rbrace ::
      (next.tokens ++ .op .rbrace :: us))) (.cons (by decide) _)
    have hif := reads_if hexpr (reads_block (hbody.reads _)) (hnext.head?_ne us)
    have hall := (reads_stmts_cons (by simp) hif (hnext.reads us)).mono
      (R := (branch test body next).Trees) <| by
      rintro _ ⟨_, ss, rfl, ⟨o, e, _, rfl, he, o', bs, rfl, hbs⟩, hss⟩
      exact ⟨o, e, o', bs, ss, rfl, he, hbs, hss⟩
    simpa only [tokens, List.cons_append, List.append_assoc] using hall
  | .count i bound body next, hl, us => by
    obtain ⟨⟨⟨hi, hqualifier⟩, hbegins⟩, hbound, hbody, hnext⟩ := hl
    obtain ⟨t, ts, hts, htype, ht, hne⟩ := hbegins.not_rbrace
    cases hts
    have huint : IsTypeWord s "uint" := ⟨by rfl, by decide, by decide⟩
    let left := Token.op .lbrace :: (body.tokens ++ .op .rbrace :: (next.tokens ++ .op .rbrace :: us))
    let step := Token.name i :: .op .inc :: .op .rparen :: left
    let test := Token.name i :: .op .lss :: .name bound :: .op .semicolon :: step
    have hone := (Snippet.isOperand_digits (s := s) 1).legible.reads (u := .op .semicolon :: test)
      (.cons (by decide) _)
    have hspec := @reads_typeSpec s (.name i :: .op .assign :: .int (toString 1) :: .op .semicolon :: test)
      [] "uint" (List.forall_mem_nil _) huint (Ty.unqualified_name hqualifier _) (by simp)
    have hinit := reads_decl (typeAhead_word huint _) hspec hone (by simp)
    have hless : (Snippet.binary .lss (.name i) (.name bound)).Legible s := Snippet.legible_binary
      (by decide) (Snippet.isStem_name hi).operand (Snippet.isStem_name hbound).operand
    have htest := hless.reads (u := .op .semicolon :: step) (.cons (by decide) _)
    have hpost := reads_step htype ht ((Snippet.isStem_name (s := s) hi).legible.reads
      (u := .op .inc :: .op .rparen :: left) (.cons (by decide) _))
    have hloop := reads_for (by simp) hinit (by simp [test]) htest (by simp [step]) hpost
      (reads_block (hbody.reads _))
    have hall := (reads_stmts_cons (by simp) hloop (hnext.reads us)).mono
      (R := (count i bound body next).Trees) <| by
      rintro _ ⟨_, ss, rfl, ⟨o, _, test, _, _, rfl, ⟨spec, oi, one, rfl, hspec, hone⟩, htest,
        ⟨x, ox, rfl, hx⟩, o', bs, rfl, hbs⟩, hss⟩
      exact ⟨o, spec, oi, one, test, x, ox, o', bs, ss, rfl, hspec, hone, htest, hx, hbs, hss⟩
    simpa only [tokens, List.cons_append, List.append_assoc] using hall
  | .ret e next, hl, us => by
    obtain ⟨he, hnext⟩ := hl
    have hexpr := he.reads (u := .op .semicolon :: (next.tokens ++ .op .rbrace :: us)) (.cons (by decide) _)
    have hret := reads_ret (he.opens.head?_ne (by decide) _) hexpr
    have hall := (reads_stmts_cons (by simp) hret (hnext.reads us)).mono (R := (ret e next).Trees) <| by
      rintro _ ⟨_, ss, rfl, ⟨o, x, rfl, hx⟩, hss⟩
      exact ⟨o, x, ss, rfl, hx, hss⟩
    simpa only [tokens, List.cons_append, List.append_assoc] using hall

end Listing
end KernelForge
