/-
Reading by tokens.

Where a lexeme stands matters to messages only.  So the rules of the grammar are said once more
of tokens: whatever offsets the lexemes have, reading gives a tree that is as wanted, and leaves
lexemes with the tokens that are left.
-/
import KernelForge.Proofs.Code.Grammar
import KernelForge.Proofs.Token.Streams

namespace KernelForge.Code.Scope

/-- Reading lexemes with some tokens gives a result as wanted, and leaves lexemes with the rest of
the tokens. -/
def Reads {α : Type} {P : Lexemes → Lexemes → Prop}
    (read : (ls : Lexemes) → Except Misparse (α × { rest : Lexemes // P ls rest }))
    (ts us : List Token) (Q : α → Prop) : Prop :=
  ∀ ls, ls.map Lexeme.token = ts →
    ∃ x rest, Gives (read ls) x rest ∧ rest.map Lexeme.token = us ∧ Q x

theorem Reads.mono {α : Type} {P : Lexemes → Lexemes → Prop}
    {read : (ls : Lexemes) → Except Misparse (α × { rest : Lexemes // P ls rest })}
    {ts us : List Token} {Q R : α → Prop} (h : Reads read ts us Q) (himp : ∀ x, Q x → R x) :
    Reads read ts us R := by
  intro ls hls
  obtain ⟨x, rest, hgives, hrest, hx⟩ := h ls hls
  exact ⟨x, rest, hgives, hrest, himp x hx⟩

theorem exists_lexeme {ls : Lexemes} {t : Token} {ts : List Token}
    (h : ls.map Lexeme.token = t :: ts) :
    ∃ o rest, ls = ⟨o, t⟩ :: rest ∧ rest.map Lexeme.token = ts := by
  obtain ⟨l, rest, rfl, rfl, hrest⟩ := List.map_eq_cons_iff.mp h
  exact ⟨l.offset, rest, rfl, hrest⟩

theorem nextIs_of_head {ls : Lexemes} {t : Token}
    (h : (ls.map Lexeme.token).head? ≠ some t) : nextIs t ls = false := by
  cases ls with
  | nil => rfl
  | cons l ls =>
    rw [nextIs, decide_eq_false_iff_not]
    rintro rfl
    exact h rfl

variable {s : Scope} {ts us vs ws : List Token} {n : String} {P Q R : Expr → Prop}

/-! ### Operands -/

theorem reads_name (h : us.head? ≠ some (.op .lparen)) :
    Reads s.primary (.name n :: us) us fun e => ∃ o, e = .ident ⟨o, n⟩ := by
  intro ls hls
  obtain ⟨o, ls₁, rfl, hls₁⟩ := exists_lexeme hls
  exact ⟨_, ls₁, gives_name (nextIs_of_head (hls₁ ▸ h)), hls₁, o, rfl⟩

theorem reads_call {Q : List Expr → Prop} (h : Reads (s.items .rparen) ts us Q) :
    Reads s.primary (.name n :: .op .lparen :: ts) us
      fun e => ∃ o paren args, e = .call ⟨o, n⟩ paren args ∧ Q args := by
  intro ls hls
  obtain ⟨o, ls₁, rfl, hls₁⟩ := exists_lexeme hls
  obtain ⟨paren, ls₂, rfl, hls₂⟩ := exists_lexeme hls₁
  obtain ⟨args, rest, hgives, hrest, hargs⟩ := h ls₂ hls₂
  exact ⟨_, rest, gives_call hgives, hrest, o, paren, args, rfl, hargs⟩

theorem reads_number :
    Reads s.primary (.int n :: us) us fun e => ∃ o, e = .number o .int n := by
  intro ls hls
  obtain ⟨o, ls₁, rfl, hls₁⟩ := exists_lexeme hls
  exact ⟨_, ls₁, gives_number, hls₁, o, rfl⟩

theorem reads_real :
    Reads s.primary (.float n :: us) us fun e => ∃ o, e = .number o .float n := by
  intro ls hls
  obtain ⟨o, ls₁, rfl, hls₁⟩ := exists_lexeme hls
  exact ⟨_, ls₁, gives_real, hls₁, o, rfl⟩

theorem reads_paren (h : Reads s.expr ts (.op .rparen :: us) Q) :
    Reads s.primary (.op .lparen :: ts) us fun e => ∃ o x, e = .paren o x ∧ Q x := by
  intro ls hls
  obtain ⟨o, ls₁, rfl, hls₁⟩ := exists_lexeme hls
  obtain ⟨x, ls₂, hgives, hls₂, hx⟩ := h ls₁ hls₁
  obtain ⟨close, rest, rfl, hrest⟩ := exists_lexeme hls₂
  exact ⟨_, rest, gives_paren hgives, hrest, o, x, rfl, hx⟩

theorem reads_postfixes_nil {x : Expr} (hbrack : us.head? ≠ some (.op .lbrack))
    (hperiod : us.head? ≠ some (.op .period)) : Reads (s.postfixes x) us us (· = x) := by
  intro ls hls
  subst hls
  exact ⟨x, ls, gives_postfixes_nil (nextIs_of_head hbrack) (nextIs_of_head hperiod), rfl, rfl⟩

theorem reads_index {x : Expr} (h : Reads s.expr ts (.op .rbrack :: us) P)
    (hrest : ∀ o y, P y → Reads (s.postfixes (.index x o y)) us vs Q) :
    Reads (s.postfixes x) (.op .lbrack :: ts) vs Q := by
  intro ls hls
  obtain ⟨o, ls₁, rfl, hls₁⟩ := exists_lexeme hls
  obtain ⟨y, ls₂, hgives, hls₂, hy⟩ := h ls₁ hls₁
  obtain ⟨close, ls₃, rfl, hls₃⟩ := exists_lexeme hls₂
  obtain ⟨z, rest, hgives', hrest', hz⟩ := hrest o y hy ls₃ hls₃
  exact ⟨z, rest, gives_index hgives hgives', hrest', hz⟩

theorem reads_select {x : Expr}
    (h : ∀ o, Reads (s.postfixes (.select x ⟨o, n⟩)) ts us Q) :
    Reads (s.postfixes x) (.op .period :: .name n :: ts) us Q := by
  intro ls hls
  obtain ⟨o, ls₁, rfl, hls₁⟩ := exists_lexeme hls
  obtain ⟨field, ls₂, rfl, hls₂⟩ := exists_lexeme hls₁
  obtain ⟨z, rest, hgives, hrest, hz⟩ := h field ls₂ hls₂
  exact ⟨z, rest, gives_select hgives, hrest, hz⟩

/-! ### Unary operators and casts -/

theorem reads_unary {t : Token} {op : Operator} (ht : unaryOp? t = some op)
    (h : Reads s.unary ts us Q) :
    Reads s.unary (t :: ts) us fun e => ∃ o x, e = .unary o op x ∧ Q x := by
  intro ls hls
  obtain ⟨o, ls₁, rfl, hls₁⟩ := exists_lexeme hls
  obtain ⟨x, rest, hgives, hrest, hx⟩ := h ls₁ hls₁
  exact ⟨_, rest, gives_unary ht hgives, hrest, o, x, rfl, hx⟩

/-- Tests whether the next token starts a type. -/
def typeAhead (s : Scope) (ts : List Token) : Bool := ts.head?.any s.startsType

theorem typeNext_eq (ls : Lexemes) : s.typeNext ls = s.typeAhead (ls.map Lexeme.token) := by
  cases ls with
  | nil => rfl
  | cons l ls => rfl

theorem typeAhead_word {w : String} (hw : IsTypeWord s w) (us : List Token) :
    s.typeAhead (.name w :: us) = true := by
  rw [typeAhead, List.head?_cons, Option.any_some, startsType, hw.word, Bool.or_true]

theorem reads_operand {t : Token} (hop : unaryOp? t = none)
    (htype : t = .op .lparen → s.typeAhead ts = false) (h : Reads s.primary (t :: ts) us P)
    (hrest : ∀ x, P x → Reads (s.postfixes x) us vs Q) : Reads s.unary (t :: ts) vs Q := by
  intro ls hls
  obtain ⟨x, ls₁, hgives, hls₁, hx⟩ := h ls hls
  obtain ⟨y, rest, hgives', hrest', hy⟩ := hrest x hx ls₁ hls₁
  obtain ⟨o, ls₂, rfl, hls₂⟩ := exists_lexeme hls
  have htype' : t = .op .lparen → s.typeNext ls₂ = false := by
    intro ht
    rw [typeNext_eq, hls₂]
    exact htype ht
  exact ⟨y, rest, gives_operand hop htype' hgives hgives', hrest', hy⟩

/-- An operand that nothing follows. -/
theorem reads_plain {t : Token} (hop : unaryOp? t = none)
    (htype : t = .op .lparen → s.typeAhead ts = false) (h : Reads s.primary (t :: ts) us P)
    (hbrack : us.head? ≠ some (.op .lbrack)) (hperiod : us.head? ≠ some (.op .period)) :
    Reads s.unary (t :: ts) us P :=
  reads_operand hop htype h fun x hx => (reads_postfixes_nil hbrack hperiod).mono fun y hy => by
    rw [hy]
    exact hx

theorem reads_cast {S : TypeSpec → Prop} {t : Token} (htype : s.typeAhead ts = true)
    (h : Reads s.typeSpec ts (.op .rparen :: t :: us) S) (hbrace : t ≠ .op .lbrace)
    (hplain : t = .op .lparen → ∀ spec, S spec → isVector spec = false)
    (hrest : Reads s.unary (t :: us) vs Q) :
    Reads s.unary (.op .lparen :: ts) vs
      fun e => ∃ o spec x, e = .cast o spec x ∧ S spec ∧ Q x := by
  intro ls hls
  obtain ⟨o, ls₁, rfl, hls₁⟩ := exists_lexeme hls
  obtain ⟨spec, ls₂, hgives, hls₂, hspec⟩ := h ls₁ hls₁
  obtain ⟨close, ls₃, rfl, hls₃⟩ := exists_lexeme hls₂
  obtain ⟨x, rest, hgives', hrest', hx⟩ := hrest ls₃ hls₃
  obtain ⟨o', ls₄, rfl, hls₄⟩ := exists_lexeme hls₃
  have htype' : s.typeNext ls₁ = true := by
    rw [typeNext_eq, hls₁]
    exact htype
  exact ⟨_, rest, gives_cast htype' hgives ⟨hbrace, fun hparen => hplain hparen spec hspec⟩ hgives',
    hrest', o, spec, x, rfl, hspec, hx⟩

theorem reads_vectorLit {S : TypeSpec → Prop} {I : List Expr → Prop} (htype : s.typeAhead ts = true)
    (h : Reads s.typeSpec ts (.op .rparen :: .op .lparen :: us) S)
    (hvector : ∀ spec, S spec → isVector spec = true) (hitems : Reads (s.items .rparen) us vs I)
    (hrest : ∀ o spec items, S spec → I items →
      Reads (s.postfixes (.vectorLit o spec items)) vs ws Q) :
    Reads s.unary (.op .lparen :: ts) ws Q := by
  intro ls hls
  obtain ⟨o, ls₁, rfl, hls₁⟩ := exists_lexeme hls
  obtain ⟨spec, ls₂, hgives, hls₂, hspec⟩ := h ls₁ hls₁
  obtain ⟨close, ls₃, rfl, hls₃⟩ := exists_lexeme hls₂
  obtain ⟨paren, ls₄, rfl, hls₄⟩ := exists_lexeme hls₃
  obtain ⟨items, ls₅, hgives', hls₅, hitems⟩ := hitems ls₄ hls₄
  obtain ⟨x, rest, hgives'', hrest', hx⟩ := hrest o spec items hspec hitems ls₅ hls₅
  have htype' : s.typeNext ls₁ = true := by
    rw [typeNext_eq, hls₁]
    exact htype
  exact ⟨x, rest, gives_vectorLit htype' hgives (hvector spec hspec) hgives' hgives'', hrest', hx⟩

theorem reads_structLit {S : TypeSpec → Prop} {I : List Expr → Prop} (htype : s.typeAhead ts = true)
    (h : Reads s.typeSpec ts (.op .rparen :: .op .lbrace :: us) S)
    (hitems : Reads (s.items .rbrace) us vs I)
    (hrest : ∀ o spec items, S spec → I items →
      Reads (s.postfixes (.structLit o spec items)) vs ws Q) :
    Reads s.unary (.op .lparen :: ts) ws Q := by
  intro ls hls
  obtain ⟨o, ls₁, rfl, hls₁⟩ := exists_lexeme hls
  obtain ⟨spec, ls₂, hgives, hls₂, hspec⟩ := h ls₁ hls₁
  obtain ⟨close, ls₃, rfl, hls₃⟩ := exists_lexeme hls₂
  obtain ⟨brace, ls₄, rfl, hls₄⟩ := exists_lexeme hls₃
  obtain ⟨items, ls₅, hgives', hls₅, hitems⟩ := hitems ls₄ hls₄
  obtain ⟨x, rest, hgives'', hrest', hx⟩ := hrest o spec items hspec hitems ls₅ hls₅
  have htype' : s.typeNext ls₁ = true := by
    rw [typeNext_eq, hls₁]
    exact htype
  exact ⟨x, rest, gives_structLit htype' hgives hgives' hgives'', hrest', hx⟩

/-! ### Expressions -/

theorem reads_binary {p : Nat} (h : Reads s.unary ts us P)
    (hrest : ∀ x, P x → Reads (s.binaryRest p x) us vs Q) : Reads (s.binary p) ts vs Q := by
  intro ls hls
  obtain ⟨x, ls₁, hgives, hls₁, hx⟩ := h ls hls
  obtain ⟨y, rest, hgives', hrest', hy⟩ := hrest x hx ls₁ hls₁
  exact ⟨y, rest, gives_binary hgives hgives', hrest', hy⟩

/-- An operator that is tight enough is taken, with the operand after it. -/
theorem reads_operator {x : Expr} {t : Token} {p q : Nat} {op : Operator}
    (hop : precedence? t = some (q, op)) (hp : p ≤ q) (h : Reads (s.binary (q + 1)) ts us P)
    (hrest : ∀ o y, P y → Reads (s.binaryRest p (.binary x o op y)) us vs Q) :
    Reads (s.binaryRest p x) (t :: ts) vs Q := by
  intro ls hls
  obtain ⟨o, ls₁, rfl, hls₁⟩ := exists_lexeme hls
  obtain ⟨y, ls₂, hgives, hls₂, hy⟩ := h ls₁ hls₁
  obtain ⟨z, rest, hgives', hrest', hz⟩ := hrest o y hy ls₂ hls₂
  exact ⟨z, rest, gives_operator hop hp hgives hgives', hrest', hz⟩

/-- An operator that is too loose is left. -/
theorem reads_no_operator {x : Expr} {p : Nat}
    (h : ∀ t q op, us.head? = some t → precedence? t = some (q, op) → q < p) :
    Reads (s.binaryRest p x) us us (· = x) := by
  intro ls hls
  subst hls
  refine ⟨x, ls, gives_no_operator fun l hl q op hq => h l.token q op ?_ hq, rfl, rfl⟩
  rw [List.head?_map, hl]
  rfl

theorem reads_expr (h : Reads (s.binary 1) ts us Q) (hend : us.head? ≠ some Token.question) :
    Reads s.expr ts us Q := by
  intro ls hls
  obtain ⟨x, rest, hgives, hrest, hx⟩ := h ls hls
  exact ⟨x, rest, gives_expr hgives (nextIs_of_head (hrest ▸ hend)), hrest, hx⟩

theorem reads_cond (hc : Reads (s.binary 1) ts (Token.question :: us) P)
    (hx : Reads s.expr us (.op .colon :: vs) Q) (hy : Reads s.expr vs ws R) :
    Reads s.expr ts ws fun e => ∃ c x y, e = .cond c x y ∧ P c ∧ Q x ∧ R y := by
  intro ls hls
  obtain ⟨c, ls₁, hgives, hls₁, hc⟩ := hc ls hls
  obtain ⟨question, ls₂, rfl, hls₂⟩ := exists_lexeme hls₁
  obtain ⟨x, ls₃, hgives', hls₃, hx⟩ := hx ls₂ hls₂
  obtain ⟨colon, ls₄, rfl, hls₄⟩ := exists_lexeme hls₃
  obtain ⟨y, rest, hgives'', hrest, hy⟩ := hy ls₄ hls₄
  exact ⟨_, rest, gives_cond hgives hgives' hgives'', hrest, c, x, y, rfl, hc, hx, hy⟩

/-- The operators that end an expression. -/
def closers : List Operator := [.semicolon, .rparen, .rbrack, .comma, .assign]

/-- One of the operators that end an expression comes next. -/
def Closed (ts : List Token) : Prop := ∃ o ∈ closers, ts.head? = some (.op o)

theorem Closed.cons {o : Operator} (ho : o ∈ closers) (ts : List Token) : Closed (.op o :: ts) :=
  ⟨o, ho, rfl⟩

theorem Closed.ne {t : Token} (h : Closed ts) (ht : ∀ o ∈ closers, t ≠ .op o) :
    ts.head? ≠ some t := by
  obtain ⟨o, ho, hhead⟩ := h
  rw [hhead]
  rintro heq
  cases heq
  exact ht o ho rfl

theorem precedence?_closer : ∀ o ∈ closers, precedence? (.op o) = none := by
  decide

theorem closes_of_closed {ls : Lexemes} (h : Closed (ls.map Lexeme.token)) : Closes ls := by
  obtain ⟨o, ho, hhead⟩ := h
  cases ls with
  | nil => cases hhead
  | cons l ls =>
    have hl : l.token = .op o := Option.some.inj hhead
    refine ⟨fun l' hl' p op hp => ?_, ?_⟩
    · cases hl'
      rw [hl, precedence?_closer o ho] at hp
      cases hp
    · rw [nextIs, hl]
      rfl

theorem reads_expr_of_unary (h : Reads s.unary ts us Q) (hend : Closed us) :
    Reads s.expr ts us Q := by
  intro ls hls
  obtain ⟨x, rest, hgives, hrest, hx⟩ := h ls hls
  exact ⟨x, rest, gives_expr_of_unary hgives (closes_of_closed (hrest ▸ hend)), hrest, hx⟩

/-- An operand that ends the source is an expression. -/
theorem onlyExpr_of_unary (h : Reads s.unary ts [] Q) {ls : Lexemes} (hls : ls.map Lexeme.token = ts) :
    ∃ e, s.onlyExpr ls = .ok e ∧ Q e := by
  obtain ⟨e, rest, hgives, hrest, he⟩ := h ls hls
  rw [List.map_eq_nil_iff] at hrest
  subst hrest
  obtain ⟨hlt, hexpr⟩ := gives_expr_of_unary hgives ⟨fun _ => nofun, rfl⟩
  exact ⟨e, by rw [onlyExpr, hexpr], he⟩

theorem reads_expr_of_binary {t : Token} {p : Nat} {op : Operator}
    (h : Reads s.unary ts (t :: us) P) (hop : precedence? t = some (p, op)) (hp : 1 ≤ p)
    (h' : Reads s.unary us vs Q) (hend : Closed vs) :
    Reads s.expr ts vs fun e => ∃ x o y, e = .binary x o op y ∧ P x ∧ Q y := by
  intro ls hls
  obtain ⟨x, ls₁, hgives, hls₁, hx⟩ := h ls hls
  obtain ⟨o, ls₂, rfl, hls₂⟩ := exists_lexeme hls₁
  obtain ⟨y, rest, hgives', hrest, hy⟩ := h' ls₂ hls₂
  have hgives := gives_expr_of_binary hgives hop hp hgives' (closes_of_closed (hrest ▸ hend))
  exact ⟨_, rest, hgives, hrest, x, o, y, rfl, hx, hy⟩

theorem reads_items_nil {closing : Operator} :
    Reads (s.items closing) (.op closing :: us) us (· = []) := by
  intro ls hls
  obtain ⟨o, ls₁, rfl, hls₁⟩ := exists_lexeme hls
  exact ⟨[], ls₁, gives_items_nil, hls₁, rfl⟩

theorem reads_items_last {closing : Operator} (hne : closing ≠ .comma)
    (hfirst : ts.head? ≠ some (.op closing)) (h : Reads s.expr ts (.op closing :: us) Q) :
    Reads (s.items closing) ts us fun es => ∃ x, es = [x] ∧ Q x := by
  intro ls hls
  obtain ⟨x, ls₁, hgives, hls₁, hx⟩ := h ls hls
  obtain ⟨o, ls₂, rfl, hls₂⟩ := exists_lexeme hls₁
  exact ⟨_, ls₂, gives_items_last hne (nextIs_of_head (hls ▸ hfirst)) hgives, hls₂, x, rfl, hx⟩

theorem reads_items_cons {closing : Operator} {R : List Expr → Prop}
    (hfirst : ts.head? ≠ some (.op closing)) (h : Reads s.expr ts (.op .comma :: us) Q)
    (hrest : Reads (s.items closing) us vs R) :
    Reads (s.items closing) ts vs fun es => ∃ x xs, es = x :: xs ∧ Q x ∧ R xs := by
  intro ls hls
  obtain ⟨x, ls₁, hgives, hls₁, hx⟩ := h ls hls
  obtain ⟨o, ls₂, rfl, hls₂⟩ := exists_lexeme hls₁
  obtain ⟨xs, rest, hgives', hrest', hxs⟩ := hrest ls₂ hls₂
  have hgives := gives_items_cons (nextIs_of_head (hls ▸ hfirst)) hgives hgives'
  exact ⟨_, rest, hgives, hrest', x, xs, rfl, hx, hxs⟩

/-! ### Types -/

/-- A type as some qualifiers, a word and perhaps a star say it. -/
structure Says (qs : List Token) (w : String) (pointer : Bool) (spec : TypeSpec) : Prop where
  name : spec.name = w
  space : spec.space = (qs.foldl qualified { offset := 0, name := "" }).space
  readOnly : spec.readOnly = (qs.foldl qualified { offset := 0, name := "" }).readOnly
  pointer : spec.pointer = pointer

theorem foldl_qualified (ls : Lexemes) (spec spec' : TypeSpec) (hspace : spec.space = spec'.space)
    (hread : spec.readOnly = spec'.readOnly) :
    (ls.foldl (fun spec l => qualified spec l.token) spec).space =
        ((ls.map Lexeme.token).foldl qualified spec').space ∧
      (ls.foldl (fun spec l => qualified spec l.token) spec).readOnly =
        ((ls.map Lexeme.token).foldl qualified spec').readOnly := by
  induction ls generalizing spec spec' with
  | nil => exact ⟨hspace, hread⟩
  | cons l ls ih =>
    rw [List.foldl_cons, List.map_cons, List.foldl_cons]
    apply ih
    · unfold qualified
      split
      · exact hspace
      · split
        · rfl
        · exact hspace
      · exact hspace
    · unfold qualified
      split
      · rfl
      · split
        · exact hread
        · exact hread
      · exact hread

theorem says_specOf (offset : Nat) (ls : Lexemes) (w : String) (pointer : Bool) :
    Says (ls.map Lexeme.token) w pointer (specOf offset ls w pointer) := by
  obtain ⟨hspace, hread⟩ := foldl_qualified ls { offset, name := "" } { offset := 0, name := "" }
    rfl rfl
  exact ⟨rfl, hspace, hread, rfl⟩

/-- No token that qualifies a type comes next. -/
def Unqualified (ts : List Token) : Prop := ∀ t, ts.head? = some t → isQualifier t = false

theorem noQualifier_of_tokens {ls : Lexemes} (h : Unqualified (ls.map Lexeme.token)) :
    NoQualifier ls := by
  intro l hl
  apply h
  rw [List.head?_map, hl]
  rfl

theorem reads_typeSpec {qs : List Token} {w : String} (hqs : ∀ q ∈ qs, isQualifier q = true)
    (hw : IsTypeWord s w) (hend : Unqualified us) (hmul : us.head? ≠ some (.op .mul)) :
    Reads s.typeSpec (qs ++ .name w :: us) us (Says qs w false) := by
  intro ls hls
  obtain ⟨ls₁, ls₂, rfl, rfl, hls₂⟩ := List.map_eq_append_iff.mp hls
  obtain ⟨o, ls₃, rfl, rfl⟩ := exists_lexeme hls₂
  have hqs' : ∀ q ∈ ls₁, isQualifier q.token = true :=
    fun q hq => hqs q.token (List.mem_map_of_mem hq)
  exact ⟨_, ls₃, gives_typeSpec hqs' hw (noQualifier_of_tokens hend) (nextIs_of_head hmul), rfl,
    says_specOf ..⟩

theorem reads_pointer {qs : List Token} {w : String} (hqs : ∀ q ∈ qs, isQualifier q = true)
    (hw : IsTypeWord s w) (hend : Unqualified us) (hmul : us.head? ≠ some (.op .mul)) :
    Reads s.typeSpec (qs ++ .name w :: .op .mul :: us) us (Says qs w true) := by
  intro ls hls
  obtain ⟨ls₁, ls₂, rfl, rfl, hls₂⟩ := List.map_eq_append_iff.mp hls
  obtain ⟨o, ls₃, rfl, hls₃⟩ := exists_lexeme hls₂
  obtain ⟨mul, ls₄, rfl, rfl⟩ := exists_lexeme hls₃
  have hqs' : ∀ q ∈ ls₁, isQualifier q.token = true :=
    fun q hq => hqs q.token (List.mem_map_of_mem hq)
  exact ⟨_, ls₄, gives_pointer hqs' hw (noQualifier_of_tokens hend) (nextIs_of_head hmul), rfl,
    says_specOf ..⟩

/-! ### Statements -/

section Statements

variable {S : TypeSpec → Prop} {A : Simple → Prop} {B : Stmt → Prop} {C : List Stmt → Prop}

theorem reads_decl (htype : s.typeAhead ts = true)
    (h : Reads s.typeSpec ts (.name n :: .op .assign :: us) S) (hx : Reads s.expr us vs Q)
    (hcomma : vs.head? ≠ some (.op .comma)) :
    Reads s.simple ts vs
      fun a => ∃ spec o x, a = .decl spec [(⟨o, n⟩, some x)] ∧ S spec ∧ Q x := by
  intro ls hls
  obtain ⟨spec, ls₁, hgives, hls₁, hspec⟩ := h ls hls
  obtain ⟨o, ls₂, rfl, hls₂⟩ := exists_lexeme hls₁
  obtain ⟨eq, ls₃, rfl, hls₃⟩ := exists_lexeme hls₂
  obtain ⟨x, rest, hgives', hrest, hx⟩ := hx ls₃ hls₃
  have htype' : s.typeNext ls = true := by
    rw [typeNext_eq, hls]
    exact htype
  exact ⟨_, rest, gives_decl htype' hgives hgives' (nextIs_of_head (hrest ▸ hcomma)), hrest, spec, o,
    x, rfl, hspec, hx⟩

theorem reads_assign {w : String} (htype : s.startsType (.name w) = false)
    (h : Reads s.expr (.name w :: ts) (.op .assign :: us) P) (hy : Reads s.expr us vs Q) :
    Reads s.simple (.name w :: ts) vs
      fun a => ∃ x o y, a = .assign x o .assign y ∧ P x ∧ Q y := by
  intro ls hls
  obtain ⟨x, ls₁, hgives, hls₁, hx⟩ := h ls hls
  obtain ⟨o, ls₂, rfl, hls₂⟩ := exists_lexeme hls₁
  obtain ⟨y, rest, hgives', hrest, hy⟩ := hy ls₂ hls₂
  obtain ⟨o', ls₃, rfl, hls₃⟩ := exists_lexeme hls
  exact ⟨_, rest, gives_assign htype ⟨o', w, ls₃, rfl⟩ hgives hgives', hrest, x, o, y, rfl, hx, hy⟩

/-- A statement that starts with a name, and is no loop. -/
theorem reads_simple {w : String} (hwhile : w ≠ "while")
    (h : Reads s.simple (.name w :: ts) (.op .semicolon :: us) A) :
    Reads s.stmt (.name w :: ts) us fun a => ∃ b, a = .simple b ∧ A b := by
  intro ls hls
  obtain ⟨b, ls₁, hgives, hls₁, hb⟩ := h ls hls
  obtain ⟨o, rest, rfl, hrest⟩ := exists_lexeme hls₁
  obtain ⟨o', ls₂, rfl, hls₂⟩ := exists_lexeme hls
  exact ⟨_, rest, gives_simple ⟨o', w, ls₂, rfl, hwhile⟩ hgives, hrest, b, rfl, hb⟩

theorem reads_block (h : Reads s.stmts ts us C) :
    Reads s.stmt (.op .lbrace :: ts) us fun a => ∃ o body, a = .block o body ∧ C body := by
  intro ls hls
  obtain ⟨o, ls₁, rfl, hls₁⟩ := exists_lexeme hls
  obtain ⟨body, rest, hgives, hrest, hbody⟩ := h ls₁ hls₁
  exact ⟨_, rest, gives_block hgives, hrest, o, body, rfl, hbody⟩

theorem reads_if (h : Reads s.expr ts (.op .rparen :: us) Q) (hyes : Reads s.stmt us vs B)
    (helse : vs.head? ≠ some (.keyword .els)) :
    Reads s.stmt (.keyword .cond :: .op .lparen :: ts) vs
      fun a => ∃ o x b, a = .ifThen o x b ∧ Q x ∧ B b := by
  intro ls hls
  obtain ⟨o, ls₁, rfl, hls₁⟩ := exists_lexeme hls
  obtain ⟨paren, ls₂, rfl, hls₂⟩ := exists_lexeme hls₁
  obtain ⟨x, ls₃, hgives, hls₃, hx⟩ := h ls₂ hls₂
  obtain ⟨close, ls₄, rfl, hls₄⟩ := exists_lexeme hls₃
  obtain ⟨b, rest, hgives', hrest, hb⟩ := hyes ls₄ hls₄
  exact ⟨_, rest, gives_if hgives hgives' (nextIs_of_head (hrest ▸ helse)), hrest, o, x, b, rfl, hx,
    hb⟩

theorem reads_stmts_nil : Reads s.stmts (.op .rbrace :: us) us (· = []) := by
  intro ls hls
  obtain ⟨o, ls₁, rfl, hls₁⟩ := exists_lexeme hls
  exact ⟨[], ls₁, gives_stmts_nil, hls₁, rfl⟩

theorem reads_stmts_cons {t : Token} (hne : t ≠ .op .rbrace) (h : Reads s.stmt (t :: ts) us B)
    (hrest : Reads s.stmts us vs C) :
    Reads s.stmts (t :: ts) vs fun as => ∃ a as', as = a :: as' ∧ B a ∧ C as' := by
  intro ls hls
  obtain ⟨a, ls₁, hgives, hls₁, ha⟩ := h ls hls
  obtain ⟨as, rest, hgives', hrest', has⟩ := hrest ls₁ hls₁
  obtain ⟨o, ls₂, rfl, hls₂⟩ := exists_lexeme hls
  exact ⟨_, rest, gives_stmts_cons hne hgives hgives', hrest', a, as, rfl, ha, has⟩

end Statements

/-! ### Declarations -/

section Declarations

variable {S : TypeSpec → Prop} {F : List Field → Prop} {C : List Stmt → Prop}

theorem reads_fields_nil : Reads s.structFields (.op .rbrace :: us) us (· = []) := by
  intro ls hls
  obtain ⟨o, ls₁, rfl, hls₁⟩ := exists_lexeme hls
  exact ⟨[], ls₁, gives_fields_nil, hls₁, rfl⟩

theorem reads_fields_cons (hfirst : ts.head? ≠ some (.op .rbrace))
    (h : Reads s.typeSpec ts (.name n :: .op .semicolon :: us) S)
    (hrest : Reads s.structFields us vs F) :
    Reads s.structFields ts vs
      fun fs => ∃ spec o fs', fs = ⟨spec, ⟨o, n⟩⟩ :: fs' ∧ S spec ∧ F fs' := by
  intro ls hls
  obtain ⟨spec, ls₁, hgives, hls₁, hspec⟩ := h ls hls
  obtain ⟨o, ls₂, rfl, hls₂⟩ := exists_lexeme hls₁
  obtain ⟨semi, ls₃, rfl, hls₃⟩ := exists_lexeme hls₂
  obtain ⟨fs, rest, hgives', hrest', hfs⟩ := hrest ls₃ hls₃
  exact ⟨_, rest, gives_fields_cons (nextIs_of_head (hls ▸ hfirst)) hgives hgives', hrest', spec, o,
    fs, rfl, hspec, hfs⟩

theorem reads_typedef (offset : Nat)
    (h : Reads s.structFields ts (.name n :: .op .semicolon :: us) F) :
    Reads (s.typedef offset) (.keyword .struct :: .op .lbrace :: ts) us
      fun d => ∃ fs o, d = ⟨offset, fs, ⟨o, n⟩⟩ ∧ F fs := by
  intro ls hls
  obtain ⟨o₁, ls₁, rfl, hls₁⟩ := exists_lexeme hls
  obtain ⟨o₂, ls₂, rfl, hls₂⟩ := exists_lexeme hls₁
  obtain ⟨fs, ls₃, hgives, hls₃, hfs⟩ := h ls₂ hls₂
  obtain ⟨o₃, ls₄, rfl, hls₄⟩ := exists_lexeme hls₃
  obtain ⟨o₄, rest, rfl, hrest⟩ := exists_lexeme hls₄
  exact ⟨_, rest, gives_typedef hgives, hrest, fs, o₃, rfl, hfs⟩

theorem reads_params_last (hfirst : ts.head? ≠ some (.op .rparen))
    (h : Reads s.typeSpec ts (.name n :: .op .rparen :: us) S) :
    Reads s.params ts us fun fs => ∃ spec o, fs = [⟨spec, ⟨o, n⟩⟩] ∧ S spec := by
  intro ls hls
  obtain ⟨spec, ls₁, hgives, hls₁, hspec⟩ := h ls hls
  obtain ⟨o, ls₂, rfl, hls₂⟩ := exists_lexeme hls₁
  obtain ⟨close, rest, rfl, hrest⟩ := exists_lexeme hls₂
  exact ⟨_, rest, gives_params_last (nextIs_of_head (hls ▸ hfirst)) hgives, hrest, spec, o, rfl,
    hspec⟩

theorem reads_params_cons (hfirst : ts.head? ≠ some (.op .rparen))
    (h : Reads s.typeSpec ts (.name n :: .op .comma :: us) S) (hrest : Reads s.params us vs F) :
    Reads s.params ts vs fun fs => ∃ spec o fs', fs = ⟨spec, ⟨o, n⟩⟩ :: fs' ∧ S spec ∧ F fs' := by
  intro ls hls
  obtain ⟨spec, ls₁, hgives, hls₁, hspec⟩ := h ls hls
  obtain ⟨o, ls₂, rfl, hls₂⟩ := exists_lexeme hls₁
  obtain ⟨comma, ls₃, rfl, hls₃⟩ := exists_lexeme hls₂
  obtain ⟨fs, rest, hgives', hrest', hfs⟩ := hrest ls₃ hls₃
  exact ⟨_, rest, gives_params_cons (nextIs_of_head (hls ▸ hfirst)) hgives hgives', hrest', spec, o,
    fs, rfl, hspec, hfs⟩

/-- A kernel as it is read. -/
structure IsKernel (n : String) (F : List Field → Prop) (C : List Stmt → Prop) (fn : Func) :
    Prop where
  isKernel : fn.isKernel = true
  result : fn.result.name = "void" ∧ fn.result.pointer = false
  name : fn.name.name = n
  params : F fn.params
  body : C fn.body

theorem reads_kernel (hname : isQualifier (.name n) = false)
    (hvoid : ts.head? ≠ some (.name "void")) (hparams : Reads s.params ts (.op .lbrace :: us) F)
    (hbody : Reads s.stmts us vs C) :
    Reads s.func (.name "__kernel" :: .name "void" :: .name n :: .op .lparen :: ts) vs
      (IsKernel n F C) := by
  intro ls hls
  obtain ⟨o₁, ls₁, rfl, hls₁⟩ := exists_lexeme hls
  obtain ⟨o₂, ls₂, rfl, hls₂⟩ := exists_lexeme hls₁
  obtain ⟨o₃, ls₃, rfl, hls₃⟩ := exists_lexeme hls₂
  obtain ⟨o₄, ls₄, rfl, hls₄⟩ := exists_lexeme hls₃
  obtain ⟨fs, ls₅, hgives, hls₅, hfs⟩ := hparams ls₄ hls₄
  obtain ⟨brace, ls₆, rfl, hls₆⟩ := exists_lexeme hls₅
  obtain ⟨body, rest, hgives', hrest, hbody⟩ := hbody ls₆ hls₆
  exact ⟨_, rest, gives_kernel hname (nextIs_of_head (hls₄ ▸ hvoid)) hgives hgives', hrest,
    ⟨rfl, ⟨rfl, rfl⟩, rfl, hfs, hbody⟩⟩

/-- Reading a whole file of some tokens gives a file as wanted. -/
def ReadsFile (s : Scope) (ts : List Token) (Q : File → Prop) : Prop :=
  ∀ ls, ls.map Lexeme.token = ts → ∃ f, s.file ls = .ok f ∧ Q f

theorem readsFile_nil : s.ReadsFile [] (· = {}) := by
  intro ls hls
  rw [List.map_eq_nil_iff.mp hls]
  exact ⟨{}, file_nil, rfl⟩

theorem readsFile_typedef {D : Typedef → Prop} {Q : File → Prop}
    (h : ∀ o, Reads (s.typedef o) ts us fun d => d.name.name = n ∧ D d)
    (hrest : ReadsFile { s with typedefs := n :: s.typedefs } us Q) :
    s.ReadsFile (.name "typedef" :: ts)
      fun f => ∃ d f', f = { f' with typedefs := d :: f'.typedefs } ∧ (d.name.name = n ∧ D d) ∧
        Q f' := by
  intro ls hls
  obtain ⟨o, ls₁, rfl, hls₁⟩ := exists_lexeme hls
  obtain ⟨d, ls₂, hgives, hls₂, hname, hd⟩ := h o ls₁ hls₁
  subst hname
  obtain ⟨f, hf, hq⟩ := hrest ls₂ hls₂
  exact ⟨_, file_typedef hgives hf, d, f, rfl, ⟨rfl, hd⟩, hq⟩

theorem readsFile_func {t : Token} {K : Func → Prop} {Q : File → Prop} (hne : t ≠ .name "typedef")
    (h : Reads s.func (t :: ts) us K) (hrest : s.ReadsFile us Q) :
    s.ReadsFile (t :: ts) fun f => ∃ fn f', f = { f' with funcs := fn :: f'.funcs } ∧ K fn ∧ Q f' := by
  intro ls hls
  obtain ⟨fn, ls₁, hgives, hls₁, hfn⟩ := h ls hls
  obtain ⟨f, hf, hq⟩ := hrest ls₁ hls₁
  obtain ⟨o, ls₂, rfl, hls₂⟩ := exists_lexeme hls
  exact ⟨_, file_func hne hgives hf, fn, f, rfl, hfn, hq⟩

end Declarations

theorem exists_ofStream {cs : List Char} {ts : List Token} {Q : File → Prop}
    (hscans : Token.Scans cs ts) (hreads : ∀ finish, ReadsFile { finish } ts Q) (name : String) :
    ∃ f, File.ofStream (TokenStream.ofText name (SourceText.ofChars cs)) =
      .ok { f with pragmas := [] } ∧ Q f := by
  obtain ⟨htokens, hpragmas, hnone⟩ := TokenStream.ofText_of_scans hscans name
  obtain ⟨f, hf, hq⟩ :=
    hreads (TokenStream.ofText name (SourceText.ofChars cs)).finish _ htokens
  exact ⟨f, by simp [File.ofStream, hnone, hpragmas, hf], hq⟩

/-- Lexemes with given tokens, at some offsets. -/
def placed (o : Nat → Nat) (ts : List Token) : Lexemes := ts.zipIdx.map fun (t, i) => ⟨o i, t⟩

theorem exists_placed (ls : Lexemes) : ∃ o, ls = placed o (ls.map Lexeme.token) := by
  refine ⟨fun i => (ls.getD i default).offset, List.ext_getElem (by simp [placed]) fun i hi hi' => ?_⟩
  simp [placed, List.getElem?_eq_getElem hi]

/-- Of a text with known tokens only the offsets are open. -/
theorem exists_stream {cs : List Char} {ts : List Token} (h : Token.Scans cs ts) (name : String) :
    ∃ o finish map, TokenStream.ofText name (SourceText.ofChars cs) =
      { lexemes := placed o ts, finish, pragmas := [], map, diagnostics := [] } := by
  obtain ⟨htokens, hpragmas, hnone⟩ := TokenStream.ofText_of_scans h name
  obtain ⟨o, hplaced⟩ := exists_placed (TokenStream.ofText name (SourceText.ofChars cs)).lexemes
  rw [htokens] at hplaced
  refine ⟨o, (TokenStream.ofText name (SourceText.ofChars cs)).finish,
    (TokenStream.ofText name (SourceText.ofChars cs)).map, ?_⟩
  rw [← hplaced, ← hpragmas, ← hnone]

end KernelForge.Code.Scope
