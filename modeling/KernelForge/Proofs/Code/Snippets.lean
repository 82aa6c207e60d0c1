/-
Snippets: texts of expressions.

A snippet is a text together with the tokens that it is scanned to and the trees that these are
read as.  Snippets are put together as expressions are, and what is known of the parts then holds
of the whole.  There are three grades of them.  A *stem* may be followed by a field or an index,
an *operand* by an operator, and a *legible* snippet at least by what ends an expression.
-/
import KernelForge.Proofs.Formula.Trees

namespace KernelForge

open Code Code.Scope
open Token (Scans Ends startsOperand isNumberTail commaTokens halves?)

/-! ### Where expressions end -/

/-- The tokens that an expression may be followed by. -/
def stoppers : List Operator := [.semicolon, .rparen, .rbrack, .comma, .assign, .rbrace, .inc]

/-- An expression ends here. -/
def Stopped (ts : List Token) : Prop := ∃ o ∈ stoppers, ts.head? = some (.op o)

theorem Stopped.cons {o : Operator} (ho : o ∈ stoppers) (ts : List Token) : Stopped (.op o :: ts) :=
  ⟨o, ho, rfl⟩

theorem Stopped.ne {ts : List Token} (h : Stopped ts) {o : Operator} (ho : o ∉ stoppers) :
    ts.head? ≠ some (.op o) := by
  obtain ⟨p, hp, hhead⟩ := h
  rw [hhead]
  rintro ⟨rfl⟩
  exact ho hp

theorem Stopped.closes {ls : Lexemes} (h : Stopped (ls.map Lexeme.token)) : Closes ls := by
  obtain ⟨o, ho, hhead⟩ := h
  have hnone : ∀ o ∈ stoppers, precedence? (.op o) = none := by decide
  refine ⟨fun l hl p q hp => ?_, nextIs_of_head ?_⟩
  · rw [List.head?_map, hl] at hhead
    rw [Option.some.inj hhead, hnone o ho] at hp
    cases hp
  · rw [hhead]
    nofun

section

variable {s : Code.Scope} {ts us vs : List Token} {P Q : Expr → Prop}

theorem reads_expr_of_operand (h : Reads s.unary ts us Q) (hend : Stopped us) :
    Reads s.expr ts us Q := by
  intro ls hls
  obtain ⟨x, rest, hx, hrest, hQ⟩ := h ls hls
  exact ⟨x, rest, gives_expr_of_unary hx (Stopped.closes (hrest ▸ hend)), hrest, hQ⟩

theorem reads_expr_of_operands {t : Token} {p : Nat} {op : Operator} (h : Reads s.unary ts (t :: us) P)
    (hop : precedence? t = some (p, op)) (hp : 1 ≤ p) (h' : Reads s.unary us vs Q) (hend : Stopped vs) :
    Reads s.expr ts vs fun e => ∃ x o y, e = .binary x o op y ∧ P x ∧ Q y := by
  intro ls hls
  obtain ⟨x, rest, hx, hrest, hP⟩ := h ls hls
  obtain ⟨o, rest', rfl, hrest'⟩ := exists_lexeme hrest
  obtain ⟨y, left, hy, hleft, hQ⟩ := h' rest' hrest'
  exact ⟨_, left, gives_expr_of_binary hx hop hp hy (Stopped.closes (hleft ▸ hend)), hleft, x, o, y, rfl,
    hP, hQ⟩

end

/-! ### Snippets -/

/-- A text, its tokens and its trees. -/
structure Snippet where
  text : String
  tokens : List Token
  tree : Expr → Prop

namespace Snippet

/-- The tokens of a snippet start with one that ends no expression. -/
def Opens (p : Snippet) : Prop := ∃ t ts, p.tokens = t :: ts ∧ ∀ o ∈ stoppers, t ≠ .op o

/-- A snippet that an expression may end with. -/
structure Legible (s : Code.Scope) (p : Snippet) : Prop where
  opens : p.Opens
  scans : ∀ {rest us}, Ends isNumberTail rest → Scans rest us →
    Scans (p.text.toList ++ rest) (p.tokens ++ us)
  reads : ∀ {u}, Stopped u → Reads s.expr (p.tokens ++ u) u p.tree

/-- A snippet that an operator may follow. -/
structure IsOperand (s : Code.Scope) (p : Snippet) : Prop where
  opens : p.Opens
  scans : ∀ {rest us}, Ends isNumberTail rest → Scans rest us →
    Scans (p.text.toList ++ rest) (p.tokens ++ us)
  starts : ∀ cs, (p.text.toList ++ cs).head?.any startsOperand = true
  reads : ∀ {u}, u.head? ≠ some (.op .lparen) → u.head? ≠ some (.op .lbrack) →
    u.head? ≠ some (.op .period) → Reads s.unary (p.tokens ++ u) u p.tree

/-- A snippet that a field or an index may follow. -/
structure IsStem (s : Code.Scope) (p : Snippet) : Prop where
  opens : p.Opens
  scans : ∀ {rest us}, Ends Text.isNameChar rest → Scans rest us →
    Scans (p.text.toList ++ rest) (p.tokens ++ us)
  starts : ∀ cs, (p.text.toList ++ cs).head?.any startsOperand = true
  reads : ∀ {u v} {Q : Expr → Prop}, u.head? ≠ some (.op .lparen) →
    (∀ x, p.tree x → Reads (s.postfixes x) u v Q) → Reads s.unary (p.tokens ++ u) v Q

variable {s : Code.Scope} {p q : Snippet}

theorem IsOperand.legible (hp : p.IsOperand s) : p.Legible s where
  opens := hp.opens
  scans := hp.scans
  reads := fun hend => reads_expr_of_operand
    (hp.reads (hend.ne (by decide)) (hend.ne (by decide)) (hend.ne (by decide))) hend

theorem IsStem.operand (hp : p.IsStem s) : p.IsOperand s where
  opens := hp.opens
  scans := fun hend => hp.scans hend.of_or.2
  starts := hp.starts
  reads := fun hparen hbrack hperiod => hp.reads hparen fun x hx =>
    (reads_postfixes_nil hbrack hperiod).mono fun y hy => by rw [hy]; exact hx

theorem IsStem.legible (hp : p.IsStem s) : p.Legible s := hp.operand.legible

theorem opens_cons {t : Token} {ts : List Token} (h : p.tokens = t :: ts) (ht : ∀ o ∈ stoppers, t ≠ .op o) :
    p.Opens := ⟨t, ts, h, ht⟩

theorem Opens.append (hp : p.Opens) {ts : List Token} (hq : q.tokens = p.tokens ++ ts) : q.Opens := by
  obtain ⟨t, us, htokens, ht⟩ := hp
  exact ⟨t, us ++ ts, by rw [hq, htokens]; rfl, ht⟩

/-- A snippet does not start with what would close a list before it. -/
theorem Opens.head?_ne (hp : p.Opens) {o : Operator} (ho : o ∈ stoppers) (us : List Token) :
    (p.tokens ++ us).head? ≠ some (.op o) := by
  obtain ⟨t, ts, htokens, ht⟩ := hp
  rw [htokens]
  rintro ⟨rfl⟩
  exact ht o ho rfl

/-! ### Names and numbers -/

/-- A variable. -/
def name (x : String) : Snippet := ⟨x, [.name x], fun e => ∃ o, e = .ident ⟨o, x⟩⟩

theorem isStem_name {x : String} (hx : isIdent x = true) : (name x).IsStem s where
  opens := opens_cons rfl (fun _ _ => nofun)
  scans := fun hend h => scans_ident hx hend h
  starts := startsOperand_ident hx
  reads := fun hparen hrest => reads_operand rfl (by simp) (reads_name hparen) hrest

/-- A natural number. -/
def digits (n : Nat) : Snippet :=
  ⟨toString n, [.int (toString n)], fun e => ∃ o, e = .number o .int (toString n)⟩

theorem isOperand_digits (n : Nat) : (digits n).IsOperand s where
  opens := opens_cons rfl (fun _ _ => nofun)
  scans := fun hend h => by
    have hscan := @Literal.scans_digits "" (by decide) n _ _ hend h
    rw [String.append_empty] at hscan
    exact hscan
  starts := Literal.startsOperand_digits n
  reads := fun _ hbrack hperiod => Literal.reads_digits hbrack hperiod

/-! ### Operations -/

/-- Two operands with an operator between them. -/
def binary (op : Operator) (a b : Snippet) : Snippet where
  text := a.text ++ " " ++ op.spelling ++ " " ++ b.text
  tokens := a.tokens ++ .op op :: b.tokens
  tree := fun e => ∃ x o y, e = .binary x o op y ∧ a.tree x ∧ b.tree y

theorem legible_binary {op : Operator} (hop : Operation.isInfix op = true) (hp : p.IsOperand s)
    (hq : q.IsOperand s) : (binary op p q).Legible s where
  opens := hp.opens.append rfl
  scans := fun hend h => by
    obtain ⟨hhalves, hplain⟩ := Operation.isInfix_plain hop
    have h := hq.scans hend h
    have h := h.blank (c := ' ') (.inl rfl)
    have h := h.op hhalves hplain (.inr (.cons (Token.goesOn_blank op) _))
    have h := h.blank (c := ' ') (.inl rfl)
    have h := hp.scans (.cons Token.isNumberTail_blank _) h
    simpa [binary] using h
  reads := fun {us} hend => by
    obtain ⟨prec, hprec, hle⟩ := Operation.precedence?_infix hop
    obtain ⟨hne₁, hne₂, hne₃⟩ := Operation.isInfix_ne hop
    have hleft := hp.reads (u := .op op :: (q.tokens ++ us)) (by simpa using hne₁) (by simpa using hne₂)
      (by simpa using hne₃)
    have hright := hq.reads (hend.ne (by decide)) (hend.ne (by decide)) (hend.ne (by decide))
    have hall := reads_expr_of_operands hleft hprec hle hright hend
    simpa [binary] using hall

/-- An operator and its operand. -/
def unary (sign : Operator) (op : Operator) (a : Snippet) : Snippet where
  text := sign.spelling ++ a.text
  tokens := .op sign :: a.tokens
  tree := fun e => ∃ o x, e = .unary o op x ∧ a.tree x

theorem legible_unary {sign op : Operator} (hop : unaryOp? (.op sign) = some op) (hp : p.IsOperand s) :
    (unary sign op p).Legible s where
  opens := opens_cons rfl fun o ho => by
    rintro ⟨rfl⟩
    have hnone : ∀ o ∈ stoppers, unaryOp? (.op o) = none := by decide
    rw [hnone sign ho] at hop
    cases hop
  scans := fun hend h => by
    have hplain : halves? sign = none ∧ sign ≠ .ellipsis ∧ sign ≠ .quoAssign ∧ sign ≠ .period := by
      cases sign <;> first | decide | cases hop
    have h := hp.scans hend h
    have h := h.before hplain.1 hplain.2 (hp.starts _)
    simpa [unary] using h
  reads := fun hend => reads_expr_of_operand
    (reads_unary hop (hp.reads (hend.ne (by decide)) (hend.ne (by decide)) (hend.ne (by decide)))) hend

/-- A sum as it is written in an index. -/
def sum (a b : Snippet) : Snippet where
  text := a.text ++ "+" ++ b.text
  tokens := a.tokens ++ .op .add :: b.tokens
  tree := fun e => ∃ x o y, e = .binary x o .add y ∧ a.tree x ∧ b.tree y

theorem legible_sum (hp : p.IsOperand s)
    (hplus : ∀ {rest us}, Scans ('+' :: rest) us → Scans (p.text.toList ++ '+' :: rest) (p.tokens ++ us))
    (hq : q.IsOperand s) : (sum p q).Legible s where
  opens := hp.opens.append rfl
  scans := fun hend h => by
    have h := hq.scans hend h
    have h := @Scans.before .add _ _ rfl (by decide) (hq.starts _) h
    have hspelling : Operator.add.spelling.toList = ['+'] := rfl
    rw [hspelling, List.singleton_append] at h
    have h := hplus h
    simpa [sum] using h
  reads := fun {us} hend => by
    have hleft : Reads s.unary (p.tokens ++ .op .add :: (q.tokens ++ us)) _ p.tree :=
      hp.reads (by simp) (by simp) (by simp)
    have hright := hq.reads (hend.ne (by decide)) (hend.ne (by decide)) (hend.ne (by decide))
    have hall := reads_expr_of_operands hleft rfl (by decide) hright hend
    simpa [sum] using hall

theorem IsStem.legible_sum (hp : p.IsStem s) (hq : q.IsOperand s) : (sum p q).Legible s :=
  Snippet.legible_sum hp.operand (fun h => hp.scans (.cons (by decide) _) h) hq

/-- Zero is followed by a plus sign as no other number is. -/
theorem legible_zero_sum (hq : q.IsOperand s) : (sum (digits 0) q).Legible s :=
  legible_sum (isOperand_digits 0) (fun h => h.zeroPlus) hq

/-! ### Elements, fields and calls -/

/-- An element of what a variable points to. -/
def element (x : String) (i : Snippet) : Snippet where
  text := x ++ "[" ++ i.text ++ "]"
  tokens := .name x :: .op .lbrack :: (i.tokens ++ [.op .rbrack])
  tree := fun e => ∃ o bracket y, e = .index (.ident ⟨o, x⟩) bracket y ∧ i.tree y

theorem isStem_element {x : String} (hx : isIdent x = true) (hp : p.Legible s) :
    (element x p).IsStem s where
  opens := opens_cons rfl (fun _ _ => nofun)
  scans := fun hend h => by
    have h := h.mark (c := ']') (o := .rbrack) rfl (by decide)
    have h := hp.scans (.cons Index.isNumberTail_rbrack _) h
    have h := h.mark (c := '[') (o := .lbrack) rfl (by decide)
    have h := scans_ident hx (.cons (by decide) _) h
    simpa [element] using h
  starts := fun cs => by
    have h := startsOperand_ident hx ("[".toList ++ p.text.toList ++ "]".toList ++ cs)
    simpa [element] using h
  reads := fun {us vs Q} hparen hrest => by
    have hindex := hp.reads (u := .op .rbrack :: us) (.cons (by decide) _)
    have hall : Reads s.unary (.name x :: .op .lbrack :: (p.tokens ++ .op .rbrack :: us)) vs Q := by
      refine reads_operand rfl (by simp) (reads_name (by simp)) ?_
      rintro _ ⟨o, rfl⟩
      exact reads_index hindex fun bracket y hy => hrest _ ⟨o, bracket, y, rfl, hy⟩
    simpa [element] using hall

/-- A field or a lane. -/
def select (a : Snippet) (field : String) : Snippet where
  text := a.text ++ "." ++ field
  tokens := a.tokens ++ [.op .period, .name field]
  tree := fun e => ∃ x o, e = .select x ⟨o, field⟩ ∧ a.tree x

theorem isStem_select (hp : p.IsStem s) {field : String} (hfield : isIdent field = true) :
    (select p field).IsStem s where
  opens := hp.opens.append rfl
  scans := fun hend h => by
    have h := h.field (isWord_of_isIdent hfield) (word_of_isIdent hfield) hend
    have h := hp.scans (.cons (by decide) _) h
    simpa [select] using h
  starts := fun cs => by
    have h := hp.starts (".".toList ++ field.toList ++ cs)
    simpa [select] using h
  reads := fun {us vs Q} hparen hrest => by
    have hall := hp.reads (u := .op .period :: .name field :: us) (by simp)
      fun x hx => reads_select fun o => hrest _ ⟨x, o, rfl, hx⟩
    simpa [select] using hall

/-- The trees of some snippets. -/
def Trees : List Snippet → List Expr → Prop
  | [], es => es = []
  | p :: ps, es => ∃ e es', es = e :: es' ∧ p.tree e ∧ Trees ps es'

/-- Snippets with commas between them. -/
theorem reads_trees {closing : Operator} (hclosing : closing ∈ stoppers) (hcomma : closing ≠ .comma)
    {us : List Token} : ∀ {ps : List Snippet}, (∀ p ∈ ps, p.Legible s) →
      Reads (s.items closing) (commaTokens tokens ps ++ .op closing :: us) us (Trees ps)
  | [], _ => reads_items_nil
  | [p], hps => by
    have hp := hps p List.mem_cons_self
    refine (reads_items_last hcomma (hp.opens.head?_ne hclosing _)
      (hp.reads (.cons hclosing _))).mono ?_
    rintro _ ⟨e, rfl, he⟩
    exact ⟨e, [], rfl, he, rfl⟩
  | p :: q :: ps, hps => by
    have hp := hps p List.mem_cons_self
    rw [commaTokens, List.append_assoc]
    refine (reads_items_cons (hp.opens.head?_ne hclosing _) (hp.reads (.cons (by decide) _))
      (reads_trees hclosing hcomma fun r hr => hps r (List.mem_cons_of_mem _ hr))).mono ?_
    rintro _ ⟨e, es, rfl, he, hes⟩
    exact ⟨e, es, rfl, he, hes⟩

/-- A call of a function. -/
def call (fn : String) (as : List Snippet) : Snippet where
  text := fn ++ "(" ++ ", ".intercalate (as.map text) ++ ")"
  tokens := .name fn :: .op .lparen :: (commaTokens tokens as ++ [.op .rparen])
  tree := fun e => ∃ o paren es, e = .call ⟨o, fn⟩ paren es ∧ Trees as es

theorem isStem_call {fn : String} (hfn : isIdent fn = true) {as : List Snippet}
    (has : ∀ a ∈ as, a.Legible s) : (call fn as).IsStem s where
  opens := opens_cons rfl (fun _ _ => nofun)
  scans := fun hend h => by
    have h := h.mark (c := ')') (o := .rparen) rfl (by decide)
    have h := h.commas text tokens (by
      rintro a ha c rest us (rfl | rfl) h
      · exact (has a ha).scans (.cons Operation.isNumberTail_comma _) h
      · exact (has a ha).scans (.cons Literal.isNumberTail_rparen _) h)
    have h := h.mark (c := '(') (o := .lparen) rfl (by decide)
    have h := scans_ident hfn (.cons (by decide) _) h
    simpa [call] using h
  starts := fun cs => by
    have h := startsOperand_ident hfn
      ("(".toList ++ (", ".intercalate (as.map text)).toList ++ ")".toList ++ cs)
    simpa [call] using h
  reads := fun {us vs Q} hparen hrest => by
    have hitems := @reads_trees s .rparen (by decide) (by decide) us as has
    have hall : Reads s.unary (.name fn :: .op .lparen :: (commaTokens tokens as ++ .op .rparen :: us)) vs Q := by
      refine reads_operand rfl (by simp) (reads_call hitems) ?_
      rintro _ ⟨o, paren, es, rfl, hes⟩
      exact hrest _ ⟨o, paren, es, rfl, hes⟩
    simpa [call] using hall

/-- A structure with its fields in braces, in brackets. -/
def compound (t : String) (as : List Snippet) : Snippet where
  text := "((" ++ t ++ ")\x7b" ++ ", ".intercalate (as.map text) ++ "\x7d)"
  tokens := .op .lparen :: .op .lparen :: .name t :: .op .rparen :: .op .lbrace ::
    (commaTokens tokens as ++ [.op .rbrace, .op .rparen])
  tree := fun e => ∃ o o' spec es, e = .paren o (.structLit o' spec es) ∧ Says [] t false spec ∧ Trees as es

theorem isStem_compound {t : String} (ht : Token.isWord t.toList = true) (hname : Token.word t = .name t)
    (hword : IsTypeWord s t) {as : List Snippet} (has : ∀ a ∈ as, a.Legible s) :
    (compound t as).IsStem s where
  opens := opens_cons rfl (by decide)
  scans := fun hend h => by
    have hbrace : isNumberTail '\x7d' = false :=
      Token.isNumberTail_of_mark (by simp) (by decide) (by decide)
    have h := h.mark (c := ')') (o := .rparen) rfl (by decide)
    have h := h.mark (c := '\x7d') (o := .rbrace) rfl (by decide)
    have h := h.commas text tokens (by
      rintro a ha c rest us (rfl | rfl) h
      · exact (has a ha).scans (.cons Operation.isNumberTail_comma _) h
      · exact (has a ha).scans (.cons hbrace _) h)
    have h := h.mark (c := '\x7b') (o := .lbrace) rfl (by decide)
    have h := h.mark (c := ')') (o := .rparen) rfl (by decide)
    have h := h.spelled ht hname (.cons (by decide) _)
    have h := h.mark (c := '(') (o := .lparen) rfl (by decide)
    have h := h.mark (c := '(') (o := .lparen) rfl (by decide)
    simpa [compound] using h
  starts := fun cs => by
    rw [compound]
    simp only [String.toList_append, List.append_assoc]
    rfl
  reads := fun {us vs Q} hparen hrest => by
    have hitems := @reads_trees s .rbrace (by decide) (by decide) (.op .rparen :: us) as has
    have hspec := @reads_typeSpec s (.op .rparen :: .op .lbrace :: (commaTokens tokens as ++
      .op .rbrace :: .op .rparen :: us)) [] t (List.forall_mem_nil _) hword (fun _ h => by cases h; rfl) (by simp)
    have hlit := reads_structLit (Q := fun e => ∃ o spec es, e = .structLit o spec es ∧
      Says [] t false spec ∧ Trees as es) (typeAhead_word hword _) hspec hitems
      fun o spec es hs hes => (reads_postfixes_nil (by simp) (by simp)).mono <| by
        rintro _ rfl
        exact ⟨o, spec, es, rfl, hs, hes⟩
    have hparens := reads_paren (reads_expr_of_operand hlit (.cons (by decide) us))
    have hall : Reads s.unary _ vs Q := reads_operand rfl (fun _ => rfl) hparens <| by
      rintro _ ⟨o, _, rfl, o', spec, es, rfl, hs, hes⟩
      exact hrest _ ⟨o, o', spec, es, rfl, hs, hes⟩
    simpa [compound] using hall

end Snippet
end KernelForge
