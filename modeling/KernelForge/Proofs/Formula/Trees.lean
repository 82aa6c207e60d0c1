/-
Scripts from text to trees.

A script whose names are words and whose types are known is scanned to the tokens that it is made
of, and these are read as the trees that it stands for.  The trees are described up to the offsets
at which things stand.
-/
import KernelForge.Proofs.Draft.Typedefs
import KernelForge.Proofs.Formula.Inference

namespace KernelForge

open Code Code.Scope
open Token (Scans Ends isWord exists_of_isWord startsOperand isNumberTail commaTokens halves? goesOn)

/-- A word that is a name. -/
def isIdent (x : String) : Bool := isWord x.toList && decide (Token.word x = .name x)

theorem isWord_of_isIdent {x : String} (h : isIdent x = true) : isWord x.toList = true :=
  (Bool.and_eq_true_iff.mp h).1

theorem word_of_isIdent {x : String} (h : isIdent x = true) : Token.word x = .name x :=
  of_decide_eq_true (Bool.and_eq_true_iff.mp h).2

theorem scans_ident {x : String} (hx : isIdent x = true) {rest : List Char} {us : List Token}
    (hend : Ends Text.isNameChar rest) (h : Scans rest us) :
    Scans (x.toList ++ rest) (.name x :: us) :=
  h.spelled (isWord_of_isIdent hx) (word_of_isIdent hx) hend

theorem startsOperand_ident {x : String} (hx : isIdent x = true) (cs : List Char) :
    (x.toList ++ cs).head?.any startsOperand = true := by
  obtain ⟨d, ds, hds, hletter, -⟩ := exists_of_isWord (isWord_of_isIdent hx)
  rw [hds, List.cons_append, List.head?_cons, Option.any_some, startsOperand, hletter, Bool.true_or,
    Bool.true_or]

theorem reads_ident {s : Code.Scope} {x : String} {us : List Token}
    (hparen : us.head? ≠ some (.op .lparen)) (hbrack : us.head? ≠ some (.op .lbrack))
    (hperiod : us.head? ≠ some (.op .period)) :
    Reads s.unary (.name x :: us) us fun e => ∃ o, e = .ident ⟨o, x⟩ :=
  reads_plain rfl (by simp) (reads_name hparen) hbrack hperiod

/-! ### Sources -/

namespace Index

def Legible : Index → Prop
  | var x => isIdent x = true
  | literal _ => True
  | offset x _ => isIdent x = true

def tokens : Index → List Token
  | var x => [.name x]
  | literal n => [.int (toString n)]
  | offset x n => [.name x, .op .add, .int (toString n)]

/-- The tree of an index. -/
def Tree : Index → Expr → Prop
  | var x, e => ∃ o, e = .ident ⟨o, x⟩
  | literal n, e => ∃ o, e = .number o .int (toString n)
  | offset x n, e => ∃ y o z, e = .binary y o .add z ∧ (∃ o, y = .ident ⟨o, x⟩) ∧
      ∃ o, z = .number o .int (toString n)

theorem isNumberTail_rbrack : isNumberTail ']' = false :=
  Token.isNumberTail_of_mark (by simp) (by decide) (by decide)

theorem Legible.scans {i : Index} (hi : i.Legible) {rest : List Char} {us : List Token}
    (h : Scans (']' :: rest) us) : Scans (i.text.toList ++ ']' :: rest) (i.tokens ++ us) := by
  have hdigits : ∀ n : Nat, Scans ((toString n).toList ++ ']' :: rest) (.int (toString n) :: us) := by
    intro n
    have hscan := @Literal.scans_digits "" (by decide) n _ _ (.cons isNumberTail_rbrack _) h
    rw [String.append_empty] at hscan
    exact hscan
  cases i with
  | var x => exact scans_ident hi (.cons (by decide) _) h
  | literal n => exact hdigits n
  | offset x n =>
    have h := (hdigits n).before (o := .add) rfl (by decide) (Literal.startsOperand_digits n _)
    have hplus : Operator.add.spelling.toList = ['+'] := rfl
    rw [hplus, List.singleton_append] at h
    have h := scans_ident hi (.cons (by decide) _) h
    simpa [text, tokens] using h

theorem reads_tree {s : Code.Scope} (i : Index) (us : List Token) :
    Reads s.expr (i.tokens ++ .op .rbrack :: us) (.op .rbrack :: us) i.Tree := by
  have hend : Closed (.op .rbrack :: us) := .cons (by decide) us
  cases i with
  | var x => exact reads_expr_of_unary (reads_ident (by simp) (by simp) (by simp)) hend
  | literal n => exact reads_expr_of_unary (Literal.reads_digits (by simp) (by simp)) hend
  | offset x n =>
    exact reads_expr_of_binary (reads_ident (by simp) (by simp) (by simp)) rfl (by decide)
      (Literal.reads_digits (by simp) (by simp)) hend

end Index

namespace Source

/-- The variable that a source starts with. -/
def root : Source → String
  | var x => x
  | element x _ => x

def Legible : Source → Prop
  | var x => isIdent x = true
  | element x i => isIdent x = true ∧ i.Legible

def tokens : Source → List Token
  | var x => [.name x]
  | element x i => .name x :: .op .lbrack :: (i.tokens ++ [.op .rbrack])

/-- The tree of a source. -/
def Tree : Source → Expr → Prop
  | var x, e => ∃ o, e = .ident ⟨o, x⟩
  | element x i, e => ∃ o bracket y, e = .index (.ident ⟨o, x⟩) bracket y ∧ i.Tree y

theorem Legible.scans {a : Source} (ha : a.Legible) {rest : List Char} {us : List Token}
    (hend : Ends Text.isNameChar rest) (h : Scans rest us) :
    Scans (a.text.toList ++ rest) (a.tokens ++ us) := by
  cases a with
  | var x => exact scans_ident ha hend h
  | element x i =>
    have h := h.mark (c := ']') (o := .rbrack) rfl (by decide)
    have h := ha.2.scans h
    have h := h.mark (c := '[') (o := .lbrack) rfl (by decide)
    have h := scans_ident ha.1 (.cons (by decide) _) h
    simpa [text, tokens] using h

theorem Legible.startsOperand {a : Source} (ha : a.Legible) (cs : List Char) :
    (a.text.toList ++ cs).head?.any startsOperand = true := by
  cases a with
  | var x => exact startsOperand_ident ha cs
  | element x i =>
    have h := startsOperand_ident ha.1 ("[".toList ++ i.text.toList ++ "]".toList ++ cs)
    simpa [text] using h

/-- A source, and what may be selected from it. -/
theorem reads_postfixes {s : Code.Scope} (a : Source) {us vs : List Token} {Q : Expr → Prop}
    (hparen : us.head? ≠ some (.op .lparen))
    (hrest : ∀ x, a.Tree x → Reads (s.postfixes x) us vs Q) : Reads s.unary (a.tokens ++ us) vs Q := by
  cases a with
  | var x => exact reads_operand rfl (by simp) (reads_name hparen) hrest
  | element x i =>
    have hindex := Index.reads_tree (s := s) i us
    rw [tokens, List.cons_append, List.cons_append, List.append_assoc]
    refine reads_operand rfl (by simp) (reads_name (by simp)) ?_
    rintro _ ⟨o, rfl⟩
    exact reads_index hindex fun bracket y hy => hrest _ ⟨o, bracket, y, rfl, hy⟩

theorem reads_tree {s : Code.Scope} (a : Source) {us : List Token}
    (hparen : us.head? ≠ some (.op .lparen)) (hbrack : us.head? ≠ some (.op .lbrack))
    (hperiod : us.head? ≠ some (.op .period)) : Reads s.unary (a.tokens ++ us) us a.Tree :=
  a.reads_postfixes hparen fun x hx => (reads_postfixes_nil hbrack hperiod).mono fun y hy => by
    rw [hy]
    exact hx

end Source

/-! ### Operands and operations -/

namespace Operand

def Legible : Operand → Prop
  | source a => a.Legible
  | literal s i => Literal.Sized s i ∧ Literal.isSmallest s i = false

def tokens : Operand → List Token
  | source a => a.tokens
  | literal s i => Literal.tokens s i

/-- The tree of an operand. -/
def Tree : Operand → Expr → Prop
  | source a, e => a.Tree e
  | literal s i, e => Literal.Tree s i e

theorem Legible.scans {a : Operand} (ha : a.Legible) {rest : List Char} {us : List Token}
    (hend : Ends isNumberTail rest) (h : Scans rest us) :
    Scans (a.text.toList ++ rest) (a.tokens ++ us) := by
  cases a with
  | source a => exact Source.Legible.scans ha hend.of_or.2 h
  | literal s i => exact ha.1.scans hend h

theorem Legible.startsOperand {a : Operand} (ha : a.Legible) (cs : List Char) :
    (a.text.toList ++ cs).head?.any startsOperand = true := by
  cases a with
  | source a => exact Source.Legible.startsOperand ha cs
  | literal s i => exact ha.1.startsOperand cs

/-- An operand that nothing is selected from. -/
theorem reads_tree {s : Code.Scope} (a : Operand) {us : List Token}
    (hparen : us.head? ≠ some (.op .lparen)) (hbrack : us.head? ≠ some (.op .lbrack))
    (hperiod : us.head? ≠ some (.op .period)) : Reads s.unary (a.tokens ++ us) us a.Tree := by
  cases a with
  | source a => exact a.reads_tree hparen hbrack hperiod
  | literal x i => exact Literal.reads_tree x i hbrack hperiod

theorem reads_closed {s : Code.Scope} (a : Operand) {us : List Token} (hend : Closed us) :
    Reads s.expr (a.tokens ++ us) us a.Tree := by
  have hne : ∀ o ∉ closers, us.head? ≠ some (.op o) :=
    fun o ho => hend.ne fun p hp heq => ho (Token.op.inj heq ▸ hp)
  refine reads_expr_of_unary (a.reads_tree ?_ ?_ ?_) hend
  all_goals exact hne _ (by decide)

/-- What an operand starts with is no closing bracket. -/
theorem head?_tokens (a : Operand) (us : List Token) :
    (a.tokens ++ us).head? ≠ some (.op .rparen) := by
  cases a with
  | source a => cases a <;> simp [tokens, Source.tokens]
  | literal s i =>
    simp only [tokens, Literal.tokens, Literal.numberTokens]
    split
    · simp
    · split <;> simp

end Operand

namespace Operation

/-- The operators between two operands. -/
def isInfix (op : Operator) : Bool := Formula.isArithmetic op || op.isComparison

/-- The token of a unary operator. -/
def unaryToken (op : Operator) : Operator := if op = .xor then .tilde else op

def Legible : Operation → Prop
  | copy a => a.Legible
  | unary op a => Formula.isUnary op = true ∧ a.Legible
  | binary op a b => isInfix op = true ∧ a.Legible ∧ b.Legible
  | call fn as => isIdent fn = true ∧ ∀ a ∈ as, a.Legible
  | select a field => a.Legible ∧ isIdent field = true

def tokens : Operation → List Token
  | copy a => a.tokens
  | unary op a => .op (unaryToken op) :: a.tokens
  | binary op a b => a.tokens ++ .op op :: b.tokens
  | call fn as => .name fn :: .op .lparen :: (commaTokens Operand.tokens as ++ [.op .rparen])
  | select a field => a.tokens ++ [.op .period, .name field]

/-- The trees of some operands. -/
def Trees : List Operand → List Expr → Prop
  | [], es => es = []
  | a :: as, es => ∃ e es', es = e :: es' ∧ a.Tree e ∧ Trees as es'

/-- The tree of an operation. -/
def Tree : Operation → Expr → Prop
  | copy a, e => a.Tree e
  | unary op a, e => ∃ o x, e = .unary o op x ∧ a.Tree x
  | binary op a b, e => ∃ x o y, e = .binary x o op y ∧ a.Tree x ∧ b.Tree y
  | call fn as, e => ∃ o paren es, e = .call ⟨o, fn⟩ paren es ∧ Trees as es
  | select a field, e => ∃ x o, e = .select x ⟨o, field⟩ ∧ a.Tree x

theorem isNumberTail_comma : isNumberTail ',' = false :=
  Token.isNumberTail_of_mark (by simp) (by decide) (by decide)

theorem unarySign_eq {op : Operator} (hop : Formula.isUnary op = true) :
    Formula.unarySign op = (unaryToken op).spelling := by
  cases op <;> rfl

theorem isInfix_plain {op : Operator} (hop : isInfix op = true) :
    halves? op = none ∧ op ≠ .ellipsis ∧ op ≠ .quoAssign := by
  cases op <;> first | decide | cases hop

theorem isUnary_plain {op : Operator} (hop : Formula.isUnary op = true) :
    halves? (unaryToken op) = none ∧ unaryToken op ≠ .ellipsis ∧ unaryToken op ≠ .quoAssign ∧
      unaryToken op ≠ .period := by
  cases op <;> first | decide | cases hop

theorem Legible.scans {r : Operation} (hr : r.Legible) {rest : List Char} {us : List Token}
    (hend : Ends isNumberTail rest) (h : Scans rest us) :
    Scans (r.text.toList ++ rest) (r.tokens ++ us) := by
  cases r with
  | copy a => exact Operand.Legible.scans hr hend h
  | unary op a =>
    obtain ⟨hhalves, hplain⟩ := isUnary_plain hr.1
    have h := hr.2.scans hend h
    have h := h.before hhalves hplain (hr.2.startsOperand rest)
    rw [text, unarySign_eq hr.1, String.toList_append, List.append_assoc]
    exact h
  | binary op a b =>
    obtain ⟨hhalves, hplain⟩ := isInfix_plain hr.1
    have h := hr.2.2.scans hend h
    have h := h.blank (c := ' ') (.inl rfl)
    have h := h.op hhalves hplain (.inr (.cons (Token.goesOn_blank op) _))
    have h := h.blank (c := ' ') (.inl rfl)
    have h := hr.2.1.scans (.cons Token.isNumberTail_blank _) h
    simpa [text, tokens] using h
  | call fn as =>
    have h := h.mark (c := ')') (o := .rparen) rfl (by decide)
    have h := h.commas Operand.text Operand.tokens (by
      rintro a ha c rest us (rfl | rfl) h
      · exact (hr.2 a ha).scans (.cons isNumberTail_comma _) h
      · exact (hr.2 a ha).scans (.cons Literal.isNumberTail_rparen _) h)
    have h := h.mark (c := '(') (o := .lparen) rfl (by decide)
    have h := scans_ident hr.1 (.cons (by decide) _) h
    simpa [text, tokens] using h
  | select a field =>
    have h := h.field (isWord_of_isIdent hr.2) (word_of_isIdent hr.2) hend.of_or.2
    have h := hr.1.scans (.cons (by decide) _) h
    simpa [text, tokens] using h

theorem unaryOp?_token {op : Operator} (hop : Formula.isUnary op = true) :
    unaryOp? (.op (unaryToken op)) = some op := by
  cases op <;> first | rfl | cases hop

theorem precedence?_infix {op : Operator} (hop : isInfix op = true) :
    ∃ p, precedence? (.op op) = some (p, op) ∧ 1 ≤ p := by
  cases op <;> first | exact ⟨_, rfl, by decide⟩ | cases hop

theorem isInfix_ne {op : Operator} (hop : isInfix op = true) :
    op ≠ .lparen ∧ op ≠ .lbrack ∧ op ≠ .period := by
  cases op <;> first | decide | cases hop

theorem reads_trees {s : Code.Scope} {us : List Token} : ∀ as : List Operand,
    Reads (s.items .rparen) (commaTokens Operand.tokens as ++ .op .rparen :: us) us (Trees as)
  | [] => reads_items_nil
  | [a] => by
    refine (reads_items_last (by decide) (a.head?_tokens _)
      (a.reads_closed (.cons (by decide) _))).mono ?_
    rintro _ ⟨e, rfl, he⟩
    exact ⟨e, [], rfl, he, rfl⟩
  | a :: b :: as => by
    rw [commaTokens, List.append_assoc]
    refine (reads_items_cons (a.head?_tokens _) (a.reads_closed (.cons (by decide) _))
      (reads_trees (b :: as))).mono ?_
    rintro _ ⟨e, es, rfl, he, hes⟩
    exact ⟨e, es, rfl, he, hes⟩

theorem Legible.reads {s : Code.Scope} {r : Operation} (hr : r.Legible) {us : List Token}
    (hend : Closed us) : Reads s.expr (r.tokens ++ us) us r.Tree := by
  have hne : ∀ o ∉ closers, us.head? ≠ some (.op o) :=
    fun o ho => hend.ne fun p hp heq => ho (Token.op.inj heq ▸ hp)
  have hparen := hne .lparen (by decide)
  have hbrack := hne .lbrack (by decide)
  have hperiod := hne .period (by decide)
  cases r with
  | copy a => exact a.reads_closed hend
  | unary op a =>
    exact reads_expr_of_unary
      (reads_unary (unaryOp?_token hr.1) (a.reads_tree hparen hbrack hperiod)) hend
  | binary op a b =>
    obtain ⟨p, hop, hp⟩ := precedence?_infix hr.1
    obtain ⟨hne₁, hne₂, hne₃⟩ := isInfix_ne hr.1
    rw [tokens, List.append_assoc]
    exact reads_expr_of_binary
      (a.reads_tree (by simpa using hne₁) (by simpa using hne₂) (by simpa using hne₃)) hop hp
      (b.reads_tree hparen hbrack hperiod) hend
  | call fn as =>
    have hitems := @reads_trees s us as
    rw [tokens, List.cons_append, List.cons_append, List.append_assoc]
    exact reads_expr_of_unary (reads_plain rfl (by simp) (reads_call hitems) hbrack hperiod) hend
  | select a field =>
    rw [tokens, List.append_assoc]
    refine reads_expr_of_unary (a.reads_postfixes (by simp) fun x hx => ?_) hend
    refine reads_select fun o => (reads_postfixes_nil hbrack hperiod).mono fun y hy => ?_
    exact ⟨x, o, hy, hx⟩

end Operation

/-! ### Scripts -/

namespace Script

/-- The tokens of a condition. -/
def testTokens (negated : Bool) (x : String) : List Token :=
  if negated then [.op .not, .name x] else [.name x]

def tokens : Script → List Token
  | done => []
  | declare t x r next =>
    .name t.name :: .name x :: .op .assign :: (r.tokens ++ .op .semicolon :: next.tokens)
  | guard negated x body next =>
    .keyword .cond :: .op .lparen :: (testTokens negated x ++ .op .rparen :: .op .lbrace ::
      (body.tokens ++ .op .rbrace :: next.tokens))
  | assign place a next =>
    place.tokens ++ .op .assign :: (a.tokens ++ .op .semicolon :: next.tokens)

/-- The tree of a condition. -/
def TestTree (negated : Bool) (x : String) (e : Expr) : Prop :=
  if negated then ∃ o o', e = .unary o .not (.ident ⟨o', x⟩) else ∃ o, e = .ident ⟨o, x⟩

/-- The trees of the statements of a script. -/
def Trees : Script → List Stmt → Prop
  | done, ss => ss = []
  | declare t x r next, ss => ∃ spec o e ss', ss = .simple (.decl spec [(⟨o, x⟩, some e)]) :: ss' ∧
      Says [] t.name false spec ∧ r.Tree e ∧ next.Trees ss'
  | guard negated x body next, ss => ∃ o e o' bs ss', ss = .ifThen o e (.block o' bs) :: ss' ∧
      TestTree negated x e ∧ body.Trees bs ∧ next.Trees ss'
  | assign place a next, ss => ∃ x o y ss', ss = .simple (.assign x o .assign y) :: ss' ∧
      place.Tree x ∧ a.Tree y ∧ next.Trees ss'

/-- A name that a statement may start with. -/
structure StartsPlace (s : Code.Scope) (x : String) : Prop where
  noType : s.startsType (.name x) = false
  noLoop : x ≠ "while"

/-- A script that is read as it is meant. -/
def Legible (s : Code.Scope) : Script → Prop
  | done => True
  | declare t x r next => (t.isData = true ∧ IsTypeWord s t.name) ∧
      (isIdent x = true ∧ isQualifier (.name x) = false) ∧ r.Legible ∧ next.Legible s
  | guard _ x body next => isIdent x = true ∧ body.Legible s ∧ next.Legible s
  | assign place a next => (place.Legible ∧ StartsPlace s place.root) ∧ a.Legible ∧ next.Legible s

theorem isNumberTail_semicolon : isNumberTail ';' = false :=
  Token.isNumberTail_of_mark (by simp) (by decide) (by decide)

theorem scans_line {indent : Nat} {text : String} {rest : List Char} {us : List Token}
    (h : Scans (text.toList ++ '\n' :: rest) us) : Scans ((lineText indent text).toList ++ rest) us := by
  have hblank : ∀ c ∈ (Draft.margin indent).toList, c = ' ' ∨ c = '\n' := by
    intro c hc
    rw [Draft.margin, String.toList_join] at hc
    obtain ⟨cs, hcs, hmem⟩ := List.mem_flatMap.mp hc
    rw [List.eq_of_mem_replicate hcs] at hmem
    have hall : ∀ c ∈ "    ".toList, c = ' ' ∨ c = '\n' := forall_mem_of_all (by decide)
    exact hall c hmem
  have h := h.blanks _ hblank
  rw [lineText, String.toList_append, String.toList_append, List.append_assoc, List.append_assoc]
  exact h

theorem scans_test {negated : Bool} {x : String} (hx : isIdent x = true) {rest : List Char}
    {us : List Token} (h : Scans (')' :: rest) us) :
    Scans ((testText negated x).toList ++ ')' :: rest) (testTokens negated x ++ us) := by
  have h := scans_ident hx (.cons (by decide) _) h
  cases negated with
  | false => exact h
  | true =>
    have h := h.before (o := .not) rfl (by decide) (startsOperand_ident hx _)
    rw [testText, if_pos rfl, String.toList_append, List.append_assoc]
    exact h

/-- **A script is scanned to its tokens.** -/
theorem Legible.scans {s : Code.Scope} : ∀ {script : Script}, script.Legible s →
    ∀ (indent : Nat) {rest : List Char} {us : List Token}, Scans rest us →
      Scans ((script.text indent).toList ++ rest) (script.tokens ++ us)
  | .done, _, _, _, _, h => h
  | .declare t x r next, hs, indent, rest, us, h => by
    obtain ⟨⟨ht, -⟩, ⟨hx, -⟩, hr, hnext⟩ := hs
    have h := hnext.scans indent h
    have h := h.blank (c := '\n') (.inr rfl)
    have h := h.mark (c := ';') (o := .semicolon) rfl (by decide)
    have h := hr.scans (.cons isNumberTail_semicolon _) h
    have h := h.blank (c := ' ') (.inl rfl)
    have h := h.op (o := .assign) rfl (by decide) (.inr (.cons (Token.goesOn_blank _) _))
    have h := h.blank (c := ' ') (.inl rfl)
    have h := scans_ident hx (.cons (by decide) _) h
    have h := h.blank (c := ' ') (.inl rfl)
    have h := h.spelled (Ty.isWord_name ht) (Ty.word_name ht) (.cons (by decide) _)
    rw [text, String.toList_append, List.append_assoc]
    apply scans_line
    simpa [tokens, Operator.spelling] using h
  | .guard negated x body next, hs, indent, rest, us, h => by
    obtain ⟨hx, hbody, hnext⟩ := hs
    have h := hnext.scans indent h
    have h := h.blank (c := '\n') (.inr rfl)
    have h := h.mark (c := '\x7d') (o := .rbrace) rfl (by decide)
    have h := @scans_line indent "\x7d" _ _ h
    have h := hbody.scans (indent + 1) h
    have h := h.blank (c := '\n') (.inr rfl)
    have h := h.mark (c := '\x7b') (o := .lbrace) rfl (by decide)
    have h := h.blank (c := ' ') (.inl rfl)
    have h := h.mark (c := ')') (o := .rparen) rfl (by decide)
    have h := @scans_test negated _ hx _ _ h
    have h := h.mark (c := '(') (o := .lparen) rfl (by decide)
    have h := h.blank (c := ' ') (.inl rfl)
    have h := h.spelled (w := "if") (t := .keyword .cond) (by decide) rfl (.cons (by decide) _)
    rw [text, String.toList_append, String.toList_append, String.toList_append, List.append_assoc,
      List.append_assoc, List.append_assoc]
    apply scans_line
    have hopen : "if (".toList = "if".toList ++ [' ', '('] := rfl
    have hclose : ") \x7b".toList = [')', ' ', '\x7b'] := rfl
    rw [String.toList_append, String.toList_append, hopen, hclose]
    simpa [tokens] using h
  | .assign place a next, hs, indent, rest, us, h => by
    obtain ⟨⟨hplace, -⟩, ha, hnext⟩ := hs
    have h := hnext.scans indent h
    have h := h.blank (c := '\n') (.inr rfl)
    have h := h.mark (c := ';') (o := .semicolon) rfl (by decide)
    have h := ha.scans (.cons isNumberTail_semicolon _) h
    have h := h.blank (c := ' ') (.inl rfl)
    have h := h.op (o := .assign) rfl (by decide) (.inr (.cons (Token.goesOn_blank _) _))
    have h := h.blank (c := ' ') (.inl rfl)
    have h := hplace.scans (.cons (by decide) _) h
    rw [text, String.toList_append, List.append_assoc]
    apply scans_line
    simpa [tokens, Operator.spelling] using h

theorem reads_test {s : Code.Scope} (negated : Bool) (x : String) (us : List Token) :
    Reads s.expr (testTokens negated x ++ .op .rparen :: us) (.op .rparen :: us)
      (TestTree negated x) := by
  have hname : Reads s.unary (.name x :: .op .rparen :: us) _ _ :=
    reads_ident (by simp) (by simp) (by simp)
  have hend : Closed (.op .rparen :: us) := .cons (by decide) us
  cases negated with
  | false => exact reads_expr_of_unary hname hend
  | true =>
    refine (reads_expr_of_unary (reads_unary (t := .op .not) rfl hname) hend).mono ?_
    rintro _ ⟨o, _, rfl, o', rfl⟩
    exact ⟨o, o', rfl⟩

/-- No script starts with what belongs to a condition before it. -/
theorem head?_tokens (script : Script) (us : List Token) :
    (script.tokens ++ .op .rbrace :: us).head? ≠ some (.keyword .els) := by
  cases script with
  | done => simp [tokens]
  | declare t x r next => simp [tokens]
  | guard negated x body next => simp [tokens]
  | assign place a next => cases place <;> simp [tokens, Source.tokens]

/-- **The tokens of a script are read as its trees.** -/
theorem Legible.reads {s : Code.Scope} : ∀ {script : Script}, script.Legible s →
    ∀ us : List Token, Reads s.stmts (script.tokens ++ .op .rbrace :: us) us script.Trees
  | .done, _, us => reads_stmts_nil
  | .declare t x r next, hs, us => by
    obtain ⟨⟨ht, hword⟩, ⟨hx, hqualifier⟩, hr, hnext⟩ := hs
    have hnext := hnext.reads us
    have hoperation := @Operation.Legible.reads s r hr (.op .semicolon :: (next.tokens ++ .op .rbrace :: us))
      (.cons (by decide) _)
    have hspec := @reads_typeSpec s (.name x :: .op .assign :: (r.tokens ++ .op .semicolon ::
      (next.tokens ++ .op .rbrace :: us))) [] t.name (List.forall_mem_nil _) hword (Ty.unqualified_name hqualifier _)
      (by simp)
    have hdecl := reads_decl (typeAhead_word hword _) hspec hoperation (by simp)
    have hstmt := reads_simple (Ty.name_ne ht rfl rfl) hdecl
    rw [tokens, List.cons_append, List.cons_append, List.cons_append, List.append_assoc]
    refine (reads_stmts_cons (by simp) hstmt hnext).mono ?_
    rintro _ ⟨_, ss, rfl, ⟨_, rfl, spec, o, e, rfl, hspec, he⟩, hss⟩
    exact ⟨spec, o, e, ss, rfl, hspec, he, hss⟩
  | .guard negated x body next, hs, us => by
    obtain ⟨hx, hbody, hnext⟩ := hs
    have hnext := hnext.reads us
    have htest := reads_test (s := s) negated x (.op .lbrace :: (body.tokens ++ .op .rbrace ::
      (next.tokens ++ .op .rbrace :: us)))
    have hif := reads_if htest (reads_block (hbody.reads _)) (head?_tokens next us)
    have hall := (reads_stmts_cons (by simp) hif hnext).mono (R := (guard negated x body next).Trees) <| by
      rintro _ ⟨_, ss, rfl, ⟨o, e, _, rfl, he, o', bs, rfl, hbs⟩, hss⟩
      exact ⟨o, e, o', bs, ss, rfl, he, hbs, hss⟩
    simpa only [tokens, List.cons_append, List.append_assoc] using hall
  | .assign place a next, hs, us => by
    obtain ⟨⟨hplace, hstarts⟩, ha, hnext⟩ := hs
    have hnext := hnext.reads us
    obtain ⟨ts, hts⟩ : ∃ ts, place.tokens = .name place.root :: ts := by
      cases place with
      | var x => exact ⟨_, rfl⟩
      | element x i => exact ⟨_, rfl⟩
    have hleft := reads_expr_of_unary (s := s) (@Source.reads_tree s place (.op .assign :: (a.tokens ++
      .op .semicolon :: (next.tokens ++ .op .rbrace :: us))) (by simp) (by simp) (by simp))
      (.cons (by decide) _)
    have hright := @Operand.reads_closed s a (.op .semicolon :: (next.tokens ++ .op .rbrace :: us))
      (.cons (by decide) _)
    rw [hts, List.cons_append] at hleft
    have hstmt := reads_simple hstarts.noLoop (reads_assign hstarts.noType hleft hright)
    have hall := (reads_stmts_cons (by simp) hstmt hnext).mono (R := (assign place a next).Trees) <| by
      rintro _ ⟨_, ss, rfl, ⟨_, rfl, x, o, y, rfl, hx, hy⟩, hss⟩
      exact ⟨x, o, y, ss, rfl, hx, hy, hss⟩
    simpa only [tokens, hts, List.cons_append, List.append_assoc] using hall

end Script

end KernelForge
