/-
The grammar, rule by rule.

Each rule says what one way of reading gives: the tree, and what is left.  That a reader leaves
less than it got is part of what it returns and of no interest to the rules, so they speak of
what is left alone.
-/
import KernelForge.Code.Parse

namespace KernelForge.Code.Scope

/-- Reading gives a result and leaves some lexemes. -/
def Gives {α : Type} {P : Lexemes → Prop} (r : Except Misparse (α × { rest : Lexemes // P rest }))
    (x : α) (rest : Lexemes) : Prop :=
  ∃ h, r = .ok (x, ⟨rest, h⟩)

variable {s : Scope} {l : Lexeme} {ls ls₁ ls₂ ls₃ : Lexemes} {x y z : Expr}

/-! ### Single lexemes -/

theorem gives_expect {o : Nat} {t : Token} : Gives (s.expect t (⟨o, t⟩ :: ls)) o ls := by
  refine ⟨by simp, ?_⟩
  rw [expect, if_pos rfl]

/-! ### Operands -/

theorem gives_name {o : Nat} {n : String} (h : nextIs (.op .lparen) ls = false) :
    Gives (s.primary (⟨o, .name n⟩ :: ls)) (.ident ⟨o, n⟩) ls := by
  refine ⟨by simp, ?_⟩
  rw [primary]
  rintro paren ls₂ rfl
  simp [nextIs] at h

theorem gives_call {o paren : Nat} {n : String} {args : List Expr}
    (h : Gives (s.items .rparen ls) args ls₁) :
    Gives (s.primary (⟨o, .name n⟩ :: ⟨paren, .op .lparen⟩ :: ls)) (.call ⟨o, n⟩ paren args) ls₁ := by
  obtain ⟨hlt, h⟩ := h
  refine ⟨by simp only [List.length_cons]; omega, ?_⟩
  rw [primary.eq_def]
  simp only [h]

theorem gives_number {o : Nat} {t : String} :
    Gives (s.primary (⟨o, .int t⟩ :: ls)) (.number o .int t) ls := by
  refine ⟨by simp, ?_⟩
  rw [primary.eq_def]

theorem gives_real {o : Nat} {t : String} :
    Gives (s.primary (⟨o, .float t⟩ :: ls)) (.number o .float t) ls := by
  refine ⟨by simp, ?_⟩
  rw [primary.eq_def]

theorem gives_paren {o : Nat} {close : Nat} (h : Gives (s.expr ls) x (⟨close, .op .rparen⟩ :: ls₁)) :
    Gives (s.primary (⟨o, .op .lparen⟩ :: ls)) (.paren o x) ls₁ := by
  obtain ⟨hlt, h⟩ := h
  obtain ⟨hlt', hclose⟩ := @gives_expect s ls₁ close (.op .rparen)
  refine ⟨by simp only [List.length_cons] at hlt ⊢; omega, ?_⟩
  rw [primary.eq_def]
  simp only [h, expectOp, hclose]

theorem gives_postfixes_nil (hbrack : nextIs (.op .lbrack) ls = false)
    (hperiod : nextIs (.op .period) ls = false) : Gives (s.postfixes x ls) x ls := by
  refine ⟨Nat.le_refl _, ?_⟩
  unfold postfixes
  split
  · simp [nextIs] at hbrack
  · simp [nextIs] at hperiod
  · rfl

theorem gives_index {o close : Nat} (h : Gives (s.expr ls) y (⟨close, .op .rbrack⟩ :: ls₁))
    (hrest : Gives (s.postfixes (.index x o y) ls₁) z ls₂) :
    Gives (s.postfixes x (⟨o, .op .lbrack⟩ :: ls)) z ls₂ := by
  obtain ⟨hlt, h⟩ := h
  obtain ⟨hlt', hclose⟩ := @gives_expect s ls₁ close (.op .rbrack)
  obtain ⟨hle, hrest⟩ := hrest
  refine ⟨by simp only [List.length_cons] at hlt ⊢; omega, ?_⟩
  rw [postfixes.eq_def]
  simp only [h, expectOp, hclose, hrest]

theorem gives_select {o field : Nat} {n : String}
    (hrest : Gives (s.postfixes (.select x ⟨field, n⟩) ls) z ls₁) :
    Gives (s.postfixes x (⟨o, .op .period⟩ :: ⟨field, .name n⟩ :: ls)) z ls₁ := by
  obtain ⟨hle, hrest⟩ := hrest
  refine ⟨by simp only [List.length_cons]; omega, ?_⟩
  rw [postfixes.eq_def]
  simp only [ident, hrest]

/-! ### Unary operators and casts -/

theorem gives_unary {o : Nat} {t : Token} {op : Operator} (ht : unaryOp? t = some op)
    (h : Gives (s.unary ls) x ls₁) :
    Gives (s.unary (⟨o, t⟩ :: ls)) (.unary o op x) ls₁ := by
  obtain ⟨hlt, h⟩ := h
  refine ⟨by simp only [List.length_cons]; omega, ?_⟩
  rw [unary.eq_def]
  simp only [ht, h]

theorem gives_operand (hop : unaryOp? l.token = none)
    (htype : l.token = .op .lparen → s.typeNext ls = false)
    (h : Gives (s.primary (l :: ls)) x ls₁) (hrest : Gives (s.postfixes x ls₁) y ls₂) :
    Gives (s.unary (l :: ls)) y ls₂ := by
  obtain ⟨hlt, h⟩ := h
  obtain ⟨hle, hrest⟩ := hrest
  have hcast : (l.token = .op .lparen && s.typeNext ls) = false := by
    rw [Bool.and_eq_false_imp]
    exact fun hparen => htype (of_decide_eq_true hparen)
  refine ⟨by omega, ?_⟩
  rw [unary.eq_def]
  simp only [hop, hcast, Bool.false_eq_true, if_false, h, hrest]

theorem gives_cast {o close : Nat} {spec : TypeSpec} (htype : s.typeNext ls = true)
    (h : Gives (s.typeSpec ls) spec (⟨close, .op .rparen⟩ :: l :: ls₁))
    (hplain : l.token ≠ .op .lbrace ∧ (l.token = .op .lparen → isVector spec = false))
    (hrest : Gives (s.unary (l :: ls₁)) x ls₂) :
    Gives (s.unary (⟨o, .op .lparen⟩ :: ls)) (.cast o spec x) ls₂ := by
  obtain ⟨hlt, h⟩ := h
  obtain ⟨hlt', hclose⟩ := @gives_expect s (l :: ls₁) close (.op .rparen)
  obtain ⟨hlt'', hrest⟩ := hrest
  have hliteral : (l.token = .op .lbrace || (l.token = .op .lparen && isVector spec)) = false := by
    rw [Bool.or_eq_false_iff, decide_eq_false_iff_not, Bool.and_eq_false_imp]
    exact ⟨hplain.1, fun hparen => hplain.2 (of_decide_eq_true hparen)⟩
  refine ⟨by simp only [List.length_cons] at hlt hlt'' ⊢; omega, ?_⟩
  rw [unary.eq_def]
  simp only [unaryOp?, htype, decide_true, Bool.true_and, if_true, h, expectOp, hclose]
  rw [afterType]
  simp only [hliteral, Bool.false_eq_true, if_false, hrest]

theorem gives_vectorLit {o close paren : Nat} {spec : TypeSpec} {items : List Expr}
    (htype : s.typeNext ls = true)
    (h : Gives (s.typeSpec ls) spec (⟨close, .op .rparen⟩ :: ⟨paren, .op .lparen⟩ :: ls₁))
    (hvector : isVector spec = true) (hitems : Gives (s.items .rparen ls₁) items ls₂)
    (hrest : Gives (s.postfixes (.vectorLit o spec items) ls₂) x ls₃) :
    Gives (s.unary (⟨o, .op .lparen⟩ :: ls)) x ls₃ := by
  obtain ⟨hlt, h⟩ := h
  obtain ⟨hlt', hclose⟩ := @gives_expect s (⟨paren, .op .lparen⟩ :: ls₁) close (.op .rparen)
  obtain ⟨hlt'', hitems⟩ := hitems
  obtain ⟨hle, hrest⟩ := hrest
  refine ⟨by simp only [List.length_cons] at hlt hlt'' ⊢; omega, ?_⟩
  rw [unary.eq_def]
  simp only [unaryOp?, htype, decide_true, Bool.true_and, if_true, h, expectOp, hclose]
  rw [afterType]
  simp [hvector, hitems, hrest]

theorem gives_structLit {o close brace : Nat} {spec : TypeSpec} {items : List Expr}
    (htype : s.typeNext ls = true)
    (h : Gives (s.typeSpec ls) spec (⟨close, .op .rparen⟩ :: ⟨brace, .op .lbrace⟩ :: ls₁))
    (hitems : Gives (s.items .rbrace ls₁) items ls₂)
    (hrest : Gives (s.postfixes (.structLit o spec items) ls₂) x ls₃) :
    Gives (s.unary (⟨o, .op .lparen⟩ :: ls)) x ls₃ := by
  obtain ⟨hlt, h⟩ := h
  obtain ⟨hlt', hclose⟩ := @gives_expect s (⟨brace, .op .lbrace⟩ :: ls₁) close (.op .rparen)
  obtain ⟨hlt'', hitems⟩ := hitems
  obtain ⟨hle, hrest⟩ := hrest
  refine ⟨by simp only [List.length_cons] at hlt hlt'' ⊢; omega, ?_⟩
  rw [unary.eq_def]
  simp only [unaryOp?, htype, decide_true, Bool.true_and, if_true, h, expectOp, hclose]
  rw [afterType]
  simp [hitems, hrest]

/-! ### Binary operators -/

/-- No operator of at least a precedence comes next. -/
def NoOperator (prec : Nat) (ls : Lexemes) : Prop :=
  ∀ l, ls.head? = some l → ∀ p o, precedence? l.token = some (p, o) → p < prec

theorem gives_no_operator {prec : Nat} (h : NoOperator prec ls) :
    Gives (s.binaryRest prec x ls) x ls := by
  refine ⟨Nat.le_refl _, ?_⟩
  cases ls with
  | nil => rw [binaryRest]
  | cons l ls =>
    rw [binaryRest]
    split
    · rfl
    · rename_i p o hp
      rw [if_pos (h l rfl p o hp)]

theorem gives_operator {prec p : Nat} {op : Operator} (hop : precedence? l.token = some (p, op))
    (hp : prec ≤ p) (h : Gives (s.binary (p + 1) ls) y ls₁)
    (hrest : Gives (s.binaryRest prec (.binary x l.offset op y) ls₁) z ls₂) :
    Gives (s.binaryRest prec x (l :: ls)) z ls₂ := by
  obtain ⟨hlt, h⟩ := h
  obtain ⟨hle, hrest⟩ := hrest
  refine ⟨by simp only [List.length_cons]; omega, ?_⟩
  rw [binaryRest]
  simp only [hop, if_neg (Nat.not_lt.mpr hp), h, hrest]

theorem gives_binary {prec : Nat} (h : Gives (s.unary ls) x ls₁)
    (hrest : Gives (s.binaryRest prec x ls₁) y ls₂) : Gives (s.binary prec ls) y ls₂ := by
  obtain ⟨hlt, h⟩ := h
  obtain ⟨hle, hrest⟩ := hrest
  refine ⟨by omega, ?_⟩
  rw [binary]
  simp only [h, hrest]

theorem gives_expr (h : Gives (s.binary 1 ls) x ls₁) (hend : nextIs Token.question ls₁ = false) :
    Gives (s.expr ls) x ls₁ := by
  obtain ⟨hlt, h⟩ := h
  refine ⟨hlt, ?_⟩
  rw [expr]
  simp only [h]
  cases ls₁ with
  | nil => rfl
  | cons l ls₁ =>
    have hne : ¬ l.token = Token.question := of_decide_eq_false hend
    simp only [if_neg hne]

theorem gives_cond {c : Expr} {question colon : Nat}
    (hc : Gives (s.binary 1 ls) c (⟨question, Token.question⟩ :: ls₁))
    (hx : Gives (s.expr ls₁) x (⟨colon, .op .colon⟩ :: ls₂)) (hy : Gives (s.expr ls₂) y ls₃) :
    Gives (s.expr ls) (.cond c x y) ls₃ := by
  obtain ⟨hlt, hc⟩ := hc
  obtain ⟨hlt', hx⟩ := hx
  obtain ⟨hlt'', hy⟩ := hy
  obtain ⟨hcolon', hcolon⟩ := @gives_expect s ls₂ colon (.op .colon)
  refine ⟨by simp only [List.length_cons] at hlt hlt'; omega, ?_⟩
  rw [expr]
  simp only [hc, if_true, hx, expectOp, hcolon, hy]

/-- What may follow an expression: no operator and no question mark. -/
def Closes (ls : Lexemes) : Prop := NoOperator 1 ls ∧ nextIs Token.question ls = false

/-- An operand that no operator follows is an expression. -/
theorem gives_expr_of_unary (h : Gives (s.unary ls) x ls₁) (hend : Closes ls₁) :
    Gives (s.expr ls) x ls₁ :=
  gives_expr (gives_binary h (gives_no_operator hend.1)) hend.2

/-- Two operands with an operator between them are an expression. -/
theorem gives_expr_of_binary {p : Nat} {op : Operator} (h : Gives (s.unary ls) x (l :: ls₁))
    (hop : precedence? l.token = some (p, op)) (hp : 1 ≤ p) (h' : Gives (s.unary ls₁) y ls₂)
    (hend : Closes ls₂) : Gives (s.expr ls) (.binary x l.offset op y) ls₂ := by
  have hno : NoOperator (p + 1) ls₂ := fun l' hl' q o hq =>
    Nat.lt_of_lt_of_le (hend.1 l' hl' q o hq) (by omega)
  have hy := gives_binary h' (gives_no_operator hno)
  exact gives_expr (gives_binary h (gives_operator hop hp hy (gives_no_operator hend.1))) hend.2

/-! ### Lists of expressions -/

theorem gives_items_nil {o : Nat} {closing : Operator} :
    Gives (s.items closing (⟨o, .op closing⟩ :: ls)) [] ls := by
  obtain ⟨hlt, h⟩ := @gives_expect s ls o (.op closing)
  refine ⟨hlt, ?_⟩
  rw [items]
  simp only [nextIs, decide_true, if_true, expectOp, h]

theorem gives_items_last {o : Nat} {closing : Operator} (hne : closing ≠ .comma)
    (hfirst : nextIs (.op closing) ls = false)
    (h : Gives (s.expr ls) x (⟨o, .op closing⟩ :: ls₁)) :
    Gives (s.items closing ls) [x] ls₁ := by
  obtain ⟨hlt, h⟩ := h
  obtain ⟨hlt', hclose⟩ := @gives_expect s ls₁ o (.op closing)
  refine ⟨by simp only [List.length_cons] at hlt; omega, ?_⟩
  rw [items]
  simp only [hfirst, Bool.false_eq_true, if_false, h]
  split
  · rename_i heq _
    simp only [List.cons.injEq, Lexeme.mk.injEq, Token.op.injEq] at heq
    exact absurd heq.1.2 hne
  · simp only [expectOp, hclose]

theorem gives_items_cons {o : Nat} {closing : Operator} {xs : List Expr}
    (hfirst : nextIs (.op closing) ls = false)
    (h : Gives (s.expr ls) x (⟨o, .op .comma⟩ :: ls₁)) (hrest : Gives (s.items closing ls₁) xs ls₂) :
    Gives (s.items closing ls) (x :: xs) ls₂ := by
  obtain ⟨hlt, h⟩ := h
  obtain ⟨hlt', hrest⟩ := hrest
  refine ⟨by simp only [List.length_cons] at hlt; omega, ?_⟩
  rw [items]
  simp only [hfirst, Bool.false_eq_true, if_false, h, hrest]

/-! ### Types -/

/-- The tokens that qualify a type. -/
def isQualifier : Token → Bool
  | .keyword .const => true
  | .name w => (spaceOf? w).isSome || isIgnored w
  | _ => false

/-- The names among the qualifiers. -/
def qualifierWords : List String :=
  ["__global", "global", "__constant", "constant", "__local", "local", "__private", "private",
    "volatile", "restrict", "inline", "static"]

theorem isQualifier_of_notMem {w : String} (h : w ∉ qualifierWords) :
    isQualifier (.name w) = false := by
  simp only [qualifierWords, List.mem_cons, List.not_mem_nil, or_false, not_or] at h
  have hspace : spaceOf? w = none := by
    unfold spaceOf?
    split <;> simp_all
  have hignored : isIgnored w = false := by simp [isIgnored, h]
  rw [isQualifier, hspace, hignored]
  rfl

/-- What a qualifier makes of a type. -/
def qualified (spec : TypeSpec) : Token → TypeSpec
  | .keyword .const => { spec with readOnly := true }
  | .name w =>
    match spaceOf? w with
    | some space => { spec with space }
    | none => spec
  | _ => spec

/-- No qualifier comes next. -/
def NoQualifier (ls : Lexemes) : Prop := ∀ l, ls.head? = some l → isQualifier l.token = false

theorem qualifiers_stop (h : NoQualifier ls) (spec : TypeSpec) :
    (qualifiers spec ls).1 = spec ∧ (qualifiers spec ls).2.val = ls := by
  cases ls with
  | nil => exact ⟨rfl, rfl⟩
  | cons l ls =>
    have hl := h l rfl
    rw [qualifiers]
    split
    · rename_i ht
      rw [ht] at hl
      cases hl
    · rename_i w ht
      rw [ht, isQualifier, Bool.or_eq_false_iff] at hl
      split
      · rename_i space hspace
        rw [hspace] at hl
        cases hl.1
      · rw [if_neg (by rw [hl.2]; decide)]
        exact ⟨rfl, rfl⟩
    · exact ⟨rfl, rfl⟩

theorem qualifiers_append {qs : Lexemes} (hqs : ∀ q ∈ qs, isQualifier q.token = true)
    (hend : NoQualifier ls) (spec : TypeSpec) :
    (qualifiers spec (qs ++ ls)).1 = qs.foldl (fun spec q => qualified spec q.token) spec ∧
      (qualifiers spec (qs ++ ls)).2.val = ls := by
  induction qs generalizing spec with
  | nil => exact qualifiers_stop hend spec
  | cons q qs ih =>
    have hq := hqs q List.mem_cons_self
    have hrest := ih fun p hp => hqs p (List.mem_cons_of_mem _ hp)
    rw [List.foldl_cons, List.cons_append, qualifiers]
    split
    · rename_i ht
      simp only [ht, qualified]
      exact hrest _
    · rename_i w ht
      rw [ht, isQualifier, Bool.or_eq_true] at hq
      split
      · rename_i space hspace
        simp only [ht, qualified, hspace]
        exact hrest _
      · rename_i hspace
        rw [hspace] at hq
        have hignored : isIgnored w = true := hq.resolve_left (by decide)
        simp only [ht, qualified, hspace, if_pos hignored]
        exact hrest _
    · rename_i ht ht'
      unfold isQualifier at hq
      split at hq
      · rename_i heq
        exact absurd heq ht
      · rename_i w heq
        exact absurd heq (ht' w)
      · cases hq

theorem gives_typeName {o : Nat} {w : String} (hw : s.isTypeWord w = true) (hne : w ≠ "unsigned") :
    Gives (s.typeName (⟨o, .name w⟩ :: ls)) w ls := by
  have htail : nameTail w ls = (w, ⟨ls, Nat.le_refl _⟩) := by
    cases ls with
    | nil => rfl
    | cons l ls =>
      have hnone : unsignedTail? w l.token = none := by
        unfold unsignedTail?
        split
        · simp [hne]
        · rfl
      simp only [nameTail, hnone]
  refine ⟨by simp, ?_⟩
  rw [typeName]
  simp only [hw, if_true, htail]

/-- The type that some qualifiers and a name make. -/
def specOf (offset : Nat) (qs : Lexemes) (w : String) (pointer : Bool) : TypeSpec :=
  { qs.foldl (fun spec q => qualified spec q.token) { offset, name := "" } with name := w, pointer }

section Types

variable {qs : Lexemes} {w : String} {o : Nat}

/-- The word of a type: no qualifier, and it forms no type with the next word. -/
structure IsTypeWord (s : Scope) (w : String) : Prop where
  word : s.isTypeWord w = true
  plain : isQualifier (.name w) = false
  single : w ≠ "unsigned"

theorem pointer_foldl (qs : Lexemes) (spec : TypeSpec) :
    (qs.foldl (fun spec q => qualified spec q.token) spec).pointer = spec.pointer := by
  induction qs generalizing spec with
  | nil => rfl
  | cons q qs ih =>
    rw [List.foldl_cons, ih]
    unfold qualified
    split
    · rfl
    · split <;> rfl
    · rfl

/-- The qualifiers before the name of a type, and none after it. -/
theorem qualifiers_eq (hqs : ∀ q ∈ qs, isQualifier q.token = true) (hend : NoQualifier ls)
    (spec : TypeSpec) :
    ∃ h, qualifiers spec (qs ++ ls) =
      (qs.foldl (fun spec q => qualified spec q.token) spec, ⟨ls, h⟩) := by
  obtain ⟨hspec, hleft⟩ := qualifiers_append hqs hend spec
  exact ⟨by simp, Prod.ext hspec (Subtype.ext hleft)⟩

theorem qualifiers_none (h : NoQualifier ls) (spec : TypeSpec) :
    qualifiers spec ls = (spec, ⟨ls, Nat.le_refl _⟩) :=
  Prod.ext (qualifiers_stop h spec).1 (Subtype.ext (qualifiers_stop h spec).2)

theorem specOf_eq (offset : Nat) (qs : Lexemes) (w : String) :
    { qs.foldl (fun spec q => qualified spec q.token) { offset, name := "" } with name := w } =
      specOf offset qs w false := by
  rw [specOf, TypeSpec.mk.injEq]
  exact ⟨rfl, rfl, rfl, rfl, pointer_foldl qs _⟩

theorem gives_typeSpec (hqs : ∀ q ∈ qs, isQualifier q.token = true) (hw : IsTypeWord s w)
    (hend : NoQualifier ls) (hmul : nextIs (.op .mul) ls = false) :
    Gives (s.typeSpec (qs ++ ⟨o, .name w⟩ :: ls))
      (specOf (s.here (qs ++ ⟨o, .name w⟩ :: ls)).1 qs w false) ls := by
  have hnext : NoQualifier (⟨o, .name w⟩ :: ls) := fun l hl => by cases hl; exact hw.plain
  obtain ⟨hle, hqualifiers⟩ := qualifiers_eq hqs hnext
    { offset := (s.here (qs ++ ⟨o, .name w⟩ :: ls)).1, name := "" }
  obtain ⟨hlt, hname⟩ := @gives_typeName s ls o w hw.word hw.single
  refine ⟨by simp only [List.length_append, List.length_cons]; omega, ?_⟩
  rw [typeSpec, hqualifiers]
  dsimp only
  rw [hname]
  dsimp only
  rw [specOf_eq, qualifiers_none hend]
  dsimp only
  split
  · simp [nextIs] at hmul
  · rfl

theorem gives_pointer {mul : Nat} (hqs : ∀ q ∈ qs, isQualifier q.token = true)
    (hw : IsTypeWord s w) (hend : NoQualifier ls) (hmul : nextIs (.op .mul) ls = false) :
    Gives (s.typeSpec (qs ++ ⟨o, .name w⟩ :: ⟨mul, .op .mul⟩ :: ls))
      (specOf (s.here (qs ++ ⟨o, .name w⟩ :: ⟨mul, .op .mul⟩ :: ls)).1 qs w true) ls := by
  have hnext : NoQualifier (⟨o, .name w⟩ :: ⟨mul, .op .mul⟩ :: ls) :=
    fun l hl => by cases hl; exact hw.plain
  have hnext' : NoQualifier (⟨mul, .op .mul⟩ :: ls) := fun l hl => by cases hl; rfl
  obtain ⟨hle, hqualifiers⟩ := qualifiers_eq hqs hnext
    { offset := (s.here (qs ++ ⟨o, .name w⟩ :: ⟨mul, .op .mul⟩ :: ls)).1, name := "" }
  obtain ⟨hlt, hname⟩ := @gives_typeName s (⟨mul, .op .mul⟩ :: ls) o w hw.word hw.single
  have hstop : pointerQualifiers ls = ⟨ls, Nat.le_refl _⟩ := by
    cases ls with
    | nil => rfl
    | cons l ls =>
      have hl := hend l rfl
      rw [pointerQualifiers, if_neg]
      intro hor
      rcases Bool.or_eq_true_iff.mp hor with heq | heq
      · rw [of_decide_eq_true heq] at hl
        cases hl
      · rw [of_decide_eq_true heq] at hl
        cases hl
  refine ⟨by simp only [List.length_append, List.length_cons]; omega, ?_⟩
  rw [typeSpec, hqualifiers]
  dsimp only
  rw [hname]
  dsimp only
  rw [specOf_eq, qualifiers_none hnext']
  dsimp only
  rw [hstop]
  dsimp only
  rw [if_neg (by rw [hmul]; decide)]
  rfl

end Types

/-! ### Statements -/

section Statements

variable {o : Nat} {n : String} {spec : TypeSpec} {st : Simple} {a : Stmt} {as : List Stmt}

theorem gives_declarator {eq : Nat} (hx : Gives (s.expr ls) x ls₁)
    (hcomma : nextIs (.op .comma) ls₁ = false) :
    Gives (s.declarators (⟨o, .name n⟩ :: ⟨eq, .op .assign⟩ :: ls)) [(⟨o, n⟩, some x)] ls₁ := by
  obtain ⟨hlt, hx⟩ := hx
  refine ⟨by simp only [List.length_cons]; omega, ?_⟩
  rw [declarators]
  simp only [ident, initializer, hx]
  split
  · simp [nextIs] at hcomma
  · rfl

theorem gives_decl {eq : Nat} (htype : s.typeNext ls = true)
    (h : Gives (s.typeSpec ls) spec (⟨o, .name n⟩ :: ⟨eq, .op .assign⟩ :: ls₁))
    (hx : Gives (s.expr ls₁) x ls₂) (hcomma : nextIs (.op .comma) ls₂ = false) :
    Gives (s.simple ls) (.decl spec [(⟨o, n⟩, some x)]) ls₂ := by
  obtain ⟨hlt, h⟩ := h
  obtain ⟨hlt', hvars⟩ := @gives_declarator s ls₁ ls₂ x o n eq hx hcomma
  refine ⟨by omega, ?_⟩
  unfold simple
  rw [if_pos htype]
  simp only [h, hvars]

/-- The next lexeme is a name. -/
def NameNext (ls : Lexemes) : Prop := ∃ o n ls', ls = ⟨o, .name n⟩ :: ls'

theorem gives_assign {eq : Nat} (htype : s.typeNext ls = false) (hname : NameNext ls)
    (h : Gives (s.expr ls) x (⟨eq, .op .assign⟩ :: ls₁)) (hy : Gives (s.expr ls₁) y ls₂) :
    Gives (s.simple ls) (.assign x eq .assign y) ls₂ := by
  obtain ⟨hlt, h⟩ := h
  obtain ⟨hlt', hy⟩ := hy
  obtain ⟨o, n, ls', rfl⟩ := hname
  refine ⟨by simp only [List.length_cons] at hlt ⊢; omega, ?_⟩
  unfold simple
  rw [if_neg (by rw [htype]; decide)]
  simp only [exprSimple, h, afterExpr, hy]
  rfl

theorem gives_simple (hname : ∃ o n ls', ls = ⟨o, .name n⟩ :: ls' ∧ n ≠ "while")
    (h : Gives (s.simple ls) st (⟨o, .op .semicolon⟩ :: ls₁)) :
    Gives (s.stmt ls) (.simple st) ls₁ := by
  obtain ⟨hlt, h⟩ := h
  obtain ⟨o', n, ls', rfl, hwhile⟩ := hname
  obtain ⟨hlt', hclose⟩ := @gives_expect s ls₁ o (.op .semicolon)
  refine ⟨by simp only [List.length_cons] at hlt ⊢; omega, ?_⟩
  rw [stmt]
  · simp only [terminated, h, expectOp, hclose]
  all_goals
    intros
    simp_all

theorem gives_block (h : Gives (s.stmts ls) as ls₁) :
    Gives (s.stmt (⟨o, .op .lbrace⟩ :: ls)) (.block o as) ls₁ := by
  obtain ⟨hlt, h⟩ := h
  refine ⟨by simp only [List.length_cons]; omega, ?_⟩
  rw [stmt.eq_def]
  simp only [h]

theorem gives_if {paren close : Nat} (h : Gives (s.expr ls) x (⟨close, .op .rparen⟩ :: ls₁))
    (ha : Gives (s.stmt ls₁) a ls₂) (helse : nextIs (.keyword .els) ls₂ = false) :
    Gives (s.stmt (⟨o, .keyword .cond⟩ :: ⟨paren, .op .lparen⟩ :: ls)) (.ifThen o x a) ls₂ := by
  obtain ⟨hlt, h⟩ := h
  obtain ⟨hlt', ha⟩ := ha
  obtain ⟨hopen', hopen⟩ := @gives_expect s ls paren (.op .lparen)
  obtain ⟨hclose', hclose⟩ := @gives_expect s ls₁ close (.op .rparen)
  refine ⟨by simp only [List.length_cons] at hlt ⊢; omega, ?_⟩
  rw [stmt.eq_def]
  simp only [condition, expectOp, hopen, h, hclose, ha]
  split
  · simp [nextIs] at helse
  · rfl

theorem gives_stmts_nil : Gives (s.stmts (⟨o, .op .rbrace⟩ :: ls)) [] ls := by
  refine ⟨by simp, ?_⟩
  rw [stmts, if_pos rfl]

theorem gives_stmts_cons (hne : l.token ≠ .op .rbrace) (ha : Gives (s.stmt (l :: ls)) a ls₁)
    (has : Gives (s.stmts ls₁) as ls₂) : Gives (s.stmts (l :: ls)) (a :: as) ls₂ := by
  obtain ⟨hlt, ha⟩ := ha
  obtain ⟨hlt', has⟩ := has
  refine ⟨by omega, ?_⟩
  rw [stmts, if_neg hne]
  simp only [ha, has]

end Statements

/-! ### Declarations -/

section Declarations

variable {o : Nat} {n : String} {spec : TypeSpec} {fs : List Field} {f : File}

theorem gives_fields_nil : Gives (s.structFields (⟨o, .op .rbrace⟩ :: ls)) [] ls := by
  obtain ⟨hlt, h⟩ := @gives_expect s ls o (.op .rbrace)
  refine ⟨hlt, ?_⟩
  rw [structFields]
  simp only [nextIs, decide_true, if_true, expectOp, h]

theorem gives_fields_cons {semi : Nat} (hfirst : nextIs (.op .rbrace) ls = false)
    (h : Gives (s.typeSpec ls) spec (⟨o, .name n⟩ :: ⟨semi, .op .semicolon⟩ :: ls₁))
    (hrest : Gives (s.structFields ls₁) fs ls₂) :
    Gives (s.structFields ls) (⟨spec, ⟨o, n⟩⟩ :: fs) ls₂ := by
  obtain ⟨hlt, h⟩ := h
  obtain ⟨hlt', hrest⟩ := hrest
  obtain ⟨hsemi', hsemi⟩ := @gives_expect s ls₁ semi (.op .semicolon)
  have hnames : s.names (⟨o, .name n⟩ :: ⟨semi, .op .semicolon⟩ :: ls₁) =
      .ok ([⟨o, n⟩], ⟨⟨semi, .op .semicolon⟩ :: ls₁, by simp⟩) := by
    rw [names]
    simp only [ident]
  refine ⟨by simp only [List.length_cons] at hlt; omega, ?_⟩
  rw [structFields]
  simp only [hfirst, Bool.false_eq_true, if_false, h, hnames, expectOp, hsemi, hrest, List.map_cons,
    List.map_nil, List.cons_append, List.nil_append]

theorem gives_typedef {offset struct brace semi : Nat}
    (h : Gives (s.structFields ls) fs (⟨o, .name n⟩ :: ⟨semi, .op .semicolon⟩ :: ls₁)) :
    Gives (s.typedef offset (⟨struct, .keyword .struct⟩ :: ⟨brace, .op .lbrace⟩ :: ls))
      ⟨offset, fs, ⟨o, n⟩⟩ ls₁ := by
  obtain ⟨hlt, h⟩ := h
  obtain ⟨hstruct', hstruct⟩ := @gives_expect s (⟨brace, .op .lbrace⟩ :: ls) struct (.keyword .struct)
  obtain ⟨hbrace', hbrace⟩ := @gives_expect s ls brace (.op .lbrace)
  obtain ⟨hsemi', hsemi⟩ := @gives_expect s ls₁ semi (.op .semicolon)
  refine ⟨by simp only [List.length_cons] at hlt ⊢; omega, ?_⟩
  rw [typedef]
  simp only [hstruct, optionalName, expectOp, hbrace, h, terminated, ident, hsemi]

theorem gives_params_last {close : Nat} (hfirst : nextIs (.op .rparen) ls = false)
    (h : Gives (s.typeSpec ls) spec (⟨o, .name n⟩ :: ⟨close, .op .rparen⟩ :: ls₁)) :
    Gives (s.params ls) [⟨spec, ⟨o, n⟩⟩] ls₁ := by
  obtain ⟨hlt, h⟩ := h
  obtain ⟨hclose', hclose⟩ := @gives_expect s ls₁ close (.op .rparen)
  refine ⟨by simp only [List.length_cons] at hlt; omega, ?_⟩
  rw [params]
  simp only [hfirst, Bool.false_eq_true, if_false, h, ident, expectOp, hclose]

theorem gives_params_cons {comma : Nat} (hfirst : nextIs (.op .rparen) ls = false)
    (h : Gives (s.typeSpec ls) spec (⟨o, .name n⟩ :: ⟨comma, .op .comma⟩ :: ls₁))
    (hrest : Gives (s.params ls₁) fs ls₂) :
    Gives (s.params ls) (⟨spec, ⟨o, n⟩⟩ :: fs) ls₂ := by
  obtain ⟨hlt, h⟩ := h
  obtain ⟨hlt', hrest⟩ := hrest
  refine ⟨by simp only [List.length_cons] at hlt; omega, ?_⟩
  rw [params]
  simp only [hfirst, Bool.false_eq_true, if_false, h, ident, hrest]

/-- A kernel that returns nothing. -/
theorem gives_kernel {kernel void paren brace : Nat} {body : List Stmt}
    (hname : isQualifier (.name n) = false) (hvoid : nextIs (.name "void") ls = false)
    (hparams : Gives (s.params ls) fs (⟨brace, .op .lbrace⟩ :: ls₁))
    (hbody : Gives (s.stmts ls₁) body ls₂) :
    Gives (s.func (⟨kernel, .name "__kernel"⟩ :: ⟨void, .name "void"⟩ :: ⟨o, .name n⟩ ::
        ⟨paren, .op .lparen⟩ :: ls))
      ⟨true, { offset := void, name := "void" }, ⟨o, n⟩, fs, brace, body⟩ ls₂ := by
  obtain ⟨hlt, hparams⟩ := hparams
  obtain ⟨hlt', hbody⟩ := hbody
  obtain ⟨hbrace', hbrace⟩ := @gives_expect s ls₁ brace (.op .lbrace)
  obtain ⟨hparen', hparen⟩ := @gives_expect s ls paren (.op .lparen)
  have hword : IsTypeWord s "void" := ⟨rfl, by decide, by decide⟩
  have hend : NoQualifier (⟨o, .name n⟩ :: ⟨paren, .op .lparen⟩ :: ls) :=
    fun l hl => by cases hl; exact hname
  have hresult : Gives (s.typeSpec (⟨void, .name "void"⟩ :: ⟨o, .name n⟩ :: ⟨paren, .op .lparen⟩ :: ls))
      { offset := void, name := "void" } (⟨o, .name n⟩ :: ⟨paren, .op .lparen⟩ :: ls) :=
    @gives_typeSpec s _ [] "void" void (List.forall_mem_nil _) hword hend rfl
  obtain ⟨hresult', hresult⟩ := hresult
  have hnone : noParams ls = ⟨ls, Nat.le_refl _⟩ := by
    unfold noParams
    split
    · simp [nextIs] at hvoid
    · rfl
  refine ⟨by simp only [List.length_cons] at hlt ⊢; omega, ?_⟩
  have hwords : funcWords false (⟨kernel, .name "__kernel"⟩ :: ⟨void, .name "void"⟩ ::
      ⟨o, .name n⟩ :: ⟨paren, .op .lparen⟩ :: ls) =
      (true, ⟨⟨void, .name "void"⟩ :: ⟨o, .name n⟩ :: ⟨paren, .op .lparen⟩ :: ls, by simp⟩) := rfl
  rw [func, hwords]
  dsimp only
  rw [hresult]
  dsimp only [ident]
  rw [expectOp, hparen]
  dsimp only
  rw [hnone]
  dsimp only
  rw [hparams]
  dsimp only
  rw [expectOp, hbrace]
  dsimp only
  rw [hbody]

theorem file_nil : s.file [] = .ok {} := by
  rw [file]

theorem file_typedef {t : Typedef} (h : Gives (s.typedef o ls) t ls₁)
    (hrest : file { s with typedefs := t.name.name :: s.typedefs } ls₁ = .ok f) :
    s.file (⟨o, .name "typedef"⟩ :: ls) = .ok { f with typedefs := t :: f.typedefs } := by
  obtain ⟨hlt, h⟩ := h
  rw [file]
  simp only [if_true, h, hrest]

theorem file_func {fn : Func} (hne : l.token ≠ .name "typedef") (h : Gives (s.func (l :: ls)) fn ls₁)
    (hrest : s.file ls₁ = .ok f) : s.file (l :: ls) = .ok { f with funcs := fn :: f.funcs } := by
  obtain ⟨hlt, h⟩ := h
  rw [file]
  simp only [if_neg hne, h, hrest]

end Declarations

end KernelForge.Code.Scope
