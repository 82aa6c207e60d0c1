/-
Expressions are read as the grammar has them.

What the parser returns is written down by the lexemes that it took, and every operand in it is of a
level that its place allows.  For a chain of operators the invariant is about the tree so far and the
operator that comes next: the next operator is no tighter than the tree, since a tighter one would
have gone to the last operand.
-/
import KernelForge.Proofs.Code.Climbing

namespace KernelForge.Code.Scope

variable {s : Scope} {ls ls₁ ls₂ rest start : Lexemes} {x y : Expr}

/-! ### What was taken -/

/-- The lexemes that were read write an expression down in which everything is in its place. -/
structure Wrote (s : Scope) (ls rest : Lexemes) (e : Expr) : Prop where
  levelled : e.isLevelled = true
  spelled : ∃ used, ls = used ++ rest ∧ s.Spells (used.map Lexeme.token) e

/-- The lexemes that were read write a list of expressions and the bracket after it. -/
structure WroteAll (s : Scope) (closing : Operator) (ls rest : Lexemes) (es : List Expr) : Prop where
  levelled : Expr.areLevelled es = true
  spelled : ∃ used o, ls = used ++ ⟨o, .op closing⟩ :: rest ∧
    s.SpellsAll (used.map Lexeme.token) es

theorem wrote_paren {o close : Nat} (hx : Wrote s ls (⟨close, .op .rparen⟩ :: rest) x) :
    Wrote s (⟨o, .op .lparen⟩ :: ls) rest (.paren o x) := by
  obtain ⟨hlevel, used, rfl, hspells⟩ := hx
  refine ⟨hlevel, ⟨o, .op .lparen⟩ :: (used ++ [⟨close, .op .rparen⟩]), by simp, ?_⟩
  rw [List.map_cons, List.map_append]
  exact .paren hspells

theorem wrote_call {o paren : Nat} {n : String} {args : List Expr}
    (hargs : WroteAll s .rparen ls rest args) :
    Wrote s (⟨o, .name n⟩ :: ⟨paren, .op .lparen⟩ :: ls) rest (.call ⟨o, n⟩ paren args) := by
  obtain ⟨hlevel, used, close, rfl, hspells⟩ := hargs
  refine ⟨hlevel, ⟨o, .name n⟩ :: ⟨paren, .op .lparen⟩ :: (used ++ [⟨close, .op .rparen⟩]), by simp, ?_⟩
  rw [List.map_cons, List.map_cons, List.map_append]
  exact @Spells.call s paren ⟨o, n⟩ _ _ hspells

theorem wrote_index {o close : Nat} {i : Expr} (hclosed : closedLevel ≤ x.level)
    (hx : Wrote s start (⟨o, .op .lbrack⟩ :: ls) x) (hi : Wrote s ls (⟨close, .op .rbrack⟩ :: rest) i) :
    Wrote s start rest (.index x o i) := by
  obtain ⟨hxlevel, used, rfl, hxspells⟩ := hx
  obtain ⟨hilevel, used', rfl, hispells⟩ := hi
  refine ⟨by simp [Expr.isLevelled, hclosed, hxlevel, hilevel],
    used ++ ⟨o, .op .lbrack⟩ :: (used' ++ [⟨close, .op .rbrack⟩]), by simp, ?_⟩
  rw [List.map_append, List.map_cons, List.map_append]
  exact .index hxspells hispells

theorem wrote_select {o o' : Nat} {n : String} (hclosed : closedLevel ≤ x.level)
    (hx : Wrote s start (⟨o, .op .period⟩ :: ⟨o', .name n⟩ :: rest) x) :
    Wrote s start rest (.select x ⟨o', n⟩) := by
  obtain ⟨hlevel, used, rfl, hspells⟩ := hx
  refine ⟨by simp [Expr.isLevelled, hclosed, hlevel],
    used ++ [⟨o, .op .period⟩, ⟨o', .name n⟩], by simp, ?_⟩
  rw [List.map_append]
  exact @Spells.select s ⟨o', n⟩ _ _ hspells

theorem wrote_unary {l : Lexeme} {op : Operator} (hop : unaryOp? l.token = some op)
    (hlevel : signedLevel ≤ x.level) (hx : Wrote s ls rest x) :
    Wrote s (l :: ls) rest (.unary l.offset op x) := by
  obtain ⟨hxlevel, used, rfl, hspells⟩ := hx
  refine ⟨by simp [Expr.isLevelled, hlevel, hxlevel], l :: used, rfl, ?_⟩
  rw [List.map_cons]
  exact .unary hop hspells

theorem wrote_binary {l : Lexeme} {op : Operator} (htoken : l.token = .op op) (hop : 1 ≤ precedence op)
    (hxlevel : precedence op ≤ x.level) (hylevel : precedence op < y.level)
    (hx : Wrote s start (l :: ls) x) (hy : Wrote s ls rest y) :
    Wrote s start rest (.binary x l.offset op y) := by
  obtain ⟨hxlevelled, used, rfl, hxspells⟩ := hx
  obtain ⟨hylevelled, used', rfl, hyspells⟩ := hy
  refine ⟨by simp [Expr.isLevelled, hop, hxlevel, hylevel, hxlevelled, hylevelled],
    used ++ l :: used', by simp, ?_⟩
  rw [List.map_append, List.map_cons, htoken]
  exact .binary hxspells hyspells

theorem wrote_cond {c : Expr} {l : Lexeme} {colon : Nat} (htoken : l.token = Token.question)
    (hlevel : 1 ≤ c.level) (hc : Wrote s ls (l :: ls₁) c)
    (hx : Wrote s ls₁ (⟨colon, .op .colon⟩ :: ls₂) x) (hy : Wrote s ls₂ rest y) :
    Wrote s ls rest (.cond c x y) := by
  obtain ⟨hclevelled, used, rfl, hcspells⟩ := hc
  obtain ⟨hxlevelled, used', rfl, hxspells⟩ := hx
  obtain ⟨hylevelled, used'', rfl, hyspells⟩ := hy
  refine ⟨by simp [Expr.isLevelled, hlevel, hclevelled, hxlevelled, hylevelled],
    used ++ l :: (used' ++ ⟨colon, .op .colon⟩ :: used''), by simp, ?_⟩
  rw [List.map_append, List.map_cons, List.map_append, List.map_cons, htoken]
  exact .cond hcspells hxspells hyspells

/-- A type in brackets was read. -/
structure Typed (s : Scope) (o : Nat) (spec : TypeSpec) (start ls : Lexemes) : Prop where
  spelled : ∃ used close, start = ⟨o, .op .lparen⟩ :: (used ++ ⟨close, .op .rparen⟩ :: ls) ∧
    SpellsType s (used.map Lexeme.token) spec

/-- A cast to a vector has no round bracket next, which would have been the list of the lanes. -/
theorem wrote_cast {o : Nat} {spec : TypeSpec} {l : Lexeme} (hspec : Typed s o spec start (l :: ls))
    (hplain : l.token = .op .lparen → isVector spec = false) (hlevel : signedLevel ≤ x.level)
    (hx : Wrote s (l :: ls) rest x) : Wrote s start rest (.cast o spec x) := by
  obtain ⟨used, close, rfl, hspec⟩ := hspec
  obtain ⟨hxlevel, used', hused, hspells⟩ := hx
  obtain ⟨t, ht, hopens⟩ := hspells.head?
  have hvector : (isVector spec && x.startsParen) = false := by
    rw [Bool.and_eq_false_imp]
    intro hvector
    rw [Bool.eq_false_iff]
    intro hparen
    cases used' with
    | nil => cases ht
    | cons l' used' =>
      cases hused
      cases ht
      rw [hplain (hopens.paren.mpr hparen)] at hvector
      cases hvector
  refine ⟨by simp [Expr.isLevelled, hlevel, hvector, hxlevel],
    ⟨o, .op .lparen⟩ :: (used ++ ⟨close, .op .rparen⟩ :: used'), by simp [hused], ?_⟩
  rw [List.map_cons, List.map_append, List.map_cons]
  exact .cast hspec hspells

theorem wrote_vectorLit {o brace : Nat} {spec : TypeSpec} {items : List Expr}
    (hspec : Typed s o spec start (⟨brace, .op .lparen⟩ :: ls)) (hvector : isVector spec = true)
    (hitems : WroteAll s .rparen ls rest items) : Wrote s start rest (.vectorLit o spec items) := by
  obtain ⟨used, close, rfl, hspec⟩ := hspec
  obtain ⟨hlevel, used', close', rfl, hspells⟩ := hitems
  refine ⟨by simp [Expr.isLevelled, hvector, hlevel],
    ⟨o, .op .lparen⟩ :: (used ++ ⟨close, .op .rparen⟩ :: ⟨brace, .op .lparen⟩ ::
      (used' ++ [⟨close', .op .rparen⟩])), by simp, ?_⟩
  simp only [List.map_cons, List.map_append, List.map_nil]
  exact .vectorLit hspec hspells

theorem wrote_structLit {o brace : Nat} {spec : TypeSpec} {items : List Expr}
    (hspec : Typed s o spec start (⟨brace, .op .lbrace⟩ :: ls))
    (hitems : WroteAll s .rbrace ls rest items) : Wrote s start rest (.structLit o spec items) := by
  obtain ⟨used, close, rfl, hspec⟩ := hspec
  obtain ⟨hlevel, used', close', rfl, hspells⟩ := hitems
  refine ⟨hlevel, ⟨o, .op .lparen⟩ :: (used ++ ⟨close, .op .rparen⟩ :: ⟨brace, .op .lbrace⟩ ::
      (used' ++ [⟨close', .op .rbrace⟩])), by simp, ?_⟩
  simp only [List.map_cons, List.map_append, List.map_nil]
  exact .structLit hspec hspells

theorem wroteAll_last {closing : Operator} {close : Nat}
    (hx : Wrote s ls (⟨close, .op closing⟩ :: rest) x) : WroteAll s closing ls rest [x] := by
  obtain ⟨hlevel, used, rfl, hspells⟩ := hx
  exact ⟨by simp [Expr.areLevelled, hlevel], used, close, rfl, .last hspells⟩

theorem wroteAll_cons {closing : Operator} {comma : Nat} {xs : List Expr}
    (hx : Wrote s ls (⟨comma, .op .comma⟩ :: ls₁) x) (hxs : WroteAll s closing ls₁ rest xs) :
    WroteAll s closing ls rest (x :: xs) := by
  obtain ⟨hlevel, used, rfl, hspells⟩ := hx
  obtain ⟨hlevel', used', close, rfl, hspells'⟩ := hxs
  refine ⟨by simp [Expr.areLevelled, hlevel, hlevel'], used ++ ⟨comma, .op .comma⟩ :: used', close,
    by simp, ?_⟩
  rw [List.map_append, List.map_cons]
  exact .cons hspells hspells'

/-! ### Readers -/

/-- What is read, if anything is, has a property together with what is left. -/
def Leaves {α : Type} {Q : Lexemes → Prop} (P : α → Lexemes → Prop)
    (r : Except Misparse (α × { rest : Lexemes // Q rest })) : Prop :=
  ∀ x rest, r = .ok (x, rest) → P x rest.val

section
variable {α : Type} {Q : Lexemes → Prop} {P : α → Lexemes → Prop}

theorem leaves_error {e : Misparse} :
    Leaves P (.error e : Except Misparse (α × { rest : Lexemes // Q rest })) := nofun

theorem leaves_ok {x : α} {rest : { rest : Lexemes // Q rest }} (hx : P x rest.val) :
    Leaves P (.ok (x, rest) : Except Misparse (α × { rest : Lexemes // Q rest })) := by
  rintro y rest' h
  cases h
  exact hx

/-- What holds of everything that is read holds of what goes on with it. -/
@[elab_as_elim]
theorem Leaves.elim {r : Except Misparse (α × { rest : Lexemes // Q rest })}
    {motive : Except Misparse (α × { rest : Lexemes // Q rest }) → Prop} (h : Leaves P r)
    (error : ∀ {e}, motive (.error e)) (ok : ∀ x rest hrest, P x rest → motive (.ok (x, ⟨rest, hrest⟩))) :
    motive r := by
  cases r with
  | error e => exact error
  | ok p => exact ok p.1 p.2.1 p.2.2 (h p.1 p.2 rfl)

end

theorem leaves_expectOp (op : Operator) (ls : Lexemes) :
    Leaves (fun o rest => ls = ⟨o, .op op⟩ :: rest) (s.expectOp op ls) := by
  unfold expectOp expect
  split
  · rename_i l ls₁
    split
    · rename_i htoken
      exact leaves_ok (by rw [← htoken])
    · exact leaves_error
  · exact leaves_error

theorem leaves_ident (ls : Lexemes) :
    Leaves (fun id rest => ls = ⟨id.offset, .name id.name⟩ :: rest) (s.ident ls) := by
  unfold ident
  split
  · exact leaves_ok rfl
  · exact leaves_error

theorem eq_of_precedence? {t : Token} {q : Nat} {op : Operator} (h : precedence? t = some (q, op)) :
    t = .op op ∧ q = precedence op ∧ 1 ≤ q ∧ q < signedLevel := by
  unfold precedence? at h
  split at h
  · rename_i o
    cases o <;> cases h <;> exact ⟨rfl, rfl, by decide, by decide⟩
  · cases h

/-! An operand and what follows it, given the readers that they call on shorter inputs. -/

theorem wrote_primary_of
    (hexpr : ∀ ls' : Lexemes, ls'.length < ls.length →
      Leaves (fun x rest => Wrote s ls' rest x) (s.expr ls'))
    (hitems : ∀ ls' : Lexemes, ls'.length < ls.length →
      Leaves (fun xs rest => WroteAll s .rparen ls' rest xs) (s.items .rparen ls')) :
    Leaves (fun x rest => Wrote s ls rest x ∧ closedLevel ≤ x.level) (s.primary ls) := by
  rw [primary.eq_def]
  split
  · rename_i o n ls₁
    split
    · rename_i paren ls₂
      refine (hitems ls₂ (by simp only [List.length_cons]; omega)).elim leaves_error
        fun args ls₃ h₃ hargs => ?_
      exact leaves_ok ⟨wrote_call hargs, Nat.le_refl _⟩
    · exact leaves_ok ⟨⟨rfl, [⟨o, .name n⟩], rfl, @Spells.ident s ⟨o, n⟩⟩, Nat.le_refl _⟩
  · rename_i o t ls₁
    exact leaves_ok ⟨⟨rfl, [⟨o, .int t⟩], rfl, .int⟩, Nat.le_refl _⟩
  · rename_i o t ls₁
    exact leaves_ok ⟨⟨rfl, [⟨o, .float t⟩], rfl, .float⟩, Nat.le_refl _⟩
  · rename_i o ls₁
    refine (hexpr ls₁ (by simp)).elim leaves_error fun x ls₂ h₂ hx => ?_
    dsimp only
    refine (leaves_expectOp .rparen ls₂).elim leaves_error fun close ls₃ h₃ hclose => ?_
    subst hclose
    exact leaves_ok ⟨wrote_paren hx, Nat.le_refl _⟩
  · exact leaves_error

theorem wrote_postfixes_of (hx : Wrote s start ls x) (hclosed : closedLevel ≤ x.level)
    (hexpr : ∀ ls' : Lexemes, ls'.length < ls.length →
      Leaves (fun x rest => Wrote s ls' rest x) (s.expr ls'))
    (hmore : ∀ (y : Expr) (ls' : Lexemes), Wrote s start ls' y → closedLevel ≤ y.level →
      ls'.length < ls.length →
      Leaves (fun z rest => Wrote s start rest z ∧ closedLevel ≤ z.level) (s.postfixes y ls')) :
    Leaves (fun y rest => Wrote s start rest y ∧ closedLevel ≤ y.level) (s.postfixes x ls) := by
  rw [postfixes.eq_def]
  split
  · rename_i bracket ls₁
    refine (hexpr ls₁ (by simp)).elim leaves_error fun i ls₂ h₂ hi => ?_
    dsimp only
    refine (leaves_expectOp .rbrack ls₂).elim leaves_error fun close ls₃ h₃ hclose => ?_
    subst hclose
    dsimp only
    exact (hmore (.index x bracket i) ls₃ (wrote_index hclosed hx hi) (Nat.le_refl _)
      (by simp only [List.length_cons] at h₂ ⊢; omega)).elim leaves_error fun y ls₄ h₄ hy => leaves_ok hy
  · rename_i ls₁
    refine (leaves_ident ls₁).elim leaves_error fun field ls₂ h₂ hfield => ?_
    subst hfield
    dsimp only
    exact (hmore (.select x field) ls₂ (wrote_select hclosed hx) (Nat.le_refl _)
      (by simp only [List.length_cons]; omega)).elim leaves_error fun y ls₃ h₃ hy => leaves_ok hy
  · exact leaves_ok ⟨hx, hclosed⟩

-- The readers call each other, so that what they take is shown together, by recursion on what is left
-- as they do.
mutual

theorem wrote_expr (ls : Lexemes) : Leaves (fun x rest => Wrote s ls rest x) (s.expr ls) := by
  rw [expr]
  refine (wrote_binary_of 1 (by decide) ls).elim leaves_error fun c ls₁ h₁ hc => ?_
  obtain ⟨hc, hlevel, -⟩ := hc
  dsimp only
  split
  · rename_i l ls₂ hless
    have hlt : ls₂.length < ls.length := Nat.lt_of_succ_lt hless
    split
    · rename_i htoken
      refine (wrote_expr ls₂).elim leaves_error fun x ls₃ h₃ hx => ?_
      dsimp only
      refine (leaves_expectOp .colon ls₃).elim leaves_error fun colon ls₄ h₄ hcolon => ?_
      subst hcolon
      dsimp only
      refine (wrote_expr ls₄).elim leaves_error fun y ls₅ h₅ hy => ?_
      exact leaves_ok (wrote_cond htoken hlevel hc hx hy)
    · exact leaves_ok hc
  · exact leaves_ok hc
termination_by 5 * ls.length + 3
decreasing_by all_goals (subst_vars; try simp only [List.length_cons]); omega

/-- Operators that are too loose are left to be read. -/
theorem wrote_binary_of (p : Nat) (hp : 1 ≤ p ∧ p ≤ signedLevel) (ls : Lexemes) :
    Leaves (fun x rest => Wrote s ls rest x ∧ p ≤ x.level ∧ NoOperator p rest) (s.binary p ls) := by
  rw [binary]
  refine (wrote_unary_of ls).elim leaves_error fun x ls₁ h₁ ⟨hx, hlevel⟩ => ?_
  have hnext : NoOperator (x.level + 1) ls₁ := fun l hl q op hq => by
    have := (eq_of_precedence? hq).2.2.2
    omega
  dsimp only
  exact (wrote_binaryRest p hp hx (Nat.le_trans hp.2 hlevel) hnext).elim leaves_error
    fun y ls₂ h₂ hy => leaves_ok hy
termination_by 5 * ls.length + 2
decreasing_by all_goals omega

theorem wrote_binaryRest (p : Nat) (hp : 1 ≤ p ∧ p ≤ signedLevel) {start ls : Lexemes} {x : Expr}
    (hx : Wrote s start ls x) (hlevel : p ≤ x.level) (hnext : NoOperator (x.level + 1) ls) :
    Leaves (fun y rest => Wrote s start rest y ∧ p ≤ y.level ∧ NoOperator p rest)
      (s.binaryRest p x ls) := by
  cases ls with
  | nil =>
    rw [binaryRest]
    exact leaves_ok ⟨hx, hlevel, fun _ => nofun⟩
  | cons l ls₁ =>
    rw [binaryRest]
    split
    · rename_i hnone
      refine leaves_ok ⟨hx, hlevel, fun l' hl' q op hq => ?_⟩
      cases hl'
      rw [hnone] at hq
      cases hq
    · rename_i q op hq
      split
      · rename_i hlt
        refine leaves_ok ⟨hx, hlevel, fun l' hl' q' op' hq' => ?_⟩
        cases hl'
        rw [hq] at hq'
        cases hq'
        exact hlt
      · rename_i hge
        obtain ⟨htoken, hprec, hone, hsigned⟩ := eq_of_precedence? hq
        have hqx : q ≤ x.level := Nat.le_of_lt_succ (hnext l rfl q op hq)
        refine (wrote_binary_of (q + 1) ⟨by omega, hsigned⟩ ls₁).elim leaves_error
          fun y ls₂ h₂ ⟨hy, hylevel, hynext⟩ => ?_
        subst hprec
        have hxy := wrote_binary htoken hone hqx hylevel hx hy
        dsimp only
        exact (wrote_binaryRest p hp hxy (Nat.le_of_not_lt hge) hynext).elim leaves_error
          fun z ls₃ h₃ hz => leaves_ok hz
termination_by 5 * ls.length
decreasing_by all_goals (subst_vars; try simp only [List.length_cons]); omega

theorem wrote_unary_of (ls : Lexemes) :
    Leaves (fun x rest => Wrote s ls rest x ∧ signedLevel ≤ x.level) (s.unary ls) := by
  cases ls with
  | nil =>
    rw [unary]
    exact leaves_error
  | cons l ls₁ =>
    have hlen : (l :: ls₁).length = ls₁.length + 1 := List.length_cons
    rw [unary]
    split
    · rename_i op hop
      refine (wrote_unary_of ls₁).elim leaves_error fun x ls₂ h₂ ⟨hx, hlevel⟩ => ?_
      exact leaves_ok ⟨wrote_unary hop hlevel hx, Nat.le_refl _⟩
    · split
      · rename_i hparen
        rw [Bool.and_eq_true, decide_eq_true_eq] at hparen
        split
        · exact leaves_error
        · rename_i spec ls₂ h₂ hspec
          obtain ⟨used, hused, hspells⟩ := spelled_spec hspec
          refine (leaves_expectOp .rparen ls₂).elim leaves_error fun close ls₃ h₃ hclose => ?_
          have htyped : Typed s l.offset spec (l :: ls₁) ls₃ := by
            refine ⟨used, close, ?_, hspells⟩
            rw [← hparen.1, ← hclose, hused]
          dsimp only
          exact (wrote_afterType htyped).elim leaves_error fun x ls₄ h₄ hx => leaves_ok hx
      · refine (wrote_primary (l :: ls₁)).elim leaves_error fun x ls₂ h₂ ⟨hx, hlevel⟩ => ?_
        dsimp only
        refine (wrote_postfixes hx hlevel).elim leaves_error fun y ls₃ h₃ ⟨hy, hlevel'⟩ => ?_
        exact leaves_ok ⟨hy, Nat.le_trans (by decide) hlevel'⟩
termination_by 5 * ls.length + 1
decreasing_by all_goals (subst_vars; try simp only [List.length_cons]); omega

theorem wrote_afterType {o : Nat} {spec : TypeSpec} {start ls : Lexemes}
    (hspec : Typed s o spec start ls) :
    Leaves (fun x rest => Wrote s start rest x ∧ signedLevel ≤ x.level) (s.afterType o spec ls) := by
  cases ls with
  | nil =>
    rw [afterType]
    exact leaves_error
  | cons l ls₁ =>
    obtain ⟨lo, token⟩ := l
    rw [afterType]
    split
    · rename_i hliteral
      split
      rename_i closing make hkind
      have hmake : ∀ {xs : List Expr} {rest : Lexemes}, WroteAll s closing ls₁ rest xs →
          Wrote s start rest (make xs) ∧ closedLevel ≤ (make xs).level := by
        intro xs rest hxs
        split at hkind
        · rename_i hbrace
          cases hkind
          cases hbrace
          exact ⟨wrote_structLit hspec hxs, Nat.le_refl _⟩
        · rename_i hbrace
          cases hkind
          simp only [hbrace, decide_false, Bool.false_or, Bool.and_eq_true, decide_eq_true_eq] at hliteral
          obtain ⟨rfl, hvector⟩ := hliteral
          exact ⟨wrote_vectorLit hspec hvector hxs, Nat.le_refl _⟩
      refine (wrote_items closing ls₁).elim leaves_error fun xs ls₂ h₂ hxs => ?_
      obtain ⟨hwrote, hlevel⟩ := hmake hxs
      dsimp only
      refine (wrote_postfixes hwrote hlevel).elim leaves_error fun x ls₃ h₃ ⟨hx, hlevel'⟩ => ?_
      exact leaves_ok ⟨hx, Nat.le_trans (by decide) hlevel'⟩
    · rename_i hplain
      refine (wrote_unary_of (⟨lo, token⟩ :: ls₁)).elim leaves_error fun x rest hrest ⟨hx, hlevel⟩ => ?_
      refine leaves_ok ⟨wrote_cast hspec (fun hparen => ?_) hlevel hx, Nat.le_refl _⟩
      simp only [Bool.or_eq_true, Bool.and_eq_true, decide_eq_true_eq, not_or, not_and,
        Bool.not_eq_true] at hplain
      exact hplain.2 hparen
termination_by 5 * ls.length + 2
decreasing_by all_goals (subst_vars; try simp only [List.length_cons]); omega

theorem wrote_items (closing : Operator) (ls : Lexemes) :
    Leaves (fun xs rest => WroteAll s closing ls rest xs) (s.items closing ls) := by
  rw [items]
  split
  · refine (leaves_expectOp closing ls).elim leaves_error fun _ rest hrest hclose => ?_
    exact leaves_ok ⟨rfl, [], _, hclose, .nil⟩
  · refine (wrote_expr ls).elim leaves_error fun x ls₁ h₁ hx => ?_
    dsimp only
    split
    · rename_i _ ls₂ hless
      have hlt : ls₂.length < ls.length := Nat.lt_of_succ_lt hless
      exact (wrote_items closing ls₂).elim leaves_error fun xs ls₃ h₃ hxs => leaves_ok (wroteAll_cons hx hxs)
    · refine (leaves_expectOp closing ls₁).elim leaves_error fun _ ls₂ h₂ hclose => ?_
      subst hclose
      exact leaves_ok (wroteAll_last hx)
termination_by 5 * ls.length + 4
decreasing_by all_goals (subst_vars; try simp only [List.length_cons]); omega

theorem wrote_primary (ls : Lexemes) :
    Leaves (fun x rest => Wrote s ls rest x ∧ closedLevel ≤ x.level) (s.primary ls) :=
  wrote_primary_of (fun ls' _ => wrote_expr ls') (fun ls' _ => wrote_items .rparen ls')
termination_by 5 * ls.length
decreasing_by all_goals omega

theorem wrote_postfixes {start ls : Lexemes} {x : Expr} (hx : Wrote s start ls x)
    (hclosed : closedLevel ≤ x.level) :
    Leaves (fun y rest => Wrote s start rest y ∧ closedLevel ≤ y.level) (s.postfixes x ls) :=
  wrote_postfixes_of hx hclosed (fun ls' _ => wrote_expr ls')
    (fun _ _ hy hlevel _ => wrote_postfixes hy hlevel)
termination_by 5 * ls.length
decreasing_by all_goals omega

end

/-! ### The grammar -/

/-- The parser accepts exactly the expressions of the grammar.  Trees can be written down; whatever
tokens write a levelled tree without names of types, followed by something that does not continue it,
are read as this tree, up to where they end; and whatever was read as a tree writes it down, and the
tree is levelled. -/
theorem parses_precedence_grammar (s : Scope) :
    (∀ e : Expr, e.isWritable s = true → s.Spells e.tokens e) ∧
    (∀ (e : Expr) (ts us : List Token), e.isLevelled = true →
      (∀ n ∈ e.names, s.startsType (.name n) = false) → s.Spells ts e → Stops e us →
      Reads s.expr (ts ++ us) us fun x => x.bare = e.bare) ∧
    ∀ (ls : Lexemes) (x : Expr) (rest : Lexemes), Gives (s.expr ls) x rest →
      x.isLevelled = true ∧ ∃ used, ls = used ++ rest ∧ s.Spells (used.map Lexeme.token) x := by
  refine ⟨fun e he => spells_tokens he, ?_, ?_⟩
  · intro e ts us hlevel hnames hspells hend
    exact (hspells.readable hlevel hnames).whole hend
  · rintro ls x rest ⟨h, hx⟩
    have hwrote := wrote_expr ls x ⟨rest, h⟩ hx
    exact ⟨hwrote.levelled, hwrote.spelled⟩

/-- A conditional with operators of several levels, an index, a field, and literals. -/
def mixedExpr : Expr :=
  .cond (.binary (.ident ⟨0, "a"⟩) 0 .lss (.ident ⟨0, "b"⟩))
    (.binary (.binary (.ident ⟨0, "a"⟩) 0 .sub (.unary 0 .sub (.ident ⟨0, "b"⟩))) 0 .sub
      (.binary (.cast 0 { offset := 0, name := "int" } (.paren 0 (.ident ⟨0, "c"⟩))) 0 .mul
        (.select (.index (.ident ⟨0, "d"⟩) 0 (.number 0 .int "1")) ⟨0, "first"⟩)))
    (.select (.structLit 0 { offset := 0, name := "_pair_t" }
      [.vectorLit 0 { offset := 0, name := "float4" } [.number 0 .float "1.0f"],
        .call ⟨0, "f"⟩ 0 [.ident ⟨0, "a"⟩, .ident ⟨0, "b"⟩]]) ⟨0, "second"⟩)

/-- Where one structure has been declared. -/
def pairScope : Scope := { finish := 0, typedefs := ["_pair_t"] }

theorem parses_mixed_expression :
    (mixedExpr.isWritable pairScope = true ∧ mixedExpr.isLevelled = true ∧
      ∀ n ∈ mixedExpr.names, pairScope.startsType (.name n) = false) ∧
    Reads pairScope.expr (mixedExpr.tokens ++ [.op .semicolon]) [.op .semicolon]
      fun x => x.bare = mixedExpr.bare := by
  have hwritable : mixedExpr.isWritable pairScope = true := by decide +kernel
  have hlevel : mixedExpr.isLevelled = true := by decide +kernel
  have hnames : ∀ n ∈ mixedExpr.names, pairScope.startsType (.name n) = false := by decide +kernel
  obtain ⟨hspells, hreads, -⟩ := parses_precedence_grammar pairScope
  exact ⟨⟨hwritable, hlevel, hnames⟩,
    hreads mixedExpr _ _ hlevel hnames (hspells _ hwritable) (stops_cons rfl [])⟩

end KernelForge.Code.Scope
