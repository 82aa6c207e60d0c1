/-
Reading what the grammar writes.

The parser climbs: it reads an operand, and then takes operators as long as they are tight enough.
When the first operand of an operation is itself one, nothing in the parser corresponds to that
operand; the climb just goes on.  So what is shown of an expression here does not say that some
reader reads it and stops, but that reading it and then whatever follows is the same as going on
after it, and this in four strengths, from operands that an index may follow to expressions with a
condition.  Each strength implies the weaker ones, and a tree has the one of its level.
-/
import KernelForge.Proofs.Code.TypePhrases

namespace KernelForge.Code.Scope

variable {s : Scope} {ts us vs ws : List Token} {P Q R : Expr → Prop} {e x y : Expr}

/-! ### What follows -/

/-- Nothing follows an operand that would become a part of it. -/
structure Parts (e : Expr) (us : List Token) : Prop where
  brack : us.head? ≠ some (.op .lbrack)
  period : us.head? ≠ some (.op .period)
  paren : e.endsInName = true → us.head? ≠ some (.op .lparen)

/-- Nothing follows an expression that would extend it. -/
structure Stops (e : Expr) (us : List Token) : Prop extends Parts e us where
  operator : ∀ t, us.head? = some t → precedence? t = none
  question : us.head? ≠ some Token.question

theorem Parts.of_endsInName (h : Parts e us) (heq : e.endsInName = x.endsInName) : Parts x us :=
  ⟨h.brack, h.period, fun hx => h.paren (heq ▸ hx)⟩

theorem Stops.of_endsInName (h : Stops e us) (heq : e.endsInName = x.endsInName) : Stops x us :=
  ⟨h.toParts.of_endsInName heq, h.operator, h.question⟩

/-- The tokens with which an operand goes on. -/
def postfixTokens : List Token := [.op .lbrack, .op .period, .op .lparen]

/-- Tests whether a token could continue an expression. -/
def continues (t : Token) : Bool :=
  postfixTokens.contains t || decide (t = Token.question) || (precedence? t).isSome

theorem parts_cons {t : Token} (h : postfixTokens.contains t = false) (us : List Token) :
    Parts e (t :: us) := by
  simp only [postfixTokens, List.contains_cons, List.contains_nil, Bool.or_false,
    Bool.or_eq_false_iff, beq_eq_false_iff_ne] at h
  exact ⟨fun heq => h.1 (Option.some.inj heq), fun heq => h.2.1 (Option.some.inj heq),
    fun _ heq => h.2.2 (Option.some.inj heq)⟩

theorem stops_cons {t : Token} (h : continues t = false) (us : List Token) : Stops e (t :: us) := by
  rw [continues, Bool.or_eq_false_iff, Bool.or_eq_false_iff, decide_eq_false_iff_not,
    Option.isSome_eq_false_iff, Option.isNone_iff_eq_none] at h
  refine ⟨parts_cons h.1.1 us, fun t' ht' => ?_, fun heq => h.1.2 (Option.some.inj heq)⟩
  cases ht'
  exact h.2

/-! ### Strengths -/

/-- How an expression that some tokens write can be read, as far as its level goes. -/
structure Readable (s : Scope) (ts : List Token) (e : Expr) : Prop where
  /-- As what an index or a field may follow. -/
  closed : closedLevel ≤ e.level → ∀ {us vs : List Token} {Q : Expr → Prop},
    (e.endsInName = true → us.head? ≠ some (.op .lparen)) →
    (∀ x, x.bare = e.bare → Reads (s.postfixes x) us vs Q) → Reads s.unary (ts ++ us) vs Q
  /-- As the operand of a sign or a cast. -/
  operand : signedLevel ≤ e.level → ∀ {us : List Token}, Parts e us →
    Reads s.unary (ts ++ us) us (·.bare = e.bare)
  /-- As the first operand of operators that are no tighter than it is. -/
  chain : ∀ {p : Nat}, 1 ≤ p → p ≤ e.level → ∀ {us vs : List Token} {Q : Expr → Prop}, Parts e us →
    (∀ t q op, us.head? = some t → precedence? t = some (q, op) → q ≤ e.level) →
    (∀ x, x.bare = e.bare → Reads (s.binaryRest p x) us vs Q) → Reads (s.binary p) (ts ++ us) vs Q
  /-- As an expression by itself. -/
  whole : ∀ {us : List Token}, Stops e us → Reads s.expr (ts ++ us) us (·.bare = e.bare)

/-- A conditional is no operand. -/
theorem readable_of_whole (hlevel : e.level = 0)
    (h : ∀ {us : List Token}, Stops e us → Reads s.expr (ts ++ us) us (·.bare = e.bare)) :
    Readable s ts e where
  closed := fun hle => by simp [hlevel, closedLevel] at hle
  operand := fun hle => by simp [hlevel, signedLevel] at hle
  chain := fun hp hle => by omega
  whole := h

theorem readable_of_chain (hlevel : 1 ≤ e.level ∧ e.level < signedLevel)
    (h : ∀ {p : Nat}, 1 ≤ p → p ≤ e.level → ∀ {us vs : List Token} {Q : Expr → Prop}, Parts e us →
      (∀ t q op, us.head? = some t → precedence? t = some (q, op) → q ≤ e.level) →
      (∀ x, x.bare = e.bare → Reads (s.binaryRest p x) us vs Q) → Reads (s.binary p) (ts ++ us) vs Q) :
    Readable s ts e where
  closed := fun hle => by simp only [closedLevel, signedLevel] at hle hlevel; omega
  operand := fun hle => by simp only [signedLevel] at hle hlevel; omega
  chain := h
  whole := by
    intro us hus
    refine reads_expr (h (Nat.le_refl _) hlevel.1 hus.toParts ?_ fun x hx => ?_) hus.question
    · intro t q op ht hq
      rw [hus.operator t ht] at hq
      cases hq
    · refine (reads_no_operator fun t q op ht hq => ?_).mono fun y hy => hy ▸ hx
      rw [hus.operator t ht] at hq
      cases hq

theorem reads_expr_of_operand (h : Reads s.unary ts us (·.bare = e.bare)) (hus : Stops e us) :
    Reads s.expr ts us (·.bare = e.bare) := by
  refine reads_expr (reads_binary h fun x hx => ?_) hus.question
  refine (reads_no_operator fun t q op ht hq => ?_).mono fun y hy => hy ▸ hx
  rw [hus.operator t ht] at hq
  cases hq

theorem readable_of_operand (hlevel : e.level = signedLevel)
    (h : ∀ {us : List Token}, Parts e us → Reads s.unary (ts ++ us) us (·.bare = e.bare)) :
    Readable s ts e where
  closed := fun hle => by simp [hlevel, closedLevel, signedLevel] at hle
  operand := fun _ => h
  chain := by
    intro p _ _ us vs Q hus _ hrest
    exact reads_binary (h hus) hrest
  whole := fun hus => reads_expr_of_operand (h hus.toParts) hus

theorem readable_of_closed
    (h : ∀ {us vs : List Token} {Q : Expr → Prop},
      (e.endsInName = true → us.head? ≠ some (.op .lparen)) →
      (∀ x, x.bare = e.bare → Reads (s.postfixes x) us vs Q) → Reads s.unary (ts ++ us) vs Q) :
    Readable s ts e := by
  have hoperand : ∀ {us : List Token}, Parts e us → Reads s.unary (ts ++ us) us (·.bare = e.bare) :=
    fun {us} hus => h hus.paren fun x hx =>
      (reads_postfixes_nil hus.brack hus.period).mono fun y hy => hy ▸ hx
  refine ⟨fun _ => h, fun _ => hoperand, ?_, fun hus => reads_expr_of_operand (hoperand hus.toParts) hus⟩
  intro p _ _ us vs Q hus _ hrest
  exact reads_binary (hoperand hus) hrest

/-! ### Types in brackets -/

theorem isVector_of_bare {spec spec' : TypeSpec} (h : spec'.bare = spec.bare) :
    isVector spec' = isVector spec := by
  simp only [TypeSpec.bare, TypeSpec.mk.injEq] at h
  rw [isVector, isVector, h.2.1, h.2.2.2.2]

theorem startsType_of_isQualifier {t : Token} (h : isQualifier t = true) : s.startsType t = true := by
  unfold isQualifier at h
  split at h
  · rfl
  · rw [startsType, h, Bool.true_or]
  · cases h

theorem typeAhead_of_head {t : Token} (h : ts.head? = some t) (us : List Token) :
    s.typeAhead (ts ++ us) = s.startsType t := by
  rw [typeAhead, head?_append_cons h, Option.any_some]

/-- A type is told from an expression by its first token. -/
theorem typeAhead_of_spellsType {spec : TypeSpec} (h : SpellsType s ts spec) (us : List Token) :
    s.typeAhead (ts ++ us) = true := by
  obtain ⟨before, words, after, star, rfl, hqs, hwords, -⟩ := h
  cases before with
  | cons q before =>
    rw [typeAhead_of_head rfl]
    exact startsType_of_isQualifier (hqs q List.mem_cons_self)
  | nil =>
    generalize spec.name = name at hwords
    cases hwords with
    | single hword _ =>
      rw [typeAhead_of_head rfl, startsType, hword, Bool.or_true]
    | pair _ => rfl

/-- An expression is told from a type by its first token. -/
theorem typeAhead_of_spells (h : s.Spells ts e) (hnames : ∀ n ∈ e.names, s.startsType (.name n) = false)
    (us : List Token) : s.typeAhead (ts ++ us) = false := by
  obtain ⟨t, ht, hopens⟩ := h.head?
  rw [typeAhead_of_head ht]
  cases t with
  | name n => exact hnames n (hopens.name n rfl)
  | keyword k => exact absurd rfl (hopens.keyword k)
  | _ => rfl

/-! ### Trees -/

theorem readable_ident {id : Ident} : Readable s [.name id.name] (.ident id) :=
  readable_of_closed fun hparen hrest => by
    refine reads_operand rfl nofun (reads_name (hparen rfl)) ?_
    rintro _ ⟨o, rfl⟩
    exact hrest _ rfl

theorem readable_int {o : Nat} {t : String} : Readable s [.int t] (.number o .int t) :=
  readable_of_closed fun _ hrest => by
    refine reads_operand rfl nofun reads_number ?_
    rintro _ ⟨o', rfl⟩
    exact hrest _ rfl

theorem readable_float {o : Nat} {t : String} : Readable s [.float t] (.number o .float t) :=
  readable_of_closed fun _ hrest => by
    refine reads_operand rfl nofun reads_real ?_
    rintro _ ⟨o', rfl⟩
    exact hrest _ rfl

theorem readable_paren {o : Nat} (hahead : ∀ us, s.typeAhead (ts ++ us) = false)
    (hx : Readable s ts x) : Readable s (.op .lparen :: (ts ++ [Token.op .rparen])) (.paren o x) :=
  readable_of_closed fun _ hrest => by
    rw [List.cons_append, List.append_assoc]
    refine reads_operand rfl (fun _ => hahead _)
      (reads_paren (hx.whole (stops_cons rfl _))) ?_
    rintro _ ⟨o', y, rfl, hy⟩
    exact hrest _ (congrArg (Expr.paren 0) hy)

theorem readable_index {o : Nat} {i : Expr} (hlevel : closedLevel ≤ x.level) (hx : Readable s ts x)
    (hi : Readable s us i) :
    Readable s (ts ++ Token.op .lbrack :: (us ++ [Token.op .rbrack])) (.index x o i) :=
  readable_of_closed fun _ hrest => by
    rw [List.append_assoc, List.cons_append, List.append_assoc]
    refine hx.closed hlevel nofun fun y hy =>
      reads_index (hi.whole (stops_cons rfl _)) fun o' j hj => hrest _ ?_
    show Expr.index y.bare 0 j.bare = .index x.bare 0 i.bare
    rw [hy, hj]

theorem readable_select {field : Ident} (hlevel : closedLevel ≤ x.level) (hx : Readable s ts x) :
    Readable s (ts ++ [Token.op .period, .name field.name]) (.select x field) :=
  readable_of_closed fun _ hrest => by
    rw [List.append_assoc]
    refine hx.closed hlevel nofun fun y hy => reads_select fun o => hrest _ ?_
    exact congrArg (Expr.select · field.bare) hy

/-! ### Lists -/

/-- The brackets that end a list. -/
def Closing (o : Operator) : Prop := o = .rparen ∨ o = .rbrace

/-- How a list that some tokens write can be read. -/
def ReadableAll (s : Scope) (ts : List Token) (es : List Expr) : Prop :=
  ∀ {closing : Operator}, Closing closing → ∀ us : List Token,
    Reads (s.items closing) (ts ++ .op closing :: us) us fun xs => Expr.allBare xs = Expr.allBare es

theorem stops_closing {closing : Operator} (h : Closing closing) (us : List Token) :
    Stops e (.op closing :: us) := by
  obtain rfl | rfl := h <;> exact stops_cons rfl us

theorem head?_ne_closing {closing : Operator} (h : Closing closing) (hspells : s.Spells ts e)
    (us : List Token) : (ts ++ us).head? ≠ some (.op closing) := by
  obtain ⟨t, ht, hopens⟩ := hspells.head?
  rw [head?_append_cons ht]
  rintro heq
  cases heq
  obtain rfl | rfl := h
  · exact hopens.bracket.1 rfl
  · exact hopens.bracket.2.1 rfl

theorem readableAll_nil : ReadableAll s [] [] :=
  fun _ _ => reads_items_nil.mono fun xs hxs => by rw [hxs]

theorem readableAll_last (hspells : s.Spells ts x) (hx : Readable s ts x) :
    ReadableAll s ts [x] := by
  intro closing hclosing us
  have hne : closing ≠ .comma := by
    obtain rfl | rfl := hclosing <;> nofun
  refine (reads_items_last hne (head?_ne_closing hclosing hspells _)
    (hx.whole (stops_closing hclosing us))).mono ?_
  rintro _ ⟨y, rfl, hy⟩
  rw [Expr.allBare, Expr.allBare, Expr.allBare, Expr.allBare, hy]

theorem readableAll_cons {xs : List Expr} (hspells : s.Spells ts x) (hx : Readable s ts x)
    (hxs : ReadableAll s us xs) : ReadableAll s (ts ++ Token.op .comma :: us) (x :: xs) := by
  intro closing hclosing vs
  rw [List.append_assoc, List.cons_append]
  refine (reads_items_cons (head?_ne_closing hclosing hspells _)
    (hx.whole (stops_cons rfl _)) (hxs hclosing vs)).mono ?_
  rintro _ ⟨y, ys, rfl, hy, hys⟩
  show y.bare :: Expr.allBare ys = x.bare :: Expr.allBare xs
  rw [hy, hys]

theorem readable_call {fn : Ident} {paren : Nat} {args : List Expr} (h : ReadableAll s ts args) :
    Readable s (.name fn.name :: .op .lparen :: (ts ++ [Token.op .rparen])) (.call fn paren args) :=
  readable_of_closed fun _ hrest => by
    rw [List.cons_append, List.cons_append, List.append_assoc]
    refine reads_operand rfl nofun (reads_call (h (.inl rfl) _)) ?_
    rintro _ ⟨o, paren', xs, rfl, hxs⟩
    exact hrest _ (congrArg (Expr.call fn.bare 0) hxs)

theorem readable_vectorLit {o : Nat} {spec : TypeSpec} {items : List Expr}
    (hspec : SpellsType s ts spec) (hvector : isVector spec = true) (hitems : ReadableAll s us items) :
    Readable s (.op .lparen :: (ts ++ Token.op .rparen :: .op .lparen :: (us ++ [Token.op .rparen])))
      (.vectorLit o spec items) :=
  readable_of_closed fun _ hrest => by
    simp only [List.cons_append, List.append_assoc]
    refine reads_vectorLit (typeAhead_of_spellsType hspec _) (reads_spec hspec)
      (fun spec' hspec' => (isVector_of_bare hspec').trans hvector) (hitems (.inl rfl) _)
      fun o' spec' xs hspec' hxs => hrest _ ?_
    show Expr.vectorLit 0 spec'.bare (Expr.allBare xs) = .vectorLit 0 spec.bare (Expr.allBare items)
    rw [hspec', hxs]

theorem readable_structLit {o : Nat} {spec : TypeSpec} {items : List Expr}
    (hspec : SpellsType s ts spec) (hitems : ReadableAll s us items) :
    Readable s (.op .lparen :: (ts ++ Token.op .rparen :: .op .lbrace :: (us ++ [Token.op .rbrace])))
      (.structLit o spec items) :=
  readable_of_closed fun _ hrest => by
    simp only [List.cons_append, List.append_assoc]
    refine reads_structLit (typeAhead_of_spellsType hspec _) (reads_spec hspec) (hitems (.inr rfl) _)
      fun o' spec' xs hspec' hxs => hrest _ ?_
    show Expr.structLit 0 spec'.bare (Expr.allBare xs) = .structLit 0 spec.bare (Expr.allBare items)
    rw [hspec', hxs]

/-! ### Operations -/

theorem readable_unary {o : Nat} {t : Token} {op : Operator} (ht : unaryOp? t = some op)
    (hlevel : signedLevel ≤ x.level) (hx : Readable s ts x) :
    Readable s (t :: ts) (.unary o op x) :=
  readable_of_operand rfl fun hus => by
    refine (reads_unary ht (hx.operand hlevel (hus.of_endsInName rfl))).mono ?_
    rintro _ ⟨o', y, rfl, hy⟩
    exact congrArg (Expr.unary 0 op) hy

theorem readable_cast {o : Nat} {spec : TypeSpec} (hspec : SpellsType s ts spec)
    (hlevel : signedLevel ≤ x.level) (hplain : isVector spec = true → x.startsParen = false)
    (hspells : s.Spells us x) (hx : Readable s us x) :
    Readable s (.op .lparen :: (ts ++ .op .rparen :: us)) (.cast o spec x) :=
  readable_of_operand rfl fun {vs} hvs => by
    obtain ⟨t, ht, hopens⟩ := hspells.head?
    obtain ⟨us', rfl⟩ := List.head?_eq_some_iff.mp ht
    have hoperand := hx.operand hlevel (hvs.of_endsInName rfl)
    simp only [List.cons_append, List.append_assoc] at hoperand ⊢
    refine (reads_cast (typeAhead_of_spellsType hspec _) (reads_spec hspec) hopens.bracket.2.2
      (fun hparen spec' hspec' => ?_) hoperand).mono ?_
    · rw [isVector_of_bare hspec', Bool.eq_false_iff]
      intro hvector
      rw [hopens.paren.mp hparen] at hplain
      cases hplain hvector
    · rintro _ ⟨o', spec', y, rfl, hspec', hy⟩
      show Expr.cast 0 spec'.bare y.bare = .cast 0 spec.bare x.bare
      rw [hspec', hy]

theorem precedence_lt_signedLevel (op : Operator) : precedence op < signedLevel := by
  cases op <;> decide

/-- An operator with a precedence may stand between operands. -/
theorem precedence?_eq {op : Operator} (h : 1 ≤ precedence op) :
    precedence? (.op op) = some (precedence op, op) := by
  cases op <;> first | rfl | exact absurd h (by decide)

theorem not_postfix_of_precedence {op : Operator} (h : 1 ≤ precedence op) :
    postfixTokens.contains (.op op) = false := by
  cases op <;> first | rfl | exact absurd h (by decide)

theorem readable_binary {o : Nat} {op : Operator} (hop : 1 ≤ precedence op)
    (hxlevel : precedence op ≤ x.level) (hylevel : precedence op < y.level) (hx : Readable s ts x)
    (hy : Readable s us y) : Readable s (ts ++ .op op :: us) (.binary x o op y) := by
  refine readable_of_chain ⟨hop, precedence_lt_signedLevel op⟩ ?_
  intro p hp hle vs ws Q hvs hnext hrest
  have hop? := precedence?_eq hop
  rw [List.append_assoc, List.cons_append]
  refine hx.chain hp (Nat.le_trans hle hxlevel) (parts_cons (not_postfix_of_precedence hop) _) ?_
    fun x' hx' => ?_
  · intro t q op' ht hq
    cases ht
    rw [hop?] at hq
    cases hq
    exact hxlevel
  -- The second operand takes only operators that are tighter, and none of these follows.
  · have hright : Reads (s.binary (precedence op + 1)) (us ++ vs) vs (·.bare = y.bare) :=
      hy.chain (Nat.le_add_left 1 _) hylevel (hvs.of_endsInName rfl)
        (fun t q op' ht hq => Nat.le_of_lt (Nat.lt_of_le_of_lt (hnext t q op' ht hq) hylevel))
        fun y' hy' => (reads_no_operator fun t q op' ht hq =>
          Nat.lt_succ_of_le (hnext t q op' ht hq)).mono fun z hz => hz ▸ hy'
    refine reads_operator hop? hle hright fun o' y' hy' => hrest _ ?_
    show Expr.binary x'.bare 0 op y'.bare = .binary x.bare 0 op y.bare
    rw [hx', hy']

theorem readable_cond {c : Expr} (hlevel : 1 ≤ c.level) (hc : Readable s ts c) (hx : Readable s us x)
    (hy : Readable s vs y) :
    Readable s (ts ++ Token.question :: (us ++ .op .colon :: vs)) (.cond c x y) := by
  refine readable_of_whole rfl fun {ws} hws => ?_
  simp only [List.append_assoc, List.cons_append]
  have htest : Reads (s.binary 1) (ts ++ Token.question :: (us ++ .op .colon :: (vs ++ ws)))
      (Token.question :: (us ++ .op .colon :: (vs ++ ws))) (·.bare = c.bare) :=
    hc.chain (Nat.le_refl _) hlevel (parts_cons rfl _)
      (fun t q op ht hq => by cases ht; cases hq)
      fun c' hc' => (reads_no_operator fun t q op ht hq => by cases ht; cases hq).mono
        fun z hz => hz ▸ hc'
  refine (reads_cond htest (hx.whole (stops_cons rfl _))
    (hy.whole (hws.of_endsInName rfl))).mono ?_
  rintro _ ⟨c', x', y', rfl, hc', hx', hy'⟩
  show Expr.cond c'.bare x'.bare y'.bare = .cond c.bare x.bare y.bare
  rw [hc', hx', hy']

/-! ### All trees -/

/-- No name of an expression starts a type. -/
def Plain (s : Scope) (names : List String) : Prop := ∀ n ∈ names, s.startsType (.name n) = false

theorem Plain.left {ns ms : List String} (h : Plain s (ns ++ ms)) : Plain s ns :=
  fun n hn => h n (List.mem_append_left _ hn)

theorem Plain.right {ns ms : List String} (h : Plain s (ns ++ ms)) : Plain s ms :=
  fun n hn => h n (List.mem_append_right _ hn)

mutual

/-- A levelled tree without names of types is read from the tokens that write it. -/
theorem Spells.readable : ∀ {ts : List Token} {e : Expr}, s.Spells ts e → e.isLevelled = true →
    Plain s e.names → Readable s ts e
  | _, _, .ident, _, _ => readable_ident
  | _, _, .int, _, _ => readable_int
  | _, _, .float, _, _ => readable_float
  | _, _, .unary ht hx, hlevel, hnames => by
    rw [Expr.isLevelled, Bool.and_eq_true, decide_eq_true_eq] at hlevel
    exact readable_unary ht hlevel.1 (hx.readable hlevel.2 hnames)
  | _, _, .binary hx hy, hlevel, hnames => by
    simp only [Expr.isLevelled, Bool.and_eq_true, decide_eq_true_eq] at hlevel
    obtain ⟨⟨⟨⟨hop, hxlevel⟩, hylevel⟩, hx'⟩, hy'⟩ := hlevel
    exact readable_binary hop hxlevel hylevel (hx.readable hx' hnames.left)
      (hy.readable hy' hnames.right)
  | _, _, .cond hc hx hy, hlevel, hnames => by
    simp only [Expr.isLevelled, Bool.and_eq_true, decide_eq_true_eq] at hlevel
    obtain ⟨⟨⟨hclevel, hc'⟩, hx'⟩, hy'⟩ := hlevel
    exact readable_cond hclevel (hc.readable hc' hnames.left)
      (hx.readable hx' hnames.right.left) (hy.readable hy' hnames.right.right)
  | _, _, .call hargs, hlevel, hnames =>
    readable_call (hargs.readable hlevel fun n hn => hnames n (List.mem_cons_of_mem _ hn))
  | _, _, .cast hspec hx, hlevel, hnames => by
    simp only [Expr.isLevelled, Bool.and_eq_true, decide_eq_true_eq, Bool.not_eq_true',
      Bool.and_eq_false_imp] at hlevel
    exact readable_cast hspec hlevel.1.1 hlevel.1.2 hx (hx.readable hlevel.2 hnames)
  | _, _, .vectorLit hspec hitems, hlevel, hnames => by
    rw [Expr.isLevelled, Bool.and_eq_true] at hlevel
    exact readable_vectorLit hspec hlevel.1 (hitems.readable hlevel.2 hnames)
  | _, _, .structLit hspec hitems, hlevel, hnames =>
    readable_structLit hspec (hitems.readable hlevel hnames)
  | _, _, .index hx hi, hlevel, hnames => by
    simp only [Expr.isLevelled, Bool.and_eq_true, decide_eq_true_eq] at hlevel
    exact readable_index hlevel.1.1 (hx.readable hlevel.1.2 hnames.left)
      (hi.readable hlevel.2 hnames.right)
  | _, _, .select hx, hlevel, hnames => by
    rw [Expr.isLevelled, Bool.and_eq_true, decide_eq_true_eq] at hlevel
    exact readable_select hlevel.1 (hx.readable hlevel.2 hnames)
  | _, _, .paren hx, hlevel, hnames =>
    readable_paren (typeAhead_of_spells hx hnames) (hx.readable hlevel hnames)

theorem SpellsAll.readable : ∀ {ts : List Token} {es : List Expr}, s.SpellsAll ts es →
    Expr.areLevelled es = true → Plain s (Expr.allNames es) → ReadableAll s ts es
  | _, _, .nil, _, _ => readableAll_nil
  | _, _, .last hx, hlevel, hnames => by
    rw [Expr.areLevelled, Bool.and_eq_true] at hlevel
    exact readableAll_last hx (hx.readable hlevel.1 hnames.left)
  | _, _, .cons hx hxs, hlevel, hnames => by
    rw [Expr.areLevelled, Bool.and_eq_true] at hlevel
    exact readableAll_cons hx (hx.readable hlevel.1 hnames.left)
      (hxs.readable hlevel.2 hnames.right)

end

end KernelForge.Code.Scope
