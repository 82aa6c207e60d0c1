/-
The grammar of expressions.

An expression is written down as a sequence of tokens, and which sequences mean which trees is said
here without the parser.  The levels of the trees say what may be an operand of what: an operand on
the left of an operator holds together at least as tightly as the operator does, one on the right
more tightly, the operand of a sign or a cast is no operation between two, and what an index or a
field follows is a name, a number, a call, a literal or something in brackets.

A tree may be written in more ways than one.  The last expression of a list may be followed by a
comma, and the qualifiers of a type stand in any order, before its name or after it, some of them
meaning nothing.  One of the ways is picked for each tree.
-/
import KernelForge.Proofs.Code.Reading

namespace KernelForge.Code

open Scope (precedence? unaryOp? isVector isQualifier qualified)

/-! ### Levels -/

/-- The precedence of an operator between two operands, and zero for other operators. -/
def precedence (op : Operator) : Nat := (precedence? (.op op)).elim 0 Prod.fst

/-- The level of operands with a sign or a cast: they are tighter than every operator. -/
def signedLevel : Nat := 11

/-- The level of what an index or a field may follow. -/
def closedLevel : Nat := 12

namespace Expr

/-- How tightly an expression holds together. -/
def level : Expr → Nat
  | cond _ _ _ => 0
  | binary _ _ op _ => precedence op
  | unary _ _ _ => signedLevel
  | cast _ _ _ => signedLevel
  | _ => closedLevel

/-- Tests whether an expression is written with a round bracket first. -/
def startsParen : Expr → Bool
  | binary x _ _ _ => x.startsParen
  | cond c _ _ => c.startsParen
  | cast _ _ _ | vectorLit _ _ _ | structLit _ _ _ | paren _ _ => true
  | index x _ _ => x.startsParen
  | select x _ => x.startsParen
  | ident _ | number _ _ _ | unary _ _ _ | call _ _ _ => false

/-- Tests whether an expression is written with a name last that a list of arguments could follow. -/
def endsInName : Expr → Bool
  | ident _ => true
  | unary _ _ x => x.endsInName
  | binary _ _ _ y => y.endsInName
  | cond _ _ y => y.endsInName
  | cast _ _ x => x.endsInName
  | _ => false

mutual

/-- Every operand is of a level that its place allows. -/
def isLevelled : Expr → Bool
  | ident _ => true
  | number _ _ _ => true
  | unary _ _ x => signedLevel ≤ x.level && x.isLevelled
  | binary x _ op y =>
    1 ≤ precedence op && precedence op ≤ x.level && precedence op < y.level &&
      x.isLevelled && y.isLevelled
  | cond c x y => 1 ≤ c.level && c.isLevelled && x.isLevelled && y.isLevelled
  | call _ _ args => areLevelled args
  | cast _ spec x =>
    signedLevel ≤ x.level && !(isVector spec && x.startsParen) && x.isLevelled
  | vectorLit _ spec items => isVector spec && areLevelled items
  | structLit _ _ items => areLevelled items
  | index x _ i => closedLevel ≤ x.level && x.isLevelled && i.isLevelled
  | select x _ => closedLevel ≤ x.level && x.isLevelled
  | paren _ x => x.isLevelled

def areLevelled : List Expr → Bool
  | [] => true
  | x :: xs => x.isLevelled && areLevelled xs

end

mutual

/-- The names of variables and functions in an expression. -/
def names : Expr → List String
  | ident id => [id.name]
  | number _ _ _ => []
  | unary _ _ x => x.names
  | binary x _ _ y => x.names ++ y.names
  | cond c x y => c.names ++ (x.names ++ y.names)
  | call fn _ args => fn.name :: allNames args
  | cast _ _ x => x.names
  | vectorLit _ _ items => allNames items
  | structLit _ _ items => allNames items
  | index x _ i => x.names ++ i.names
  | select x _ => x.names
  | paren _ x => x.names

def allNames : List Expr → List String
  | [] => []
  | x :: xs => x.names ++ allNames xs

end

end Expr

/-! ### Trees without positions -/

def Ident.bare (id : Ident) : Ident := { id with offset := 0 }

def TypeSpec.bare (spec : TypeSpec) : TypeSpec := { spec with offset := 0 }

namespace Expr

mutual

/-- An expression of which it is forgotten where its parts stand. -/
def bare : Expr → Expr
  | ident id => ident id.bare
  | number _ kind text => number 0 kind text
  | unary _ op x => unary 0 op x.bare
  | binary x _ op y => binary x.bare 0 op y.bare
  | cond c x y => cond c.bare x.bare y.bare
  | call fn _ args => call fn.bare 0 (allBare args)
  | cast _ spec x => cast 0 spec.bare x.bare
  | vectorLit _ spec items => vectorLit 0 spec.bare (allBare items)
  | structLit _ spec items => structLit 0 spec.bare (allBare items)
  | index x _ i => index x.bare 0 i.bare
  | select x field => select x.bare field.bare
  | paren _ x => paren 0 x.bare

def allBare : List Expr → List Expr
  | [] => []
  | x :: xs => x.bare :: allBare xs

end

end Expr

/-! ### Types -/

namespace Scope

/-- The words that `unsigned` forms a type with. -/
def unsignedTails : List String := ["char", "short", "int", "long"]

/-- The words that name a type: one, or two of which the first is `unsigned`. -/
inductive TypeWords (s : Scope) : List Token → String → Prop
  | single {w : String} (hw : s.isTypeWord w = true) (hplain : isQualifier (.name w) = false) :
      TypeWords s [.name w] w
  | pair {w : String} (hw : w ∈ unsignedTails) :
      TypeWords s [.name "unsigned", .name w] ("unsigned" ++ " " ++ w)

/-- What may follow the name of a type: nothing, or a star with qualifiers that mean nothing. -/
inductive Star : List Token → Bool → Prop
  | value : Star [] false
  | pointer {qs : List Token} (hqs : ∀ q ∈ qs, q = .keyword .const ∨ q = .name "restrict") :
      Star (.op .mul :: qs) true

/-- Tokens that write a type down: qualifiers before and after its name, and perhaps a star. -/
structure SpellsType (s : Scope) (ts : List Token) (spec : TypeSpec) : Prop where
  parts : ∃ before words after star, ts = before ++ (words ++ (after ++ star)) ∧
    (∀ q ∈ before ++ after, isQualifier q = true) ∧ TypeWords s words spec.name ∧
    Star star spec.pointer ∧
    spec.space = ((before ++ after).foldl qualified { offset := 0, name := "" }).space ∧
    spec.readOnly = ((before ++ after).foldl qualified { offset := 0, name := "" }).readOnly

/-! ### Expressions -/

mutual

/-- Tokens that write an expression down. -/
inductive Spells (s : Scope) : List Token → Expr → Prop
  | ident {id : Ident} : Spells s [.name id.name] (.ident id)
  | int {o : Nat} {t : String} : Spells s [.int t] (.number o .int t)
  | float {o : Nat} {t : String} : Spells s [.float t] (.number o .float t)
  | unary {o : Nat} {t : Token} {op : Operator} {ts : List Token} {x : Expr}
      (ht : unaryOp? t = some op) (hx : Spells s ts x) : Spells s (t :: ts) (.unary o op x)
  | binary {o : Nat} {op : Operator} {ts us : List Token} {x y : Expr}
      (hx : Spells s ts x) (hy : Spells s us y) :
      Spells s (ts ++ .op op :: us) (.binary x o op y)
  | cond {ts us vs : List Token} {c x y : Expr}
      (hc : Spells s ts c) (hx : Spells s us x) (hy : Spells s vs y) :
      Spells s (ts ++ Token.question :: (us ++ .op .colon :: vs)) (.cond c x y)
  | call {paren : Nat} {fn : Ident} {ts : List Token} {args : List Expr}
      (hargs : SpellsAll s ts args) :
      Spells s (.name fn.name :: .op .lparen :: (ts ++ [.op .rparen])) (.call fn paren args)
  | cast {o : Nat} {spec : TypeSpec} {ts us : List Token} {x : Expr}
      (hspec : SpellsType s ts spec) (hx : Spells s us x) :
      Spells s (.op .lparen :: (ts ++ .op .rparen :: us)) (.cast o spec x)
  | vectorLit {o : Nat} {spec : TypeSpec} {ts us : List Token} {items : List Expr}
      (hspec : SpellsType s ts spec) (hitems : SpellsAll s us items) :
      Spells s (.op .lparen :: (ts ++ .op .rparen :: .op .lparen :: (us ++ [.op .rparen])))
        (.vectorLit o spec items)
  | structLit {o : Nat} {spec : TypeSpec} {ts us : List Token} {items : List Expr}
      (hspec : SpellsType s ts spec) (hitems : SpellsAll s us items) :
      Spells s (.op .lparen :: (ts ++ .op .rparen :: .op .lbrace :: (us ++ [.op .rbrace])))
        (.structLit o spec items)
  | index {o : Nat} {ts us : List Token} {x i : Expr}
      (hx : Spells s ts x) (hi : Spells s us i) :
      Spells s (ts ++ .op .lbrack :: (us ++ [.op .rbrack])) (.index x o i)
  | select {field : Ident} {ts : List Token} {x : Expr} (hx : Spells s ts x) :
      Spells s (ts ++ [.op .period, .name field.name]) (.select x field)
  | paren {o : Nat} {ts : List Token} {x : Expr} (hx : Spells s ts x) :
      Spells s (.op .lparen :: (ts ++ [.op .rparen])) (.paren o x)

/-- Tokens that write a list of expressions down, with a comma after the last one or without. -/
inductive SpellsAll (s : Scope) : List Token → List Expr → Prop
  | nil : SpellsAll s [] []
  | last {ts : List Token} {x : Expr} (hx : Spells s ts x) : SpellsAll s ts [x]
  | cons {ts us : List Token} {x : Expr} {xs : List Expr} (hx : Spells s ts x)
      (hxs : SpellsAll s us xs) : SpellsAll s (ts ++ .op .comma :: us) (x :: xs)

end

/-! ### First tokens -/

/-- A token that an expression can be written with first. -/
structure Opens (t : Token) (e : Expr) : Prop where
  paren : t = .op .lparen ↔ e.startsParen = true
  name : ∀ n, t = .name n → n ∈ e.names
  keyword : ∀ k, t ≠ .keyword k
  bracket : t ≠ .op .rparen ∧ t ≠ .op .rbrace ∧ t ≠ .op .lbrace

theorem Opens.left {t : Token} {x e : Expr} (h : Opens t x) (hparen : e.startsParen = x.startsParen)
    (hnames : x.names ⊆ e.names) : Opens t e where
  paren := by rw [hparen]; exact h.paren
  name := fun n hn => hnames (h.name n hn)
  keyword := h.keyword
  bracket := h.bracket

theorem opens_paren {e : Expr} (h : e.startsParen = true) : Opens (.op .lparen) e :=
  ⟨⟨fun _ => h, fun _ => rfl⟩, nofun, nofun, nofun, nofun, nofun⟩

theorem opens_sign {t : Token} {op : Operator} (ht : unaryOp? t = some op) {e : Expr}
    (h : e.startsParen = false) : Opens t e where
  paren := by
    rw [h]
    refine ⟨fun heq => ?_, fun hne => absurd hne Bool.false_ne_true⟩
    subst heq
    cases ht
  name := by
    rintro n rfl
    cases ht
  keyword := by
    rintro k rfl
    cases ht
  bracket := by
    refine ⟨?_, ?_, ?_⟩ <;> (rintro rfl; cases ht)

theorem head?_append_cons {t : Token} {ts : List Token} (h : ts.head? = some t) (us : List Token) :
    (ts ++ us).head? = some t := by
  rw [List.head?_append, h]
  rfl

theorem Spells.head? {s : Scope} : ∀ {ts : List Token} {e : Expr}, s.Spells ts e →
    ∃ t, ts.head? = some t ∧ Opens t e
  | _, _, .ident =>
    ⟨_, rfl, by simp [Expr.startsParen], by simp [Expr.names], nofun, nofun, nofun, nofun⟩
  | _, _, .int => ⟨_, rfl, by simp [Expr.startsParen], nofun, nofun, nofun, nofun, nofun⟩
  | _, _, .float => ⟨_, rfl, by simp [Expr.startsParen], nofun, nofun, nofun, nofun, nofun⟩
  | _, _, .unary ht _ => ⟨_, rfl, opens_sign ht rfl⟩
  | _, _, .binary hx _ => by
    obtain ⟨t, ht, hopens⟩ := hx.head?
    exact ⟨t, head?_append_cons ht _, hopens.left rfl (List.subset_append_left ..)⟩
  | _, _, .cond hc _ _ => by
    obtain ⟨t, ht, hopens⟩ := hc.head?
    exact ⟨t, head?_append_cons ht _, hopens.left rfl (List.subset_append_left ..)⟩
  | _, _, .call _ =>
    ⟨_, rfl, by simp [Expr.startsParen], by simp [Expr.names], nofun, nofun, nofun, nofun⟩
  | _, _, .cast _ _ => ⟨_, rfl, opens_paren rfl⟩
  | _, _, .vectorLit _ _ => ⟨_, rfl, opens_paren rfl⟩
  | _, _, .structLit _ _ => ⟨_, rfl, opens_paren rfl⟩
  | _, _, .index hx _ => by
    obtain ⟨t, ht, hopens⟩ := hx.head?
    exact ⟨t, head?_append_cons ht _, hopens.left rfl (List.subset_append_left ..)⟩
  | _, _, .select hx => by
    obtain ⟨t, ht, hopens⟩ := hx.head?
    exact ⟨t, head?_append_cons ht _, hopens.left rfl (List.Subset.refl _)⟩
  | _, _, .paren _ => ⟨_, rfl, opens_paren rfl⟩

end Scope

/-! ### One way of writing -/

/-- The tokens of the name of a type. -/
def TypeSpec.nameTokens (spec : TypeSpec) : List Token :=
  match Scope.unsignedTails.find? fun w => spec.name = "unsigned" ++ " " ++ w with
  | some w => [.name "unsigned", .name w]
  | none => [.name spec.name]

/-- The tokens that qualify a type. -/
def qualifierTokens (space : Space) (readOnly : Bool) : List Token :=
  (if space = .priv then [] else [.name space.qualifier]) ++
    if readOnly then [.keyword .const] else []

def TypeSpec.starTokens (spec : TypeSpec) : List Token := if spec.pointer then [.op .mul] else []

/-- The tokens of a type, its qualifiers first. -/
def TypeSpec.tokens (spec : TypeSpec) : List Token :=
  qualifierTokens spec.space spec.readOnly ++ (spec.nameTokens ++ spec.starTokens)

/-- Tests whether a type can be written down. -/
def TypeSpec.isWritable (s : Scope) (spec : TypeSpec) : Bool :=
  Scope.unsignedTails.any (fun w => spec.name = "unsigned" ++ " " ++ w) ||
    (s.isTypeWord spec.name && !isQualifier (.name spec.name))

/-- The token of a unary operator; a tilde stands for the complement. -/
def unaryToken (op : Operator) : Token := if op = .xor then .op .tilde else .op op

/-- The operators before an operand. -/
def isSign (op : Operator) : Bool := unaryOp? (unaryToken op) = some op

namespace Expr

mutual

/-- The tokens of an expression, without commas at the end of lists. -/
def tokens : Expr → List Token
  | ident id => [.name id.name]
  | number _ .int text => [.int text]
  | number _ .float text => [.float text]
  | unary _ op x => unaryToken op :: x.tokens
  | binary x _ op y => x.tokens ++ .op op :: y.tokens
  | cond c x y => c.tokens ++ Token.question :: (x.tokens ++ .op .colon :: y.tokens)
  | call fn _ args => .name fn.name :: .op .lparen :: (allTokens args ++ [.op .rparen])
  | cast _ spec x => .op .lparen :: (spec.tokens ++ .op .rparen :: x.tokens)
  | vectorLit _ spec items =>
    .op .lparen :: (spec.tokens ++ .op .rparen :: .op .lparen :: (allTokens items ++ [.op .rparen]))
  | structLit _ spec items =>
    .op .lparen :: (spec.tokens ++ .op .rparen :: .op .lbrace :: (allTokens items ++ [.op .rbrace]))
  | index x _ i => x.tokens ++ .op .lbrack :: (i.tokens ++ [.op .rbrack])
  | select x field => x.tokens ++ [.op .period, .name field.name]
  | paren _ x => .op .lparen :: (x.tokens ++ [.op .rparen])

def allTokens : List Expr → List Token
  | [] => []
  | [x] => x.tokens
  | x :: y :: xs => x.tokens ++ .op .comma :: allTokens (y :: xs)

end

mutual

/-- Tests whether an expression can be written down: its types have names of types, and its unary
operators are signs. -/
def isWritable (s : Scope) : Expr → Bool
  | ident _ => true
  | number _ _ _ => true
  | unary _ op x => isSign op && isWritable s x
  | binary x _ _ y => isWritable s x && isWritable s y
  | cond c x y => isWritable s c && isWritable s x && isWritable s y
  | call _ _ args => areWritable s args
  | cast _ spec x => spec.isWritable s && isWritable s x
  | vectorLit _ spec items => spec.isWritable s && areWritable s items
  | structLit _ spec items => spec.isWritable s && areWritable s items
  | index x _ i => isWritable s x && isWritable s i
  | select x _ => isWritable s x
  | paren _ x => isWritable s x

def areWritable (s : Scope) : List Expr → Bool
  | [] => true
  | x :: xs => isWritable s x && areWritable s xs

end

end Expr

namespace Scope

variable {s : Scope}

theorem typeWords_nameTokens {spec : TypeSpec} (h : spec.isWritable s = true) :
    TypeWords s spec.nameTokens spec.name := by
  rw [TypeSpec.nameTokens]
  split
  · rename_i w hw
    have hname : spec.name = "unsigned" ++ " " ++ w := by simpa using List.find?_some hw
    rw [hname]
    exact .pair (List.mem_of_find?_eq_some hw)
  · rename_i hnone
    have hsingle : unsignedTails.any (fun w => decide (spec.name = "unsigned" ++ " " ++ w)) = false := by
      simpa using hnone
    rw [TypeSpec.isWritable, hsingle, Bool.false_or, Bool.and_eq_true, Bool.not_eq_true'] at h
    exact .single h.1 h.2

theorem isQualifier_qualifierTokens (space : Space) (readOnly : Bool) :
    ∀ q ∈ qualifierTokens space readOnly, isQualifier q = true := by
  cases space <;> cases readOnly <;> decide

theorem qualified_qualifierTokens (space : Space) (readOnly : Bool) :
    (qualifierTokens space readOnly).foldl qualified { offset := 0, name := "" } =
      { offset := 0, name := "", space, readOnly } := by
  cases space <;> cases readOnly <;> rfl

theorem spellsType_tokens {spec : TypeSpec} (h : spec.isWritable s = true) :
    SpellsType s spec.tokens spec := by
  have hstar : Star spec.starTokens spec.pointer := by
    rw [TypeSpec.starTokens]
    cases spec.pointer with
    | false => exact .value
    | true => exact .pointer (List.forall_mem_nil _)
  refine ⟨qualifierTokens spec.space spec.readOnly, spec.nameTokens, [], spec.starTokens, rfl, ?_,
    typeWords_nameTokens h, hstar, ?_, ?_⟩
  · rw [List.append_nil]
    exact isQualifier_qualifierTokens _ _
  · rw [List.append_nil, qualified_qualifierTokens]
  · rw [List.append_nil, qualified_qualifierTokens]

mutual

theorem spells_tokens : ∀ {e : Expr}, e.isWritable s = true → s.Spells e.tokens e
  | .ident id, _ => .ident
  | .number o .int t, _ => .int
  | .number o .float t, _ => .float
  | .unary o op x, h => by
    rw [Expr.isWritable, Bool.and_eq_true] at h
    exact .unary (of_decide_eq_true h.1) (spells_tokens h.2)
  | .binary x o op y, h => by
    rw [Expr.isWritable, Bool.and_eq_true] at h
    exact .binary (spells_tokens h.1) (spells_tokens h.2)
  | .cond c x y, h => by
    rw [Expr.isWritable, Bool.and_eq_true, Bool.and_eq_true] at h
    exact .cond (spells_tokens h.1.1) (spells_tokens h.1.2) (spells_tokens h.2)
  | .call fn paren args, h => .call (spellsAll_tokens h)
  | .cast o spec x, h => by
    rw [Expr.isWritable, Bool.and_eq_true] at h
    exact .cast (spellsType_tokens h.1) (spells_tokens h.2)
  | .vectorLit o spec items, h => by
    rw [Expr.isWritable, Bool.and_eq_true] at h
    exact .vectorLit (spellsType_tokens h.1) (spellsAll_tokens h.2)
  | .structLit o spec items, h => by
    rw [Expr.isWritable, Bool.and_eq_true] at h
    exact .structLit (spellsType_tokens h.1) (spellsAll_tokens h.2)
  | .index x o i, h => by
    rw [Expr.isWritable, Bool.and_eq_true] at h
    exact .index (spells_tokens h.1) (spells_tokens h.2)
  | .select x field, h => .select (spells_tokens h)
  | .paren o x, h => .paren (spells_tokens h)

theorem spellsAll_tokens : ∀ {es : List Expr}, Expr.areWritable s es = true →
    s.SpellsAll (Expr.allTokens es) es
  | [], _ => .nil
  | [x], h => by
    rw [Expr.areWritable, Bool.and_eq_true] at h
    exact .last (spells_tokens h.1)
  | x :: y :: xs, h => by
    rw [Expr.areWritable, Bool.and_eq_true] at h
    exact .cons (spells_tokens h.1) (spellsAll_tokens h.2)

end

end Scope
end KernelForge.Code
