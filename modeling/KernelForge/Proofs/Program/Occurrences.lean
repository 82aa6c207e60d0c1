/-
Where a renamed variable occurs, and reading a source in which it is renamed.

The occurrences of a variable are its declaration and the names that are bound to it.  A source in
which the tokens at these places are another name is read to the renamed tree.

The reader decides by looking at single tokens, and a token that it takes for the name of a variable
is looked at for nothing else than being a name, unless it is the word of a type or of a statement.
What has to be followed along the way is that a token elsewhere stays as it was.  The occurrences in
what one reader took lie between the place where it started and the place where it ended, so that
each reader answers for the places between these two, and places of two readers in a row do not meet.
-/
import KernelForge.Proofs.Code.Precedence
import KernelForge.Proofs.Program.Renaming
import KernelForge.Proofs.Token.Tiles
import Mathlib.Data.List.Nodup

namespace KernelForge

namespace Renaming

open Code (Ident Lexemes)

variable (ρ : Renaming)

/-! ### Occurrences -/

/-- The place of a declaration, if it is the one that is renamed. -/
def declaredAt (id : Ident) : List Nat := if id = ρ.target then [id.offset] else []

/-- The place of a name that is bound to the renamed declaration. -/
def usedAt (scopes : Scopes) (id : Ident) : List Nat :=
  if binder? scopes id.name = some ρ.target then [id.offset] else []

mutual

/-- The places in an expression where the renamed variable is used. -/
def inExpr (scopes : Scopes) : Code.Expr → List Nat
  | .ident id => ρ.usedAt scopes id
  | .number _ _ _ => []
  | .unary _ _ x => inExpr scopes x
  | .binary x _ _ y => inExpr scopes x ++ inExpr scopes y
  | .cond test x y => inExpr scopes test ++ (inExpr scopes x ++ inExpr scopes y)
  | .call _ _ args => inExprs scopes args
  | .cast _ _ x => inExpr scopes x
  | .vectorLit _ _ items => inExprs scopes items
  | .structLit _ _ items => inExprs scopes items
  | .index x _ i => inExpr scopes x ++ inExpr scopes i
  | .select x _ => inExpr scopes x
  | .paren _ x => inExpr scopes x

def inExprs (scopes : Scopes) : List Code.Expr → List Nat
  | [] => []
  | x :: xs => inExpr scopes x ++ inExprs scopes xs

end

/-- The places in something that may be absent. -/
def inOption {α : Type} (places : α → List Nat) : Option α → List Nat
  | none => []
  | some x => places x

/-- The places in declared variables.  The initial value of a variable does not see the variable. -/
def inVars (scopes : Scopes) : List (Ident × Option Code.Expr) → List Nat
  | [] => []
  | (id, init) :: vars =>
    ρ.declaredAt id ++ (inOption (ρ.inExpr scopes) init ++ inVars (declare id scopes) vars)

/-- The scopes after some variables have been declared. -/
def afterVars (scopes : Scopes) : List (Ident × Option Code.Expr) → Scopes
  | [] => scopes
  | (id, _) :: vars => afterVars (declare id scopes) vars

def inSimple (scopes : Scopes) : Code.Simple → List Nat
  | .decl _ vars => ρ.inVars scopes vars
  | .expr x => ρ.inExpr scopes x
  | .assign lhs _ _ rhs => ρ.inExpr scopes lhs ++ ρ.inExpr scopes rhs
  | .step x _ _ => ρ.inExpr scopes x

/-- The scopes after a statement of a loop header. -/
def afterSimple (scopes : Scopes) : Code.Simple → Scopes
  | .decl _ vars => afterVars scopes vars
  | _ => scopes

/-- The scopes after a part of a loop header. -/
def afterPart (scopes : Scopes) : Option Code.Simple → Scopes
  | none => scopes
  | some s => afterSimple scopes s

/-- The scopes after a statement: only a declaration is seen by what comes after it. -/
def afterStmt (scopes : Scopes) : Code.Stmt → Scopes
  | .simple s => afterSimple scopes s
  | _ => scopes

mutual

/-- The places in a statement.  What the header of a loop declares is seen in the whole loop; blocks,
branches and bodies of loops have scopes of their own. -/
def inStmt (scopes : Scopes) : Code.Stmt → List Nat
  | .simple s => ρ.inSimple scopes s
  | .block _ body => inStmts ([] :: scopes) body
  | .ifThen _ test yes => ρ.inExpr scopes test ++ inStmt ([] :: scopes) yes
  | .ifElse _ test yes no =>
    ρ.inExpr scopes test ++ (inStmt ([] :: scopes) yes ++ inStmt ([] :: scopes) no)
  | .loop _ init test post body =>
    let head := afterPart ([] :: scopes) init
    (inOption (ρ.inSimple ([] :: scopes)) init ++ (inOption (ρ.inExpr head) test ++
      inOption (ρ.inSimple ([] :: head)) post)) ++ inStmt ([] :: head) body
  | .ret _ x => inOption (ρ.inExpr scopes) x
  | .brk _ => []
  | .cont _ => []
  | .empty _ => []

def inStmts (scopes : Scopes) : List Code.Stmt → List Nat
  | [] => []
  | s :: ss => inStmt scopes s ++ inStmts (afterStmt scopes s) ss

end

/-- The scopes in which the body of a function with some parameters stands. -/
def afterParams (scopes : Scopes) : List Code.Field → Scopes
  | [] => scopes
  | f :: fs => afterParams (declare f.name scopes) fs

/-- The places in a function: a parameter, or places in the body. -/
def inFunc (d : Code.Func) : List Nat :=
  d.params.flatMap (fun f => ρ.declaredAt f.name) ++ ρ.inStmts ([] :: afterParams [[]] d.params) d.body

/-- The places in a source where the renamed variable occurs. -/
def occurrences (file : Code.File) : List Nat := file.funcs.flatMap ρ.inFunc

/-- What a token becomes. -/
def renamedToken (places : List Nat) (l : Lexeme) : Token :=
  if l.offset ∈ places then .name ρ.fresh else l.token

/-- The tokens of the second source are those of the first, but for the renamed occurrences. -/
structure Source (file : Code.File) (stream stream' : TokenStream) : Prop where
  diagnostics : stream'.diagnostics = []
  tokens : stream'.lexemes.map Lexeme.token =
    stream.lexemes.map (ρ.renamedToken (ρ.occurrences file))
  pragmas : stream'.pragmas.map Pragma.text = stream.pragmas.map Pragma.text

/-- The words of the grammar that are no keywords to the scanner. -/
def grammarWords : List String := ["typedef", "__kernel", "kernel", "while"]

/-- A new name is that of no type, no qualifier and no other word of the grammar, and the source does
not have it. -/
structure Fresh (stream : TokenStream) : Prop where
  unused : ∀ l ∈ stream.lexemes, l.token ≠ .name ρ.fresh
  noType : Ty.isTypeName ρ.fresh = false
  noQualifier : ρ.fresh ∉ Code.Scope.qualifierWords
  noWord : ρ.fresh ∉ grammarWords

end Renaming

end KernelForge

namespace KernelForge.Code.Scope

open Renaming (declare declaredAt usedAt inOption afterVars afterSimple afterPart afterStmt afterParams)

/-! ### Places -/

/-- The lexemes stand one after the other, and before the end of the source. -/
def Ordered (s : Scope) (ls : Lexemes) : Prop :=
  (ls.map Lexeme.offset ++ [s.finish]).Pairwise (· < ·)

/-- Where the next lexeme stands. -/
abbrev place (s : Scope) (ls : Lexemes) : Nat := (s.here ls).1

variable {s : Scope} {l : Lexeme} {ls mid rest : Lexemes}

theorem Ordered.tail (h : Ordered s (l :: ls)) : Ordered s ls := (List.pairwise_cons.mp h).2

theorem Ordered.of_suffix (h : Ordered s ls) (hsuffix : rest <:+ ls) : Ordered s rest := by
  obtain ⟨front, rfl⟩ := hsuffix
  rw [Ordered, List.map_append, List.append_assoc] at h
  exact (List.pairwise_append.mp h).2.1

theorem Ordered.lt_place (h : Ordered s (l :: ls)) : l.offset < s.place ls := by
  refine (List.pairwise_cons.mp h).1 _ ?_
  cases ls with
  | nil => exact List.mem_singleton_self _
  | cons l' ls => exact List.mem_cons_self

theorem Ordered.place_le (h : Ordered s ls) (hl : l ∈ ls) : s.place ls ≤ l.offset := by
  cases ls with
  | nil => exact absurd hl List.not_mem_nil
  | cons l' ls =>
    rcases List.mem_cons.mp hl with rfl | hl
    · exact Nat.le_refl _
    · exact Nat.le_of_lt ((List.pairwise_cons.mp h).1 _
        (List.mem_append_left _ (List.mem_map_of_mem hl)))

theorem Ordered.place_le_of_suffix (h : Ordered s ls) (hsuffix : rest <:+ ls) :
    s.place ls ≤ s.place rest := by
  obtain ⟨front, rfl⟩ := hsuffix
  induction front with
  | nil => exact Nat.le_refl _
  | cons l front ih => exact Nat.le_trans (Nat.le_of_lt h.lt_place) (ih h.tail)

/-- Two lexemes do not stand at one place. -/
theorem Ordered.eq_of_offset {l' : Lexeme} (h : Ordered s ls) (hl : l ∈ ls) (hl' : l' ∈ ls)
    (hoffset : l.offset = l'.offset) : l = l' := by
  have hinj := (List.pairwise_append.mp h).1.imp (fun hlt => Nat.ne_of_lt hlt)
  exact List.inj_on_of_nodup_map hinj hl hl' hoffset

/-- What was read up to some lexemes, and the places of the names in it that count. -/
structure Passes (s : Scope) (ls rest : Lexemes) (places : List Nat) : Prop where
  suffix : rest <:+ ls
  before : ∀ o ∈ places, o < s.place rest
  names : ∀ o ∈ places, ∃ n, ⟨o, .name n⟩ ∈ ls

variable {places places' : List Nat}

theorem Passes.append (hls : Ordered s ls) (h : Passes s ls mid places) (h' : Passes s mid rest places') :
    Passes s ls rest (places ++ places') where
  suffix := h'.suffix.trans h.suffix
  before := fun o ho => by
    have hle := (hls.of_suffix h.suffix).place_le_of_suffix h'.suffix
    rcases List.mem_append.mp ho with ho | ho
    · exact Nat.lt_of_lt_of_le (h.before o ho) hle
    · exact h'.before o ho
  names := fun o ho => by
    rcases List.mem_append.mp ho with ho | ho
    · exact h.names o ho
    · obtain ⟨n, hn⟩ := h'.names o ho
      exact ⟨n, h.suffix.subset hn⟩

/-- Between two places the given ones are those in a list. -/
def Agrees (D : List Nat) (first last : Nat) (places : List Nat) : Prop :=
  ∀ o, first ≤ o → o < last → (o ∈ D ↔ o ∈ places)

variable {D : List Nat}

/-- Each of two readers in a row answers for its own places. -/
theorem Agrees.split (hls : Ordered s ls) (h : Passes s ls mid places) (h' : Passes s mid rest places')
    (hagrees : Agrees D (s.place ls) (s.place rest) (places ++ places')) :
    Agrees D (s.place ls) (s.place mid) places ∧ Agrees D (s.place mid) (s.place rest) places' := by
  have hmid := hls.of_suffix h.suffix
  have hle := hls.place_le_of_suffix h.suffix
  have hle' := hmid.place_le_of_suffix h'.suffix
  constructor
  · intro o hfirst hlast
    rw [hagrees o hfirst (Nat.lt_of_lt_of_le hlast hle'), List.mem_append, or_iff_left]
    intro ho
    obtain ⟨n, hn⟩ := h'.names o ho
    exact absurd (hmid.place_le hn) (Nat.not_le.mpr hlast)
  · intro o hfirst hlast
    rw [hagrees o (Nat.le_trans hle hfirst) hlast, List.mem_append, or_iff_right]
    exact fun ho => absurd (h.before o ho) (Nat.not_lt.mpr hfirst)

/-! ### Renamed lexemes -/

/-- A renaming, the places where the new name stands, and where the renamed source ends. -/
structure Respelling extends Renaming where
  places : List Nat
  finish : Nat

variable {σ : Respelling} {l' : Lexeme} {ls' mid' rest' : Lexemes}

/-- The reader of the renamed source. -/
def Respelling.scope (σ : Respelling) (s : Scope) : Scope := { s with finish := σ.finish }

/-- A lexeme, and what it becomes. -/
structure Becomes (σ : Respelling) (l l' : Lexeme) : Prop where
  unused : l.token ≠ .name σ.fresh
  token : l'.token = σ.renamedToken σ.places l
  name : l.offset ∈ σ.places → ∃ n, l.token = .name n

/-- Lexemes and the renamed ones. -/
abbrev Renamed (σ : Respelling) : Lexemes → Lexemes → Prop := List.Forall₂ (Becomes σ)

/-- A token stays, or becomes the new name. -/
theorem Becomes.cases (h : Becomes σ l l') : l'.token = l.token ∨ l'.token = .name σ.fresh := by
  rw [h.token, Renaming.renamedToken]
  split
  · exact .inr rfl
  · exact .inl rfl

/-- What a token is that is not the new name, it was before. -/
theorem Becomes.eq_of_eq (h : Becomes σ l l') {t : Token} (ht : t ≠ .name σ.fresh) (heq : l'.token = t) :
    l.token = t := by
  rcases h.cases with heq' | heq'
  · rw [← heq', heq]
  · exact absurd (heq.symm.trans heq') ht

/-- A test that the new name does not pass is passed only by tokens that passed it before. -/
theorem Becomes.of_false (h : Becomes σ l l') {f : Token → Bool} (hfresh : f (.name σ.fresh) = false)
    (hl : f l.token = false) : f l'.token = false := by
  rcases h.cases with heq | heq
  · rw [heq, hl]
  · rw [heq, hfresh]

/-- What is the same for all names stays. -/
theorem Becomes.congr {β : Type} (h : Becomes σ l l') (f : Token → β)
    (hf : ∀ m n, f (.name m) = f (.name n)) : f l'.token = f l.token := by
  rw [h.token, Renaming.renamedToken]
  split
  · rename_i hl
    obtain ⟨n, hn⟩ := h.name hl
    rw [hn]
    exact hf _ _
  · rfl

theorem Becomes.eq_op (h : Becomes σ l l') (op : Operator) : l'.token = .op op ↔ l.token = .op op :=
  iff_of_eq (h.congr (· = .op op) fun _ _ => by simp)

/-- A token that is no name comes next where it did. -/
theorem Renamed.nextIs (h : Renamed σ ls ls') {t : Token} (ht : ∀ n, t ≠ .name n) :
    Scope.nextIs t ls' = Scope.nextIs t ls := by
  cases h with
  | nil => rfl
  | cons hl hls =>
    exact hl.congr (fun u => decide (u = t)) fun m n => by
      rw [decide_eq_false (ht m).symm, decide_eq_false (ht n).symm]

theorem Renamed.nextIs_op (h : Renamed σ ls ls') (op : Operator) :
    Scope.nextIs (.op op) ls' = Scope.nextIs (.op op) ls := h.nextIs nofun

theorem not_nextIs {t : Token} (h : ∀ (o : Nat) (ls₁ : Lexemes), ls = ⟨o, t⟩ :: ls₁ → False) :
    nextIs t ls = false := by
  cases ls with
  | nil => rfl
  | cons l ls =>
    refine decide_eq_false fun heq => h l.offset ls ?_
    rw [← heq]

/-- The same where what is left comes with what is known of it. -/
theorem not_nextIs_of {P : Lexemes → Prop} (hls : P ls) {t : Token}
    (h : ∀ (o : Nat) (ls₁ : Lexemes) (h' : P (⟨o, t⟩ :: ls₁)), ls = ⟨o, t⟩ :: ls₁ → hls ≍ h' → False) :
    nextIs t ls = false :=
  not_nextIs fun o ls₁ heq => by
    subst heq
    exact h o ls₁ hls rfl HEq.rfl

/-! ### Reading again -/

/-- What was read up to some lexemes is read, as `Q` says, from renamed ones too, if between the two the
new name stands at the given places. -/
def Rereads (σ : Respelling) (s : Scope) (ls rest : Lexemes) (places : List Nat)
    (Q : Lexemes → Lexemes → Prop) : Prop :=
  Ordered s ls → Passes s ls rest places ∧
    ∀ ls', Renamed σ ls ls' → Agrees σ.places (s.place ls) (s.place rest) places →
      ∃ rest', Renamed σ rest rest' ∧ Q ls' rest'

/-- A reader gives a tree as wanted, and leaves some lexemes. -/
def Read {α : Type} {P : Lexemes → Lexemes → Prop}
    (p : (ls : Lexemes) → Except Misparse (α × { rest : Lexemes // P ls rest })) (R : α → Prop)
    (ls rest : Lexemes) : Prop :=
  ∃ x, Gives (p ls) x rest ∧ R x

variable {Q Q' : Lexemes → Lexemes → Prop}

/-- One reader after the other. -/
theorem Rereads.andThen (h : Rereads σ s ls mid places Q) (h' : Rereads σ s mid rest places' Q') :
    Rereads σ s ls rest (places ++ places') fun ls' rest' =>
      ∃ mid', Renamed σ mid mid' ∧ Q ls' mid' ∧ Q' mid' rest' := by
  intro hls
  obtain ⟨hpasses, hread⟩ := h hls
  obtain ⟨hpasses', hread'⟩ := h' (hls.of_suffix hpasses.suffix)
  refine ⟨hpasses.append hls hpasses', fun ls' hls' hagrees => ?_⟩
  obtain ⟨hfirst, hsecond⟩ := hagrees.split hls hpasses hpasses'
  obtain ⟨mid', hmid, hq⟩ := hread ls' hls' hfirst
  obtain ⟨rest', hrest, hq'⟩ := hread' mid' hmid hsecond
  exact ⟨rest', hrest, mid', hmid, hq, hq'⟩

/-- What is read at the end has no occurrences. -/
theorem Rereads.andPass (h : Rereads σ s ls mid places Q) (h' : Rereads σ s mid rest [] Q') :
    Rereads σ s ls rest places fun ls' rest' => ∃ mid', Renamed σ mid mid' ∧ Q ls' mid' ∧ Q' mid' rest' := by
  have hboth := h.andThen h'
  rwa [List.append_nil] at hboth

theorem Rereads.mono (h : Rereads σ s ls rest places Q)
    (hQ : ∀ ls' rest', Renamed σ ls ls' → Renamed σ rest rest' → Q ls' rest' → Q' ls' rest') :
    Rereads σ s ls rest places Q' := by
  intro hls
  obtain ⟨hpasses, hread⟩ := h hls
  refine ⟨hpasses, fun ls' hls' hagrees => ?_⟩
  obtain ⟨rest', hrest, hq⟩ := hread ls' hls' hagrees
  exact ⟨rest', hrest, hQ ls' rest' hls' hrest hq⟩

/-- The declared structures have nothing to do with places. -/
theorem Rereads.scope {typedefs : List String} (h : Rereads σ { s with typedefs } ls rest places Q) :
    Rereads σ s ls rest places Q := by
  have hplace : ∀ ls, place { s with typedefs } ls = s.place ls := fun ls => by cases ls <;> rfl
  intro hls
  obtain ⟨hpasses, hread⟩ := h hls
  refine ⟨⟨hpasses.suffix, fun o ho => hplace rest ▸ hpasses.before o ho, hpasses.names⟩,
    fun ls' hls' hagrees => hread ls' hls' ?_⟩
  rw [hplace, hplace]
  exact hagrees

/-- Nothing is read. -/
theorem rereads_nothing (hQ : ∀ ls', Renamed σ ls ls' → Q ls' ls') : Rereads σ s ls ls [] Q :=
  fun _ => ⟨⟨List.suffix_rfl, nofun, nofun⟩, fun ls' hls' _ => ⟨ls', hls', hQ ls' hls'⟩⟩

/-- The next lexeme, which may be an occurrence if it is a name. -/
theorem rereads_head (hnames : ∀ o ∈ places, o = l.offset ∧ ∃ n, l.token = .name n) :
    Rereads σ s (l :: ls) ls places fun ls' rest' =>
      l.token ≠ .name σ.fresh ∧ ∃ o, ls' = ⟨o, σ.renamedToken places l⟩ :: rest' := by
  intro hls
  refine ⟨⟨List.suffix_cons l ls, ?_, ?_⟩, ?_⟩
  · intro o ho
    rw [(hnames o ho).1]
    exact hls.lt_place
  · intro o ho
    obtain ⟨rfl, n, hn⟩ := hnames o ho
    exact ⟨n, hn ▸ List.mem_cons_self⟩
  · intro ls' hls' hagrees
    cases hls' with
    | @cons _ l' _ rest' hl hrest =>
      refine ⟨rest', hrest, hl.unused, l'.offset, ?_⟩
      have htoken : σ.renamedToken σ.places l = σ.renamedToken places l := by
        simp only [Renaming.renamedToken, hagrees l.offset (Nat.le_refl _) hls.lt_place]
      rw [← htoken, ← hl.token]

/-- The next lexeme, which is no occurrence. -/
theorem rereads_token {o : Nat} {t : Token} : Rereads σ s (⟨o, t⟩ :: ls) ls [] fun ls' rest' =>
    t ≠ .name σ.fresh ∧ ∃ o', ls' = ⟨o', t⟩ :: rest' :=
  rereads_head nofun

/-! ### Single lexemes -/

theorem expect_cons {t : Token} {o : Nat} : s.expect t (⟨o, t⟩ :: ls) = .ok (o, ⟨ls, Nat.lt_add_one _⟩) := by
  rw [expect, if_pos rfl]

theorem expectOp_cons {op : Operator} {o : Nat} :
    s.expectOp op (⟨o, .op op⟩ :: ls) = .ok (o, ⟨ls, Nat.lt_add_one _⟩) := expect_cons

section Single

variable (σ)

theorem rereads_expect (t : Token) (ls : Lexemes) :
    Leaves (fun _ rest => Rereads σ s ls rest [] fun ls' rest' => ∃ o, ls' = ⟨o, t⟩ :: rest')
      (s.expect t ls) := by
  unfold expect
  split
  · rename_i l ls₁
    split
    · rename_i htoken
      obtain ⟨o, u⟩ := l
      obtain rfl : u = t := htoken
      exact leaves_ok (rereads_token.mono fun ls' rest' _ _ hq => hq.2)
    · exact leaves_error
  · exact leaves_error

theorem rereads_expectOp (op : Operator) (ls : Lexemes) :
    Leaves (fun _ rest => Rereads σ s ls rest [] fun ls' rest' => ∃ o, ls' = ⟨o, .op op⟩ :: rest')
      (s.expectOp op ls) := rereads_expect σ (.op op) ls

/-- A name that is not that of a variable. -/
theorem rereads_ident (ls : Lexemes) :
    Leaves (fun id rest => Rereads σ s ls rest [] fun ls' rest' =>
        id.name ≠ σ.fresh ∧ ∃ o, ls' = ⟨o, .name id.name⟩ :: rest') (s.ident ls) := by
  rintro id ⟨rest, hlt⟩ h
  have hls : ls = ⟨id.offset, .name id.name⟩ :: rest := leaves_ident ls _ _ h
  subst hls
  exact rereads_token.mono fun ls' rest' _ _ hq => ⟨fun heq => hq.1 (by rw [heq]), hq.2⟩

variable {σ} in
/-- A name that is an occurrence or not. -/
theorem rereads_name {b : Prop} [Decidable b] {o : Nat} {n : String} :
    Rereads σ s (⟨o, .name n⟩ :: ls) ls (if b then [o] else []) fun ls' rest' =>
      n ≠ σ.fresh ∧ ∃ o', ls' = ⟨o', .name (if b then σ.fresh else n)⟩ :: rest' := by
  have hplaces : ∀ o' ∈ (if b then [o] else []), o' = o ∧ ∃ m, Token.name n = .name m := by
    split
    · exact fun o' ho' => ⟨List.mem_singleton.mp ho', n, rfl⟩
    · exact fun o' ho' => absurd ho' List.not_mem_nil
  refine (rereads_head (l := ⟨o, .name n⟩) hplaces).mono ?_
  rintro ls' rest' - - ⟨hfresh, o', rfl⟩
  refine ⟨fun heq => hfresh (congrArg Token.name heq), o', ?_⟩
  by_cases hb : b <;> simp [Renaming.renamedToken, hb]

/-- The name of a declared variable. -/
theorem rereads_declared (ls : Lexemes) :
    Leaves (fun id rest => Rereads σ s ls rest (σ.declaredAt id) fun ls' rest' =>
        id.name ≠ σ.fresh ∧ ∃ o, ls' = ⟨o, .name (σ.declared id)⟩ :: rest') (s.ident ls) := by
  rintro id ⟨rest, hlt⟩ h
  have hls : ls = ⟨id.offset, .name id.name⟩ :: rest := leaves_ident ls _ _ h
  subst hls
  exact rereads_name

end Single

/-! ### Types -/

/-- The new name starts no type, no statement and no declaration. -/
structure Plainly (σ : Respelling) (s : Scope) : Prop where
  noType : s.startsType (.name σ.fresh) = false
  noWord : σ.fresh ∉ Renaming.grammarWords

theorem isQualifier_of_startsType {t : Token} (h : s.startsType t = false) : isQualifier t = false := by
  cases t with
  | name w => exact (Bool.or_eq_false_iff.mp h).1
  | keyword k =>
    cases k with
    | const => cases h
    | _ => rfl
  | _ => rfl

theorem typeNext_of_typeSpec {spec : TypeSpec} (h : Gives (s.typeSpec ls) spec rest) :
    s.typeNext ls = true := by
  obtain ⟨hlt, h⟩ := h
  obtain ⟨used, hused, hspells⟩ := spelled_spec h
  rw [typeNext_eq, hused, List.map_append]
  exact typeAhead_of_spellsType hspells _

theorem typeNext_scope : (σ.scope s).typeNext ls = s.typeNext ls := by cases ls <;> rfl

theorem qualifiers_of {spec spec' : TypeSpec}
    (h : (qualifiers spec ls).1 = spec' ∧ (qualifiers spec ls).2.val = rest) :
    ∃ hle, qualifiers spec ls = (spec', ⟨rest, hle⟩) :=
  ⟨h.2 ▸ (qualifiers spec ls).2.property, Prod.ext h.1 (Subtype.ext h.2)⟩

/-- What is passed over is less than everything. -/
theorem atMost_of {p : Lexemes → Prop} {r : { rest : Lexemes // p rest }} (h : r.val = rest) :
    ∃ hrest, r = ⟨rest, hrest⟩ :=
  ⟨h ▸ r.property, Subtype.ext h⟩

namespace Plainly

variable (h : Plainly σ s)
include h

/-- A structure that is not called by the new name changes nothing. -/
theorem declare {name : String} (hname : name ≠ σ.fresh) :
    Plainly σ { s with typedefs := name :: s.typedefs } := by
  refine ⟨?_, h.noWord⟩
  have hno := h.noType
  simp only [startsType, isTypeWord, Bool.or_eq_false_iff] at hno ⊢
  refine ⟨hno.1, hno.2.1, ?_⟩
  rw [List.contains_cons, hno.2.2, Bool.or_false]
  exact beq_false_of_ne hname.symm

/-- A word that starts a type, a statement or a declaration is not the new name. -/
theorem ne_word {w : String} (hw : w ∈ Renaming.grammarWords ∨ s.startsType (.name w) = true) :
    Token.name w ≠ .name σ.fresh := by
  rintro heq
  cases heq
  rcases hw with hw | hw
  · exact h.noWord hw
  · rw [h.noType] at hw
    cases hw

theorem not_tail (w : String) : unsignedTail? w (.name σ.fresh) = none := by
  rw [Option.eq_none_iff_forall_ne_some]
  intro v hv
  obtain ⟨-, hv, hmem⟩ := unsignedTail?_eq_some.mp hv
  have hnames : ∀ v ∈ unsignedTails, Ty.isTypeName v = true := by decide
  refine h.ne_word (.inr ?_) hv.symm
  simp only [startsType, isTypeWord, hnames v hmem, Bool.true_or, Bool.or_true]

theorem not_pointerQualifier : ¬ isPointerQualifier (.name σ.fresh) := by
  rintro (heq | heq)
  · cases heq
  · exact h.ne_word (w := "restrict") (.inr rfl) heq.symm

theorem noQualifier (hls' : Renamed σ ls ls') (hls : NoQualifier ls) : NoQualifier ls' := by
  cases hls' with
  | nil => exact hls
  | cons hl _ =>
    intro l₁ hl₁
    cases hl₁
    exact hl.of_false (isQualifier_of_startsType h.noType) (hls _ rfl)

theorem typeNext (hls' : Renamed σ ls ls') (hls : s.typeNext ls = false) :
    (σ.scope s).typeNext ls' = false := by
  rw [typeNext_scope]
  cases hls' with
  | nil => rfl
  | cons hl _ => exact hl.of_false h.noType hls

/-! Types are read before and after their names, so that no word may be taken for another. -/

theorem qualifiers (spec : TypeSpec) (ls : Lexemes) :
    Rereads σ s ls (qualifiers spec ls).2.val [] fun ls' rest' => ∀ o,
      (Scope.qualifiers { spec with offset := o } ls').1 =
          { (Scope.qualifiers spec ls).1 with offset := o } ∧
        (Scope.qualifiers { spec with offset := o } ls').2.val = rest' := by
  induction ls generalizing spec with
  | nil =>
    refine rereads_nothing fun ls' hls' o => ?_
    cases hls'
    exact ⟨rfl, rfl⟩
  | cons l ls ih =>
    cases hl : isQualifier l.token with
    | false =>
      obtain ⟨hspec, hleft⟩ := qualifiers_cons_of_not hl spec ls
      rw [hspec, hleft]
      refine rereads_nothing fun ls' hls' o => ?_
      exact qualifiers_stop (h.noQualifier hls' fun l' hl' => by cases hl'; exact hl) _
    | true =>
      obtain ⟨hspec, hleft⟩ := qualifiers_cons hl spec ls
      rw [hspec, hleft]
      refine (rereads_token.andThen (ih (qualified spec l.token))).mono ?_
      rintro ls' rest' - - ⟨mid', -, ⟨-, o', rfl⟩, hq⟩ o
      have hoffset : qualified { spec with offset := o } l.token =
          { qualified spec l.token with offset := o } := by
        unfold qualified
        split
        · rfl
        · split <;> rfl
        · rfl
      obtain ⟨hspec', hleft'⟩ := qualifiers_cons (l := ⟨o', l.token⟩) hl { spec with offset := o } mid'
      rw [hspec', hleft', hoffset]
      exact hq o

theorem pointerQualifiers (ls : Lexemes) :
    Rereads σ s ls (pointerQualifiers ls).val [] fun ls' rest' =>
      (Scope.pointerQualifiers ls').val = rest' := by
  induction ls with
  | nil =>
    refine rereads_nothing fun ls' hls' => ?_
    cases hls'
    rfl
  | cons l ls ih =>
    rw [Scope.pointerQualifiers]
    split
    · rename_i hl
      refine (rereads_token.andThen ih).mono ?_
      rintro ls' rest' - - ⟨mid', -, ⟨-, o', rfl⟩, hq⟩
      rw [Scope.pointerQualifiers, if_pos hl]
      exact hq
    · rename_i hl
      refine rereads_nothing fun ls' hls' => ?_
      cases hls' with
      | cons hl' _ =>
        rw [Scope.pointerQualifiers, if_neg]
        have hnone := h.not_pointerQualifier
        rcases hl'.cases with heq | heq
        · rw [heq]
          exact hl
        · simpa [heq, isPointerQualifier] using hnone

theorem nameTail (w : String) (ls : Lexemes) :
    Rereads σ s ls (nameTail w ls).2.val [] fun ls' rest' =>
      (Scope.nameTail w ls').1 = (Scope.nameTail w ls).1 ∧ (Scope.nameTail w ls').2.val = rest' := by
  cases ls with
  | nil =>
    refine rereads_nothing fun ls' hls' => ?_
    cases hls'
    exact ⟨rfl, rfl⟩
  | cons l ls =>
    cases htail : unsignedTail? w l.token with
    | none =>
      simp only [Scope.nameTail, htail]
      refine rereads_nothing fun ls' hls' => ?_
      cases hls' with
      | cons hl' _ =>
        have htail' : unsignedTail? w _ = none := hl'.cases.elim (fun heq => heq ▸ htail)
          fun heq => heq ▸ h.not_tail w
        simp only [htail', and_self]
    | some v =>
      simp only [Scope.nameTail, htail]
      refine rereads_token.mono ?_
      rintro ls' rest' - - ⟨-, o', rfl⟩
      simp only [htail, and_self]

theorem typeName (ls : Lexemes) :
    Leaves (fun name rest => Rereads σ s ls rest [] fun ls' rest' =>
      Gives ((σ.scope s).typeName ls') name rest') (s.typeName ls) := by
  unfold Scope.typeName
  split
  · rename_i o w ls₁
    split
    · rename_i hword
      refine leaves_ok ((rereads_token.andThen (h.nameTail w ls₁)).mono ?_)
      rintro ls' rest' - - ⟨mid', -, ⟨-, o', rfl⟩, hname, rfl⟩
      have hword' : (σ.scope s).isTypeWord w = true := hword
      refine ⟨?_, ?_⟩
      · have := (Scope.nameTail w mid').2.property
        simp only [List.length_cons]
        omega
      · simp only [hword', if_true, hname]
        rfl
    · exact leaves_error
  · exact leaves_error

/-- **Types stay.** -/
theorem typeSpec (ls : Lexemes) :
    Leaves (fun spec rest => Rereads σ s ls rest [] fun ls' rest' =>
      ∃ o, Gives ((σ.scope s).typeSpec ls') { spec with offset := o } rest') (s.typeSpec ls) := by
  rintro spec ⟨rest, hlt⟩ hread
  unfold Scope.typeSpec at hread
  have hfirst := h.qualifiers { offset := (s.here ls).1, name := "" } ls
  generalize Scope.qualifiers { offset := (s.here ls).1, name := "" } ls = q₁ at hread hfirst
  obtain ⟨spec₁, ls₁, h₁⟩ := q₁
  dsimp only at hread hfirst
  split at hread
  · cases hread
  · rename_i name ls₂ h₂ hname
    have hname := h.typeName ls₁ name ⟨ls₂, h₂⟩ hname
    have hsecond := h.qualifiers { spec₁ with name } ls₂
    generalize Scope.qualifiers { spec₁ with name } ls₂ = q₂ at hread hsecond
    obtain ⟨spec₂, ls₃, h₃⟩ := q₂
    dsimp only at hread hsecond hname
    have hwords := hfirst.andThen (hname.andThen hsecond)
    split at hread
    · rename_i mul ls₄ hless
      have hstar := h.pointerQualifiers ls₄
      generalize Scope.pointerQualifiers ls₄ = q₃ at hread hstar
      obtain ⟨ls₅, h₅⟩ := q₃
      dsimp only at hread hstar
      split at hread
      · cases hread
      · rename_i hmul
        cases hread
        refine (hwords.andThen (rereads_token.andThen hstar)).mono ?_
        rintro ls' rest' - hrest
          ⟨_, -, ⟨_, -, hfirst, _, -, ⟨hlt', hname⟩, hsecond⟩, _, -, ⟨-, o, rfl⟩, hstar⟩
        obtain ⟨hle, hfirst⟩ := qualifiers_of (hfirst ((σ.scope s).here ls').1)
        obtain ⟨hle', hsecond⟩ := qualifiers_of (hsecond ((σ.scope s).here ls').1)
        obtain ⟨hle'', hstar⟩ := atMost_of hstar
        refine ⟨((σ.scope s).here ls').1, ?_, ?_⟩
        · simp only [List.length_cons] at hle'
          omega
        · rw [Scope.typeSpec, hfirst]
          dsimp only
          rw [hname]
          dsimp only
          rw [hsecond]
          dsimp only
          rw [hstar]
          dsimp only
          rw [if_neg (by rw [Renamed.nextIs_op hrest]; exact hmul)]
    · rename_i hmul
      cases hread
      refine hwords.mono ?_
      rintro ls' rest' - hrest ⟨_, -, hfirst, _, -, ⟨hlt', hname⟩, hsecond⟩
      obtain ⟨hle, hfirst⟩ := qualifiers_of (hfirst ((σ.scope s).here ls').1)
      obtain ⟨hle', hsecond⟩ := qualifiers_of (hsecond ((σ.scope s).here ls').1)
      have hmul' := (Renamed.nextIs_op hrest .mul).trans
        (not_nextIs_of (P := fun rest => rest.length ≤ ls₂.length) _ hmul)
      refine ⟨((σ.scope s).here ls').1, by omega, ?_⟩
      rw [Scope.typeSpec, hfirst]
      dsimp only
      rw [hname]
      dsimp only
      rw [hsecond]
      dsimp only
      split
      · cases hmul'
      · rfl

end Plainly

/-! ### Expressions -/

variable {scopes : Renaming.Scopes} {x : Expr}

/-- A reader of expressions reads the renamed expression. -/
abbrev RereadsExpr {P : Lexemes → Lexemes → Prop} (σ : Respelling) (s : Scope) (scopes : Renaming.Scopes)
    (p : (ls : Lexemes) → Except Misparse (Expr × { rest : Lexemes // P ls rest })) (ls : Lexemes)
    (x : Expr) (rest : Lexemes) : Prop :=
  Rereads σ s ls rest (σ.inExpr scopes x) (Read p (σ.Expr scopes x))

abbrev RereadsExprs (σ : Respelling) (s : Scope) (scopes : Renaming.Scopes) (closing : Operator)
    (ls : Lexemes) (xs : List Expr) (rest : Lexemes) : Prop :=
  Rereads σ s ls rest (σ.inExprs scopes xs) (Read ((σ.scope s).items closing) (σ.Exprs scopes xs))

/-- A reader of what follows an expression reads on after the renamed expression. -/
def RereadsAfter {P : Lexemes → Lexemes → Prop} (σ : Respelling) (s : Scope) (scopes : Renaming.Scopes)
    (p : Expr → (ls : Lexemes) → Except Misparse (Expr × { rest : Lexemes // P ls rest })) (x : Expr)
    (ls : Lexemes) (y : Expr) (rest : Lexemes) : Prop :=
  ∃ places, σ.inExpr scopes y = σ.inExpr scopes x ++ places ∧
    Rereads σ s ls rest places fun ls' rest' => ∀ x', σ.Expr scopes x x' →
      Read (p x') (σ.Expr scopes y) ls' rest'

theorem RereadsAfter.nothing {P : Lexemes → Lexemes → Prop}
    {p : Expr → (ls : Lexemes) → Except Misparse (Expr × { rest : Lexemes // P ls rest })}
    (h : ∀ ls', Renamed σ ls ls' → ∀ x', Gives (p x' ls') x' ls') : RereadsAfter σ s scopes p x ls x ls :=
  ⟨[], (List.append_nil _).symm, rereads_nothing fun ls' hls' x' hx => ⟨x', h ls' hls' x', hx⟩⟩

theorem RereadsExpr.after {P P' : Lexemes → Lexemes → Prop} {y : Expr}
    {p : (ls : Lexemes) → Except Misparse (Expr × { rest : Lexemes // P ls rest })}
    {p' : Expr → (ls : Lexemes) → Except Misparse (Expr × { rest : Lexemes // P' ls rest })}
    (hx : RereadsExpr σ s scopes p ls x mid) (hy : RereadsAfter σ s scopes p' x mid y rest) :
    Rereads σ s ls rest (σ.inExpr scopes y) fun ls' rest' =>
      ∃ x' mid', Gives (p ls') x' mid' ∧ Read (p' x') (σ.Expr scopes y) mid' rest' := by
  obtain ⟨places, hplaces, hy⟩ := hy
  rw [hplaces]
  refine (hx.andThen hy).mono ?_
  rintro ls' rest' - - ⟨mid', -, ⟨x', hgives, hx⟩, hy⟩
  exact ⟨x', mid', hgives, hy x' hx⟩

theorem rereads_primary_of
    (hexpr : ∀ ls' : Lexemes, ls'.length < ls.length →
      Leaves (RereadsExpr σ s scopes (σ.scope s).expr ls') (s.expr ls'))
    (hitems : ∀ ls' : Lexemes, ls'.length < ls.length →
      Leaves (RereadsExprs σ s scopes .rparen ls') (s.items .rparen ls')) :
    Leaves (RereadsExpr σ s scopes (σ.scope s).primary ls) (s.primary ls) := by
  rw [primary.eq_def]
  split
  · rename_i o n ls₁
    split
    · rename_i paren ls₂
      refine (hitems ls₂ (by simp only [List.length_cons]; omega)).elim leaves_error
        fun args ls₃ h₃ hargs => ?_
      refine leaves_ok ((rereads_token.andThen (rereads_token.andThen hargs)).mono ?_)
      rintro ls' rest' - - ⟨_, -, ⟨hfresh, o', rfl⟩, _, -, ⟨-, paren', rfl⟩, args', hgives, hargs⟩
      exact ⟨_, gives_call hgives, .call (fun heq => hfresh (congrArg Token.name heq)) hargs⟩
    · rename_i hcall
      refine leaves_ok (rereads_name.mono ?_)
      rintro ls' rest' - hrest ⟨hfresh, o', rfl⟩
      exact ⟨_, gives_name ((Renamed.nextIs_op hrest _).trans (not_nextIs hcall)),
        @Renaming.Expr.ident σ.toRenaming scopes ⟨o, n⟩ o' hfresh⟩
  · refine leaves_ok (rereads_token.mono ?_)
    rintro ls' rest' - - ⟨-, o', rfl⟩
    exact ⟨_, gives_number, .number⟩
  · refine leaves_ok (rereads_token.mono ?_)
    rintro ls' rest' - - ⟨-, o', rfl⟩
    exact ⟨_, gives_real, .number⟩
  · rename_i o ls₁
    refine (hexpr ls₁ (by simp)).elim leaves_error fun x ls₂ h₂ hx => ?_
    dsimp only
    refine (rereads_expectOp σ .rparen ls₂).elim leaves_error fun _ ls₃ h₃ hclose => ?_
    refine leaves_ok ((rereads_token.andThen (hx.andPass hclose)).mono ?_)
    rintro ls' rest' - - ⟨_, -, ⟨-, o', rfl⟩, _, -, ⟨x', hgives, hx⟩, close', rfl⟩
    exact ⟨_, gives_paren hgives, .paren hx⟩
  · exact leaves_error

theorem rereads_postfixes_of
    (hexpr : ∀ ls' : Lexemes, ls'.length < ls.length →
      Leaves (RereadsExpr σ s scopes (σ.scope s).expr ls') (s.expr ls'))
    (hmore : ∀ (y : Expr) (ls' : Lexemes), ls'.length < ls.length →
      Leaves (RereadsAfter σ s scopes (σ.scope s).postfixes y ls') (s.postfixes y ls')) :
    Leaves (RereadsAfter σ s scopes (σ.scope s).postfixes x ls) (s.postfixes x ls) := by
  rw [postfixes.eq_def]
  split
  · rename_i bracket ls₁
    refine (hexpr ls₁ (by simp)).elim leaves_error fun i ls₂ h₂ hi => ?_
    dsimp only
    refine (rereads_expectOp σ .rbrack ls₂).elim leaves_error fun _ ls₃ h₃ hclose => ?_
    dsimp only
    refine (hmore (.index x bracket i) ls₃ (by simp only [List.length_cons]; omega)).elim leaves_error
      fun y ls₄ h₄ hy => ?_
    obtain ⟨places, hplaces, hy⟩ := hy
    refine leaves_ok ⟨σ.inExpr scopes i ++ places, hplaces.trans (List.append_assoc _ _ _),
      (rereads_token.andThen ((hi.andPass hclose).andThen hy)).mono ?_⟩
    rintro ls' rest' - - ⟨_, -, ⟨-, o, rfl⟩, _, -, ⟨_, -, ⟨i', hgives, hi⟩, close', rfl⟩, hy⟩ x' hx
    obtain ⟨y', hgives', hy⟩ := hy (.index x' o i') (.index hx hi)
    exact ⟨y', gives_index hgives hgives', hy⟩
  · rename_i ls₁
    refine (rereads_ident σ ls₁).elim leaves_error fun field ls₂ h₂ hfield => ?_
    dsimp only
    refine (hmore (.select x field) ls₂ (by simp only [List.length_cons]; omega)).elim leaves_error
      fun y ls₃ h₃ hy => ?_
    obtain ⟨places, hplaces, hy⟩ := hy
    refine leaves_ok ⟨places, hplaces, (rereads_token.andThen (hfield.andThen hy)).mono ?_⟩
    rintro ls' rest' - - ⟨_, -, ⟨-, o, rfl⟩, _, -, ⟨-, o', rfl⟩, hy⟩ x' hx
    obtain ⟨y', hgives, hy⟩ := hy (.select x' { field with offset := o' }) (.select hx)
    exact ⟨y', gives_select hgives, hy⟩
  · rename_i hbrack hperiod
    exact leaves_ok (.nothing fun ls' hls' x' => gives_postfixes_nil
      ((Renamed.nextIs_op hls' _).trans (not_nextIs hbrack))
      ((Renamed.nextIs_op hls' _).trans (not_nextIs hperiod)))

namespace Plainly

variable (scopes : Renaming.Scopes)

-- The readers call each other, so that they are shown together to read on, by recursion on what is
-- left as they do.
mutual

theorem expr (h : Plainly σ s) (ls : Lexemes) :
    Leaves (RereadsExpr σ s scopes (σ.scope s).expr ls) (s.expr ls) := by
  rw [Scope.expr]
  refine (h.binary 1 ls).elim leaves_error fun c ls₁ h₁ hc => ?_
  dsimp only
  split
  · rename_i l ls₂ hless
    have hlt : ls₂.length < ls.length := Nat.lt_of_succ_lt hless
    obtain ⟨question, t⟩ := l
    split
    · rename_i ht
      obtain rfl : t = Token.question := ht
      refine (h.expr ls₂).elim leaves_error fun x ls₃ h₃ hx => ?_
      dsimp only
      refine (rereads_expectOp σ .colon ls₃).elim leaves_error fun _ ls₄ h₄ hcolon => ?_
      dsimp only
      refine (h.expr ls₄).elim leaves_error fun y ls₅ h₅ hy => ?_
      refine leaves_ok ((hc.andThen (rereads_token.andThen (hx.andThen (hcolon.andThen hy)))).mono ?_)
      rintro ls' rest' - - ⟨_, -, ⟨c', hc', hc⟩, _, -, ⟨-, o, rfl⟩, _, -, ⟨x', hx', hx⟩, _, -, ⟨o', rfl⟩,
        y', hy', hy⟩
      exact ⟨_, gives_cond hc' hx' hy', .cond hc hx hy⟩
    · rename_i hne
      refine leaves_ok (hc.mono ?_)
      rintro ls' rest' - hrest ⟨c', hc', hc⟩
      refine ⟨c', gives_expr hc' ?_, hc⟩
      rw [hrest.nextIs fun n => by simp [Token.question]]
      exact decide_eq_false hne
  · refine leaves_ok (hc.mono ?_)
    rintro ls' rest' - hrest ⟨c', hc', hc⟩
    cases hrest
    exact ⟨c', gives_expr hc' rfl, hc⟩
termination_by 5 * ls.length + 3
decreasing_by all_goals (subst_vars; try simp only [List.length_cons]); omega

theorem binary (h : Plainly σ s) (p : Nat) (ls : Lexemes) :
    Leaves (RereadsExpr σ s scopes ((σ.scope s).binary p) ls) (s.binary p ls) := by
  rw [Scope.binary]
  refine (h.unary ls).elim leaves_error fun x ls₁ h₁ hx => ?_
  dsimp only
  refine (h.binaryRest p x ls₁).elim leaves_error fun y ls₂ h₂ hy => ?_
  refine leaves_ok ((hx.after hy).mono ?_)
  rintro ls' rest' - - ⟨x', _, hx', y', hy', hy⟩
  exact ⟨y', gives_binary hx' hy', hy⟩
termination_by 5 * ls.length + 2
decreasing_by all_goals omega

theorem binaryRest (h : Plainly σ s) (p : Nat) (x : Expr) (ls : Lexemes) :
    Leaves (RereadsAfter σ s scopes ((σ.scope s).binaryRest p) x ls) (s.binaryRest p x ls) := by
  have hstop : NoOperator p ls → RereadsAfter σ s scopes ((σ.scope s).binaryRest p) x ls x ls := by
    refine fun hno => .nothing fun ls' hls' x' => gives_no_operator fun l' hl' q op hq => ?_
    cases hls' with
    | nil => cases hl'
    | cons hl _ =>
      cases hl'
      rw [hl.congr precedence? fun _ _ => rfl] at hq
      exact hno _ rfl q op hq
  cases ls with
  | nil =>
    rw [Scope.binaryRest]
    exact leaves_ok (hstop fun _ => nofun)
  | cons l ls₁ =>
    rw [Scope.binaryRest]
    split
    · rename_i hnone
      refine leaves_ok (hstop fun l' hl' q op hq => ?_)
      cases hl'
      rw [hnone] at hq
      cases hq
    · rename_i q op hq
      split
      · rename_i hlt
        refine leaves_ok (hstop fun l' hl' q' op' hq' => ?_)
        cases hl'
        rw [hq] at hq'
        cases hq'
        exact hlt
      · rename_i hge
        refine (h.binary (q + 1) ls₁).elim leaves_error fun y ls₂ h₂ hy => ?_
        dsimp only
        refine (h.binaryRest p (.binary x l.offset op y) ls₂).elim leaves_error fun z ls₃ h₃ hz => ?_
        obtain ⟨places, hplaces, hz⟩ := hz
        refine leaves_ok ⟨σ.inExpr scopes y ++ places, hplaces.trans (List.append_assoc _ _ _),
          (rereads_token.andThen (hy.andThen hz)).mono ?_⟩
        rintro ls' rest' - - ⟨_, -, ⟨-, o, rfl⟩, _, -, ⟨y', hy', hy⟩, hz⟩ x' hx
        obtain ⟨z', hz', hz⟩ := hz (.binary x' o op y') (.binary hx hy)
        exact ⟨z', gives_operator (l := ⟨o, l.token⟩) hq (Nat.le_of_not_lt hge) hy' hz', hz⟩
termination_by 5 * ls.length
decreasing_by all_goals (subst_vars; try simp only [List.length_cons]); omega

theorem unary (h : Plainly σ s) (ls : Lexemes) :
    Leaves (RereadsExpr σ s scopes (σ.scope s).unary ls) (s.unary ls) := by
  cases ls with
  | nil =>
    rw [Scope.unary]
    exact leaves_error
  | cons l ls₁ =>
    have hlen : (l :: ls₁).length = ls₁.length + 1 := List.length_cons
    rw [Scope.unary]
    split
    · rename_i op hop
      refine (h.unary ls₁).elim leaves_error fun x ls₂ h₂ hx => ?_
      refine leaves_ok ((rereads_token.andThen hx).mono ?_)
      rintro ls' rest' - - ⟨_, -, ⟨-, o, rfl⟩, x', hgives, hx⟩
      exact ⟨_, gives_unary hop hgives, .unary hx⟩
    · rename_i hop
      split
      · rename_i hparen
        rw [Bool.and_eq_true, decide_eq_true_eq] at hparen
        refine (h.typeSpec ls₁).elim leaves_error fun spec ls₂ h₂ hspec => ?_
        dsimp only
        refine (rereads_expectOp σ .rparen ls₂).elim leaves_error fun _ ls₃ h₃ hclose => ?_
        dsimp only
        refine (h.afterType l.offset spec ls₃).elim leaves_error fun x ls₄ h₄ hx => ?_
        refine leaves_ok ((rereads_token.andThen (hspec.andThen (hclose.andThen hx))).mono ?_)
        rintro ls' rest' - - ⟨start, -, ⟨-, o, rfl⟩, _, -, ⟨o', hgives⟩, _, -, ⟨o'', rfl⟩, hx⟩
        rw [hparen.1]
        exact hx o o' o'' start hgives
      · rename_i hparen
        refine (h.primary (l :: ls₁)).elim leaves_error fun x ls₂ h₂ hx => ?_
        dsimp only
        refine (h.postfixes x ls₂).elim leaves_error fun y ls₃ h₃ hy => ?_
        refine leaves_ok ((hx.after hy).mono ?_)
        rintro ls' rest' hls' - ⟨x', _, hx', y', hy', hy⟩
        cases hls' with
        | @cons _ l' _ ls₁' hl hls₁ =>
          refine ⟨y', gives_operand ?_ (fun hl' => h.typeNext hls₁ ?_) hx' hy', hy⟩
          · rw [hl.congr unaryOp? fun _ _ => rfl]
            exact hop
          · simpa [(hl.eq_op _).mp hl'] using hparen
termination_by 5 * ls.length + 1
decreasing_by all_goals (subst_vars; try simp only [List.length_cons]); omega

/-- What follows a type in brackets makes the same of it. -/
theorem afterType (h : Plainly σ s) (o : Nat) (spec : TypeSpec) (ls : Lexemes) :
    Leaves (fun x rest => Rereads σ s ls rest (σ.inExpr scopes x) fun ls' rest' =>
        ∀ first offset close start,
          Gives ((σ.scope s).typeSpec start) { spec with offset } (⟨close, .op .rparen⟩ :: ls') →
          Read (σ.scope s).unary (σ.Expr scopes x) (⟨first, .op .lparen⟩ :: start) rest')
      (s.afterType o spec ls) := by
  cases ls with
  | nil =>
    rw [Scope.afterType]
    exact leaves_error
  | cons l ls₁ =>
    obtain ⟨lo, token⟩ := l
    rw [Scope.afterType]
    split
    · rename_i hliteral
      by_cases hbrace : token = .op .lbrace
      · subst hbrace
        simp only [if_true]
        refine (h.items .rbrace (by decide) ls₁).elim leaves_error fun xs ls₂ h₂ hxs => ?_
        dsimp only
        refine (h.postfixes (.structLit o spec xs) ls₂).elim leaves_error fun x ls₃ h₃ hx => ?_
        obtain ⟨places, hplaces, hx⟩ := hx
        refine leaves_ok ?_
        rw [hplaces]
        refine (rereads_token.andThen (hxs.andThen hx)).mono ?_
        rintro ls' rest' - - ⟨_, -, ⟨-, lo', rfl⟩, _, -, ⟨xs', hgives, hxs⟩, hx⟩ first offset close start hspec
        obtain ⟨x', hgives', hx⟩ := hx (.structLit first { spec with offset } xs') (.structLit hxs)
        exact ⟨x', gives_structLit (typeNext_of_typeSpec hspec) hspec hgives hgives', hx⟩
      · simp only [hbrace, decide_false, Bool.false_or, Bool.and_eq_true, decide_eq_true_eq] at hliteral
        obtain ⟨rfl, hvector⟩ := hliteral
        simp only [hbrace, if_false]
        refine (h.items .rparen (by decide) ls₁).elim leaves_error fun xs ls₂ h₂ hxs => ?_
        dsimp only
        refine (h.postfixes (.vectorLit o spec xs) ls₂).elim leaves_error fun x ls₃ h₃ hx => ?_
        obtain ⟨places, hplaces, hx⟩ := hx
        refine leaves_ok ?_
        rw [hplaces]
        refine (rereads_token.andThen (hxs.andThen hx)).mono ?_
        rintro ls' rest' - - ⟨_, -, ⟨-, lo', rfl⟩, _, -, ⟨xs', hgives, hxs⟩, hx⟩ first offset close start hspec
        obtain ⟨x', hgives', hx⟩ := hx (.vectorLit first { spec with offset } xs') (.vectorLit hxs)
        exact ⟨x', gives_vectorLit (typeNext_of_typeSpec hspec) hspec hvector hgives hgives', hx⟩
    · rename_i hliteral
      simp only [Bool.or_eq_true, Bool.and_eq_true, decide_eq_true_eq, not_or, not_and,
        Bool.not_eq_true] at hliteral
      refine (h.unary (⟨lo, token⟩ :: ls₁)).elim leaves_error fun x ls₂ h₂ hx => ?_
      refine leaves_ok (hx.mono ?_)
      rintro ls' rest' hls' - ⟨x', hgives, hx⟩ first offset close start hspec
      cases hls' with
      | cons hl _ =>
        exact ⟨_, gives_cast (typeNext_of_typeSpec hspec) hspec ⟨fun heq => hliteral.1 ((hl.eq_op _).mp heq),
          fun heq => hliteral.2 ((hl.eq_op _).mp heq)⟩ hgives, .cast hx⟩
termination_by 5 * ls.length + 2
decreasing_by all_goals (subst_vars; try simp only [List.length_cons]); omega

theorem items (h : Plainly σ s) (closing : Operator) (hclosing : closing ≠ .comma) (ls : Lexemes) :
    Leaves (RereadsExprs σ s scopes closing ls) (s.items closing ls) := by
  rw [Scope.items]
  split
  · refine (rereads_expectOp σ closing ls).elim leaves_error fun _ rest hrest hclose => ?_
    refine leaves_ok (hclose.mono ?_)
    rintro ls' rest' - - ⟨o, rfl⟩
    exact ⟨[], gives_items_nil, .nil⟩
  · rename_i hfirst
    have hfirst := Bool.eq_false_of_not_eq_true hfirst
    refine (h.expr ls).elim leaves_error fun x ls₁ h₁ hx => ?_
    dsimp only
    split
    · rename_i comma ls₂ hless
      have hlt : ls₂.length < ls.length := Nat.lt_of_succ_lt hless
      refine (h.items closing hclosing ls₂).elim leaves_error fun xs ls₃ h₃ hxs => ?_
      refine leaves_ok ((hx.andThen (rereads_token.andThen hxs)).mono ?_)
      rintro ls' rest' hls' - ⟨_, -, ⟨x', hx', hx⟩, _, -, ⟨-, o, rfl⟩, xs', hxs', hxs⟩
      exact ⟨_, gives_items_cons ((Renamed.nextIs_op hls' _).trans hfirst) hx' hxs', .cons hx hxs⟩
    · refine (rereads_expectOp σ closing ls₁).elim leaves_error fun _ ls₂ h₂ hclose => ?_
      refine leaves_ok ?_
      rw [RereadsExprs, Renaming.inExprs, Renaming.inExprs, List.append_nil]
      refine (hx.andPass hclose).mono ?_
      rintro ls' rest' hls' - ⟨_, -, ⟨x', hx', hx⟩, o, rfl⟩
      exact ⟨_, gives_items_last hclosing ((Renamed.nextIs_op hls' _).trans hfirst) hx', .cons hx .nil⟩
termination_by 5 * ls.length + 4
decreasing_by all_goals (subst_vars; try simp only [List.length_cons]); omega

theorem primary (h : Plainly σ s) (ls : Lexemes) :
    Leaves (RereadsExpr σ s scopes (σ.scope s).primary ls) (s.primary ls) :=
  rereads_primary_of (fun ls' _ => h.expr ls') (fun ls' _ => h.items .rparen (by decide) ls')
termination_by 5 * ls.length
decreasing_by all_goals omega

theorem postfixes (h : Plainly σ s) (x : Expr) (ls : Lexemes) :
    Leaves (RereadsAfter σ s scopes (σ.scope s).postfixes x ls) (s.postfixes x ls) :=
  rereads_postfixes_of (fun ls' _ => h.expr ls') (fun y ls' _ => h.postfixes y ls')
termination_by 5 * ls.length
decreasing_by all_goals omega

end

end Plainly

/-! ### Statements -/

/-- What is read again leaves less than everything, as it did. -/
theorem Rereads.again {α : Type} {p' : (ls : Lexemes) → Parse α ls} {R : α → Prop}
    (h : Rereads σ s ls rest places Q) (hlt : rest.length < ls.length)
    (hq : ∀ ls' rest' hlt', Renamed σ ls ls' → Renamed σ rest rest' → Q ls' rest' →
      ∃ x', p' ls' = .ok (x', ⟨rest', hlt'⟩) ∧ R x') : Rereads σ s ls rest places (Read p' R) :=
  h.mono fun ls' rest' hls' hrest hQ => by
    have hlt' : rest'.length < ls'.length := by rwa [← hls'.length_eq, ← hrest.length_eq]
    obtain ⟨x', hx', hx⟩ := hq ls' rest' hlt' hls' hrest hQ
    exact ⟨x', ⟨hlt', hx'⟩, hx⟩

theorem leaves_less {α : Type} {F : α → Lexemes → Prop} {x : α} {hlt : rest.length < ls.length}
    (h : rest.length < ls.length → F x rest) : Leaves F (.ok (x, ⟨rest, hlt⟩) : Parse α ls) :=
  leaves_ok (h hlt)

section Parts

variable {α : Type} {places : α → List Nat} {R : α → α → Prop} {p p' : (ls : Lexemes) → Parse α ls}

theorem rereads_terminated
    (hp : Leaves (fun x rest => Rereads σ s ls rest (places x) (Read p' (R x))) (p ls)) :
    Leaves (fun x rest => Rereads σ s ls rest (places x)
      (Read (fun ls => (σ.scope s).terminated ls (p' ls)) (R x))) (s.terminated ls (p ls)) := by
  rw [terminated.eq_def]
  refine hp.elim leaves_error fun x ls₁ h₁ hx => ?_
  dsimp only
  refine (rereads_expectOp σ .semicolon ls₁).elim leaves_error fun _ ls₂ h₂ hclose => ?_
  refine leaves_less fun hlt => (hx.andPass hclose).again hlt ?_
  rintro ls' rest' - - - ⟨_, -, ⟨x', ⟨_, hx'⟩, hx⟩, o, rfl⟩
  exact ⟨x', by simp only [terminated, hx', expectOp_cons], hx⟩

theorem rereads_unlessOp {op : Operator}
    (hp : ∀ ls, Leaves (fun x rest => Rereads σ s ls rest (places x) (Read p' (R x))) (p ls))
    (ls : Lexemes) :
    Leaves (fun x rest => Rereads σ s ls rest (inOption places x)
      (Read (fun ls => (σ.scope s).unlessOp op ls p') (Option.Rel R x))) (s.unlessOp op ls p) := by
  rw [unlessOp]
  split
  · refine (rereads_expectOp σ op ls).elim leaves_error fun _ rest h hclose => ?_
    refine leaves_less fun hlt => hclose.again hlt ?_
    rintro ls' rest' - - - ⟨o, rfl⟩
    refine ⟨none, ?_, .none⟩
    simp only [unlessOp, Scope.nextIs, decide_true, if_true, expectOp_cons]
  · rename_i hfirst
    have hfirst := Bool.eq_false_of_not_eq_true hfirst
    refine (hp ls).elim leaves_error fun x ls₁ h₁ hx => ?_
    dsimp only
    refine (rereads_expectOp σ op ls₁).elim leaves_error fun _ ls₂ h₂ hclose => ?_
    refine leaves_less fun hlt => (hx.andPass hclose).again hlt ?_
    rintro ls' rest' - hls' - ⟨_, -, ⟨x', ⟨_, hx'⟩, hx⟩, o, rfl⟩
    refine ⟨some x', ?_, .some hx⟩
    simp only [unlessOp, Renamed.nextIs_op hls', hfirst, Bool.false_eq_true, if_false, hx', expectOp_cons]

end Parts

/-- A simple statement, and the scopes after it. -/
abbrev RereadsSimple (σ : Respelling) (s : Scope) (scopes : Renaming.Scopes)
    (p : (ls : Lexemes) → Parse Simple ls) (ls : Lexemes) (st : Simple) (rest : Lexemes) : Prop :=
  Rereads σ s ls rest (σ.inSimple scopes st)
    (Read p fun st' => σ.Simple scopes st st' (afterSimple scopes st))

/-- A statement, and the scopes after it. -/
abbrev RereadsStmt (σ : Respelling) (s : Scope) (scopes : Renaming.Scopes) (ls : Lexemes) (st : Stmt)
    (rest : Lexemes) : Prop :=
  Rereads σ s ls rest (σ.inStmt scopes st)
    (Read (σ.scope s).stmt fun st' => σ.Stmt scopes st st' (afterStmt scopes st))

abbrev RereadsStmts (σ : Respelling) (s : Scope) (scopes : Renaming.Scopes) (ls : Lexemes) (sts : List Stmt)
    (rest : Lexemes) : Prop :=
  Rereads σ s ls rest (σ.inStmts scopes sts)
    (Read (σ.scope s).stmts fun sts' => ∃ after, σ.Stmts scopes sts sts' after)

/-- Nothing follows an expression that does not, as no operator is a name. -/
theorem afterExpr_end (hls : ∀ o op ls₁, ls ≠ ⟨o, .op op⟩ :: ls₁) :
    s.afterExpr x ls = .ok (.expr x, ⟨ls, Nat.le_refl _⟩) := by
  unfold afterExpr
  split
  · exact absurd rfl (hls _ _ _)
  · rfl

/-- No operator comes first where none did. -/
theorem Renamed.ne_op (h : Renamed σ ls ls') (hls : ∀ o op ls₁, ls ≠ ⟨o, .op op⟩ :: ls₁) :
    ∀ o op ls₁, ls' ≠ ⟨o, .op op⟩ :: ls₁ := by
  rintro o op ls₁' rfl
  cases h with
  | @cons l _ ls₁ _ hl _ => exact hls l.offset op ls₁ (by rw [← (hl.eq_op op).mp rfl])

/-- The tokens that a statement of its own kind starts with. -/
def stmtTokens : List Token :=
  [.op .lbrace, .op .semicolon, .keyword .cond, .keyword .loop, .name "while", .keyword .ret,
    .keyword .brk, .keyword .cont]

/-- Any other statement is a simple one. -/
theorem stmt_simple (s : Scope) (h : ∀ t ∈ stmtTokens, ∀ o ls₁, ls ≠ ⟨o, t⟩ :: ls₁) :
    s.stmt ls =
      match s.terminated ls (s.simple ls) with
      | .error e => .error e
      | .ok (x, rest) => .ok (.simple x, rest) := by
  rw [stmt.eq_def]
  split
  all_goals first
    | rfl
    | exact absurd rfl (h _ (by decide) _ _)

theorem rereads_names (σ : Respelling) (ls : Lexemes) :
    Leaves (fun ids rest => Rereads σ s ls rest []
      (Read (σ.scope s).names fun ids' => ids'.map Ident.bare = ids.map Ident.bare)) (s.names ls) := by
  rw [names]
  refine (rereads_ident σ ls).elim leaves_error fun name ls₁ h₁ hname => ?_
  dsimp only
  split
  · rename_i comma ls₂ hless
    refine (rereads_names σ ls₂).elim leaves_error fun more ls₃ h₃ hmore => ?_
    refine leaves_less fun hlt => (hname.andThen (rereads_token.andThen hmore)).again hlt ?_
    rintro ls' rest' - - - ⟨_, -, ⟨-, o, rfl⟩, _, -, ⟨-, o', rfl⟩, more', ⟨_, hmore'⟩, hmore⟩
    refine ⟨⟨o, name.name⟩ :: more', ?_, congrArg (name.bare :: ·) hmore⟩
    rw [names]
    simp only [ident, hmore']
  · rename_i hcomma
    refine leaves_less fun hlt => hname.again hlt ?_
    rintro ls' rest' - - hrest ⟨-, o, rfl⟩
    have hcomma := (Renamed.nextIs_op hrest .comma).trans
      (not_nextIs_of (P := fun rest => rest.length < ls.length) _ hcomma)
    refine ⟨[⟨o, name.name⟩], ?_, rfl⟩
    rw [names]
    simp only [ident]
    split
    · cases hcomma
    · rfl
termination_by ls.length
decreasing_by all_goals grind

theorem rereads_optionalName (ls : Lexemes) :
    Rereads σ s ls (optionalName ls).val [] fun ls' rest' => (optionalName ls').val = rest' := by
  unfold optionalName
  split
  · refine rereads_token.mono ?_
    rintro ls' rest' - - ⟨-, o, rfl⟩
    rfl
  · rename_i hnone
    refine rereads_nothing fun ls' hls' => ?_
    split
    · rename_i o' n ls₁'
      cases hls' with
      | @cons l _ ls₁ _ hl _ =>
        have hname := hl.congr (fun t => ∃ m, t = .name m) fun m n =>
          propext ⟨fun _ => ⟨n, rfl⟩, fun _ => ⟨m, rfl⟩⟩
        obtain ⟨m, hm⟩ := hname.mp ⟨n, rfl⟩
        exact absurd (by rw [← hm]) (hnone l.offset m ls₁)
    · rfl

theorem funcWords_of {isKernel isKernel' : Bool} (h : (funcWords isKernel ls).1 = isKernel' ∧
    (funcWords isKernel ls).2.val = rest) : ∃ hle, funcWords isKernel ls = (isKernel', ⟨rest, hle⟩) :=
  ⟨h.2 ▸ (funcWords isKernel ls).2.property, Prod.ext h.1 (Subtype.ext h.2)⟩

theorem part_of_rel {part part' : Option Simple}
    (h : Option.Rel (fun st st' => σ.Simple scopes st st' (afterSimple scopes st)) part part') :
    σ.Part scopes part part' (afterPart scopes part) := by
  cases h with
  | none => exact .none
  | some hst => exact .some hst

namespace Plainly

section

variable (h : Plainly σ s) (scopes : Renaming.Scopes)
include h

theorem condition (ls : Lexemes) :
    Leaves (RereadsExpr σ s scopes (σ.scope s).condition ls) (s.condition ls) := by
  rw [Scope.condition]
  refine (rereads_expectOp σ .lparen ls).elim leaves_error fun _ ls₁ h₁ hopen => ?_
  dsimp only
  refine (h.expr scopes ls₁).elim leaves_error fun x ls₂ h₂ hx => ?_
  dsimp only
  refine (rereads_expectOp σ .rparen ls₂).elim leaves_error fun _ ls₃ h₃ hclose => ?_
  refine leaves_less fun hlt => (hopen.andThen (hx.andPass hclose)).again hlt ?_
  rintro ls' rest' - - - ⟨_, -, ⟨o, rfl⟩, _, -, ⟨x', ⟨_, hx'⟩, hx⟩, o', rfl⟩
  exact ⟨x', by simp only [Scope.condition, expectOp_cons, hx'], hx⟩

theorem initializer (ls : Lexemes) :
    Leaves (fun init rest => Rereads σ s ls rest (inOption (σ.inExpr scopes) init)
      (Read (σ.scope s).initializer (Option.Rel (σ.Expr scopes) init))) (s.initializer ls) := by
  rw [initializer.eq_def]
  split
  · exact leaves_error
  · rename_i ls₁
    refine (h.expr scopes ls₁).elim leaves_error fun x ls₂ h₂ hx => ?_
    refine leaves_ok ((rereads_token.andThen hx).mono ?_)
    rintro ls' rest' - - ⟨_, -, ⟨-, o, rfl⟩, x', ⟨hlt, hx'⟩, hx⟩
    refine ⟨some x', ⟨by simp only [List.length_cons]; omega, ?_⟩, .some hx⟩
    simp only [Scope.initializer, hx']
  · rename_i hbrack hassign
    refine leaves_ok (rereads_nothing fun ls' hls' => ?_)
    have hbrack := (Renamed.nextIs_op hls' .lbrack).trans (not_nextIs hbrack)
    have hassign := (Renamed.nextIs_op hls' .assign).trans (not_nextIs hassign)
    refine ⟨none, ⟨Nat.le_refl _, ?_⟩, .none⟩
    unfold Scope.initializer
    split
    · cases hbrack
    · cases hassign
    · rfl

theorem afterExpr (x : Expr) (ls : Lexemes) :
    Leaves (fun st rest => ∃ places, σ.inSimple scopes st = σ.inExpr scopes x ++ places ∧
      afterSimple scopes st = scopes ∧
      Rereads σ s ls rest places fun ls' rest' => ∀ x', σ.Expr scopes x x' →
        Read ((σ.scope s).afterExpr x') (fun st' => σ.Simple scopes st st' scopes) ls' rest')
      (s.afterExpr x ls) := by
  rw [afterExpr.eq_def]
  split
  · rename_i o op ls₁
    split
    · rename_i hop
      refine (h.expr scopes ls₁).elim leaves_error fun y ls₂ h₂ hy => ?_
      refine leaves_ok ⟨σ.inExpr scopes y, rfl, rfl, (rereads_token.andThen hy).mono ?_⟩
      rintro ls' rest' - - ⟨_, -, ⟨-, o', rfl⟩, y', ⟨hlt, hy'⟩, hy⟩ x' hx
      refine ⟨.assign x' o' op y', ⟨by simp only [List.length_cons]; omega, ?_⟩, .assign hx hy⟩
      simp only [Scope.afterExpr, if_pos hop, hy']
    · rename_i hop
      split
      · rename_i hstep
        refine leaves_ok ⟨[], (List.append_nil _).symm, rfl, rereads_token.mono ?_⟩
        rintro ls' rest' - - ⟨-, o', rfl⟩ x' hx
        refine ⟨.step x' o' op, ⟨by simp, ?_⟩, .step hx⟩
        simp only [Scope.afterExpr, if_neg hop, if_pos hstep]
      · rename_i hstep
        refine leaves_ok ⟨[], (List.append_nil _).symm, rfl, rereads_nothing fun ls' hls' x' hx => ?_⟩
        cases hls' with
        | @cons _ l' _ ls₁' hl _ =>
          obtain ⟨o', t⟩ := l'
          obtain rfl : t = .op op := (hl.eq_op op).mpr rfl
          exact ⟨_, ⟨Nat.le_refl _, by simp only [Scope.afterExpr, if_neg hop, if_neg hstep]⟩, .expr hx⟩
  · rename_i hnone
    exact leaves_ok ⟨[], (List.append_nil _).symm, rfl, rereads_nothing fun ls' hls' x' hx =>
      ⟨_, ⟨Nat.le_refl _, afterExpr_end (Renamed.ne_op hls' hnone)⟩, .expr hx⟩⟩

theorem exprSimple (ls : Lexemes) :
    Leaves (RereadsSimple σ s scopes (σ.scope s).exprSimple ls) (s.exprSimple ls) := by
  rw [Scope.exprSimple]
  refine (h.expr scopes ls).elim leaves_error fun x ls₁ h₁ hx => ?_
  dsimp only
  refine (h.afterExpr scopes x ls₁).elim leaves_error fun st ls₂ h₂ hst => ?_
  obtain ⟨places, hplaces, hscopes, hst⟩ := hst
  refine leaves_less fun hlt => ?_
  rw [RereadsSimple, hplaces, hscopes]
  refine (hx.andThen hst).again hlt ?_
  rintro ls' rest' - - - ⟨_, -, ⟨x', ⟨_, hx'⟩, hx⟩, hst⟩
  obtain ⟨st', ⟨_, hst'⟩, hst⟩ := hst x' hx
  exact ⟨st', by simp only [Scope.exprSimple, hx', hst'], hst⟩

end

theorem declarators (h : Plainly σ s) (ls : Lexemes) (scopes : Renaming.Scopes) :
    Leaves (fun vars rest => Rereads σ s ls rest (σ.inVars scopes vars)
      (Read (σ.scope s).declarators fun vars' => σ.Vars scopes vars vars' (afterVars scopes vars)))
      (s.declarators ls) := by
  rw [Scope.declarators]
  refine (rereads_declared σ ls).elim leaves_error fun name ls₁ h₁ hname => ?_
  dsimp only
  refine (h.initializer scopes ls₁).elim leaves_error fun init ls₂ h₂ hinit => ?_
  have hvar := hname.andThen hinit
  dsimp only
  split
  · rename_i comma ls₃ hless
    refine (h.declarators ls₃ (Renaming.declare name scopes)).elim leaves_error
      fun vars ls₄ h₄ hvars => ?_
    refine leaves_less fun hlt => ?_
    rw [Renaming.inVars, ← List.append_assoc]
    refine (hvar.andThen (rereads_token.andThen hvars)).again hlt ?_
    rintro ls' rest' - - - ⟨_, -, ⟨_, -, ⟨hfresh, o, rfl⟩, init', ⟨_, hinit'⟩, hinit⟩, _, -,
      ⟨-, o', rfl⟩, vars', ⟨_, hvars'⟩, hvars⟩
    refine ⟨(⟨o, σ.declared name⟩, init') :: vars', ?_, .cons hfresh hinit hvars⟩
    rw [Scope.declarators]
    simp only [ident, hinit', hvars']
  · rename_i hcomma
    refine leaves_less fun hlt => ?_
    rw [Renaming.inVars, Renaming.inVars, List.append_nil]
    refine hvar.again hlt ?_
    rintro ls' rest' - - hrest ⟨_, -, ⟨hfresh, o, rfl⟩, init', ⟨_, hinit'⟩, hinit⟩
    have hcomma := (Renamed.nextIs_op hrest .comma).trans
      (not_nextIs_of (P := fun rest => rest.length ≤ ls₁.length) _ hcomma)
    refine ⟨[(⟨o, σ.declared name⟩, init')], ?_, .cons hfresh hinit .nil⟩
    rw [Scope.declarators]
    simp only [ident, hinit']
    split
    · cases hcomma
    · rfl
termination_by ls.length
decreasing_by all_goals grind

section

variable (h : Plainly σ s) (scopes : Renaming.Scopes)
include h

theorem simple (ls : Lexemes) :
    Leaves (RereadsSimple σ s scopes (σ.scope s).simple ls) (s.simple ls) := by
  rw [simple.eq_def]
  split
  · rename_i htype
    refine (h.typeSpec ls).elim leaves_error fun spec ls₁ h₁ hspec => ?_
    dsimp only
    refine (h.declarators ls₁ scopes).elim leaves_error fun vars ls₂ h₂ hvars => ?_
    refine leaves_less fun hlt => (hspec.andThen hvars).again hlt ?_
    rintro ls' rest' - - - ⟨_, -, ⟨o, hspec⟩, vars', ⟨_, hvars'⟩, hvars⟩
    refine ⟨.decl { spec with offset := o } vars', ?_, .decl hvars⟩
    rw [simple.eq_def, if_pos (typeNext_of_typeSpec hspec), hspec.2]
    simp only [hvars']
  · rename_i hno
    have htype := Bool.eq_false_of_not_eq_true hno
    split
    · rename_i o op ls₁
      split
      · rename_i hop
        refine (h.unary scopes ls₁).elim leaves_error fun x ls₂ h₂ hx => ?_
        refine leaves_less fun hlt => (rereads_token.andThen hx).again hlt ?_
        rintro ls' rest' - - - ⟨_, -, ⟨-, o', rfl⟩, x', ⟨_, hx'⟩, hx⟩
        refine ⟨.step x' o' op, ?_, .step hx⟩
        rw [Scope.simple, if_neg (by exact Bool.false_ne_true)]
        simp only [if_pos hop, hx']
      · rename_i hop
        intro st rest hst
        refine (h.exprSimple scopes _ st rest hst).mono ?_
        rintro ls' rest' hls' - ⟨st', ⟨hlt, hst'⟩, hst⟩
        refine ⟨st', ⟨hlt, ?_⟩, hst⟩
        cases hls' with
        | @cons _ l' _ ls₁' hl _ =>
          obtain ⟨o', t⟩ := l'
          obtain rfl : t = .op op := (hl.eq_op op).mpr rfl
          rw [Scope.simple, if_neg (by exact Bool.false_ne_true)]
          simp only [if_neg hop, hst']
    · rename_i hnone
      intro st rest hst
      refine (h.exprSimple scopes _ st rest hst).mono ?_
      rintro ls' rest' hls' - ⟨st', ⟨hlt, hst'⟩, hst⟩
      refine ⟨st', ⟨hlt, ?_⟩, hst⟩
      rw [simple.eq_def, if_neg (by rw [h.typeNext hls' htype]; exact Bool.false_ne_true)]
      split
      · exact absurd rfl (Renamed.ne_op hls' hnone _ _ _)
      · exact hst'

theorem header (ls : Lexemes) :
    Leaves (fun d rest => Rereads σ s ls rest
        (inOption (σ.inSimple ([] :: scopes)) d.init ++
          (inOption (σ.inExpr (afterPart ([] :: scopes) d.init)) d.test ++
            inOption (σ.inSimple ([] :: afterPart ([] :: scopes) d.init)) d.post))
        (Read (σ.scope s).header fun d' => ∃ inner,
          σ.Part ([] :: scopes) d.init d'.init (afterPart ([] :: scopes) d.init) ∧
            Option.Rel (σ.Expr (afterPart ([] :: scopes) d.init)) d.test d'.test ∧
              σ.Part ([] :: afterPart ([] :: scopes) d.init) d.post d'.post inner)) (s.header ls) := by
  rw [Scope.header]
  refine (rereads_expectOp σ .lparen ls).elim leaves_error fun _ ls₁ h₁ hopen => ?_
  dsimp only
  refine (rereads_unlessOp (h.simple ([] :: scopes)) ls₁).elim leaves_error fun init ls₂ h₂ hinit => ?_
  dsimp only
  refine (rereads_unlessOp (h.expr (afterPart ([] :: scopes) init)) ls₂).elim leaves_error
    fun test ls₃ h₃ htest => ?_
  dsimp only
  refine (rereads_unlessOp (h.simple ([] :: afterPart ([] :: scopes) init)) ls₃).elim leaves_error
    fun post ls₄ h₄ hpost => ?_
  refine leaves_less fun hlt => (hopen.andThen (hinit.andThen (htest.andThen hpost))).again hlt ?_
  rintro ls' rest' - - - ⟨_, -, ⟨o, rfl⟩, _, -, ⟨init', ⟨_, hinit'⟩, hinit⟩, _, -,
    ⟨test', ⟨_, htest'⟩, htest⟩, post', ⟨_, hpost'⟩, hpost⟩
  refine ⟨⟨init', test', post'⟩, ?_, _, part_of_rel hinit, htest, part_of_rel hpost⟩
  simp only [Scope.header, expectOp_cons, hinit', htest', hpost']

/-- No statement of its own kind starts where none did. -/
theorem ne_stmtTokens (hls' : Renamed σ ls ls') (hls : ∀ t ∈ stmtTokens, ∀ o ls₁, ls ≠ ⟨o, t⟩ :: ls₁) :
    ∀ t ∈ stmtTokens, ∀ o ls₁, ls' ≠ ⟨o, t⟩ :: ls₁ := by
  rintro t ht o ls₁' rfl
  cases hls' with
  | @cons l _ ls₁ _ hl _ =>
    have hfresh : t ≠ .name σ.fresh := by
      rintro rfl
      exact h.ne_word (w := σ.fresh) (.inl (by simp_all [stmtTokens, Renaming.grammarWords])) rfl
    exact hls t ht l.offset ls₁ (by rw [← hl.eq_of_eq hfresh rfl])

theorem stmt_of
    (hstmt : ∀ ls' : Lexemes, ls'.length < ls.length → ∀ scopes,
      Leaves (RereadsStmt σ s scopes ls') (s.stmt ls'))
    (hstmts : ∀ ls' : Lexemes, ls'.length < ls.length → ∀ scopes,
      Leaves (RereadsStmts σ s scopes ls') (s.stmts ls')) :
    Leaves (RereadsStmt σ s scopes ls) (s.stmt ls) := by
  rw [stmt.eq_def]
  split
  · rename_i o ls₁
    refine (hstmts ls₁ (by simp) ([] :: scopes)).elim leaves_error fun body ls₂ h₂ hbody => ?_
    refine leaves_ok ((rereads_token.andThen hbody).mono ?_)
    rintro ls' rest' - - ⟨_, -, ⟨-, o', rfl⟩, body', hgives, after, hbody⟩
    exact ⟨_, gives_block hgives, .block hbody⟩
  · rename_i o ls₁
    refine leaves_less fun hlt => rereads_token.again hlt ?_
    rintro ls' rest' - - - ⟨-, o', rfl⟩
    exact ⟨.empty o', by rw [stmt.eq_def], .empty⟩
  · rename_i o ls₁
    refine (h.condition scopes ls₁).elim leaves_error fun test ls₂ h₂ htest => ?_
    dsimp only
    refine (hstmt ls₂ (by simp only [List.length_cons]; omega) ([] :: scopes)).elim leaves_error
      fun yes ls₃ h₃ hyes => ?_
    dsimp only
    split
    · rename_i els ls₄ hless
      simp only [List.length_cons] at hless
      refine (hstmt ls₄ (by simp only [List.length_cons]; omega) ([] :: scopes)).elim leaves_error
        fun no ls₅ h₅ hno => ?_
      refine leaves_less fun hlt => (rereads_token.andThen
        (htest.andThen (hyes.andThen (rereads_token.andThen hno)))).again hlt ?_
      rintro ls' rest' - - - ⟨_, -, ⟨-, o', rfl⟩, _, -, ⟨test', ⟨_, htest'⟩, htest⟩, _, -,
        ⟨yes', ⟨_, hyes'⟩, hyes⟩, _, -, ⟨-, o'', rfl⟩, no', ⟨_, hno'⟩, hno⟩
      exact ⟨.ifElse o' test' yes' no', by rw [stmt.eq_def]; simp only [htest', hyes', hno'],
        .ifElse htest hyes hno⟩
    · rename_i helse
      refine leaves_less fun hlt => (rereads_token.andThen (htest.andThen hyes)).again hlt ?_
      rintro ls' rest' - - hrest ⟨_, -, ⟨-, o', rfl⟩, _, -, ⟨test', ⟨_, htest'⟩, htest⟩,
        yes', ⟨_, hyes'⟩, hyes⟩
      have hels : ∀ n, Token.keyword .els ≠ .name n := fun n h => by cases h
      have helse : nextIs (.keyword .els) rest' = false := (Renamed.nextIs hrest hels).trans
        (not_nextIs_of (P := fun rest => rest.length < ls₂.length) _ helse)
      refine ⟨.ifThen o' test' yes', ?_, .ifThen htest hyes⟩
      rw [stmt.eq_def]
      simp only [htest', hyes']
      split
      · cases helse
      · rfl
  · rename_i o ls₁
    refine (h.header scopes ls₁).elim leaves_error fun d ls₂ h₂ hd => ?_
    dsimp only
    refine (hstmt ls₂ (by simp only [List.length_cons]; omega) ([] :: afterPart ([] :: scopes) d.init)).elim leaves_error
      fun body ls₃ h₃ hbody => ?_
    refine leaves_less fun hlt => (rereads_token.andThen (hd.andThen hbody)).again hlt ?_
    rintro ls' rest' - - - ⟨_, -, ⟨-, o', rfl⟩, _, -, ⟨d', ⟨_, hd'⟩, inner, hinit, htest, hpost⟩,
      body', ⟨_, hbody'⟩, hbody⟩
    exact ⟨.loop o' d'.init d'.test d'.post body', by rw [stmt.eq_def]; simp only [hd', hbody'],
      .loop hinit htest hpost hbody⟩
  · rename_i o ls₁
    refine (h.condition ([] :: scopes) ls₁).elim leaves_error fun test ls₂ h₂ htest => ?_
    dsimp only
    refine (hstmt ls₂ (by simp only [List.length_cons]; omega) ([] :: [] :: scopes)).elim leaves_error
      fun body ls₃ h₃ hbody => ?_
    refine leaves_less fun hlt => ?_
    simp only [RereadsStmt, Renaming.inStmt, inOption, afterPart, List.nil_append, List.append_nil]
    refine (rereads_token.andThen (htest.andThen hbody)).again hlt ?_
    rintro ls' rest' - - - ⟨_, -, ⟨-, o', rfl⟩, _, -, ⟨test', ⟨_, htest'⟩, htest⟩,
      body', ⟨_, hbody'⟩, hbody⟩
    exact ⟨.loop o' none (some test') none body', by rw [stmt.eq_def]; simp only [htest', hbody'],
      .loop .none (.some htest) .none hbody⟩
  · rename_i o ls₁
    refine (rereads_unlessOp (h.expr scopes) ls₁).elim leaves_error fun x ls₂ h₂ hx => ?_
    refine leaves_less fun hlt => (rereads_token.andThen hx).again hlt ?_
    rintro ls' rest' - - - ⟨_, -, ⟨-, o', rfl⟩, x', ⟨_, hx'⟩, hx⟩
    exact ⟨.ret o' x', by rw [stmt.eq_def]; simp only [hx'], .ret hx⟩
  · rename_i o ls₁
    refine (rereads_expectOp σ .semicolon ls₁).elim leaves_error fun _ ls₂ h₂ hclose => ?_
    refine leaves_less fun hlt => (rereads_token.andThen hclose).again hlt ?_
    rintro ls' rest' - - - ⟨_, -, ⟨-, o', rfl⟩, o'', rfl⟩
    exact ⟨.brk o', by rw [stmt.eq_def]; simp only [expectOp_cons], .brk⟩
  · rename_i o ls₁
    refine (rereads_expectOp σ .semicolon ls₁).elim leaves_error fun _ ls₂ h₂ hclose => ?_
    refine leaves_less fun hlt => (rereads_token.andThen hclose).again hlt ?_
    rintro ls' rest' - - - ⟨_, -, ⟨-, o', rfl⟩, o'', rfl⟩
    exact ⟨.cont o', by rw [stmt.eq_def]; simp only [expectOp_cons], .cont⟩
  · rename_i hblock hempty hcond hloop hwhile hret hbrk hcont
    refine (rereads_terminated (h.simple scopes ls)).elim leaves_error fun x rest hrest hx => ?_
    refine leaves_less fun hlt => hx.again hlt ?_
    rintro ls' rest' - hls' - ⟨x', ⟨_, hx'⟩, hx⟩
    refine ⟨.simple x', ?_, .simple hx⟩
    have hx' : (σ.scope s).terminated ls' ((σ.scope s).simple ls') = _ := hx'
    rw [stmt_simple _ (h.ne_stmtTokens hls' ?_), hx']
    simp only [stmtTokens, List.forall_mem_cons, List.not_mem_nil, false_implies, implies_true, and_true]
    exact ⟨hblock, hempty, hcond, hloop, hwhile, hret, hbrk, hcont⟩

end

mutual

theorem stmt (h : Plainly σ s) (ls : Lexemes) (scopes : Renaming.Scopes) :
    Leaves (RereadsStmt σ s scopes ls) (s.stmt ls) :=
  h.stmt_of scopes (fun ls' _ => h.stmt ls') (fun ls' _ => h.stmts ls')
termination_by 2 * ls.length
decreasing_by all_goals omega

theorem stmts (h : Plainly σ s) (ls : Lexemes) (scopes : Renaming.Scopes) :
    Leaves (RereadsStmts σ s scopes ls) (s.stmts ls) := by
  cases ls with
  | nil =>
    rw [Scope.stmts]
    exact leaves_error
  | cons l ls₁ =>
    rw [Scope.stmts]
    split
    · rename_i hclose
      obtain ⟨o, t⟩ := l
      obtain rfl : t = .op .rbrace := hclose
      refine leaves_ok (rereads_token.mono ?_)
      rintro ls' rest' - - ⟨-, o', rfl⟩
      exact ⟨[], gives_stmts_nil, scopes, .nil⟩
    · rename_i hclose
      refine (h.stmt (l :: ls₁) scopes).elim leaves_error fun st ls₂ h₂ hst => ?_
      dsimp only
      refine (h.stmts ls₂ (afterStmt scopes st)).elim leaves_error fun sts ls₃ h₃ hsts => ?_
      refine leaves_ok ((hst.andThen hsts).mono ?_)
      rintro ls' rest' hls' - ⟨_, -, ⟨st', hst', hst⟩, sts', hsts', after, hsts⟩
      cases hls' with
      | cons hl _ =>
        exact ⟨_, gives_stmts_cons (fun heq => hclose ((hl.eq_op _).mp heq)) hst' hsts', after,
          .cons hst hsts⟩
termination_by 2 * ls.length + 1
decreasing_by all_goals grind

end

/-! ### Declarations -/

theorem structFields (h : Plainly σ s) (ls : Lexemes) :
    Leaves (fun fs rest => Rereads σ s ls rest []
      (Read (σ.scope s).structFields fun fs' => fs'.map Field.bare = fs.map Field.bare))
      (s.structFields ls) := by
  rw [Scope.structFields]
  split
  · refine (rereads_expectOp σ .rbrace ls).elim leaves_error fun _ rest hrest hclose => ?_
    refine leaves_ok (hclose.mono ?_)
    rintro ls' rest' - - ⟨o, rfl⟩
    exact ⟨[], gives_fields_nil, rfl⟩
  · rename_i hfirst
    have hfirst := Bool.eq_false_of_not_eq_true hfirst
    refine (h.typeSpec ls).elim leaves_error fun type ls₁ h₁ htype => ?_
    dsimp only
    refine (rereads_names σ ls₁).elim leaves_error fun ids ls₂ h₂ hids => ?_
    dsimp only
    refine (rereads_expectOp σ .semicolon ls₂).elim leaves_error fun _ ls₃ h₃ hsemi => ?_
    dsimp only
    refine (h.structFields ls₃).elim leaves_error fun more ls₄ h₄ hmore => ?_
    refine leaves_less fun hlt => (htype.andThen (hids.andThen (hsemi.andThen hmore))).again hlt ?_
    rintro ls' rest' - hls' - ⟨_, -, ⟨o, _, htype'⟩, _, -, ⟨ids', ⟨_, hids'⟩, hids⟩, _, -,
      ⟨o', rfl⟩, more', ⟨_, hmore'⟩, hmore⟩
    have hfirst := (Renamed.nextIs_op hls' .rbrace).trans hfirst
    refine ⟨ids'.map (fun id => ⟨{ type with offset := o }, id⟩) ++ more', ?_, ?_⟩
    · rw [Scope.structFields]
      simp only [hfirst, Bool.false_eq_true, if_false, htype', hids', expectOp_cons, hmore']
    · have hbare : ∀ (o : Nat) (ids : List Ident),
          (ids.map fun id => (⟨{ type with offset := o }, id⟩ : Field)).map Field.bare =
            (ids.map Ident.bare).map fun id => ⟨type.bare, id⟩ := by
        intro o ids
        rw [List.map_map, List.map_map]
        rfl
      rw [List.map_append, List.map_append, hmore, hbare o ids', hids, ← hbare type.offset ids]
termination_by ls.length
decreasing_by all_goals grind

theorem typedef (h : Plainly σ s) (o : Nat) (ls : Lexemes) :
    Leaves (fun d rest => Rereads σ s ls rest [] fun ls' rest' => ∀ o',
      Read ((σ.scope s).typedef o') (fun d' => d'.bare = d.bare ∧ d.name.name ≠ σ.fresh) ls' rest')
      (s.typedef o ls) := by
  rw [Scope.typedef]
  refine (rereads_expect σ (.keyword .struct) ls).elim leaves_error fun _ ls₁ h₁ hstruct => ?_
  have hoptional := rereads_optionalName (σ := σ) (s := s) ls₁
  dsimp only
  generalize optionalName ls₁ = q at hoptional ⊢
  obtain ⟨ls₂, h₂⟩ := q
  dsimp only
  refine (rereads_expectOp σ .lbrace ls₂).elim leaves_error fun _ ls₃ h₃ hbrace => ?_
  dsimp only
  refine (h.structFields ls₃).elim leaves_error fun fields ls₄ h₄ hfields => ?_
  have hident : Leaves (fun id rest => Rereads σ s ls₄ rest []
      (Read (σ.scope s).ident fun id' => id'.name = id.name ∧ id.name ≠ σ.fresh)) (s.ident ls₄) := by
    refine (rereads_ident σ ls₄).elim leaves_error fun id rest hrest hid => leaves_ok (hid.mono ?_)
    rintro ls' rest' - - ⟨hfresh, o, rfl⟩
    exact ⟨⟨o, id.name⟩, ⟨by simp, by simp only [ident]⟩, rfl, hfresh⟩
  dsimp only
  refine (rereads_terminated hident).elim leaves_error fun name ls₅ h₅ hname => ?_
  refine leaves_ok ((hstruct.andThen (hoptional.andThen (hbrace.andThen (hfields.andThen hname)))).mono ?_)
  rintro ls' rest' - - ⟨_, -, ⟨o₁, rfl⟩, _, -, hskip, _, -, ⟨o₂, rfl⟩, _, -,
    ⟨fields', ⟨hlt, hfields'⟩, hfields⟩, name', ⟨hlt', hname'⟩, hname, hfresh⟩ o'
  obtain ⟨hle, hskip⟩ := atMost_of hskip
  have hname' : (σ.scope s).terminated _ ((σ.scope s).ident _) = _ := hname'
  refine ⟨⟨o', fields', name'⟩, ⟨?_, ?_⟩, ?_, hfresh⟩
  · simp only [List.length_cons] at hle ⊢
    omega
  · rw [Scope.typedef, expect_cons]
    dsimp only
    rw [hskip]
    simp only [expectOp_cons, hfields', hname']
  · rw [Typedef.bare, Typedef.bare, hfields, Ident.bare, Ident.bare, hname]

theorem params (h : Plainly σ s) (ls : Lexemes) (scopes : Renaming.Scopes) :
    Leaves (fun fs rest => Rereads σ s ls rest (fs.flatMap fun f => σ.declaredAt f.name)
      (Read (σ.scope s).params fun fs' => σ.Params scopes fs fs' (afterParams scopes fs)))
      (s.params ls) := by
  rw [Scope.params]
  split
  · refine (rereads_expectOp σ .rparen ls).elim leaves_error fun _ rest hrest hclose => ?_
    refine leaves_less fun hlt => hclose.again hlt ?_
    rintro ls' rest' - - - ⟨o, rfl⟩
    refine ⟨[], ?_, .nil⟩
    rw [Scope.params]
    simp only [Scope.nextIs, decide_true, if_true, expectOp_cons]
  · rename_i hfirst
    have hfirst := Bool.eq_false_of_not_eq_true hfirst
    refine (h.typeSpec ls).elim leaves_error fun type ls₁ h₁ htype => ?_
    dsimp only
    refine (rereads_declared σ ls₁).elim leaves_error fun name ls₂ h₂ hname => ?_
    have hparam := htype.andThen hname
    dsimp only
    split
    · rename_i comma ls₃ hless
      refine (h.params ls₃ (Renaming.declare name scopes)).elim leaves_error fun more ls₄ h₄ hmore => ?_
      refine leaves_ok ((hparam.andThen (rereads_token.andThen hmore)).mono ?_)
      rintro ls' rest' hls' - ⟨_, -, ⟨_, -, ⟨o, htype'⟩, hfresh, o', rfl⟩, _, -, ⟨-, o'', rfl⟩,
        more', hmore', hmore⟩
      exact ⟨_, gives_params_cons ((Renamed.nextIs_op hls' .rparen).trans hfirst) htype' hmore',
        .cons (f := ⟨type, name⟩) hfresh hmore⟩
    · refine (rereads_expectOp σ .rparen ls₂).elim leaves_error fun _ ls₃ h₃ hclose => leaves_ok ?_
      rw [List.flatMap_singleton]
      refine (hparam.andPass hclose).mono ?_
      rintro ls' rest' hls' - ⟨_, -, ⟨_, -, ⟨o, htype'⟩, hfresh, o', rfl⟩, o'', rfl⟩
      exact ⟨_, gives_params_last ((Renamed.nextIs_op hls' .rparen).trans hfirst) htype',
        .cons (f := ⟨type, name⟩) hfresh .nil⟩
termination_by ls.length
decreasing_by all_goals grind

section

variable (h : Plainly σ s)
include h

theorem noParams (ls : Lexemes) :
    Rereads σ s ls (noParams ls).val [] fun ls' rest' => (Scope.noParams ls').val = rest' := by
  unfold Scope.noParams
  split
  · rename_i o ls₁
    split
    · rename_i hparen
      refine rereads_token.mono ?_
      rintro ls' rest' - hrest ⟨-, o', rfl⟩
      simp only [Renamed.nextIs_op hrest, hparen, if_true]
    · rename_i hparen
      refine rereads_nothing fun ls' hls' => ?_
      split
      · cases hls' with
        | cons _ hls₁ => rw [if_neg (by rw [Renamed.nextIs_op hls₁]; exact hparen)]
      · rfl
  · rename_i hnone
    refine rereads_nothing fun ls' hls' => ?_
    split
    · cases hls' with
      | @cons l _ ls₁ _ hl _ =>
        have hvoid := hl.eq_of_eq (h.ne_word (.inr rfl)) rfl
        exact absurd (by rw [← hvoid]) (hnone l.offset ls₁)
    · rfl

theorem funcWords (isKernel : Bool) (ls : Lexemes) :
    Rereads σ s ls (funcWords isKernel ls).2.val [] fun ls' rest' =>
      (Scope.funcWords isKernel ls').1 = (Scope.funcWords isKernel ls).1 ∧
        (Scope.funcWords isKernel ls').2.val = rest' := by
  induction ls generalizing isKernel with
  | nil =>
    refine rereads_nothing fun ls' hls' => ?_
    cases hls'
    exact ⟨rfl, rfl⟩
  | cons l ls ih =>
    rw [Scope.funcWords]
    split
    · rename_i hkernel
      refine (rereads_token.andThen (ih true)).mono ?_
      rintro ls' rest' - - ⟨_, -, ⟨-, o, rfl⟩, hwords⟩
      rw [Scope.funcWords, if_pos hkernel]
      exact hwords
    · rename_i hkernel
      split
      · rename_i hword
        refine (rereads_token.andThen (ih isKernel)).mono ?_
        rintro ls' rest' - - ⟨_, -, ⟨-, o, rfl⟩, hwords⟩
        rw [Scope.funcWords, if_neg hkernel, if_pos hword]
        exact hwords
      · rename_i hword
        refine rereads_nothing fun ls' hls' => ?_
        cases hls' with
        | cons hl _ =>
          have hsame : ∀ w, w ∈ Renaming.grammarWords ∨ s.startsType (.name w) = true →
              l.token ≠ .name w → ∀ l' : Lexeme, Becomes σ l l' → l'.token ≠ .name w :=
            fun w hw hne l' hl heq => hne (hl.eq_of_eq (h.ne_word hw) heq)
          simp only [Bool.or_eq_true, decide_eq_true_eq, not_or] at hkernel hword
          rw [Scope.funcWords, if_neg, if_neg]
          · exact ⟨rfl, rfl⟩
          · simp only [Bool.or_eq_true, decide_eq_true_eq, not_or]
            exact ⟨hsame _ (.inr rfl) hword.1 _ hl, hsame _ (.inr rfl) hword.2 _ hl⟩
          · simp only [Bool.or_eq_true, decide_eq_true_eq, not_or]
            exact ⟨hsame _ (.inl (by decide)) hkernel.1 _ hl, hsame _ (.inl (by decide)) hkernel.2 _ hl⟩

/-- **A function is read to the renamed one.** -/
theorem func (ls : Lexemes) :
    Leaves (fun d rest => Rereads σ s ls rest (σ.inFunc d) (Read (σ.scope s).func (σ.Func d)))
      (s.func ls) := by
  rw [Scope.func]
  have hwords := h.funcWords false ls
  generalize Scope.funcWords false ls = q at hwords ⊢
  obtain ⟨isKernel, ls₁, h₁⟩ := q
  dsimp only
  refine (h.typeSpec ls₁).elim leaves_error fun result ls₂ h₂ hresult => ?_
  dsimp only
  refine (rereads_ident σ ls₂).elim leaves_error fun name ls₃ h₃ hname => ?_
  dsimp only
  refine (rereads_expectOp σ .lparen ls₃).elim leaves_error fun _ ls₄ h₄ hopen => ?_
  have hvoid := h.noParams ls₄
  dsimp only
  generalize Scope.noParams ls₄ = q at hvoid ⊢
  obtain ⟨ls₅, h₅⟩ := q
  dsimp only
  refine (h.params ls₅ [[]]).elim leaves_error fun params ls₆ h₆ hparams => ?_
  dsimp only
  refine (rereads_expectOp σ .lbrace ls₆).elim leaves_error fun brace ls₇ h₇ hbrace => ?_
  dsimp only
  refine (h.stmts ls₇ ([] :: afterParams [[]] params)).elim leaves_error fun body ls₈ h₈ hbody => ?_
  refine leaves_less fun hlt => (hwords.andThen (hresult.andThen (hname.andThen (hopen.andThen
    (hvoid.andThen (hparams.andThen (hbrace.andThen hbody))))))).again hlt ?_
  rintro ls' rest' - - - ⟨_, -, hwords, _, -, ⟨o₁, _, hresult⟩, _, -, ⟨-, o₂, rfl⟩, _, -,
    ⟨o₃, rfl⟩, _, -, hvoid, _, -, ⟨params', ⟨_, hparams'⟩, hparams⟩, _, -, ⟨o₄, rfl⟩,
    body', ⟨_, hbody'⟩, after, hbody⟩
  obtain ⟨_, hwords⟩ := funcWords_of hwords
  obtain ⟨_, hvoid⟩ := atMost_of hvoid
  refine ⟨⟨isKernel, { result with offset := o₁ }, ⟨o₂, name.name⟩, params', o₄, body'⟩, ?_,
    rfl, rfl, rfl, _, after, hparams, hbody⟩
  rw [Scope.func, hwords]
  dsimp only
  rw [hresult]
  dsimp only [ident]
  rw [expectOp_cons]
  dsimp only
  rw [hvoid]
  simp only [hparams', expectOp_cons, hbody']

/-- Where nothing is renamed the new name is not declared as that of a structure. -/
theorem unused_typedef {o : Nat} {d : Typedef} {rest : Less ls} (hls : Ordered s ls)
    (hunused : ∀ l ∈ ls, l.token ≠ .name σ.fresh) (hd : s.typedef o ls = .ok (d, rest)) :
    d.name.name ≠ σ.fresh := by
  have h' : Plainly { σ with places := [] } s := ⟨h.noType, h.noWord⟩
  obtain ⟨-, hread⟩ := h'.typedef o ls d rest hd hls
  have hsame : Renamed { σ with places := [] } ls ls :=
    List.forall₂_same.mpr fun l hl => ⟨hunused l hl, (if_neg List.not_mem_nil).symm, nofun⟩
  obtain ⟨_, -, hq⟩ := hread ls hsame fun _ _ _ => Iff.rfl
  obtain ⟨-, -, -, hfresh⟩ := hq 0
  exact hfresh

end

end Plainly

/-- Readings of a file and of the renamed file. -/
structure Rereading (ρ : Renaming) (f f' : File) : Prop where
  typedefs : List.Forall₂ (fun d d' => d'.bare = d.bare) f.typedefs f'.typedefs
  funcs : List.Forall₂ ρ.Func f.funcs f'.funcs

/-- **A source is read to the renamed one.** -/
theorem rereads_file (ls : Lexemes) : ∀ {s : Scope}, Plainly σ s → ∀ f, s.file ls = .ok f →
    (∀ l ∈ ls, l.token ≠ .name σ.fresh) → Rereads σ s ls [] (f.funcs.flatMap σ.inFunc) fun ls' _ =>
      ∃ f', (σ.scope s).file ls' = .ok f' ∧ Rereading σ.toRenaming f f' := by
  induction hn : ls.length using Nat.strongRecOn generalizing ls with
  | ind n ih =>
    subst hn
    intro s h f hf hunused hls
    cases ls with
    | nil =>
      rw [file] at hf
      cases hf
      refine rereads_nothing (fun ls' hls' => ?_) hls
      cases hls'
      exact ⟨{}, file_nil, .nil, .nil⟩
    | cons l ls =>
      obtain ⟨o, t⟩ := l
      have hrest : ∀ ls₁ : Lexemes, ls₁ <:+ ⟨o, t⟩ :: ls → ∀ l ∈ ls₁, l.token ≠ .name σ.fresh :=
        fun ls₁ hsuffix l hl => hunused l (hsuffix.subset hl)
      rw [file] at hf
      dsimp only at hf
      split at hf
      · rename_i ht
        obtain rfl := ht
        split at hf
        · cases hf
        · rename_i d ls₁ h₁ hd
          split at hf
          · cases hf
          · rename_i f hread
            cases hf
            have hname := h.unused_typedef hls.tail (hrest ls (List.suffix_cons _ _)) hd
            have hd := h.typedef o ls d ⟨ls₁, h₁⟩ hd
            have hsuffix := (hd hls.tail).1.suffix.trans (List.suffix_cons ⟨o, .name "typedef"⟩ ls)
            have hf := (ih ls₁.length (by simp only [List.length_cons]; omega) ls₁ rfl (h.declare hname) f
              hread (hrest _ hsuffix)).scope
            refine (rereads_token.andThen (hd.andThen hf)).mono ?_ hls
            rintro ls' rest' - - ⟨_, -, ⟨-, o', rfl⟩, _, -, hd, f', hf', hf⟩
            obtain ⟨d', hgives, hd, -⟩ := hd o'
            have hsame := congrArg (fun d : Typedef => d.name.name) hd
            change d'.name.name = d.name.name at hsame
            refine ⟨_, file_typedef hgives ?_, .cons hd hf.typedefs, hf.funcs⟩
            rw [hsame]
            exact hf'
      · rename_i ht
        split at hf
        · cases hf
        · rename_i d ls₁ h₁ hd
          split at hf
          · cases hf
          · rename_i f hread
            cases hf
            have hd := h.func _ d ⟨ls₁, h₁⟩ hd
            have hf := ih ls₁.length h₁ ls₁ rfl h f hread (hrest _ (hd hls).1.suffix)
            refine (hd.andThen hf).mono ?_ hls
            rintro ls' rest' hls' - ⟨_, -, ⟨d', hgives, hd⟩, f', hf', hf⟩
            cases hls' with
            | @cons _ l' _ ls₁' hl _ =>
              have hword : l'.token ≠ .name "typedef" := fun heq =>
                ht (hl.eq_of_eq (h.ne_word (.inl (by decide))) heq)
              exact ⟨_, file_func hword hgives hf', hf.typedefs, .cons hd hf.funcs⟩

end KernelForge.Code.Scope
