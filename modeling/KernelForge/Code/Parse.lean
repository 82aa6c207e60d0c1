/-
From lexemes to trees.

Every function that reads something returns what it left together with the proof that this is
less than what it got, so all loops end.  The functions stop at the first error.  The operators
have the precedence of C, and a type in parentheses starts a cast, the list of the lanes of a
vector, or the list of the fields of a structure.
-/
import KernelForge.Code.Basic
import KernelForge.Ty.Basic

namespace KernelForge.Code

/-- What is wrong with a sequence of lexemes. -/
inductive ParseError where
  | expected (want got : String)
  | expectedName (got : String)
  | expectedType (got : String)
  | pointerToPointer
  | missingBrace
  | arrays
  | unexpected (got : String)
  | trailing (got : String)
deriving DecidableEq, Repr, Inhabited

def ParseError.message : ParseError → String
  | expected want got => "expected " ++ Text.quoted want ++ " but got " ++ Text.quoted got
  | expectedName got => "expected an identifier but got " ++ Text.quoted got
  | expectedType got => "expected a type but got " ++ Text.quoted got
  | pointerToPointer => "pointers to pointers not supported"
  | missingBrace => "unexpected end of file: missing \x7d"
  | arrays => "arrays not supported"
  | unexpected got => "unexpected " ++ Text.quoted got
  | trailing got => "unexpected " ++ Text.quoted got ++ " after expression"

/-- An error and the offset that it is about. -/
structure Misparse where
  offset : Nat
  error : ParseError
deriving DecidableEq, Repr, Inhabited

/-- What a parser knows besides the lexemes: where they end, and the declared structures. -/
structure Scope where
  finish : Nat
  typedefs : List String := []
deriving Repr, Inhabited

abbrev Lexemes := List Lexeme

/-- What is left after something has been read. -/
abbrev Less (ls : Lexemes) := { rest : Lexemes // rest.length < ls.length }

/-- What is left after something may have been read. -/
abbrev AtMost (ls : Lexemes) := { rest : Lexemes // rest.length ≤ ls.length }

/-- The outcome of reading something. -/
abbrev Parse (α : Type) (ls : Lexemes) := Except Misparse (α × Less ls)

/-- The outcome of reading something that may be absent. -/
abbrev Parse? (α : Type) (ls : Lexemes) := Except Misparse (α × AtMost ls)

namespace Scope

/-! ### Single lexemes -/

/-- The offset and text of the next lexeme; the end of the source has an empty text. -/
def here (s : Scope) : Lexemes → Nat × String
  | l :: _ => (l.offset, l.token.text)
  | [] => (s.finish, "")

/-- An error about the next lexeme. -/
def failAt {α : Type} (s : Scope) (ls : Lexemes) (e : String → ParseError) : Except Misparse α :=
  let (offset, text) := s.here ls
  .error ⟨offset, e text⟩

/-- Reads a given token, and gives its offset. -/
def expect (s : Scope) (t : Token) (ls : Lexemes) : Parse Nat ls :=
  match ls with
  | l :: rest => if l.token = t then .ok (l.offset, ⟨rest, by simp⟩)
    else s.failAt (l :: rest) (.expected t.text)
  | [] => s.failAt [] (.expected t.text)

def expectOp (s : Scope) (o : Operator) (ls : Lexemes) : Parse Nat ls := s.expect (.op o) ls

/-- Reads a name. -/
def ident (s : Scope) (ls : Lexemes) : Parse Ident ls :=
  match ls with
  | ⟨offset, .name n⟩ :: rest => .ok (⟨offset, n⟩, ⟨rest, by simp⟩)
  | ls => s.failAt ls .expectedName

/-- Tests whether the next lexeme is a given token. -/
def nextIs (t : Token) : Lexemes → Bool
  | l :: _ => l.token = t
  | [] => false

/-! ### Types -/

/-- The address space of a qualifier. -/
def spaceOf? : String → Option Space
  | "__global" | "global" => some .global
  | "__constant" | "constant" => some .constant
  | "__local" | "local" => some .loc
  | "__private" | "private" => some .priv
  | _ => none

/-- The qualifiers that have no effect. -/
def isIgnored (word : String) : Bool := ["volatile", "restrict", "inline", "static"].contains word

/-- The names of types: those of the language and the declared structures. -/
def isTypeWord (s : Scope) (word : String) : Bool := Ty.isTypeName word || s.typedefs.contains word

/-- Tests whether a token starts a type. -/
def startsType (s : Scope) : Token → Bool
  | .keyword .const => true
  | .name w => (spaceOf? w).isSome || isIgnored w || s.isTypeWord w
  | _ => false

def typeNext (s : Scope) : Lexemes → Bool
  | l :: _ => s.startsType l.token
  | [] => false

/-- Reads qualifiers into a type. -/
def qualifiers (spec : TypeSpec) (ls : Lexemes) : TypeSpec × AtMost ls :=
  match ls with
  | [] => (spec, ⟨[], by simp⟩)
  | l :: rest =>
    let go := fun spec' =>
      let (spec'', ⟨left, h⟩) := qualifiers spec' rest
      (spec'', (⟨left, by simp only [List.length_cons]; omega⟩ : AtMost (l :: rest)))
    match l.token with
    | .keyword .const => go { spec with readOnly := true }
    | .name w =>
      match spaceOf? w with
      | some space => go { spec with space }
      | none => if isIgnored w then go spec else (spec, ⟨l :: rest, by simp⟩)
    | _ => (spec, ⟨l :: rest, by simp⟩)

/-- Reads qualifiers of a pointer itself, which have no effect. -/
def pointerQualifiers (ls : Lexemes) : AtMost ls :=
  match ls with
  | l :: rest =>
    if l.token = .keyword .const || l.token = .name "restrict" then
      let ⟨left, h⟩ := pointerQualifiers rest
      ⟨left, by simp only [List.length_cons]; omega⟩
    else ⟨l :: rest, by simp⟩
  | [] => ⟨[], by simp⟩

/-- The word that `unsigned` forms a type with, when a token is one. -/
def unsignedTail? (first : String) : Token → Option String
  | .name w =>
    if first = "unsigned" && ["char", "short", "int", "long"].contains w then some w else none
  | _ => none

/-- Reads what may follow the first word of a type. -/
def nameTail (first : String) (ls : Lexemes) : String × AtMost ls :=
  match ls with
  | [] => (first, ⟨[], Nat.le_refl _⟩)
  | l :: rest =>
    match unsignedTail? first l.token with
    | some second => (first ++ " " ++ second, ⟨rest, Nat.le_succ _⟩)
    | none => (first, ⟨l :: rest, Nat.le_refl _⟩)

/-- Reads the name of a type. -/
def typeName (s : Scope) (ls : Lexemes) : Parse String ls :=
  match ls with
  | ⟨offset, .name w⟩ :: rest =>
    if s.isTypeWord w then
      let (name, ⟨left, h⟩) := nameTail w rest
      .ok (name, ⟨left, by simp only [List.length_cons]; omega⟩)
    else .error ⟨offset, .expectedType w⟩
  | ls => s.failAt ls .expectedType

/-- Reads a type with its qualifiers. -/
def typeSpec (s : Scope) (ls : Lexemes) : Parse TypeSpec ls :=
  let (spec, ⟨ls₁, h₁⟩) := qualifiers { offset := (s.here ls).1, name := "" } ls
  match s.typeName ls₁ with
  | .error e => .error e
  | .ok (name, ⟨ls₂, h₂⟩) =>
    let (spec, ⟨ls₃, h₃⟩) := qualifiers { spec with name } ls₂
    match ls₃ with
    | ⟨_, .op .mul⟩ :: rest =>
      let ⟨ls₄, h₄⟩ := pointerQualifiers rest
      if nextIs (.op .mul) ls₄ then s.failAt ls₄ fun _ => .pointerToPointer
      else .ok ({ spec with pointer := true }, ⟨ls₄, by simp only [List.length_cons] at h₃; omega⟩)
    | ls₃ => .ok (spec, ⟨ls₃, by omega⟩)

/-! ### Expressions -/

/-- The precedence of a binary operator, the tighter the higher. -/
def precedence? : Token → Option (Nat × Operator)
  | .op o =>
    match o with
    | .lor => some (1, o)
    | .land => some (2, o)
    | .or => some (3, o)
    | .xor => some (4, o)
    | .and => some (5, o)
    | .eql | .neq => some (6, o)
    | .lss | .leq | .gtr | .geq => some (7, o)
    | .shl | .shr => some (8, o)
    | .add | .sub => some (9, o)
    | .mul | .quo | .rem => some (10, o)
    | _ => none
  | _ => none

/-- The unary operator that a token is; the tilde is the complement. -/
def unaryOp? : Token → Option Operator
  | .op .sub => some .sub
  | .op .add => some .add
  | .op .not => some .not
  | .op .mul => some .mul
  | .op .and => some .and
  | .op .tilde => some .xor
  | _ => none

/-- Tests whether a type as it is written is a vector, and not a pointer to one. -/
def isVector (spec : TypeSpec) : Bool :=
  match Ty.parse? spec.name with
  | some (.vector _ _) => !spec.pointer
  | _ => false

mutual

/-- Reads an expression. -/
def expr (s : Scope) (ls : Lexemes) : Parse Expr ls :=
  match binary s 1 ls with
  | .error e => .error e
  | .ok (c, ⟨ls₁, h₁⟩) =>
    match ls₁ with
    | l :: ls₂ =>
      if l.token = Token.question then
        match expr s ls₂ with
        | .error e => .error e
        | .ok (x, ⟨ls₃, h₃⟩) =>
          match s.expectOp .colon ls₃ with
          | .error e => .error e
          | .ok (_, ⟨ls₄, h₄⟩) =>
            match expr s ls₄ with
            | .error e => .error e
            | .ok (y, ⟨ls₅, h₅⟩) =>
              .ok (.cond c x y, ⟨ls₅, by simp only [List.length_cons] at h₁; omega⟩)
      else .ok (c, ⟨l :: ls₂, h₁⟩)
    | [] => .ok (c, ⟨[], h₁⟩)
termination_by 5 * ls.length + 3
decreasing_by all_goals (try simp only [List.length_cons] at *); omega

/-- Reads operands joined by operators of at least a given precedence. -/
def binary (s : Scope) (prec : Nat) (ls : Lexemes) : Parse Expr ls :=
  match unary s ls with
  | .error e => .error e
  | .ok (x, ⟨ls₁, h₁⟩) =>
    match binaryRest s prec x ls₁ with
    | .error e => .error e
    | .ok (y, ⟨ls₂, h₂⟩) => .ok (y, ⟨ls₂, by omega⟩)
termination_by 5 * ls.length + 2
decreasing_by all_goals omega

/-- Reads the operators and operands after the first one. -/
def binaryRest (s : Scope) (prec : Nat) (x : Expr) (ls : Lexemes) : Parse? Expr ls :=
  match ls with
  | [] => .ok (x, ⟨[], by simp⟩)
  | l :: ls₁ =>
    match precedence? l.token with
    | none => .ok (x, ⟨l :: ls₁, by simp⟩)
    | some (p, o) =>
      if p < prec then .ok (x, ⟨l :: ls₁, by simp⟩)
      else
        match binary s (p + 1) ls₁ with
        | .error e => .error e
        | .ok (y, ⟨ls₂, h₂⟩) =>
          match binaryRest s prec (.binary x l.offset o y) ls₂ with
          | .error e => .error e
          | .ok (z, ⟨ls₃, h₃⟩) => .ok (z, ⟨ls₃, by simp only [List.length_cons]; omega⟩)
termination_by 5 * ls.length
decreasing_by all_goals (try simp only [List.length_cons] at *); omega

/-- Reads an operand with its unary operators, or a cast. -/
def unary (s : Scope) (ls : Lexemes) : Parse Expr ls :=
  match ls with
  | [] => s.failAt [] .unexpected
  | l :: ls₁ =>
    match unaryOp? l.token with
    | some o =>
      match unary s ls₁ with
      | .error e => .error e
      | .ok (x, ⟨ls₂, h₂⟩) => .ok (.unary l.offset o x, ⟨ls₂, by simp only [List.length_cons]; omega⟩)
    | none =>
      if l.token = .op .lparen && s.typeNext ls₁ then
        match typeSpec s ls₁ with
        | .error e => .error e
        | .ok (spec, ⟨ls₂, h₂⟩) =>
          match s.expectOp .rparen ls₂ with
          | .error e => .error e
          | .ok (_, ⟨ls₃, h₃⟩) =>
            match afterType s l.offset spec ls₃ with
            | .error e => .error e
            | .ok (x, ⟨ls₄, h₄⟩) => .ok (x, ⟨ls₄, by simp only [List.length_cons]; omega⟩)
      else
        match primary s (l :: ls₁) with
        | .error e => .error e
        | .ok (x, ⟨ls₂, h₂⟩) =>
          match postfixes s x ls₂ with
          | .error e => .error e
          | .ok (y, ⟨ls₃, h₃⟩) => .ok (y, ⟨ls₃, by omega⟩)
termination_by 5 * ls.length + 1
decreasing_by all_goals (try simp only [List.length_cons] at *); omega

/-- Reads what follows a type in parentheses. -/
def afterType (s : Scope) (offset : Nat) (spec : TypeSpec) (ls : Lexemes) : Parse Expr ls :=
  match ls with
  | [] => s.failAt [] .unexpected
  | l :: ls₁ =>
    if l.token = .op .lbrace || (l.token = .op .lparen && isVector spec) then
      let (closing, make) :=
        if l.token = .op .lbrace then (Operator.rbrace, Expr.structLit offset spec)
        else (.rparen, .vectorLit offset spec)
      match items s closing ls₁ with
      | .error e => .error e
      | .ok (xs, ⟨ls₂, h₂⟩) =>
        match postfixes s (make xs) ls₂ with
        | .error e => .error e
        | .ok (x, ⟨ls₃, h₃⟩) => .ok (x, ⟨ls₃, by simp only [List.length_cons]; omega⟩)
    else
      match unary s (l :: ls₁) with
      | .error e => .error e
      | .ok (x, rest) => .ok (.cast offset spec x, rest)
termination_by 5 * ls.length + 2
decreasing_by all_goals (try simp only [List.length_cons] at *); omega

/-- Reads expressions with commas between them, up to a closing token.  A comma may be last. -/
def items (s : Scope) (closing : Operator) (ls : Lexemes) : Parse (List Expr) ls :=
  if nextIs (.op closing) ls then
    match s.expectOp closing ls with
    | .error e => .error e
    | .ok (_, rest) => .ok ([], rest)
  else
    match expr s ls with
    | .error e => .error e
    | .ok (x, ⟨ls₁, h₁⟩) =>
      match ls₁ with
      | ⟨_, .op .comma⟩ :: ls₂ =>
        match items s closing ls₂ with
        | .error e => .error e
        | .ok (xs, ⟨ls₃, h₃⟩) =>
          .ok (x :: xs, ⟨ls₃, by simp only [List.length_cons] at h₁; omega⟩)
      | ls₁ =>
        match s.expectOp closing ls₁ with
        | .error e => .error e
        | .ok (_, ⟨ls₂, h₂⟩) => .ok ([x], ⟨ls₂, by omega⟩)
termination_by 5 * ls.length + 4
decreasing_by all_goals (try simp only [List.length_cons] at *); omega

/-- Reads a name, a call, a number or an expression in parentheses. -/
def primary (s : Scope) (ls : Lexemes) : Parse Expr ls :=
  match ls with
  | ⟨offset, .name n⟩ :: ls₁ =>
    match ls₁ with
    | ⟨paren, .op .lparen⟩ :: ls₂ =>
      match items s .rparen ls₂ with
      | .error e => .error e
      | .ok (args, ⟨ls₃, h₃⟩) =>
        .ok (.call ⟨offset, n⟩ paren args, ⟨ls₃, by simp only [List.length_cons]; omega⟩)
    | ls₁ => .ok (.ident ⟨offset, n⟩, ⟨ls₁, by simp⟩)
  | ⟨offset, .int t⟩ :: ls₁ => .ok (.number offset .int t, ⟨ls₁, by simp⟩)
  | ⟨offset, .float t⟩ :: ls₁ => .ok (.number offset .float t, ⟨ls₁, by simp⟩)
  | ⟨offset, .op .lparen⟩ :: ls₁ =>
    match expr s ls₁ with
    | .error e => .error e
    | .ok (x, ⟨ls₂, h₂⟩) =>
      match s.expectOp .rparen ls₂ with
      | .error e => .error e
      | .ok (_, ⟨ls₃, h₃⟩) => .ok (.paren offset x, ⟨ls₃, by simp only [List.length_cons]; omega⟩)
  | ls => s.failAt ls .unexpected
termination_by 5 * ls.length
decreasing_by all_goals (try simp only [List.length_cons] at *); omega

/-- Reads indices and fields after an operand. -/
def postfixes (s : Scope) (x : Expr) (ls : Lexemes) : Parse? Expr ls :=
  match ls with
  | ⟨bracket, .op .lbrack⟩ :: ls₁ =>
    match expr s ls₁ with
    | .error e => .error e
    | .ok (i, ⟨ls₂, h₂⟩) =>
      match s.expectOp .rbrack ls₂ with
      | .error e => .error e
      | .ok (_, ⟨ls₃, h₃⟩) =>
        match postfixes s (.index x bracket i) ls₃ with
        | .error e => .error e
        | .ok (y, ⟨ls₄, h₄⟩) => .ok (y, ⟨ls₄, by simp only [List.length_cons]; omega⟩)
  | ⟨_, .op .period⟩ :: ls₁ =>
    match ident s ls₁ with
    | .error e => .error e
    | .ok (field, ⟨ls₂, h₂⟩) =>
      match postfixes s (.select x field) ls₂ with
      | .error e => .error e
      | .ok (y, ⟨ls₃, h₃⟩) => .ok (y, ⟨ls₃, by simp only [List.length_cons]; omega⟩)
  | ls => .ok (x, ⟨ls, by simp⟩)
termination_by 5 * ls.length
decreasing_by all_goals (try simp only [List.length_cons] at *); omega

end

/-! ### Statements -/

/-- The operators that assign. -/
def isAssignment : Operator → Bool
  | .assign | .addAssign | .subAssign | .mulAssign | .quoAssign | .remAssign
  | .andAssign | .orAssign | .xorAssign | .shlAssign | .shrAssign => true
  | _ => false

/-- Reads the value that a declared variable starts with, when there is one. -/
def initializer (s : Scope) (ls : Lexemes) : Parse? (Option Expr) ls :=
  match ls with
  | ⟨offset, .op .lbrack⟩ :: _ => .error ⟨offset, .arrays⟩
  | ⟨_, .op .assign⟩ :: ls₁ =>
    match s.expr ls₁ with
    | .error e => .error e
    | .ok (x, ⟨ls₂, h₂⟩) => .ok (some x, ⟨ls₂, by simp only [List.length_cons]; omega⟩)
  | ls => .ok (none, ⟨ls, by simp⟩)

/-- Reads declared variables with commas between them. -/
def declarators (s : Scope) (ls : Lexemes) : Parse (List (Ident × Option Expr)) ls :=
  match s.ident ls with
  | .error e => .error e
  | .ok (name, ⟨ls₁, h₁⟩) =>
    match s.initializer ls₁ with
    | .error e => .error e
    | .ok (value, ⟨ls₂, h₂⟩) =>
      match ls₂ with
      | ⟨_, .op .comma⟩ :: ls₃ =>
        match declarators s ls₃ with
        | .error e => .error e
        | .ok (vars, ⟨ls₄, h₄⟩) =>
          .ok ((name, value) :: vars, ⟨ls₄, by simp only [List.length_cons] at h₂; omega⟩)
      | ls₂ => .ok ([(name, value)], ⟨ls₂, by omega⟩)
termination_by ls.length
decreasing_by simp only [List.length_cons] at *; omega

/-- Reads what follows the first expression of a statement. -/
def afterExpr (s : Scope) (x : Expr) (ls : Lexemes) : Parse? Simple ls :=
  match ls with
  | ⟨offset, .op o⟩ :: ls₁ =>
    if isAssignment o then
      match s.expr ls₁ with
      | .error e => .error e
      | .ok (y, ⟨ls₂, h₂⟩) =>
        .ok (.assign x offset o y, ⟨ls₂, by simp only [List.length_cons]; omega⟩)
    else if o = .inc || o = .dec then .ok (.step x offset o, ⟨ls₁, by simp⟩)
    else .ok (.expr x, ⟨⟨offset, .op o⟩ :: ls₁, by simp⟩)
  | ls => .ok (.expr x, ⟨ls, by simp⟩)

/-- Reads an assignment, an increment or an expression. -/
def exprSimple (s : Scope) (ls : Lexemes) : Parse Simple ls :=
  match s.expr ls with
  | .error e => .error e
  | .ok (x, ⟨ls₁, h₁⟩) =>
    match s.afterExpr x ls₁ with
    | .error e => .error e
    | .ok (stmt, ⟨ls₂, h₂⟩) => .ok (stmt, ⟨ls₂, by omega⟩)

/-- Reads a declaration, an assignment, an increment or an expression. -/
def simple (s : Scope) (ls : Lexemes) : Parse Simple ls :=
  if s.typeNext ls then
    match s.typeSpec ls with
    | .error e => .error e
    | .ok (spec, ⟨ls₁, h₁⟩) =>
      match s.declarators ls₁ with
      | .error e => .error e
      | .ok (vars, ⟨ls₂, h₂⟩) => .ok (.decl spec vars, ⟨ls₂, by omega⟩)
  else
    match ls with
    | ⟨offset, .op o⟩ :: ls₁ =>
      if o = .inc || o = .dec then
        match s.unary ls₁ with
        | .error e => .error e
        | .ok (x, ⟨ls₂, h₂⟩) =>
          .ok (.step x offset o, ⟨ls₂, by simp only [List.length_cons]; omega⟩)
      else s.exprSimple (⟨offset, .op o⟩ :: ls₁)
    | ls => s.exprSimple ls

/-- Reads something followed by a semicolon. -/
def terminated {α : Type} (s : Scope) (ls : Lexemes) (p : Parse α ls) : Parse α ls :=
  match p with
  | .error e => .error e
  | .ok (x, ⟨ls₁, h₁⟩) =>
    match s.expectOp .semicolon ls₁ with
    | .error e => .error e
    | .ok (_, ⟨ls₂, h₂⟩) => .ok (x, ⟨ls₂, by omega⟩)

/-- Reads something unless a given operator comes first, and then that operator. -/
def unlessOp {α : Type} (s : Scope) (o : Operator) (ls : Lexemes)
    (p : (ls : Lexemes) → Parse α ls) : Parse (Option α) ls :=
  if nextIs (.op o) ls then
    match s.expectOp o ls with
    | .error e => .error e
    | .ok (_, rest) => .ok (none, rest)
  else
    match p ls with
    | .error e => .error e
    | .ok (x, ⟨ls₁, h₁⟩) =>
      match s.expectOp o ls₁ with
      | .error e => .error e
      | .ok (_, ⟨ls₂, h₂⟩) => .ok (some x, ⟨ls₂, by omega⟩)

/-- Reads a condition in parentheses. -/
def condition (s : Scope) (ls : Lexemes) : Parse Expr ls :=
  match s.expectOp .lparen ls with
  | .error e => .error e
  | .ok (_, ⟨ls₁, h₁⟩) =>
    match s.expr ls₁ with
    | .error e => .error e
    | .ok (x, ⟨ls₂, h₂⟩) =>
      match s.expectOp .rparen ls₂ with
      | .error e => .error e
      | .ok (_, ⟨ls₃, h₃⟩) => .ok (x, ⟨ls₃, by omega⟩)

/-- The header of a loop. -/
structure Header where
  init : Option Simple
  test : Option Expr
  post : Option Simple

/-- Reads the header of a loop. -/
def header (s : Scope) (ls : Lexemes) : Parse Header ls :=
  match s.expectOp .lparen ls with
  | .error e => .error e
  | .ok (_, ⟨ls₁, h₁⟩) =>
    match s.unlessOp .semicolon ls₁ s.simple with
    | .error e => .error e
    | .ok (init, ⟨ls₂, h₂⟩) =>
      match s.unlessOp .semicolon ls₂ s.expr with
      | .error e => .error e
      | .ok (test, ⟨ls₃, h₃⟩) =>
        match s.unlessOp .rparen ls₃ s.simple with
        | .error e => .error e
        | .ok (post, ⟨ls₄, h₄⟩) => .ok (⟨init, test, post⟩, ⟨ls₄, by omega⟩)

mutual

/-- Reads a statement. -/
def stmt (s : Scope) (ls : Lexemes) : Parse Stmt ls :=
  match ls with
  | ⟨offset, .op .lbrace⟩ :: ls₁ =>
    match stmts s ls₁ with
    | .error e => .error e
    | .ok (body, ⟨ls₂, h₂⟩) => .ok (.block offset body, ⟨ls₂, by simp only [List.length_cons]; omega⟩)
  | ⟨offset, .op .semicolon⟩ :: ls₁ => .ok (.empty offset, ⟨ls₁, by simp⟩)
  | ⟨offset, .keyword .cond⟩ :: ls₁ =>
    match s.condition ls₁ with
    | .error e => .error e
    | .ok (test, ⟨ls₂, h₂⟩) =>
      match stmt s ls₂ with
      | .error e => .error e
      | .ok (yes, ⟨ls₃, h₃⟩) =>
        match ls₃ with
        | ⟨_, .keyword .els⟩ :: ls₄ =>
          match stmt s ls₄ with
          | .error e => .error e
          | .ok (no, ⟨ls₅, h₅⟩) =>
            .ok (.ifElse offset test yes no, ⟨ls₅, by simp only [List.length_cons] at *; omega⟩)
        | ls₃ => .ok (.ifThen offset test yes, ⟨ls₃, by simp only [List.length_cons]; omega⟩)
  | ⟨offset, .keyword .loop⟩ :: ls₁ =>
    match s.header ls₁ with
    | .error e => .error e
    | .ok (h, ⟨ls₂, h₂⟩) =>
      match stmt s ls₂ with
      | .error e => .error e
      | .ok (body, ⟨ls₃, h₃⟩) =>
        .ok (.loop offset h.init h.test h.post body, ⟨ls₃, by simp only [List.length_cons]; omega⟩)
  | ⟨offset, .name "while"⟩ :: ls₁ =>
    match s.condition ls₁ with
    | .error e => .error e
    | .ok (test, ⟨ls₂, h₂⟩) =>
      match stmt s ls₂ with
      | .error e => .error e
      | .ok (body, ⟨ls₃, h₃⟩) =>
        .ok (.loop offset none (some test) none body, ⟨ls₃, by simp only [List.length_cons]; omega⟩)
  | ⟨offset, .keyword .ret⟩ :: ls₁ =>
    match s.unlessOp .semicolon ls₁ s.expr with
    | .error e => .error e
    | .ok (x, ⟨ls₂, h₂⟩) => .ok (.ret offset x, ⟨ls₂, by simp only [List.length_cons]; omega⟩)
  | ⟨offset, .keyword .brk⟩ :: ls₁ =>
    match s.expectOp .semicolon ls₁ with
    | .error e => .error e
    | .ok (_, ⟨ls₂, h₂⟩) => .ok (.brk offset, ⟨ls₂, by simp only [List.length_cons]; omega⟩)
  | ⟨offset, .keyword .cont⟩ :: ls₁ =>
    match s.expectOp .semicolon ls₁ with
    | .error e => .error e
    | .ok (_, ⟨ls₂, h₂⟩) => .ok (.cont offset, ⟨ls₂, by simp only [List.length_cons]; omega⟩)
  | ls =>
    match s.terminated ls (s.simple ls) with
    | .error e => .error e
    | .ok (x, rest) => .ok (.simple x, rest)
termination_by 2 * ls.length
decreasing_by all_goals (try simp only [List.length_cons] at *); omega

/-- Reads the statements of a block and its closing brace. -/
def stmts (s : Scope) (ls : Lexemes) : Parse (List Stmt) ls :=
  match ls with
  | [] => .error ⟨s.finish, .missingBrace⟩
  | l :: ls₁ =>
    if l.token = .op .rbrace then .ok ([], ⟨ls₁, by simp⟩)
    else
      match stmt s (l :: ls₁) with
      | .error e => .error e
      | .ok (x, ⟨ls₂, h₂⟩) =>
        match stmts s ls₂ with
        | .error e => .error e
        | .ok (xs, ⟨ls₃, h₃⟩) => .ok (x :: xs, ⟨ls₃, by omega⟩)
termination_by 2 * ls.length + 1
decreasing_by all_goals (try simp only [List.length_cons] at *); omega

end

/-! ### Declarations -/

/-- Reads names with commas between them. -/
def names (s : Scope) (ls : Lexemes) : Parse (List Ident) ls :=
  match s.ident ls with
  | .error e => .error e
  | .ok (name, ⟨ls₁, h₁⟩) =>
    match ls₁ with
    | ⟨_, .op .comma⟩ :: ls₂ =>
      match names s ls₂ with
      | .error e => .error e
      | .ok (more, ⟨ls₃, h₃⟩) =>
        .ok (name :: more, ⟨ls₃, by simp only [List.length_cons] at h₁; omega⟩)
    | ls₁ => .ok ([name], ⟨ls₁, h₁⟩)
termination_by ls.length
decreasing_by simp only [List.length_cons] at *; omega

/-- Reads the fields of a structure and the closing brace. -/
def structFields (s : Scope) (ls : Lexemes) : Parse (List Field) ls :=
  if nextIs (.op .rbrace) ls then
    match s.expectOp .rbrace ls with
    | .error e => .error e
    | .ok (_, rest) => .ok ([], rest)
  else
    match s.typeSpec ls with
    | .error e => .error e
    | .ok (type, ⟨ls₁, h₁⟩) =>
      match s.names ls₁ with
      | .error e => .error e
      | .ok (names, ⟨ls₂, h₂⟩) =>
        match s.expectOp .semicolon ls₂ with
        | .error e => .error e
        | .ok (_, ⟨ls₃, h₃⟩) =>
          match structFields s ls₃ with
          | .error e => .error e
          | .ok (more, ⟨ls₄, h₄⟩) =>
            .ok (names.map (fun name => ⟨type, name⟩) ++ more, ⟨ls₄, by omega⟩)
termination_by ls.length
decreasing_by omega

/-- Reads a name that may be absent and means nothing. -/
def optionalName (ls : Lexemes) : AtMost ls :=
  match ls with
  | ⟨_, .name _⟩ :: rest => ⟨rest, by simp⟩
  | ls => ⟨ls, by simp⟩

/-- Reads the declaration of a structure, whose first word at `offset` has been read. -/
def typedef (s : Scope) (offset : Nat) (ls : Lexemes) : Parse Typedef ls :=
  match s.expect (.keyword .struct) ls with
  | .error e => .error e
  | .ok (_, ⟨ls₁, h₁⟩) =>
    let ⟨ls₂, h₂⟩ := optionalName ls₁
    match s.expectOp .lbrace ls₂ with
    | .error e => .error e
    | .ok (_, ⟨ls₃, h₃⟩) =>
      match s.structFields ls₃ with
      | .error e => .error e
      | .ok (fields, ⟨ls₄, h₄⟩) =>
        match s.terminated ls₄ (s.ident ls₄) with
        | .error e => .error e
        | .ok (name, ⟨ls₅, h₅⟩) => .ok (⟨offset, fields, name⟩, ⟨ls₅, by omega⟩)

/-- Reads parameters and the closing parenthesis. -/
def params (s : Scope) (ls : Lexemes) : Parse (List Field) ls :=
  if nextIs (.op .rparen) ls then
    match s.expectOp .rparen ls with
    | .error e => .error e
    | .ok (_, rest) => .ok ([], rest)
  else
    match s.typeSpec ls with
    | .error e => .error e
    | .ok (type, ⟨ls₁, h₁⟩) =>
      match s.ident ls₁ with
      | .error e => .error e
      | .ok (name, ⟨ls₂, h₂⟩) =>
        match ls₂ with
        | ⟨_, .op .comma⟩ :: ls₃ =>
          match params s ls₃ with
          | .error e => .error e
          | .ok (more, ⟨ls₄, h₄⟩) =>
            .ok (⟨type, name⟩ :: more, ⟨ls₄, by simp only [List.length_cons] at h₂; omega⟩)
        | ls₂ =>
          match s.expectOp .rparen ls₂ with
          | .error e => .error e
          | .ok (_, ⟨ls₃, h₃⟩) => .ok ([⟨type, name⟩], ⟨ls₃, by omega⟩)
termination_by ls.length
decreasing_by simp only [List.length_cons] at *; omega

/-- Reads the word that says that there are no parameters. -/
def noParams (ls : Lexemes) : AtMost ls :=
  match ls with
  | ⟨o, .name "void"⟩ :: rest =>
    if nextIs (.op .rparen) rest then ⟨rest, by simp⟩ else ⟨⟨o, .name "void"⟩ :: rest, by simp⟩
  | ls => ⟨ls, by simp⟩

/-- Reads the words before a function, and whether one of them makes it a kernel. -/
def funcWords (isKernel : Bool) (ls : Lexemes) : Bool × AtMost ls :=
  match ls with
  | l :: rest =>
    let go := fun k =>
      let (k', ⟨left, h⟩) := funcWords k rest
      (k', (⟨left, by simp only [List.length_cons]; omega⟩ : AtMost (l :: rest)))
    if l.token = .name "__kernel" || l.token = .name "kernel" then go true
    else if l.token = .name "inline" || l.token = .name "static" then go isKernel
    else (isKernel, ⟨l :: rest, by simp⟩)
  | [] => (isKernel, ⟨[], by simp⟩)

/-- Reads a function. -/
def func (s : Scope) (ls : Lexemes) : Parse Func ls :=
  let (isKernel, ⟨ls₁, h₁⟩) := funcWords false ls
  match s.typeSpec ls₁ with
  | .error e => .error e
  | .ok (result, ⟨ls₂, h₂⟩) =>
    match s.ident ls₂ with
    | .error e => .error e
    | .ok (name, ⟨ls₃, h₃⟩) =>
      match s.expectOp .lparen ls₃ with
      | .error e => .error e
      | .ok (_, ⟨ls₄, h₄⟩) =>
        let ⟨ls₅, h₅⟩ := noParams ls₄
        match s.params ls₅ with
        | .error e => .error e
        | .ok (params, ⟨ls₆, h₆⟩) =>
          match s.expectOp .lbrace ls₆ with
          | .error e => .error e
          | .ok (brace, ⟨ls₇, h₇⟩) =>
            match s.stmts ls₇ with
            | .error e => .error e
            | .ok (body, ⟨ls₈, h₈⟩) =>
              .ok (⟨isKernel, result, name, params, brace, body⟩, ⟨ls₈, by omega⟩)

/-- Reads declarations up to the end of the source. -/
def file (s : Scope) (ls : Lexemes) : Except Misparse File :=
  match ls with
  | [] => .ok {}
  | l :: rest =>
    if l.token = .name "typedef" then
      match s.typedef l.offset rest with
      | .error e => .error e
      | .ok (t, ⟨ls₁, _h₁⟩) =>
        match file { s with typedefs := t.name.name :: s.typedefs } ls₁ with
        | .error e => .error e
        | .ok f => .ok { f with typedefs := t :: f.typedefs }
    else
      match s.func (l :: rest) with
      | .error e => .error e
      | .ok (fn, ⟨ls₁, _h₁⟩) =>
        match file s ls₁ with
        | .error e => .error e
        | .ok f => .ok { f with funcs := fn :: f.funcs }
termination_by ls.length
decreasing_by all_goals (try simp only [List.length_cons] at *); omega

/-- Reads a single expression up to the end of the source. -/
def onlyExpr (s : Scope) (ls : Lexemes) : Except Misparse Expr :=
  match s.expr ls with
  | .error e => .error e
  | .ok (x, ⟨[], _⟩) => .ok x
  | .ok (_, ⟨rest, _⟩) => s.failAt rest .trailing

end Scope

/-! ### Whole sources -/

/-- Parses what has been scanned.  What goes wrong is a list of complaints, never an empty one. -/
def File.ofStream (stream : TokenStream) : Except (List Diagnostic) File :=
  if !stream.diagnostics.isEmpty then .error stream.diagnostics
  else
    match Scope.file { finish := stream.finish } stream.lexemes with
    | .error e => .error [stream.map.complain e.offset e.error.message]
    | .ok f => .ok { f with pragmas := stream.pragmas }

/-- Parses a kernel source. -/
def File.parse (file : String) (source : SourceText) : Except (List Diagnostic) File :=
  File.ofStream (TokenStream.ofText file source)

/-- Parses a token stream that is a single expression, without directives. -/
def Expr.ofStream (stream : TokenStream) : Except (List Diagnostic) Expr :=
  let directive := stream.pragmas.head?.toList.map fun p =>
    stream.map.complain p.offset "unexpected directive in an expression"
  let complaints := stream.diagnostics ++ directive
  if !complaints.isEmpty then .error complaints
  else
    match Scope.onlyExpr { finish := stream.finish } stream.lexemes with
    | .error e => .error [stream.map.complain e.offset e.error.message]
    | .ok x => .ok x

/-- Parses a source that is a single expression. -/
def Expr.parse (file : String) (source : SourceText) : Except (List Diagnostic) Expr :=
  Expr.ofStream (TokenStream.ofText file source)

end KernelForge.Code
