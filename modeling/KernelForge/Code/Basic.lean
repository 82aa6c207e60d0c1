/-
Kernel source as trees.

The trees keep the byte offsets that messages refer to.  A statement that may stand in the
header of a loop is a `Simple` one, so loops hold no statement but their body.
-/
import KernelForge.Operator
import KernelForge.Token.Scan
import KernelForge.Ty.Basic

namespace KernelForge.Code

/-- A name and where it stands. -/
structure Ident where
  offset : Nat
  name : String
deriving DecidableEq, Repr, Inhabited

/-- A type as it is written, with its qualifiers. -/
structure TypeSpec where
  offset : Nat
  name : String
  space : Space := .priv
  readOnly : Bool := false
  pointer : Bool := false
deriving DecidableEq, Repr, Inhabited

/-- Whole numbers and numbers with a fraction. -/
inductive NumberKind where
  | int
  | float
deriving DecidableEq, Repr, Inhabited

/-- An expression. -/
inductive Expr where
  | ident (id : Ident)
  /-- A number; the text includes the suffix. -/
  | number (offset : Nat) (kind : NumberKind) (text : String)
  /-- A unary operation; `xor` is the complement, `mul` follows a pointer and `and` makes one. -/
  | unary (offset : Nat) (op : Operator) (x : Expr)
  | binary (x : Expr) (opOffset : Nat) (op : Operator) (y : Expr)
  | cond (test x y : Expr)
  | call (fn : Ident) (paren : Nat) (args : List Expr)
  | cast (offset : Nat) (type : TypeSpec) (x : Expr)
  | vectorLit (offset : Nat) (type : TypeSpec) (items : List Expr)
  | structLit (offset : Nat) (type : TypeSpec) (items : List Expr)
  | index (x : Expr) (bracket : Nat) (i : Expr)
  | select (x : Expr) (field : Ident)
  | paren (offset : Nat) (x : Expr)
deriving Repr, Inhabited

/-- The offset at which an expression starts. -/
def Expr.offset : Expr → Nat
  | ident id => id.offset
  | number o _ _ => o
  | unary o _ _ => o
  | binary x _ _ _ => x.offset
  | cond c _ _ => c.offset
  | call fn _ _ => fn.offset
  | cast o _ _ => o
  | vectorLit o _ _ => o
  | structLit o _ _ => o
  | index x _ _ => x.offset
  | select x _ => x.offset
  | paren o _ => o

/-- The form of an expression, as messages name it. -/
def Expr.form : Expr → String
  | ident _ => "*clc.Ident"
  | number .. => "*clc.BasicLit"
  | unary .. => "*clc.UnaryExpr"
  | binary .. => "*clc.BinaryExpr"
  | cond .. => "*clc.CondExpr"
  | call .. => "*clc.CallExpr"
  | cast .. => "*clc.CastExpr"
  | vectorLit .. => "*clc.VectorLit"
  | structLit .. => "*clc.CompositeLit"
  | index .. => "*clc.IndexExpr"
  | select .. => "*clc.SelectorExpr"
  | paren .. => "*clc.ParenExpr"

/-- A statement that may stand in the header of a loop. -/
inductive Simple where
  | decl (type : TypeSpec) (vars : List (Ident × Option Expr))
  | expr (x : Expr)
  /-- An assignment; `op` is `assign` or one like `addAssign`. -/
  | assign (lhs : Expr) (opOffset : Nat) (op : Operator) (rhs : Expr)
  /-- An increment or a decrement, by `inc` or `dec`. -/
  | step (x : Expr) (opOffset : Nat) (op : Operator)
deriving Repr, Inhabited

def Simple.offset : Simple → Nat
  | decl t _ => t.offset
  | expr x => x.offset
  | assign lhs _ _ _ => lhs.offset
  | step x _ _ => x.offset

/-- A statement. -/
inductive Stmt where
  | simple (s : Simple)
  | block (offset : Nat) (body : List Stmt)
  | ifThen (offset : Nat) (test : Expr) (yes : Stmt)
  | ifElse (offset : Nat) (test : Expr) (yes no : Stmt)
  /-- A loop, also one that is written with only a condition. -/
  | loop (offset : Nat) (init : Option Simple) (test : Option Expr) (post : Option Simple)
      (body : Stmt)
  | ret (offset : Nat) (result : Option Expr)
  | brk (offset : Nat)
  | cont (offset : Nat)
  | empty (offset : Nat)
deriving Repr, Inhabited

def Stmt.offset : Stmt → Nat
  | simple s => s.offset
  | block o _ => o
  | ifThen o _ _ => o
  | ifElse o _ _ _ => o
  | loop o _ _ _ _ => o
  | ret o _ => o
  | brk o => o
  | cont o => o
  | empty o => o

/-- A field of a structure or a parameter of a function. -/
structure Field where
  type : TypeSpec
  name : Ident
deriving DecidableEq, Repr, Inhabited

/-- The declaration of a structure type. -/
structure Typedef where
  offset : Nat
  fields : List Field
  name : Ident
deriving DecidableEq, Repr, Inhabited

/-- A helper function, or a kernel. -/
structure Func where
  isKernel : Bool
  result : TypeSpec
  name : Ident
  params : List Field
  /-- Where the body starts. -/
  brace : Nat
  body : List Stmt
deriving Repr, Inhabited

/-- A kernel source. -/
structure File where
  pragmas : List Pragma := []
  typedefs : List Typedef := []
  funcs : List Func := []
deriving Repr, Inhabited

end KernelForge.Code
