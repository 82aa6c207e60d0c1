/-
Outlines of kernel source.

The outline of a tree keeps everything that the tree holds, and every node comes with the byte
offset that messages about it refer to.
-/
import KernelForge.Code.Basic
import KernelForge.Outline

namespace KernelForge.Code

open Outline

def Ident.outline (i : Ident) : Outline := list [number i.offset, word i.name]

def TypeSpec.outline (t : TypeSpec) : Outline :=
  list [number t.offset, word t.name, word t.space.qualifier, flag t.readOnly, flag t.pointer]

def Field.outline (f : Field) : Outline := list [f.type.outline, f.name.outline]

def NumberKind.outline : NumberKind → Outline
  | int => word "INT"
  | float => word "FLOAT"

/-- The outline of an operator is its spelling. -/
def operatorOutline (op : Operator) : Outline := word op.spelling

namespace Expr

mutual

def outline : Expr → Outline
  | ident i => node "ident" [.number i.offset, word i.name]
  | .number o k t => node "lit" [.number o, k.outline, word t]
  | unary o op x => node "unary" [.number o, operatorOutline op, x.outline]
  | binary x o op y => node "binary" [.number o, operatorOutline op, x.outline, y.outline]
  | cond c x y => node "cond" [.number c.offset, c.outline, x.outline, y.outline]
  | call f o xs => node "call" [.number o, f.outline, list (outlines xs)]
  | cast o t x => node "cast" [.number o, t.outline, x.outline]
  | vectorLit o t xs => node "veclit" [.number o, t.outline, list (outlines xs)]
  | structLit o t xs => node "complit" [.number o, t.outline, list (outlines xs)]
  | index x o i => node "index" [.number o, x.outline, i.outline]
  | select x f => node "select" [.number x.offset, f.outline, x.outline]
  | paren o x => node "paren" [.number o, x.outline]

def outlines : List Expr → List Outline
  | [] => []
  | x :: xs => x.outline :: outlines xs

end

/-- The outline of an expression that may be left out. -/
def outlineOf? : Option Expr → Outline
  | some x => x.outline
  | none => absent

end Expr

namespace Simple

def outline : Simple → Outline
  | decl t vs =>
    node "decl"
      [t.outline, list (vs.map fun (i, v) => list [i.outline, Expr.outlineOf? v])]
  | expr x => node "expr" [number x.offset, x.outline]
  | assign x o op y => node "assign" [number o, operatorOutline op, x.outline, y.outline]
  | step x o op => node "incdec" [number o, operatorOutline op, x.outline]

/-- The outline of a statement that may be left out. -/
def outlineOf? : Option Simple → Outline
  | some s => s.outline
  | none => absent

end Simple

namespace Stmt

mutual

def outline : Stmt → Outline
  | simple s => s.outline
  | block o ss => node "block" [number o, list (outlines ss)]
  | ifThen o c t => node "if" [number o, c.outline, t.outline, absent]
  | ifElse o c t e => node "if" [number o, c.outline, t.outline, e.outline]
  | loop o i c p b =>
    node "for"
      [number o, Simple.outlineOf? i, Expr.outlineOf? c, Simple.outlineOf? p, b.outline]
  | ret o x => node "return" [number o, Expr.outlineOf? x]
  | brk o => node "branch" [number o, word "break"]
  | cont o => node "branch" [number o, word "continue"]
  | empty o => node "empty" [number o]

def outlines : List Stmt → List Outline
  | [] => []
  | s :: ss => s.outline :: outlines ss

end

end Stmt

def Typedef.outline (t : Typedef) : Outline :=
  list [number t.offset, t.name.outline, list (t.fields.map Field.outline)]

def Func.outline (f : Func) : Outline :=
  list
    [flag f.isKernel, f.result.outline, f.name.outline, list (f.params.map Field.outline),
      (Stmt.block f.brace f.body).outline]

end KernelForge.Code
