/-
Checking statements.

A block, the header of a loop, and each statement that stands alone under a condition or in a
loop have a scope of their own.  A variable is in scope only after its initial value, and the
part of a loop that runs after its body is checked before the body.
-/
import KernelForge.Program.Expr

namespace KernelForge.Env

/-- A place that may be assigned to. -/
def assignable (offset : Nat) (x : Checked) : Check Place :=
  match x.place? with
  | none => complain offset .notAssignable
  | some p => if x.readOnly then complain offset .readOnly else .ok p

/-- Replaces the value of a place by one computed from it. -/
def checkUpdate (offset : Nat) (lhs : Checked) (op : Operator) (rhs : Checked) : Check Action := do
  let place ← assignable offset lhs
  let next ← Checked.binary offset op { type := lhs.type, term := .current } rhs
  let next ← next.convert offset lhs.type
  return .update place next.term

/-- The operator of an assignment that computes. -/
def binaryOf? : Operator → Option Operator
  | .addAssign => some .add
  | .subAssign => some .sub
  | .mulAssign => some .mul
  | .quoAssign => some .quo
  | .remAssign => some .rem
  | .andAssign => some .and
  | .orAssign => some .or
  | .xorAssign => some .xor
  | .shlAssign => some .shl
  | .shrAssign => some .shr
  | _ => none

/-- The initial value of a variable; only variables that can change may do without. -/
def checkInit (env : Env) (t : NamedTy) (readOnly : Bool) (id : Code.Ident) :
    Option Code.Expr → Check (Option Term)
  | some e => do
    let x ← env.checkExpr e
    let x ← x.convert e.offset t
    return some x.term
  | none => if readOnly then complain id.offset (.uninitialized id.name) else .ok none

/-- Declares variables of one type, one after another. -/
def checkVariables (env : Env) (t : NamedTy) (readOnly : Bool) :
    List (Code.Ident × Option Code.Expr) → Check (Action × Env)
  | [] => .ok (.skip, env)
  | (id, init?) :: rest => do
    let init ← env.checkInit t readOnly id init?
    let (slot, env) ← env.declare id t readOnly
    let (after, env) ← checkVariables env t readOnly rest
    return (.seq (.declare slot t.ty init) after, env)

/-- Checks a statement that may stand in the header of a loop. -/
def checkSimple (env : Env) : Code.Simple → Check (Action × Env)
  | .decl spec vars => do
    let t ← env.resolve spec
    if t.ty = .void then complain spec.offset .voidVariable
    else env.checkVariables t (spec.readOnly && !spec.pointer) vars
  | .expr x => do
    let x ← env.checkExpr x
    return (.eval x.term, env)
  | .assign lhs offset op rhs => do
    let lhs ← env.checkExpr lhs
    let rhs ← env.checkExpr rhs
    match binaryOf? op with
    | some op => return (← checkUpdate offset lhs op rhs, env)
    | none =>
      let place ← assignable offset lhs
      let rhs ← rhs.convert offset lhs.type
      return (.assign place rhs.term, env)
  | .step x offset op => do
    let x ← env.checkExpr x
    let action ← checkUpdate offset x (if op = .dec then .sub else .add) (.ofConstant (.ofInt 1))
    return (action, env)

/-- Checks the end of a function. -/
def checkReturn (env : Env) (offset : Nat) : Option Code.Expr → Check Action
  | none =>
    if env.result.ty = .void then .ok (.ret none) else complain offset (.resultMissing env.fn)
  | some e =>
    if env.result.ty = .void then complain offset (.resultUnexpected env.fn)
    else do
      let x ← env.checkExpr e
      let x ← x.convert e.offset env.result
      return .ret (some x.term)

/-- Checks an optional statement of a loop header. -/
def checkOptional (env : Env) : Option Code.Simple → Check (Action × Env)
  | some s => env.checkSimple s
  | none => .ok (.skip, env)

/-- Checks the condition of a branch or a loop. -/
def checkTest (env : Env) (e : Code.Expr) : Check Term := do
  let x ← env.checkExpr e
  return (← x.truth e.offset).term

mutual

/-- Checks a statement. -/
def checkStmt (env : Env) (s : Code.Stmt) : Check (Action × Env) :=
  match s with
  | .simple s => env.checkSimple s
  | .block _ body => do
    let (action, inner) ← checkStmts env.openScope body
    return (action, env.closeTo inner)
  | .empty _ => .ok (.skip, env)
  | .ifThen _ test yes => do
    let test ← env.checkTest test
    let (yes, inner) ← checkStmt env.openScope yes
    return (.branch test yes .skip, env.closeTo inner)
  | .ifElse _ test yes no => do
    let test ← env.checkTest test
    let (yes, inner) ← checkStmt env.openScope yes
    let env := env.closeTo inner
    let (no, inner) ← checkStmt env.openScope no
    return (.branch test yes no, env.closeTo inner)
  | .loop _ init test post body => do
    let (init, head) ← env.openScope.checkOptional init
    let test ← match test with
      | some e => some <$> head.checkTest e
      | none => pure none
    let (post, inner) ← head.openScope.checkOptional post
    let head := head.closeTo inner
    let (body, inner) ← checkStmt { head.openScope with inLoop := true } body
    return (.seq init (.loop test post body), env.closeTo inner)
  | .brk offset =>
    if env.inLoop then .ok (.brk, env) else complain offset (.outsideLoop "break")
  | .cont offset =>
    if env.inLoop then .ok (.cont, env) else complain offset (.outsideLoop "continue")
  | .ret offset result => do return (← env.checkReturn offset result, env)

/-- Checks statements one after another. -/
def checkStmts (env : Env) (ss : List Code.Stmt) : Check (Action × Env) :=
  match ss with
  | [] => .ok (.skip, env)
  | s :: ss => do
    let (first, env) ← checkStmt env s
    let (rest, env) ← checkStmts env ss
    return (.seq first rest, env)

end

end KernelForge.Env
