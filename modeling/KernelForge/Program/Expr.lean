/-
Checking expressions.

Operands are checked from left to right and each rule looks at its operands only after they
have been checked, so the first objection in the source is the one that is reported.
-/
import KernelForge.Program.Call

namespace KernelForge

namespace Checked

/-- One part of a vector: a scalar is converted to the element, and a vector must have it. -/
def vectorPart (vec : Ty) (s : Scalar) (offset : Nat) (part : Checked) : Check (Nat × Checked) :=
  match part.type with
  | .scalar _ => do return (1, ← part.convert offset (.scalar s))
  | .vector s' w =>
    if s' = s then .ok (w.lanes, part) else complain offset (.vectorPart part.type.ty vec)
  | t => complain offset (.vectorPart t.ty vec)

/-- A vector made of parts, which must have as many lanes as it. -/
def vectorOf (offset : Nat) (s : Scalar) (w : Width) (parts : List (Nat × Checked)) :
    Check Checked :=
  let lanes := parts.foldl (fun n p => n + p.1) 0
  if lanes = w.lanes then
    .ok { type := .vector s w, term := .concat s w.lanes (parts.map fun p => p.2.term) }
  else complain offset (.laneCount (.vector s w) lanes)

end Checked

namespace Env

/-- A name: a variable, or a constant that no variable hides. -/
def checkName (env : Env) (id : Code.Ident) : Check Checked :=
  match env.find? id.name with
  | some v => .ok (.ofVariable v)
  | none =>
    match Constant.named? id.name with
    | some c => .ok (.ofConstant c)
    | none => complain id.offset (.undeclared id.name)

/-- The structure whose literal is written at an offset. -/
def structNamed (env : Env) (offset : Nat) (spec : Code.TypeSpec) (count : Nat) :
    Check (NamedTy × List NamedTy) := do
  match ← env.resolve spec with
  | .struct names fields =>
    if spec.pointer then complain offset (.structLiteral spec.name)
    else if count ≠ fields.length then
      complain offset (.fieldCount (.tuple (NamedTy.tys fields)) fields.length count)
    else return (.struct names fields, fields)
  | _ => complain offset (.structLiteral spec.name)

mutual

/-- Checks an expression. -/
def checkExpr (env : Env) (e : Code.Expr) : Check Checked :=
  match e with
  | .ident id => env.checkName id
  | .number offset kind text =>
    match Constant.ofText env.fp64 kind text with
    | .ok c => .ok (.ofConstant c)
    | .error cause => complain offset (.badNumber text cause)
  | .paren _ x => checkExpr env x
  | .unary offset op x => do
    let y ← checkExpr env x
    match op with
    | .mul => y.deref offset (.ofConstant (.ofLong 0))
    | .and => y.addressOf offset x.form
    | .not => y.not x.offset
    | _ => y.unary offset op
  | .binary x offset op y => do
    let x ← checkExpr env x
    let y ← checkExpr env y
    x.binary offset op y
  | .cond test x y => do
    let test' ← checkExpr env test
    let test' ← test'.truth test.offset
    let x' ← checkExpr env x
    let y' ← checkExpr env y
    Checked.choose test' x' y' x.offset y.offset
  | .cast offset spec x => do
    let t ← env.resolve spec
    let x ← checkExpr env x
    x.castTo offset t
  | .vectorLit offset spec items => do
    match ← env.resolve spec with
    | .vector s w =>
      match items with
      | [x] => do
        let x ← checkExpr env x
        x.convert offset (.vector s w)
      | items => do
        let parts ← checkParts env (.vector s w) s items
        Checked.vectorOf offset s w parts
    | _ => .error .collapse
  | .structLit offset spec items => do
    let (t, fields) ← env.structNamed offset spec items.length
    let xs ← checkFields env items fields
    return { type := t, term := .record (xs.map (·.term)) }
  | .index x bracket i => do
    let x ← checkExpr env x
    let i ← checkExpr env i
    x.subscript bracket i
  | .select x id => do
    let x ← checkExpr env x
    x.select id
  | .call fn paren args =>
    if (env.find? fn.name).isSome then complain fn.offset (.notFunction fn.name)
    else
      let name := Callee.fullName fn.name
      match Callee.ofName env name with
      | .workItem f => do
        Checked.requireArgs fn paren 1 args.length
        let xs ← checkExprs env args
        Checked.callWorkItem paren f (xs.headD default)
      | .workDim => do
        Checked.requireArgs fn paren 0 args.length
        return .ofConstant (.ofUInt 1)
      | .atomic f => do
        Checked.requireArgs fn paren f.arity args.length
        match args with
        | [] => .error .collapse
        | ptr :: rest => do
          let ptr ← checkExpr env ptr
          let s ← Checked.atomicElem paren f ptr
          let xs ← checkExprs env rest
          let xs ← Checked.convertAll (rest.map (·.offset)) xs (rest.map fun _ => .scalar s)
          return { type := .scalar s, term := .atomic f s ptr.term (xs.map (·.term)) }
      | .convert target => do
        Checked.requireArgs fn paren 1 args.length
        match Ty.parse? target with
        | none => complain fn.offset (.undeclaredFn fn.name)
        | some t => do
          let xs ← checkExprs env args
          Checked.callConvert paren t (xs.headD default)
      | .math f => do
        let xs ← checkExprs env args
        Checked.callMath paren f (args.map (·.offset)) xs
      | .source name header => do
        if header.isKernel then complain fn.offset (.callsKernel name)
        else
          Checked.requireArgs fn paren header.params.length args.length
          let xs ← checkExprs env args
          let xs ← Checked.convertAll (args.map (·.offset)) xs header.params
          return { type := header.result, term := .call name (xs.map (·.term)) }
      | .unknown =>
        if isFence name then complain fn.offset (.notOnDevice name)
        else complain fn.offset (.undeclaredFn name)

/-- Checks some expressions from left to right. -/
def checkExprs (env : Env) (es : List Code.Expr) : Check (List Checked) :=
  match es with
  | [] => .ok []
  | e :: es => do
    let x ← checkExpr env e
    let xs ← checkExprs env es
    return x :: xs

/-- Checks the parts of a vector of a given element. -/
def checkParts (env : Env) (vec : Ty) (s : Scalar) (es : List Code.Expr) :
    Check (List (Nat × Checked)) :=
  match es with
  | [] => .ok []
  | e :: es => do
    let x ← checkExpr env e
    let part ← Checked.vectorPart vec s e.offset x
    let parts ← checkParts env vec s es
    return part :: parts

/-- Checks the fields of a structure, each converted to its type. -/
def checkFields (env : Env) (es : List Code.Expr) (ts : List NamedTy) : Check (List Checked) :=
  match es, ts with
  | e :: es, t :: ts => do
    let x ← checkExpr env e
    let x ← x.convert e.offset t
    let xs ← checkFields env es ts
    return x :: xs
  | _, _ => .ok []

end

end Env
end KernelForge
