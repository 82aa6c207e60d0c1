/-
The types of formulas, and what may be wrong with them.

The type of a formula is found from the types of its arguments alone.  Operators and
mathematical functions have the types that the device gives them; an assignment and a call of a
helper take what can be converted without going down the order of promotion.
-/
import KernelForge.Builtin
import KernelForge.Fault
import KernelForge.Formula.Basic
import KernelForge.Text.Quoted
import KernelForge.Ty.Basic

namespace KernelForge

/-- What is wrong with a formula. -/
inductive FormulaError where
  | missing
  | literal (cause : LiteralError)
  | argument (index : Int) (count : Nat)
  | unaryOperator (op : Operator)
  | unaryOperand (n x : Formula) (t : Ty)
  | comparison (n : Formula) (x y : Ty)
  | binaryOperator (op : Operator)
  | mismatch (n : Formula) (x y : Ty)
  | integerOperands (op : Operator) (x y : Ty)
  | unknownFunction (name : String)
  | signature (cause : SignatureError)
  | lane (n : Formula) (index : Int) (t : Ty)
  | field (n : Formula) (index : Int) (count : Nat)
  | noElements (n x : Formula) (t : Ty)
  | notPlace (n : Formula)
  | assignment (lhs rhs : Formula) (lhsTy rhsTy : Ty)
  | readOnly (n : Formula) (expr : String)
  | wholeTuple (n : Formula) (fields : Nat)
  | helperArity (name : String) (want got : Nat)
  | helperArg (name : String) (index : Nat) (arg param : Ty)
  | helperName (name : String)
  | helperBuiltin (name : String)
  | helperResult (name : String) (body : Formula) (bodyTy result : Ty)
  | inHelper (name : String) (cause : FormulaError)
deriving Inhabited

namespace FormulaError

/-- The fault that is reported. -/
def fault : FormulaError → Fault
  | missing => .plain "node type <nil> not supported"
  | literal cause => .kinded .typeMismatch (.plain cause.message)
  | argument index count =>
    .ofKind .arity (Formula.argText index ++ " refers to argument " ++ toString (index + 1) ++
      s!" but the expression has {count} argument(s)")
  | unaryOperator op => .ofKind .typeMismatch s!"unary operator {op} not supported"
  | unaryOperand n x t => .ofKind .typeMismatch s!"invalid operand for {n}: {x} is of type {t}"
  | comparison n x y =>
    .ofKind .typeMismatch s!"cannot compare {x} and {y} in {n}: scalar operands required"
  | binaryOperator op => .ofKind .typeMismatch s!"binary operator {op} not supported"
  | mismatch n x y => .ofKind .typeMismatch s!"mismatched types {x} and {y} in {n}"
  | integerOperands op x y =>
    .ofKind .typeMismatch s!"operator {op} requires integer operands but got {x} and {y}"
  | unknownFunction name =>
    .ofKind .unknownFunction ("function " ++ Text.quoted name ++ " is not defined")
  | signature cause =>
    .kinded (if cause.isArity then .arity else .typeMismatch) (.plain cause.message)
  | lane n index t => .ofKind .indexRange s!"{n}: lane {index} out of range for {t}"
  | field n index count =>
    .ofKind .indexRange s!"{n}: field {index} out of range for a tuple of {count} field(s)"
  | noElements n x t => .ofKind .typeMismatch s!"{n}: cannot access elements of {x} of type {t}"
  | notPlace n => .ofKind .typeMismatch s!"cannot assign to {n}"
  | assignment lhs rhs lhsTy rhsTy =>
    .ofKind .typeMismatch s!"cannot assign {rhs} of type {rhsTy} to {lhs} of type {lhsTy}"
  | readOnly n expr => .ofKind .argumentType s!"cannot assign to {n}: {expr} is read-only"
  | wholeTuple n fields =>
    .ofKind .typeMismatch s!"cannot assign to {n}: assign each of its {fields} fields instead"
  | helperArity name want got =>
    .ofKind .arity s!"{name} expects {want} argument(s) but got {got}"
  | helperArg name index arg param =>
    .ofKind .typeMismatch s!"{name}: cannot use argument {index} of type {arg} as {param}"
  | helperName name => .plain ("invalid function name " ++ Text.quoted name)
  | helperBuiltin name => .plain s!"function {name} already defined by the device language"
  | helperResult name body bodyTy result =>
    .ofKind .typeMismatch s!"function {name}: cannot return {body} of type {bodyTy} as {result}"
  | inHelper name cause => .within s!"cannot define function {name}" cause.fault

end FormulaError
end KernelForge

namespace KernelForge

/-- Tests whether a value of one type may be stored where another type is kept. -/
def Ty.storableAs (src dst : Ty) : Bool :=
  src = dst ||
    match src, dst with
    | .scalar a, .scalar b => a.promotesTo b
    | _, _ => false

namespace Formula

/-- The type of a unary operation, if the operand has it. -/
def unaryTy? (op : Operator) (x : Ty) : Option Ty :=
  match op, x with
  | .sub, .scalar s => some (.scalar s.arithmetic)
  | .sub, .vector s w => some (.vector s w)
  | .not, .scalar _ => some (.scalar .bool)
  | .xor, .scalar s => if s.isInteger || s.isBool then some (.scalar s.arithmetic) else none
  | .xor, .vector s w => if s.isInteger then some (.vector s w) else none
  | _, _ => none

/-- The unary operators that formulas have. -/
def isUnary : Operator → Bool
  | .sub | .not | .xor => true
  | _ => false

/-- The operators whose operands are integers. -/
def isIntegerOp : Operator → Bool
  | .rem | .shl | .shr | .and | .or | .xor => true
  | _ => false

/-- The operators between numbers that formulas have. -/
def isArithmetic : Operator → Bool
  | .add | .sub | .mul | .quo => true
  | op => isIntegerOp op

/-- The type of the binary operation `n` between operands of given types. -/
def binaryTy (n : Formula) (op : Operator) (x y : Ty) : Except FormulaError Ty :=
  if op.isComparison || op.isLogical then
    match x, y with
    | .scalar _, .scalar _ => .ok (.scalar .bool)
    | _, _ => .error (.comparison n x y)
  else if !isArithmetic op then .error (.binaryOperator op)
  else
    match Ty.broadcast? x y with
    | none => .error (.mismatch n x y)
    | some t =>
      if isIntegerOp op && !(t.element?.any Scalar.isInteger) then
        .error (.integerOperands op x y)
      else .ok t

/-- The type of a call of a mathematical function. -/
def callTy (name : String) (args : List Ty) : Except FormulaError Ty :=
  match Builtin.ofName? name with
  | none => .error (.unknownFunction name)
  | some f =>
    match f.signature args with
    | .ok sig => .ok sig.result
    | .error e => .error (.signature e)

/-- The type of an element of a vector or a tuple, taken by the formula `n` from `x`. -/
def elementTy (n : Formula) (index : Int) (x : Formula) (t : Ty) : Except FormulaError Ty :=
  match t with
  | .vector s w =>
    if index < 0 ∨ w.lanes ≤ index then .error (.lane n index t) else .ok (.scalar s)
  | .tuple ts =>
    match if index < 0 then none else ts[index.toNat]? with
    | some t => .ok t
    | none => .error (.field n index ts.length)
  | t => .error (.noElements n x t)

/-- The type of an argument. -/
def argTy (args : List Ty) (index : Int) : Except FormulaError Ty :=
  match if index < 0 then none else args[index.toNat]? with
  | some t => .ok t
  | none => .error (.argument index args.length)

/-- Objects to the first argument of a helper that its parameter cannot hold. -/
def checkArgs (name : String) (index : Nat) : List Ty → List Ty → Except FormulaError Unit
  | t :: ts, param :: params =>
    if t.storableAs param then checkArgs name (index + 1) ts params
    else .error (.helperArg name index t param)
  | _, _ => .ok ()

/-- The type of a call of a helper. -/
def helperTy (fn : HelperFn) (args : List Ty) : Except FormulaError Ty :=
  if args.length ≠ fn.params.length then
    .error (.helperArity fn.name fn.params.length args.length)
  else
    match checkArgs fn.name 1 args fn.params with
    | .ok () => .ok fn.result
    | .error e => .error e

mutual

/-- The type of a formula, given the types of its arguments. -/
def infer (args : List Ty) (n : Formula) : Except FormulaError Ty :=
  match n with
  | missing => .error .missing
  | literal type value =>
    match Literal.ofHost type value with
    | .ok (t, _) => .ok t
    | .error e => .error (.literal e)
  | arg index => argTy args index
  | unary op x => do
    let t ← infer args x
    if !isUnary op then throw (.unaryOperator op)
    match unaryTy? op t with
    | some r => return r
    | none => throw (.unaryOperand (unary op x) x t)
  | binary op x y => do
    let s ← infer args x
    let t ← infer args y
    binaryTy (binary op x y) op s t
  | call name xs => do
    let ts ← inferAll args xs
    callTy name ts
  | apply fn xs => do
    let ts ← inferAll args xs
    helperTy fn ts
  | helper fn => do
    let ts ← (List.range fn.params.length).mapM fun (i : Nat) => argTy args i
    helperTy fn ts
  | get index x => do
    let t ← infer args x
    elementTy (get index x) index x t
  | set lhs rhs => do
    if !lhs.isPlace then throw (.notPlace lhs)
    let s ← infer args lhs
    let t ← infer args rhs
    if t.storableAs s then return s else throw (.assignment lhs rhs s t)

/-- The types of some formulas. -/
def inferAll (args : List Ty) (ns : List Formula) : Except FormulaError (List Ty) :=
  match ns with
  | [] => .ok []
  | n :: ns => do
    let t ← infer args n
    let ts ← inferAll args ns
    return t :: ts

end

end Formula

namespace HelperFn

/-- The words of the device language that no function can have for a name. -/
def keywords : List String :=
  ["break", "case", "const", "continue", "default", "do", "else", "for", "if", "inline", "kernel",
    "return", "sizeof", "struct", "switch", "typedef", "void", "while"]

/-- A name is letters, digits and underscores, and starts with a letter; names that start with
an underscore are kept for generated ones. -/
def isName (name : String) : Bool :=
  let isLetter := fun c : Char => c.isAlpha
  match name.toList with
  | [] => false
  | c :: cs =>
    isLetter c && cs.all (fun c => isLetter c || c.isDigit || c = '_') &&
      !Ty.isTypeName name && !keywords.contains name

/-- Makes a helper function.  Without a type for its result it has that of its body. -/
def make (id : Nat) (name : String) (body : Formula) (result? : Option Ty) (params : List Ty) :
    Except FormulaError HelperFn := do
  if !isName name then throw (.helperName name)
  if (Builtin.ofName? name).isSome then throw (.helperBuiltin name)
  let bodyTy ← body.infer params
  let result := result?.getD bodyTy
  if bodyTy.storableAs result then return .mk id name body params result
  else throw (.helperResult name body bodyTy result)

end HelperFn
end KernelForge
