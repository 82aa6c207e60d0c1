/-
What is known while a function is checked.

Variables live in nested scopes and have slots that are never used twice.  A checked
expression has a type and a term; if it names a place it can be assigned to, and if the place
is in memory its address can be taken.  An expression that already has the wanted type is not
touched by a conversion, so it stays a place.
-/
import KernelForge.Program.CheckError
import KernelForge.Program.Constant
import KernelForge.Program.NamedTy
import KernelForge.Program.Term
import KernelForge.Ty.Basic

namespace KernelForge

/-- A variable or a parameter. -/
structure Variable where
  slot : Nat
  type : NamedTy
  readOnly : Bool
deriving Inhabited

/-- What callers know of a function. -/
structure Header where
  isKernel : Bool
  result : NamedTy
  params : List NamedTy
deriving Inhabited

/-- What is known while a function is checked. -/
structure Env where
  structs : List (String × NamedTy) := []
  fp64 : Bool := false
  funcs : List (String × Header) := []
  /-- The scopes in force, the innermost first. -/
  scopes : List (List (String × Variable)) := []
  /-- The number of slots in use. -/
  slots : Nat := 0
  /-- The function that is being checked. -/
  fn : String := ""
  result : NamedTy := .void
  inLoop : Bool := false
deriving Inhabited

/-- Why checking stops. -/
inductive Objection where
  | complaint (offset : Nat) (error : CheckError)
  /-- The checker itself stops: what was parsed as one kind of type turned out another. -/
  | collapse
deriving Repr

abbrev Check := Except Objection

/-- Objects to what stands at an offset. -/
def complain {α : Type} (offset : Nat) (e : CheckError) : Check α := .error (.complaint offset e)

namespace Env

/-! ### Types -/

/-- The type that a type name stands for. -/
def typeNamed? (env : Env) (name : String) : Option NamedTy :=
  match env.structs.lookup name with
  | some t => some t
  | none => if name = "void" then some .void else (Ty.parse? name).bind NamedTy.ofPlain?

/-- The type that is written at a place. -/
def resolve (env : Env) (spec : Code.TypeSpec) : Check NamedTy :=
  match env.typeNamed? spec.name with
  | none => complain spec.offset (.unknownType spec.name)
  | some t =>
    if t.ty.usesDouble && !env.fp64 then complain spec.offset .doubleDisabled
    else if !spec.pointer then .ok t
    else if t.ty = .void then complain spec.offset .voidPointer
    else .ok (.pointer t spec.space spec.readOnly)

/-! ### Variables -/

def openScope (env : Env) : Env := { env with scopes := [] :: env.scopes }

/-- Goes back to the scopes of an outer environment; slots stay in use. -/
def closeTo (outer inner : Env) : Env := { outer with slots := inner.slots }

/-- The variable that a name stands for: that of the innermost scope. -/
def find? (env : Env) (name : String) : Option Variable :=
  env.scopes.findSome? fun scope => scope.lookup name

/-- Puts a new variable into the innermost scope. -/
def declare (env : Env) (id : Code.Ident) (type : NamedTy) (readOnly : Bool) :
    Check (Nat × Env) :=
  let scope := env.scopes.head?.getD []
  if (scope.lookup id.name).isSome then complain id.offset (.redefinition id.name)
  else
    let v : Variable := { slot := env.slots, type, readOnly }
    .ok (env.slots,
      { env with scopes := ((id.name, v) :: scope) :: env.scopes.tail, slots := env.slots + 1 })

end Env

/-! ### Checked expressions -/

/-- A checked expression. -/
structure Checked where
  type : NamedTy
  term : Term
  /-- The place of the value, if it has one. -/
  place? : Option Place := none
  readOnly : Bool := false
  /-- Where a pointer to the place would point, if the place is in memory. -/
  memory? : Option (Space × Bool) := none
deriving Inhabited

namespace Checked

def ofConstant (c : Constant) : Checked :=
  { type := .scalar c.type, term := .const c.elem (.atom c.cell) }

def ofVariable (v : Variable) : Checked :=
  { type := v.type, term := .var v.slot, place? := some (.var v.slot), readOnly := v.readOnly }

/-- Converts an expression to a type where the language does so by itself. -/
def convert (offset : Nat) (x : Checked) (dst : NamedTy) : Check Checked :=
  if x.type.ty = dst.ty then .ok x
  else
    match x.type, dst with
    | .scalar _, .scalar s => .ok { type := dst, term := .cast s x.term }
    | .scalar _, .vector s w =>
      .ok { type := dst, term := .concat s w.lanes [.cast s x.term] }
    | .pointer a space readOnly, .pointer b space' readOnly' =>
      if a.ty = b.ty ∧ space = space' ∧ (readOnly' ∨ !readOnly) then
        .ok { type := dst, term := x.term }
      else complain offset (.noConversion x.type.ty dst.ty)
    | _, _ => complain offset (.noConversion x.type.ty dst.ty)

/-- An expression as a condition. -/
def truth (offset : Nat) (x : Checked) : Check Checked :=
  if x.type.isScalar then x.convert offset (.scalar .bool)
  else complain offset (.condition x.type.ty)

/-- A unary operation other than `!`, `*` and `&`. -/
def unary (offset : Nat) (op : Operator) (x : Checked) : Check Checked := do
  let (t, s) ← match x.type with
    | .scalar s => pure (NamedTy.scalar s.arithmetic, s.arithmetic)
    | .vector s w => pure (NamedTy.vector s w, s)
    | t => complain offset (.unaryOperand t.ty)
  if op = .xor && !s.isInteger then complain offset (.unaryOperand x.type.ty)
  else
    let y ← x.convert offset t
    return { type := t, term := .unary op t.ty y.term }

/-- The negation of a condition. -/
def not (offset : Nat) (x : Checked) : Check Checked := do
  let y ← x.truth offset
  return { type := .scalar .bool, term := .unary .not (.scalar .bool) y.term }

/-- The operators that only integers have. -/
def isIntegerOp : Operator → Bool
  | .rem | .shl | .shr | .and | .or | .xor => true
  | _ => false

/-- A pointer moved forward or back. -/
def advance (offset : Nat) (op : Operator) (ptr n : Checked) : Check Checked :=
  let refuse := complain offset (.binaryOperands ptr.type.ty n.type.ty)
  match ptr.type, n.type with
  | .pointer elem _ _, .scalar s =>
    if !s.isInteger || (op ≠ .add && op ≠ .sub) then refuse
    else do
      let n ← n.convert offset (.scalar .long)
      let size : Int := elem.ty.size
      return { type := ptr.type
               term := .advance (if op = .sub then -size else size) ptr.term n.term }
  | _, _ => refuse

/-- Two conditions joined by `&&` or `||`. -/
def logical (offset : Nat) (op : Operator) (x y : Checked) : Check Checked := do
  for operand in [x, y] do
    if !operand.type.isScalar then complain offset (.logicalOperand operand.type.ty)
  let x ← x.convert offset (.scalar .bool)
  let y ← y.convert offset (.scalar .bool)
  return { type := .scalar .bool
           term := if op = .lor then .or x.term y.term else .and x.term y.term }

/-- The type that an operand is converted to: a vector stays one, and a scalar becomes an
element of the common type. -/
def operandType (t : NamedTy) (common : NamedTy) : NamedTy :=
  match t, common with
  | .vector _ _, c => c
  | _, .vector s _ => .scalar s
  | _, c => c

/-- A binary operation between numbers. -/
def arithmetic (offset : Nat) (op : Operator) (x y : Checked) : Check Checked :=
  match Ty.broadcast? x.type.ty y.type.ty with
  | some (.scalar s) =>
    if isIntegerOp op && !s.isInteger then
      complain offset (.integerOperands x.type.ty y.type.ty)
    else do
      let x ← x.convert offset (.scalar s)
      let y ← y.convert offset (.scalar s)
      let t : NamedTy := .scalar (if op.isComparison then .bool else s)
      return { type := t, term := .binary op t.ty x.term y.term }
  | some (.vector s w) =>
    if isIntegerOp op && !s.isInteger then
      complain offset (.integerOperands x.type.ty y.type.ty)
    else if op.isComparison then complain offset .vectorComparison
    else do
      let t : NamedTy := .vector s w
      let x ← x.convert offset (operandType x.type t)
      let y ← y.convert offset (operandType y.type t)
      return { type := t, term := .binary op t.ty x.term y.term }
  | _ => complain offset (.binaryOperands x.type.ty y.type.ty)

/-- A binary operation. -/
def binary (offset : Nat) (op : Operator) (x y : Checked) : Check Checked :=
  if op.isLogical then logical offset op x y
  else if x.type.isPointer then advance offset op x y
  else if y.type.isPointer && op = .add then advance offset op y x
  else arithmetic offset op x y

/-- A choice between two expressions, which are converted to a common type. -/
def choose (test x y : Checked) (xOffset yOffset : Nat) : Check Checked := do
  let common : NamedTy ← match Ty.broadcast? x.type.ty y.type.ty with
    | some t => pure ((NamedTy.ofPlain? t).getD x.type)
    | none =>
      if x.type.ty = y.type.ty then pure x.type
      else complain xOffset (.condOperands x.type.ty y.type.ty)
  let x ← x.convert xOffset common
  let y ← y.convert yOffset common
  return { type := common, term := .cond test.term x.term y.term }

/-- A cast.  It may change the space of a pointer, but not what the pointer points to. -/
def castTo (offset : Nat) (x : Checked) (dst : NamedTy) : Check Checked :=
  let refuse := complain offset (.badCast x.type.ty dst.ty)
  match dst with
  | .scalar _ => if x.type.isScalar then x.convert offset dst else refuse
  | .vector _ _ => x.convert offset dst
  | .pointer elem _ _ =>
    match x.type with
    | .pointer elem' _ _ =>
      if elem'.ty = elem.ty then .ok { type := dst, term := x.term } else refuse
    | _ => refuse
  | .void => .ok { type := .void, term := .discard x.term }
  | .struct _ _ => if x.type.ty = dst.ty then .ok x else refuse

/-- The element of a pointer at an index. -/
def deref (offset : Nat) (ptr index : Checked) : Check Checked :=
  match ptr.type with
  | .pointer elem space readOnly =>
    let place := Place.deref elem.ty ptr.term index.term
    .ok { type := elem
          term := .load place
          place? := some place
          readOnly := readOnly || space = .constant
          memory? := some (space, readOnly) }
  | t => complain offset (.notPointer t.ty)

/-- A pointer with a subscript. -/
def subscript (offset : Nat) (ptr index : Checked) : Check Checked := do
  match index.type with
  | .scalar s =>
    if s.isInteger then ptr.deref offset (← index.convert offset (.scalar .long))
    else complain offset .subscript
  | _ => complain offset .subscript

/-- The address of a place in memory. -/
def addressOf (offset : Nat) (form : String) (x : Checked) : Check Checked :=
  match x.memory?, x.place? with
  | some (space, readOnly), some place =>
    .ok { type := .pointer x.type space readOnly, term := .address place }
  | _, _ => complain offset (.noAddress form)

/-- A field of a structure or some lanes of a vector. -/
def select (x : Checked) (id : Code.Ident) : Check Checked :=
  match x.type with
  | .struct names fields =>
    match names.findIdx? (· = id.name) with
    | none => complain id.offset (.noMember id.name x.type.ty)
    | some i =>
      .ok { type := fields.getD i .void
            term := .field i x.term
            place? := x.place?.map fun p => .field p (NamedTy.tys fields) i
            readOnly := x.readOnly
            memory? := x.memory? }
  | .vector s w =>
    match Component.lanes? w.lanes id.name with
    | none => complain id.offset (.badComponent id.name x.type.ty)
    | some lanes =>
      let place? := if Component.distinct lanes then x.place?.map (.lanes · lanes) else none
      match lanes with
      | [_] => .ok { type := .scalar s, term := .lanes lanes x.term, place?, readOnly := x.readOnly }
      | _ =>
        match Width.ofLanes? lanes.length with
        | some v =>
          .ok { type := .vector s v, term := .lanes lanes x.term, place?, readOnly := x.readOnly }
        | none => complain id.offset (.componentLanes id.name lanes.length)
  | t => complain id.offset (.noMembers t.ty)

/-- Converts each of some expressions to a type of its own; `offsets` say where they stand. -/
def convertAll : List Nat → List Checked → List NamedTy → Check (List Checked)
  | o :: os, x :: xs, t :: ts => do
    let y ← x.convert o t
    return y :: (← convertAll os xs ts)
  | _, _, _ => .ok []

end Checked
end KernelForge
