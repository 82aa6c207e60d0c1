/-
Formulas as kernel source.

Each operation of a formula becomes the declaration of a variable, so operands are computed in
their order and once.  The right operand of `&&` and `||` is computed under a condition.
Everything that could be wrong is looked for before the first line is written.
-/
import KernelForge.Draft.Basic
import KernelForge.Formula.Infer

namespace KernelForge

/-- What a placeholder stands for in a kernel. -/
structure Binding where
  type : Ty
  /-- The value, in a form that a field or an index may follow. -/
  expr : String
  /-- The fields of a tuple, when they lie apart; then only they can be assigned to. -/
  fields : List String := []
  readOnly : Bool := false
deriving DecidableEq, Repr, Inhabited

/-- Writing a draft, which may fail; what was written before stays. -/
abbrev Drafting := ExceptT FormulaError (StateM Draft)

namespace Drafting

/-- The draft as it is. -/
def current : Drafting Draft := get

/-- Changes the draft. -/
def edit (f : Draft → Draft) : Drafting Unit := modify f

/-- Changes the draft and takes a result from it. -/
def take {α : Type} (f : Draft → α × Draft) : Drafting α := modifyGet f

def ofExcept {α : Type} : Except FormulaError α → Drafting α
  | .ok a => pure a
  | .error e => throw e

end Drafting

namespace Formula

def bindingAt (bs : List Binding) (index : Int) : Binding := bs.getD index.toNat default

/-- The field that an element of a placeholder stands for, when the fields lie apart. -/
def fieldBinding? (bs : List Binding) (index : Int) : Formula → Option String
  | arg i => (bindingAt bs i).fields[index.toNat]?
  | _ => none

/-- The name of an element of a vector or a tuple. -/
def elementName (index : Int) : Ty → String
  | .tuple ts => Ty.fieldName ts.length index.toNat
  | _ => "s" ++ String.ofList (Nat.toDigits 16 index.toNat)

/-- Objects to a place that cannot be assigned to. -/
def checkPlace (bs : List Binding) : Formula → Except FormulaError Unit
  | arg i =>
    let b := bindingAt bs i
    if b.readOnly then .error (.readOnly (arg i) b.expr)
    else if !b.fields.isEmpty then .error (.wholeTuple (arg i) b.fields.length)
    else .ok ()
  | get index x =>
    match fieldBinding? bs index x, x with
    | some _, arg i =>
      let b := bindingAt bs i
      if b.readOnly then .error (.readOnly (get index x) b.expr) else .ok ()
    | _, _ => checkPlace bs x
  | n => .error (.notPlace n)

mutual

/-- Objects to the first assignment whose place cannot be assigned to. -/
def checkAssignments (bs : List Binding) (n : Formula) : Except FormulaError Unit :=
  match n with
  | unary _ x => checkAssignments bs x
  | binary _ x y => do
    checkAssignments bs x
    checkAssignments bs y
  | call _ xs => checkAllAssignments bs xs
  | apply _ xs => checkAllAssignments bs xs
  | get _ x => checkAssignments bs x
  | set lhs rhs => do
    checkAssignments bs rhs
    checkPlace bs lhs
  | missing | literal _ _ | arg _ | helper _ => .ok ()

def checkAllAssignments (bs : List Binding) (ns : List Formula) : Except FormulaError Unit :=
  match ns with
  | [] => .ok ()
  | n :: ns => do
    checkAssignments bs n
    checkAllAssignments bs ns

end

/-- What is looked for before anything is written. -/
def check (bs : List Binding) (n : Formula) : Except FormulaError Unit := do
  let _ ← n.infer (bs.map (·.type))
  checkAssignments bs n

/-- Declares a variable for the value of a formula. -/
def declare (bs : List Binding) (n : Formula) (init : String) : Drafting String := do
  let t ← Drafting.ofExcept (n.infer (bs.map (·.type)))
  Drafting.take (·.declare t init)

/-- The expression of a place that is assigned to. -/
def place (bs : List Binding) (n : Formula) : Drafting String := do
  Drafting.ofExcept (checkPlace bs n)
  match n with
  | arg i => return (bindingAt bs i).expr
  | get index x =>
    match fieldBinding? bs index x with
    | some expr => return expr
    | none =>
      let parent ← place bs x
      let t ← Drafting.ofExcept (x.infer (bs.map (·.type)))
      return parent ++ "." ++ elementName index t
  | n => throw (.notPlace n)

/-- A literal stands in brackets before one of its elements is named. -/
def parenthesized (x : Formula) (text : String) : String :=
  match x with
  | literal _ _ => "(" ++ text ++ ")"
  | _ => text

/-- The parameters of a helper function inside it. -/
def helperBindings (params : List Ty) : List Binding :=
  params.zipIdx.map fun (t, i) => { type := t, expr := argText i }

/-- Declares the parameters of a helper function. -/
def helperParams (d : Draft) : List Binding → List String × Draft
  | [] => ([], d)
  | b :: bs =>
    let (text, d) := d.decl b.type b.expr
    let (texts, d) := helperParams d bs
    (text :: texts, d)

mutual

/-- Writes the statements that compute a formula, and gives its value. -/
def write (bs : List Binding) (n : Formula) : Drafting String :=
  match n with
  | missing => throw .missing
  | literal type value =>
    match Literal.ofHost type value with
    | .ok (t, src) => do
      Drafting.edit (·.inject t)
      return src
    | .error e => throw (.literal e)
  | arg i => return (bindingAt bs i).expr
  | unary op x => do
    let v ← write bs x
    declare bs (unary op x) (unarySign op ++ v)
  | binary op x y =>
    if op.isLogical then do
      let v ← write bs x
      let result ← Drafting.take (·.declare (.scalar .bool) v)
      let test := if op = .lor then "!" ++ result else result
      Drafting.edit fun d => (d.line ("if (" ++ test ++ ") \x7b")).indent
      let w ← write bs y
      Drafting.edit fun d => ((d.line (result ++ " = " ++ w ++ ";")).dedent).line "\x7d"
      return result
    else do
      let v ← write bs x
      let w ← write bs y
      declare bs (binary op x y) (v ++ " " ++ op.spelling ++ " " ++ w)
  | call name xs => do
    let vs ← writeAll bs xs
    declare bs (call name xs) (name ++ "(" ++ ", ".intercalate vs ++ ")")
  | apply fn xs => do
    let vs ← writeAll bs xs
    let name ← define fn
    declare bs (apply fn xs) (name ++ "(" ++ ", ".intercalate vs ++ ")")
  | helper fn => do
    let vs := (List.range fn.params.length).map fun (i : Nat) => (bindingAt bs i).expr
    let name ← define fn
    declare bs (helper fn) (name ++ "(" ++ ", ".intercalate vs ++ ")")
  | get index x =>
    match fieldBinding? bs index x with
    | some expr => return expr
    | none => do
      let v ← write bs x
      let t ← Drafting.ofExcept (x.infer (bs.map (·.type)))
      declare bs (get index x) (parenthesized x v ++ "." ++ elementName index t)
  | set lhs rhs => do
    let v ← write bs rhs
    let l ← place bs lhs
    Drafting.edit (·.line (l ++ " = " ++ v ++ ";"))
    return l

/-- Writes some formulas one after another. -/
def writeAll (bs : List Binding) (ns : List Formula) : Drafting (List String) :=
  match ns with
  | [] => return []
  | n :: ns => do
    let v ← write bs n
    let vs ← writeAll bs ns
    return v :: vs

/-- Defines a helper function, after those that it calls, unless that has been done. -/
def define (fn : HelperFn) : Drafting String :=
  match fn with
  | .mk id root body params result => do
    match (← Drafting.current).helper? (.function id) with
    | some name => return name
    | none =>
      let name ← Drafting.take (·.helperName root)
      let outer := (← Drafting.current).part
      let bs := helperBindings params
      let texts ← Drafting.take fun d => helperParams { d with part := Draft.helperPart } bs
      let value ← try
          Drafting.ofExcept (check bs body)
          Drafting.edit fun d => bs.foldl (fun d b => d.inject b.type) d
          write bs body
        catch e =>
          Drafting.edit fun d => { d with part := outer }
          throw (.inHelper root e)
      Drafting.edit fun d =>
        let source :=
          "inline " ++ result.name ++ " " ++ name ++ "(" ++ ", ".intercalate texts ++ ")\n\x7b\n" ++
            d.part.body ++ "    return " ++ value ++ ";\n\x7d\n"
        (({ d with part := outer }).inject result).addHelper (.function id) name source
      return name

end

/-- Writes a formula whose placeholders are bound, and gives its value; nothing is written when
the formula cannot be. -/
def lower (bs : List Binding) (n : Formula) : Drafting String := do
  Drafting.ofExcept (check bs n)
  Drafting.edit fun d => bs.foldl (fun d b => d.inject b.type) d
  write bs n

end Formula
end KernelForge
