/-
Formulas written as expressions of the kernel language.

The placeholders are written `_1`, `_2` and so on, and fields and lanes are selected by their
names.  An expression that has no formula is told where it stands, and so are all others that
stand beside it.
-/
import KernelForge.Code.Parse
import KernelForge.Formula.Basic
import KernelForge.Numeral.Basic
import KernelForge.Numeral.Real

namespace KernelForge

/-- Why an expression has no formula. -/
inductive FormulaComplaint where
  | unsupported (form : String)
  | undefined (name : String)
  | badNumber (text : String)
  | badOperator (op : Operator)
  | unknownField (name : String)
deriving DecidableEq, Repr, Inhabited

def FormulaComplaint.message : FormulaComplaint → String
  | unsupported form => "expression " ++ form ++ " not supported in a lambda"
  | undefined name => "undefined: " ++ name ++ " (arguments are _1, _2, ...)"
  | badNumber text => "invalid literal " ++ text
  | badOperator op => "operator " ++ op.spelling ++ " not supported in a lambda"
  | unknownField name => "unknown field " ++ name

namespace Formula

/-- The index of a placeholder with a given name. -/
def placeholderIndex? (name : String) : Option Nat :=
  match name.toList with
  | '_' :: digits =>
    match Numeral.decimalNatural 63 digits with
    | .ok (n + 1) => some n
    | _ => none
  | _ => none

/-- The index of the field or lane with a given name. -/
def fieldIndex? (name : String) : Option Nat :=
  match name.toList with
  | ['x'] => some 0
  | ['y'] => some 1
  | ['z'] => some 2
  | ['w'] => some 3
  | c :: digits =>
    if name = "first" then some 0
    else if name = "second" then some 1
    else if c = 'v' || c = 's' then (Numeral.hexNatural 8 digits).toOption
    else none
  | [] => none

/-- A whole number; what its type cannot hold is cut off. -/
def ofNatural (unsigned long : Bool) (n : Nat) : Formula :=
  match unsigned, long with
  | true, true => literal (some (.uint .w64)) (.uint (UInt64.ofNat n))
  | true, false => literal (some (.uint .w32)) (.uint (UInt64.ofNat (n % 0x100000000)))
  | false, true => literal (some (.int .w64)) (.int (Int64.ofNat n))
  | false, false => literal (some (.int .w32)) (.int (Int64.ofInt (Int.bmod n 0x100000000)))

/-- The formula of a number as it is written. -/
def ofNumber? (kind : Code.NumberKind) (text : String) : Option Formula :=
  let cs := text.toList.map Char.toLower
  match kind with
  | .float =>
    let single := cs.getLast? = some 'f'
    match Numeral.real (if single then cs.dropLast else cs) with
    | .error _ => none
    | .ok x =>
      if x.overflow then none
      else if single then some (literal (some .float32) (.float32 x.value.narrow))
      else some (literal (some .float64) (.float64 x.value))
  | .int =>
    let (digits, suffix) := Numeral.splitSuffix cs
    match Numeral.natural 64 digits with
    | .error _ => none
    | .ok n => some (ofNatural (suffix.contains 'u') (suffix.contains 'l') n)

/-- A formula, and the complaints about the expression that it was made from. -/
abbrev Converted := Formula × List (Nat × FormulaComplaint)

/-- What stands for an expression that has no formula. -/
def refused (offset : Nat) (c : FormulaComplaint) : Converted := (missing, [(offset, c)])

/-- The formula for an operator before an operand. -/
def ofUnary (offset : Nat) (op : Operator) (x : Converted) : Converted :=
  match op with
  | .add => x
  | .sub | .not | .xor => (unary op x.1, x.2)
  | op => (x.1, x.2 ++ [(offset, .badOperator op)])

mutual

/-- The formula of an expression. -/
def ofExpr : Code.Expr → Converted
  | .paren _ x => ofExpr x
  | .ident i =>
    match placeholderIndex? i.name with
    | some n => (.arg n, [])
    | none => refused i.offset (.undefined i.name)
  | .number offset kind text =>
    match ofNumber? kind text with
    | some n => (n, [])
    | none => refused offset (.badNumber text)
  | .unary offset op x => ofUnary offset op (ofExpr x)
  | .binary x _ op y =>
    let (x, cs) := ofExpr x
    let (y, ds) := ofExpr y
    (binary op x y, cs ++ ds)
  | .call fn _ args =>
    let (xs, cs) := ofExprs args
    (.call fn.name xs, cs)
  | .select x field =>
    let (x, cs) := ofExpr x
    match fieldIndex? field.name with
    | some i => (.get i x, cs)
    | none => (x, cs ++ [(field.offset, .unknownField field.name)])
  | .cond c x y => refused c.offset (.unsupported (Code.Expr.cond c x y).form)
  | .cast offset t x => refused offset (.unsupported (Code.Expr.cast offset t x).form)
  | .vectorLit offset t xs => refused offset (.unsupported (Code.Expr.vectorLit offset t xs).form)
  | .structLit offset t xs => refused offset (.unsupported (Code.Expr.structLit offset t xs).form)
  | .index x o i => refused x.offset (.unsupported (Code.Expr.index x o i).form)

def ofExprs : List Code.Expr → List Formula × List (Nat × FormulaComplaint)
  | [] => ([], [])
  | x :: xs =>
    let (f, cs) := ofExpr x
    let (fs, ds) := ofExprs xs
    (f :: fs, cs ++ ds)

end

/-- Reads a formula from its source. -/
def parse (source : String) : Except (List Diagnostic) Formula :=
  let stream := TokenStream.ofText "expr" (.ofString source)
  match Code.Expr.ofStream stream with
  | .error ds => .error ds
  | .ok x =>
    match ofExpr x with
    | (f, []) => .ok f
    | (_, cs) => .error (cs.map fun (offset, c) => stream.map.complain offset c.message)

end Formula
end KernelForge
