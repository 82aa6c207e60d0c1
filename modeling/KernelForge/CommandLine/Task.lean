/-
What the command does with a sequence of numbers.

A task names an algorithm and gives its input as text.  It is done in a context of its own,
which is closed at the end.
-/
import KernelForge.CommandLine.Settings
import KernelForge.Formula.Parse
import KernelForge.Host.Printed
import KernelForge.Sequence.Algorithm
import KernelForge.Ty.Basic

namespace KernelForge.CommandLine

open Machine

/-- The algorithms that the command knows. -/
def algorithms : List String := ["transform", "find_if", "lower_bound", "min_element", "max_element"]

/-- An algorithm with its input. -/
structure Task where
  algorithm : String
  /-- The numbers, which commas divide. -/
  input : String
  /-- The name of the type of the numbers. -/
  elem : String
  /-- The formula for each number. -/
  formula : String
  /-- The number that is looked for. -/
  value : String
deriving DecidableEq, Repr, Inhabited

/-! ### Numbers as text -/

/-- Reads a number of a host type; what the type cannot hold is cut off. -/
def readNumber (h : HostTy) (text : String) : Except Fault HostValue :=
  let cs := Text.trimBlanks text.toList
  let refuse := fun (reader : String) (e : NumeralFailure) =>
    Except.error (Fault.plain (NumeralError.message ⟨reader, String.ofList cs, e⟩))
  let real := fun (make : Binary64 → HostValue) =>
    match Numeral.real cs with
    | .error e => refuse "ParseFloat" e
    | .ok x => if x.overflow then refuse "ParseFloat" .outOfRange else .ok (make x.value)
  match h with
  | .float32 => real fun x => .float32 x.narrow
  | .float64 => real .float64
  | .uint w =>
    match Numeral.natural 64 cs with
    | .error e => refuse "ParseUint" e
    | .ok n => .ok (.uint (UInt64.ofNat (n % Nat.pow 2 w.bits)))
  | h =>
    let bits := match h with
      | .int w => w.bits
      | _ => 64
    match Numeral.integer 64 cs with
    | .error e => refuse "ParseInt" e
    | .ok i => .ok (.int (Int64.ofInt (Int.bmod i (Nat.pow 2 bits))))

/-- The parts of a text between commas. -/
def commaParts (text : String) : List String :=
  (text.toList.splitOn ',').map String.ofList

/-- Reads the numbers of a list. -/
def readNumbers (h : HostTy) (text : String) : Except Fault (List HostValue) :=
  if (Text.trimBlanks text.toList).isEmpty then
    .error (.plain "no input: use --input to set a comma separated list of values")
  else
    (commaParts text).mapM fun part =>
      match readNumber h part with
      | .ok v => .ok v
      | .error f => .error (.within ("invalid input " ++ Text.quoted part) f)

/-- The type of numbers with a given name. -/
def elemType (name : String) : Except Fault Scalar :=
  let refuse := Except.error (Fault.plain ("unsupported element type " ++ Text.quoted name ++
    ": use char, uchar, short, ushort, int, uint, long, ulong, float or double"))
  match Scalar.parse? name with
  | none => refuse
  | some s => if s.isBool then refuse else .ok s

/-- Numbers as they are printed. -/
def listText (h : HostTy) (vs : List HostValue) : String :=
  "[" ++ " ".intercalate (vs.map fun v => v.printed h) ++ "]"

/-- A position as it is printed; the one after the last number is called the end. -/
def positionText (v : TypedBuffer) (c : Cursor) : Act String := do
  let i ← Act.ofExcept ((Cursor.element v 0).distance c)
  return if i = v.length then s!"end ({i})" else toString i

/-! ### Tasks -/

/-- The formula of a text; its faults are those of its source. -/
def formulaOf (text : String) : Except Fault Formula :=
  match Formula.parse text with
  | .ok f => .ok f
  | .error ds => .error (.plain (Diagnostic.log ds))

namespace Task

/-- Does a task with the numbers in a buffer. -/
def onBuffer (t : Task) (ctx q : Nat) (o : CompileOptions) (h : HostTy) (v : TypedBuffer) :
    Act String := do
  let first := Cursor.element v 0
  let last := Cursor.element v v.length
  match t.algorithm with
  | "transform" =>
    let f ← Act.ofExcept (formulaOf t.formula)
    let out ← makeVector ctx h v.length
    releasing out do
      let _ ← Sequence.runTransform first last (.element out 0) f q o
      return listText h (← readSlice q h out 0 out.length)
  | "find_if" =>
    let f ← Act.ofExcept (formulaOf t.formula)
    positionText v (← Sequence.runFindIf first last f q o)
  | "lower_bound" =>
    let x ← Act.within ("invalid value " ++ Text.quoted t.value)
      (Act.ofExcept (readNumber h t.value))
    positionText v (← Sequence.runLowerBound first last (.literal (some h) x) q o)
  | "min_element" => positionText v (← Sequence.runExtremum first last .less q o)
  | _ => positionText v (← Sequence.runExtremum first last .greater q o)

/-- Does a task in a context. -/
def inContext (t : Task) (ctx q : Nat) (o : CompileOptions) : Act String := do
  let s ← Act.ofExcept (elemType t.elem)
  let h := HostTy.ofScalar s
  let vs ← Act.ofExcept (readNumbers h t.input)
  let v ← newVector ctx q h vs
  releasing v (t.onBuffer ctx q o h v)

/-- Does a task with given settings; programs are kept in the stores of the machine, if it has
any. -/
def run (t : Task) (s : Settings) : Act String := do
  let ctx ← newContext ""
  let q ← newQueue ctx
  let store? := if (← get).stores.isEmpty then none else some 0
  let cache ← newCache ctx (some s.cacheCapacity) store?
  let o : CompileOptions := { options := s.buildOptions, cache? := some cache }
  let result : Except Fault String ←
    tryCatch (do return .ok (← t.inContext ctx q o)) fun f => return .error f
  let closed : Option Fault ←
    tryCatch (do closeContext ctx; return none) fun f => return some f
  match result, closed with
  | .ok text, none => return text
  | .ok _, some f => throw f
  | .error f, _ => throw f

end Task
end KernelForge.CommandLine
