/-
Formulas: computations captured as trees.

A formula is written over placeholders, which stand for the arguments that it will be applied
to.  It is never computed on the host: its type is found from the types of the arguments, and
it is turned into kernel source.  A formula may call helper functions, whose bodies are
formulas over their own parameters; each helper has a number, by which it is told from others
of the same name.
-/
import KernelForge.Host.Literal
import KernelForge.Host.Printed
import KernelForge.Operator

namespace KernelForge

mutual

/-- A computation over placeholders. -/
inductive Formula where
  /-- No formula at all. -/
  | missing
  /-- A value of the host, none standing for the value without a type. -/
  | literal (type : Option HostTy) (value : HostValue)
  /-- The argument with a given index, counted from zero. -/
  | arg (index : Int)
  /-- A unary operation; `xor` is the complement. -/
  | unary (op : Operator) (x : Formula)
  | binary (op : Operator) (x y : Formula)
  /-- A call of a mathematical function. -/
  | call (name : String) (args : List Formula)
  /-- A call of a helper function. -/
  | apply (fn : HelperFn) (args : List Formula)
  /-- A helper function called with the placeholders. -/
  | helper (fn : HelperFn)
  /-- A lane of a vector or a field of a tuple. -/
  | get (index : Int) (x : Formula)
  /-- An assignment; its value is that of what was assigned to. -/
  | set (lhs rhs : Formula)

/-- A function that kernels define before they call it. -/
inductive HelperFn where
  | mk (id : Nat) (name : String) (body : Formula) (params : List Ty) (result : Ty)

end

instance : Inhabited Formula := ⟨.missing⟩
instance : Inhabited HelperFn := ⟨.mk 0 "" .missing [] .void⟩

namespace HelperFn

def id : HelperFn → Nat
  | mk id _ _ _ _ => id

def name : HelperFn → String
  | mk _ name _ _ _ => name

def body : HelperFn → Formula
  | mk _ _ body _ _ => body

def params : HelperFn → List Ty
  | mk _ _ _ params _ => params

def result : HelperFn → Ty
  | mk _ _ _ _ result => result

end HelperFn

namespace Formula

/-- The first `n` placeholders. -/
def placeholders (n : Nat) : List Formula := (List.range n).map fun (i : Nat) => arg i

/-- The sign of a unary operator. -/
def unarySign (op : Operator) : String := if op = .xor then "~" else op.spelling

/-- A literal as it is printed. -/
def literalText (type : Option HostTy) (value : HostValue) : String :=
  match Literal.ofHost type value with
  | .ok (_, src) => src
  | .error _ =>
    match type with
    | some h => "<invalid literal " ++ value.printed h ++ ">"
    | none => "<invalid literal <nil>>"

/-- A placeholder as it is printed; they count from one. -/
def argText (index : Int) : String := "_" ++ toString (index + 1)

mutual

/-- A formula as it is printed. -/
def text : Formula → String
  | missing => "%!s(<nil>)"
  | literal type value => literalText type value
  | arg index => argText index
  | unary op x => unarySign op ++ x.text
  | binary op x y => "(" ++ x.text ++ " " ++ op.spelling ++ " " ++ y.text ++ ")"
  | call name args => name ++ "(" ++ ", ".intercalate (texts args) ++ ")"
  | apply fn args => fn.name ++ "(" ++ ", ".intercalate (texts args) ++ ")"
  | helper fn => fn.name
  | get index x => "get<" ++ toString index ++ ">(" ++ x.text ++ ")"
  | set lhs rhs => lhs.text ++ " = " ++ rhs.text

def texts : List Formula → List String
  | [] => []
  | x :: xs => x.text :: texts xs

end

instance : ToString Formula := ⟨text⟩

/-- Tests whether a formula names a place that could be assigned to. -/
def isPlace : Formula → Bool
  | arg _ => true
  | get _ x => x.isPlace
  | _ => false

end Formula
end KernelForge
