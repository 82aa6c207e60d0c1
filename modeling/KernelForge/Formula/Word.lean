/-
Formulas by words.

Every operator that a formula may use has a word, and so has every mathematical function.
-/
import KernelForge.Formula.Basic

namespace KernelForge.Formula

/-- The words of the binary operators. -/
def binaryWords : List (String × Operator) :=
  [("add", .add), ("sub", .sub), ("mul", .mul), ("quo", .quo), ("rem", .rem), ("shl", .shl),
    ("shr", .shr), ("and", .and), ("or", .or), ("xor", .xor), ("land", .land), ("lor", .lor),
    ("eq", .eql), ("ne", .neq), ("lt", .lss), ("le", .leq), ("gt", .gtr), ("ge", .geq)]

/-- The words of the unary operators. -/
def unaryWords : List (String × Operator) := [("neg", .sub), ("not", .not), ("bitnot", .xor)]

/-- What a word makes of some operands.  A word that is no operator calls a function. -/
def ofWord (word : String) (operands : List Formula) : Formula :=
  match binaryWords.lookup word, unaryWords.lookup word, operands with
  | some op, _, [x, y] => binary op x y
  | _, some op, [x] => unary op x
  | _, _, xs => .call word xs

end KernelForge.Formula
