/-
Bytes as text.

Hexadecimal digits are lower case, and the most significant one comes first.  In base sixty-four,
four characters spell three bytes.  The last group may spell fewer, and is then filled up with
signs of equality; the bits that are left over in it do not matter.  Line ends may stand anywhere.
-/

namespace KernelForge.Text

/-! ### Hexadecimal digits -/

/-- A number in `width` hexadecimal digits. -/
def hexOfNat (width n : Nat) : String :=
  String.ofList ((List.range width).reverse.map fun i => Nat.digitChar (n / Nat.pow 16 i % 16))

/-- The number that a hexadecimal digit stands for. -/
def hexDigitValue (c : Char) : Nat := if c.isDigit then c.toNat - 48 else c.toNat - 87

/-- The number that hexadecimal digits spell. -/
def natOfHex (s : String) : Nat := s.toList.foldl (fun n c => 16 * n + hexDigitValue c) 0

/-- Bytes in two digits each. -/
def hexOfBytes (bs : List UInt8) : String := String.join (bs.map fun b => hexOfNat 2 b.toNat)

/-- The bytes that pairs of digits spell. -/
def bytesOfHex : List Char → List UInt8
  | a :: b :: r => UInt8.ofNat (16 * hexDigitValue a + hexDigitValue b) :: bytesOfHex r
  | _ => []

/-! ### Base sixty-four -/

namespace Base64

/-- The value of a digit. -/
def digit? (c : Char) : Option Nat :=
  if 'A' ≤ c && c ≤ 'Z' then some (c.toNat - 'A'.toNat)
  else if 'a' ≤ c && c ≤ 'z' then some (c.toNat - 'a'.toNat + 26)
  else if c.isDigit then some (c.toNat - '0'.toNat + 52)
  else if c = '+' then some 62
  else if c = '/' then some 63
  else none

/-- The first `count` bytes of a number of three. -/
def leading (count n : Nat) : List UInt8 :=
  [UInt8.ofNat (n / 65536), UInt8.ofNat (n / 256), UInt8.ofNat n].take count

/-- The number that some digits spell. -/
def number? (cs : List Char) : Option Nat :=
  cs.foldl (fun n c => do return 64 * (← n) + (← digit? c)) (some 0)

/-- The bytes that groups of four characters spell. -/
def groups? : List Char → Option (List UInt8)
  | [] => some []
  | [a, b, '=', '='] => (number? [a, b, 'A', 'A']).map (leading 1)
  | [a, b, c, '='] => (number? [a, b, c, 'A']).map (leading 2)
  | a :: b :: c :: d :: rest => do return leading 3 (← number? [a, b, c, d]) ++ (← groups? rest)
  | _ => none

/-- The bytes that a text spells. -/
def decode? (s : String) : Option (List UInt8) :=
  groups? (s.toList.filter fun c => c ≠ '\n' && c ≠ '\r')

end Base64
end KernelForge.Text
