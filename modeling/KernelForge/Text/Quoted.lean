/-
Text in quotes, as messages show it.

Printable characters stand for themselves, the quote and the backslash are escaped, the usual
control characters have a letter, and everything else is written by its code.
-/
import KernelForge.Text.Classes

namespace KernelForge.Text

/-- The lowercase hexadecimal digits of a number, at least `width` of them. -/
def hexDigits (width n : Nat) : List Char :=
  let ds := Nat.toDigits 16 n
  List.replicate (width - ds.length) '0' ++ ds

/-- A character inside quotes. -/
def escape (quote c : Char) : List Char :=
  if c = quote || c = '\\' then ['\\', c]
  else if isPrintable c then [c]
  else
    match c.toNat with
    | 7 => ['\\', 'a']
    | 8 => ['\\', 'b']
    | 9 => ['\\', 't']
    | 10 => ['\\', 'n']
    | 11 => ['\\', 'v']
    | 12 => ['\\', 'f']
    | 13 => ['\\', 'r']
    | n =>
      if n < 128 then '\\' :: 'x' :: hexDigits 2 n
      else if n < 0x10000 then '\\' :: 'u' :: hexDigits 4 n
      else '\\' :: 'U' :: hexDigits 8 n

/-- A text in double quotes. -/
def quoted (s : String) : String :=
  String.ofList ('"' :: s.toList.flatMap (escape '"') ++ ['"'])

/-- A character in single quotes. -/
def quotedChar (c : Char) : String :=
  String.ofList ('\'' :: escape '\'' c ++ ['\''])

/-- Tests whether a character may stand between back quotes, where nothing is escaped. -/
def isLiteral (c : Char) : Bool :=
  c = '\t' || (c.toNat ≥ 32 && c.toNat ≠ 96 && c.toNat ≠ 127 && c.toNat ≠ 0xfeff)

/-- A text between back quotes if it can stand there, and else in double quotes. -/
def literallyQuoted (s : String) : String :=
  if s.toList.all isLiteral then "`" ++ s ++ "`" else quoted s

/-- A character by its code, followed by itself when it is printable. -/
def charCode (c : Char) : String :=
  let code := "U+" ++ String.ofList ((hexDigits 4 c.toNat).map Char.toUpper)
  if isPrintable c then code ++ " '" ++ String.ofList [c] ++ "'" else code

end KernelForge.Text
