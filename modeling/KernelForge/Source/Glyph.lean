/-
Source text as it came: characters, and bytes that belong to none.

A source is a string of bytes.  Read from the left, the bytes are taken together into
characters as far as they spell them in UTF-8; a byte that neither is a character nor starts
one stands for itself.  Nothing is lost by this, so offsets count bytes and the bytes of a
source can be given back.
-/
import KernelForge.Text.Quoted

namespace KernelForge

/-- A character, or a byte that belongs to none. -/
inductive Glyph where
  | char (c : Char)
  | stray (b : UInt8)
deriving DecidableEq, Repr, Inhabited

namespace Glyph

/-- The number of bytes. -/
def size : Glyph → Nat
  | char c => c.utf8Size
  | stray _ => 1

def bytes : Glyph → List UInt8
  | char c => String.utf8EncodeChar c
  | stray b => [b]

@[simp] theorem length_bytes (g : Glyph) : g.bytes.length = g.size := by
  cases g with
  | char c => exact String.length_utf8EncodeChar c
  | stray b => rfl

/-- What stands for a byte that belongs to no character. -/
def replacement : Char := '\ufffd'

/-- The character that is seen. -/
def shown : Glyph → Char
  | char c => c
  | stray _ => replacement

/-- Tests a character; nothing is true of a byte that belongs to none. -/
def sat (p : Char → Bool) : Glyph → Bool
  | char c => p c
  | stray _ => false

/-- A glyph inside double quotes. -/
def escaped : Glyph → List Char
  | char c => Text.escape '"' c
  | stray b => '\\' :: 'x' :: Text.hexDigits 2 b.toNat

end Glyph

/-- A source. -/
abbrev SourceText := List Glyph

namespace SourceText

def ofChars (cs : List Char) : SourceText := cs.map .char

def ofString (s : String) : SourceText := ofChars s.toList

/-- The number of bytes. -/
def size : SourceText → Nat
  | [] => 0
  | g :: gs => g.size + size gs

def bytes (t : SourceText) : List UInt8 := t.flatMap Glyph.bytes

theorem size_append (s t : SourceText) : size (s ++ t) = size s + size t := by
  induction s with
  | nil => simp [size]
  | cons g gs ih => simp only [List.cons_append, size, ih]; omega

/-- The size of a source counts its bytes. -/
theorem length_bytes (t : SourceText) : (bytes t).length = size t := by
  induction t with
  | nil => rfl
  | cons g gs ih =>
    show (g.bytes ++ bytes gs).length = g.size + size gs
    rw [List.length_append, Glyph.length_bytes, ih]

/-- The text that is seen. -/
def shown (t : SourceText) : String := String.ofList (t.map Glyph.shown)

/-- The characters at the start of a source that a test holds of. -/
def charsWhile (p : Char → Bool) : SourceText → List Char
  | .char c :: gs => if p c then c :: charsWhile p gs else []
  | _ => []

/-- Removes the white space around a source. -/
def trimmed (t : SourceText) : SourceText :=
  let blank := Glyph.sat Text.isBlank
  ((t.dropWhile blank).reverse.dropWhile blank).reverse

/-- A source in double quotes. -/
def quoted (t : SourceText) : String := String.ofList ('"' :: t.flatMap Glyph.escaped ++ ['"'])

/-! ### Bytes -/

/-- What the first byte of a character says: its share of the code, how many bytes follow, and
the least code that needs so many. -/
def leadOf? (b : UInt8) : Option (Nat × Nat × Nat) :=
  let n := b.toNat
  if n < 0x80 then some (n, 0, 0)
  else if n < 0xc0 then none
  else if n < 0xe0 then some (n - 0xc0, 1, 0x80)
  else if n < 0xf0 then some (n - 0xe0, 2, 0x800)
  else if n < 0xf8 then some (n - 0xf0, 3, 0x10000)
  else none

/-- Adds the share of the bytes after the first one to a code. -/
def codeFrom? (code : Nat) : List UInt8 → Option Nat
  | [] => some code
  | b :: bs => if b.toNat / 64 = 2 then codeFrom? (64 * code + b.toNat % 64) bs else none

/-- The character that starts with a byte, and the number of bytes after it. -/
def charAt? (b : UInt8) (rest : List UInt8) : Option (Char × Nat) :=
  match leadOf? b with
  | none => none
  | some (code, more, least) =>
    let tail := rest.take more
    match if tail.length = more then codeFrom? code tail else none with
    | none => none
    | some code => if least ≤ code && code.isValidChar then some (Char.ofNat code, more) else none

/-- The source that some bytes are. -/
def ofBytes (bs : List UInt8) : SourceText :=
  match bs with
  | [] => []
  | b :: rest =>
    match charAt? b rest with
    | some (c, more) => .char c :: ofBytes (rest.drop more)
    | none => .stray b :: ofBytes rest
termination_by bs.length
decreasing_by all_goals simp only [List.length_drop, List.length_cons]; omega

end SourceText
end KernelForge
