/-
Integer literals from the host to the device.

An integer of the host is written as a literal of its type: with a suffix, in brackets when it is
negative, and as a cast when its type is narrow.  The device reads the literal as a value of this
type that holds this integer.

It scans, parses and checks the text by rules of its own, and agrees with the host on all integers
but two.  The device gives digits the first type that holds them before it looks at the minus in
front, so the smallest `int` is written as the negation of a number that only a `long` holds, and
the smallest `long` as that of one that only an `ulong` holds.
-/
import KernelForge.Host.Literal
import KernelForge.Program.Build
import KernelForge.Program.Eval
import KernelForge.Program.Expr
import KernelForge.Proofs.Code.Reading
import KernelForge.Proofs.Numeral.Reals
import KernelForge.Proofs.Program.Fits
import KernelForge.Proofs.Token.Streams
import KernelForge.Proofs.Ty.Spelling

namespace KernelForge

namespace Literal

/-! ### Literals of the host -/

/-- The scalar type of an integer of the host. -/
def intScalar : IntWidth → Int64 → Scalar
  | .native, i => if fitsInt i then .int else .long
  | .w8, _ => .char
  | .w16, _ => .short
  | .w32, _ => .int
  | .w64, _ => .long

/-- The scalar type of an unsigned integer of the host. -/
def uintScalar : IntWidth → UInt64 → Scalar
  | .native, u => if fitsUInt u then .uint else .ulong
  | .w8, _ => .uchar
  | .w16, _ => .ushort
  | .w32, _ => .uint
  | .w64, _ => .ulong

/-- The type and the value of an integer literal. -/
def integer? : Option HostTy → HostValue → Option (Scalar × Int)
  | some (.int w), .int i => some (intScalar w i, wrapSigned (intScalar w i) i.toInt)
  | some (.uint w), .uint u => some (uintScalar w u, wrapUnsigned (uintScalar w u) u.toNat)
  | _, _ => none

/-- The smallest integers of the two wide signed types have no literal of these types: their digits
are a number of a wider type. -/
def isSmallest (s : Scalar) (i : Int) : Bool :=
  s = .int && i = -0x80000000 || s = .long && i = -0x8000000000000000

theorem integer_wrapSigned {s : Scalar} (hs : s = .char ∨ s = .short ∨ s = .int ∨ s = .long)
    (i : Int) : integer s (wrapSigned s i) = integer s i := by
  have hwrap : wrapSigned s (wrapSigned s i) = wrapSigned s i := Int.bmod_bmod ..
  rcases hs with rfl | rfl | rfl | rfl <;> simp only [integer, hwrap]

theorem integer_wrapUnsigned {s : Scalar}
    (hs : s = .uchar ∨ s = .ushort ∨ s = .uint ∨ s = .ulong) (i : Int) :
    integer s (wrapUnsigned s i) = integer s i := by
  have hwrap : wrapUnsigned s (wrapUnsigned s i) = wrapUnsigned s i := Int.emod_emod_of_dvd _ (by simp)
  rcases hs with rfl | rfl | rfl | rfl <;> simp only [integer, hwrap]

theorem intScalar_signed (w : IntWidth) (i : Int64) :
    intScalar w i = .char ∨ intScalar w i = .short ∨ intScalar w i = .int ∨ intScalar w i = .long := by
  cases w <;> simp [intScalar]

theorem uintScalar_unsigned (w : IntWidth) (u : UInt64) :
    uintScalar w u = .uchar ∨ uintScalar w u = .ushort ∨ uintScalar w u = .uint ∨
      uintScalar w u = .ulong := by
  cases w <;> simp [uintScalar]

/-- An integer literal is the text of its value. -/
theorem ofHost_of_integer? {type : Option HostTy} {value : HostValue} {s : Scalar} {i : Int}
    (h : integer? type value = some (s, i)) : ofHost type value = .ok (.scalar s, integer s i) := by
  unfold integer? at h
  split at h
  · rename_i w i
    cases h
    rw [integer_wrapSigned (intScalar_signed w i)]
    cases w with
    | native =>
      by_cases hfits : fitsInt i = true
      · simp [ofHost, HostTy.kernelTyOf, HostTy.kernelTy, format, scalar, intScalar, hfits, ofInt]
      · simp [ofHost, HostTy.kernelTyOf, HostTy.kernelTy, format, scalar, intScalar, hfits, ofInt]
    | _ => simp [ofHost, HostTy.kernelTyOf, HostTy.kernelTy, format, scalar, intScalar, ofInt]
  · rename_i w u
    cases h
    rw [integer_wrapUnsigned (uintScalar_unsigned w u)]
    cases w with
    | native =>
      by_cases hfits : fitsUInt u = true
      · simp [ofHost, HostTy.kernelTyOf, HostTy.kernelTy, format, scalar, uintScalar, hfits, ofUInt]
      · simp [ofHost, HostTy.kernelTyOf, HostTy.kernelTy, format, scalar, uintScalar, hfits, ofUInt]
    | _ => simp [ofHost, HostTy.kernelTyOf, HostTy.kernelTy, format, scalar, uintScalar, ofUInt]
  · cases h

/-- An integer of the range of an integer type. -/
structure Sized (s : Scalar) (i : Int) : Prop where
  integer : s.isInteger = true
  signed : s.isSigned = true → -(2 ^ (8 * s.size - 1)) ≤ i ∧ i < 2 ^ (8 * s.size - 1)
  unsigned : s.isSigned = false → 0 ≤ i ∧ i < 2 ^ (8 * s.size)

theorem sized_int_iff {i : Int} : Sized .int i ↔ -2 ^ 31 ≤ i ∧ i < 2 ^ 31 :=
  ⟨fun h => h.signed rfl, fun h => ⟨rfl, fun _ => h, nofun⟩⟩

theorem sized_long_iff {i : Int} : Sized .long i ↔ -2 ^ 63 ≤ i ∧ i < 2 ^ 63 :=
  ⟨fun h => h.signed rfl, fun h => ⟨rfl, fun _ => h, nofun⟩⟩

theorem sized_ulong_iff {i : Int} : Sized .ulong i ↔ 0 ≤ i ∧ i < 2 ^ 64 :=
  ⟨fun h => h.unsigned rfl, fun h => ⟨rfl, nofun, fun _ => h⟩⟩

theorem sized_wrapSigned {s : Scalar} (hs : s = .char ∨ s = .short ∨ s = .int ∨ s = .long) (i : Int) :
    Sized s (wrapSigned s i) := by
  have hlow : -((Nat.pow 256 s.size : Nat) / 2 : Int) ≤ wrapSigned s i :=
    Int.le_bmod (Nat.pow_pos (by decide))
  have hhigh : wrapSigned s i < ((Nat.pow 256 s.size : Nat) + 1 : Int) / 2 :=
    Int.bmod_lt (Nat.pow_pos (by decide))
  rcases hs with rfl | rfl | rfl | rfl <;>
    exact ⟨rfl, fun _ => by simp [Scalar.size] at hlow hhigh ⊢; omega, by intros; contradiction⟩

theorem sized_wrapUnsigned {s : Scalar}
    (hs : s = .uchar ∨ s = .ushort ∨ s = .uint ∨ s = .ulong) (i : Int) :
    Sized s (wrapUnsigned s i) := by
  have hpos : (0 : Int) < (Nat.pow 256 s.size : Nat) := Int.natCast_pos.mpr (Nat.pow_pos (by decide))
  have hlow : 0 ≤ wrapUnsigned s i := Int.emod_nonneg _ (Int.ne_of_gt hpos)
  have hhigh : wrapUnsigned s i < (Nat.pow 256 s.size : Nat) := Int.emod_lt_of_pos _ hpos
  rcases hs with rfl | rfl | rfl | rfl <;>
    exact ⟨rfl, by intros; contradiction, fun _ => by simp [Scalar.size] at hhigh ⊢; omega⟩

theorem sized_of_integer? {type : Option HostTy} {value : HostValue} {s : Scalar} {i : Int}
    (h : integer? type value = some (s, i)) : Sized s i := by
  unfold integer? at h
  split at h
  · rename_i w j
    obtain ⟨hs, rfl⟩ := Prod.mk.inj (Option.some.inj h)
    subst hs
    exact sized_wrapSigned (intScalar_signed w j) j.toInt
  · rename_i w j
    obtain ⟨hs, rfl⟩ := Prod.mk.inj (Option.some.inj h)
    subst hs
    exact sized_wrapUnsigned (uintScalar_unsigned w j) j.toNat
  · cases h

/-! ### Texts -/

/-- The text of an integer with a suffix. -/
def numberText (suffix : String) (i : Int) : String :=
  if i < 0 then "(-" ++ (toString i.natAbs ++ suffix) ++ ")" else toString i.natAbs ++ suffix

theorem parenthesize_negative (text : String) : parenthesize ("-" ++ text) = "(-" ++ text ++ ")" := by
  rw [parenthesize, if_pos]
  · apply String.toList_inj.mp
    simp
  · rw [String.startsWith_string_iff, String.toList_append]
    exact List.prefix_append _ _

theorem parenthesize_digit {text : String} {c : Char} {cs : List Char} (hc : c.isDigit = true)
    (htext : text.toList = c :: cs) : parenthesize text = text := by
  rw [parenthesize, if_neg]
  rw [Bool.not_eq_true, String.startsWith_string_eq_false_iff, htext]
  rintro ⟨rest, hrest⟩
  cases hrest
  cases hc

theorem parenthesize_number (n : Nat) (text : String) :
    parenthesize (toString n ++ text) = toString n ++ text := by
  obtain ⟨c, cs, hcs⟩ := List.exists_cons_of_ne_nil (Names.toString_ne_nil n)
  have hdigit := Names.isDigit_toString (i := n) c (hcs ▸ List.mem_cons_self)
  have htext : (toString n ++ text).toList = c :: (cs ++ text.toList) := by
    rw [String.toList_append, hcs, List.cons_append]
  exact parenthesize_digit hdigit htext

theorem toString_nonneg {i : Int} (h : 0 ≤ i) : toString i = toString i.natAbs := by
  cases i with
  | ofNat n => rfl
  | negSucc n => cases h

theorem toString_neg {i : Int} (h : i < 0) : toString i = "-" ++ toString i.natAbs := by
  cases i with
  | ofNat n => exact absurd h (Int.not_lt.mpr (Int.natCast_nonneg n))
  | negSucc n => rfl

theorem parenthesize_toString (i : Int) (suffix : String) :
    parenthesize (toString i ++ suffix) = numberText suffix i := by
  unfold numberText
  split
  · rename_i h
    rw [toString_neg h, String.append_assoc, parenthesize_negative]
  · rename_i h
    rw [toString_nonneg (Int.not_lt.mp h), parenthesize_number]

theorem Sized.wrapSigned_eq {s : Scalar} {i : Int} (h : Sized s i) (hs : s.isSigned = true) :
    wrapSigned s i = i := by
  obtain ⟨hlow, hhigh⟩ := h.signed hs
  apply Int.bmod_eq_of_le <;> cases s <;> simp [Scalar.size, Scalar.isSigned] at hs hlow hhigh ⊢ <;>
    omega

theorem Sized.wrapUnsigned_eq {s : Scalar} {i : Int} (h : Sized s i) (hs : s.isSigned = false) :
    wrapUnsigned s i = i := by
  obtain ⟨hlow, hhigh⟩ := h.unsigned hs
  refine Int.emod_eq_of_lt hlow ?_
  have hpow : ((Nat.pow 256 s.size : Nat) : Int) = 2 ^ (8 * s.size) := by cases s <;> rfl
  rw [hpow]
  exact hhigh

theorem Sized.integer_eq {s : Scalar} {i : Int} (h : Sized s i) :
    Literal.integer s i =
      if s.isNarrow then "(" ++ s.name ++ ")" ++ numberText "" i else numberText (suffix s) i := by
  have hnarrow : ∀ i : Int, parenthesize (toString i) = numberText "" i := by
    intro i
    rw [← parenthesize_toString, String.append_empty]
  have hunsigned : s.isSigned = false → ∀ suffix, toString i ++ suffix = numberText suffix i := by
    intro hs suffix
    have hnonneg := (h.unsigned hs).1
    rw [numberText, if_neg (Int.not_lt.mpr hnonneg), toString_nonneg hnonneg]
  cases s with
  | char | short =>
    rw [Literal.integer, narrow, h.wrapSigned_eq rfl, hnarrow]
    rfl
  | uchar | ushort =>
    rw [Literal.integer, narrow, h.wrapUnsigned_eq rfl, hnarrow]
    rfl
  | int | long => rw [Literal.integer, h.wrapSigned_eq rfl, parenthesize_toString]; rfl
  | uint | ulong => rw [Literal.integer, h.wrapUnsigned_eq rfl, hunsigned rfl]; rfl
  | bool | float | double => cases h.integer

/-! ### Tokens -/

section Tokens

open Token

/-- The tokens of an integer with a suffix. -/
def numberTokens (suffix : String) (i : Int) : List Token :=
  if i < 0 then [.op .lparen, .op .sub, .int (toString i.natAbs ++ suffix), .op .rparen]
  else [.int (toString i.natAbs ++ suffix)]

/-- The tokens of a literal. -/
def tokens (s : Scalar) (i : Int) : List Token :=
  if s.isNarrow then .op .lparen :: .name s.name :: .op .rparen :: numberTokens "" i
  else numberTokens (suffix s) i

theorem scans_digits {suffix : String} (hsuffix : suffix.toList ∈ suffixes) (n : Nat)
    {rest : List Char} {us : List Token} (hend : Ends isNumberTail rest) (h : Scans rest us) :
    Scans ((toString n ++ suffix).toList ++ rest) (.int (toString n ++ suffix) :: us) := by
  have hscan := h.number (Numeral.isNumeral_toString n) hsuffix hend
  rw [← String.toList_append, String.ofList_toList] at hscan
  exact hscan

theorem startsOperand_digits (n : Nat) (cs : List Char) :
    ((toString n).toList ++ cs).head?.any startsOperand = true := by
  obtain ⟨c, ds, hds⟩ := List.exists_cons_of_ne_nil (Names.toString_ne_nil n)
  have hdigit := Names.isDigit_toString (i := n) c (hds ▸ List.mem_cons_self)
  rw [hds, List.cons_append, List.head?_cons, Option.any_some, startsOperand, hdigit, Bool.or_true,
    Bool.true_or]

theorem isNumberTail_rparen : isNumberTail ')' = false :=
  isNumberTail_of_mark (by simp) (by decide) (by decide)

theorem scans_signed (negative : Prop) [Decidable negative] {text : String} {t : Token}
    (hstart : ∀ cs, (text.toList ++ cs).head?.any Token.startsOperand = true)
    (ht : ∀ {rest : List Char} {us : List Token}, Ends isNumberTail rest → Scans rest us →
      Scans (text.toList ++ rest) (t :: us))
    {rest : List Char} {us : List Token} (hend : Ends isNumberTail rest) (h : Scans rest us) :
    Scans ((if negative then "(-" ++ text ++ ")" else text).toList ++ rest)
      ((if negative then [.op .lparen, .op .sub, t, .op .rparen] else [t]) ++ us) := by
  split
  · have h := h.mark (c := ')') (o := .rparen) rfl (by decide)
    have h := ht (.cons isNumberTail_rparen rest) h
    have h := h.before (o := .sub) rfl (by decide) (hstart _)
    have h := h.mark (c := '(') (o := .lparen) rfl (by decide)
    simpa [Operator.spelling] using h
  · exact ht hend h

theorem scans_number {suffix : String} (hsuffix : suffix.toList ∈ suffixes) (i : Int)
    {rest : List Char} {us : List Token} (hend : Ends isNumberTail rest) (h : Scans rest us) :
    Scans ((numberText suffix i).toList ++ rest) (numberTokens suffix i ++ us) := by
  refine scans_signed (i < 0) (fun cs => ?_) (fun hend h => scans_digits hsuffix i.natAbs hend h) hend h
  rw [String.toList_append, List.append_assoc]
  exact startsOperand_digits ..

theorem suffix_mem (s : Scalar) (hs : s.isInteger = true) : (suffix s).toList ∈ suffixes := by
  cases s <;> first | decide | cases hs

/-- **The tokens of a literal are read from its text.** -/
theorem Sized.scans {s : Scalar} {i : Int} (hi : Sized s i) {rest : List Char} {us : List Token}
    (hend : Ends isNumberTail rest) (h : Scans rest us) :
    Scans ((Literal.integer s i).toList ++ rest) (tokens s i ++ us) := by
  rw [hi.integer_eq]
  unfold tokens
  split
  · have h := @scans_number "" (by decide) i _ _ hend h
    have h := h.mark (c := ')') (o := .rparen) rfl (by decide)
    have h := h.spelled (Ty.isWord_name (t := .scalar s) rfl) (Ty.word_name (t := .scalar s) rfl)
      (.cons (by decide) _)
    have h := h.mark (c := '(') (o := .lparen) rfl (by decide)
    simpa [Ty.name] using h
  · exact scans_number (suffix_mem s hi.integer) i hend h

theorem Sized.startsOperand {s : Scalar} {i : Int} (hi : Sized s i) (cs : List Char) :
    ((Literal.integer s i).toList ++ cs).head?.any startsOperand = true := by
  rw [hi.integer_eq]
  unfold numberText
  split
  · simp [Token.startsOperand]
  · split
    · simp [Token.startsOperand]
    · rw [String.toList_append, List.append_assoc]
      exact startsOperand_digits ..

end Tokens

/-! ### Trees -/

section Trees

open Code Code.Scope

/-- The tree of an integer with a suffix. -/
def NumberTree (suffix : String) (i : Int) (e : Expr) : Prop :=
  if i < 0 then ∃ o₁ o₂ o₃, e = .paren o₁ (.unary o₂ .sub (.number o₃ .int (toString i.natAbs ++ suffix)))
  else ∃ o, e = .number o .int (toString i.natAbs ++ suffix)

/-- The tree of a literal. -/
def Tree (s : Scalar) (i : Int) (e : Expr) : Prop :=
  if s.isNarrow then ∃ o spec x, e = .cast o spec x ∧ Says [] s.name false spec ∧ NumberTree "" i x
  else NumberTree (suffix s) i e

variable {scope : Code.Scope} {us : List Token}

theorem reads_signed (negative : Prop) [Decidable negative] {t : Token} {kind : NumberKind} {text : String}
    (ht : ∀ us : List Token, us.head? ≠ some (.op .lbrack) → us.head? ≠ some (.op .period) →
      Reads scope.unary (t :: us) us fun e => ∃ o, e = .number o kind text)
    (hbrack : us.head? ≠ some (.op .lbrack)) (hperiod : us.head? ≠ some (.op .period)) :
    Reads scope.unary ((if negative then [.op .lparen, .op .sub, t, .op .rparen] else [t]) ++ us) us fun e =>
      if negative then ∃ o₁ o₂ o₃, e = .paren o₁ (.unary o₂ .sub (.number o₃ kind text))
      else ∃ o, e = .number o kind text := by
  split
  · have hnumber := ht (.op .rparen :: us) (by simp) (by simp)
    have hneg := reads_expr_of_unary (reads_unary (t := .op .sub) rfl hnumber) (.cons (by decide) us)
    refine (reads_plain rfl (fun _ => rfl) (reads_paren hneg) hbrack hperiod).mono ?_
    rintro _ ⟨o₁, _, rfl, o₂, _, rfl, o₃, rfl⟩
    exact ⟨o₁, o₂, o₃, rfl⟩
  · exact ht us hbrack hperiod

theorem reads_digits {text : String} (hbrack : us.head? ≠ some (.op .lbrack))
    (hperiod : us.head? ≠ some (.op .period)) :
    Reads scope.unary (.int text :: us) us fun e => ∃ o, e = .number o .int text :=
  reads_plain rfl (by simp) reads_number hbrack hperiod

theorem reads_numberTree (suffix : String) (i : Int) (hbrack : us.head? ≠ some (.op .lbrack))
    (hperiod : us.head? ≠ some (.op .period)) :
    Reads scope.unary (numberTokens suffix i ++ us) us (NumberTree suffix i) :=
  reads_signed (i < 0) (fun _ => reads_digits) hbrack hperiod

/-- **A literal is read as its tree.** -/
theorem reads_tree (s : Scalar) (i : Int) (hbrack : us.head? ≠ some (.op .lbrack))
    (hperiod : us.head? ≠ some (.op .period)) :
    Reads scope.unary (tokens s i ++ us) us (Tree s i) := by
  unfold tokens Tree
  split
  · have hword : IsTypeWord scope s.name := Ty.isTypeWord_name (t := .scalar s) rfl (.inl rfl)
    have hvector : ∀ spec, Says [] s.name false spec → isVector spec = false := by
      intro spec hspec
      have hparse := Ty.parse?_name (t := .scalar s) rfl
      rw [isVector, hspec.name]
      rw [Ty.name] at hparse
      rw [hparse]
    obtain ⟨t, ts, hts, hbrace⟩ : ∃ t ts, numberTokens "" i ++ us = t :: ts ∧ t ≠ .op .lbrace := by
      unfold numberTokens
      split
      · exact ⟨_, _, rfl, by simp⟩
      · exact ⟨_, _, rfl, by simp⟩
    have hnumber := @reads_numberTree scope us "" i hbrack hperiod
    have hspec := @reads_typeSpec scope (.op .rparen :: (numberTokens "" i ++ us)) [] s.name (by simp) hword
      (by rintro t ⟨⟩; rfl) (by simp)
    rw [hts] at hnumber hspec
    rw [List.cons_append, List.cons_append, List.cons_append, hts]
    exact reads_cast (typeAhead_word hword _) hspec hbrace (fun _ => hvector) hnumber
  · exact reads_numberTree _ i hbrack hperiod

end Trees

/-! ### Values -/

section Values

/-- The constant of a scalar type with its own registers. -/
def wideConstant (s : Scalar) (n : Nat) : Constant := ⟨s, s.register, s.register.ofInt n⟩

theorem ofNatural_suffix {s : Scalar} (hs : s.isInteger = true) (hwide : s.isNarrow = false) {n : Nat}
    (hsigned : s.isSigned = true → n < 2 ^ (8 * s.size - 1))
    (hunsigned : s.isSigned = false → n < 2 ^ (8 * s.size)) :
    Constant.ofNatural ((suffix s).toList.contains 'u') ((suffix s).toList.contains 'l') true n =
      wideConstant s n := by
  cases s with
  | int =>
    have hn : n < 0x80000000 := hsigned rfl
    simp [Constant.ofNatural, suffix, hn]
    rfl
  | uint =>
    have hn : n < 0x100000000 := hunsigned rfl
    simp [Constant.ofNatural, suffix, hn]
    rfl
  | long =>
    have hn : n < 0x8000000000000000 := hsigned rfl
    simp [Constant.ofNatural, suffix, hn]
    rfl
  | ulong =>
    simp [Constant.ofNatural, suffix]
    rfl
  | char | short | uchar | ushort => cases hwide
  | bool | float | double => cases hs

variable {env : Env} {e : Code.Expr}

theorem check_number {s : Scalar} (hs : s.isInteger = true) (hwide : s.isNarrow = false) {n : Nat}
    (hsigned : s.isSigned = true → n < 2 ^ (8 * s.size - 1))
    (hunsigned : s.isSigned = false → n < 2 ^ (8 * s.size)) (o : Nat) :
    env.checkExpr (.number o .int (toString n ++ suffix s)) = .ok (.ofConstant (wideConstant s n)) := by
  have hn : n < 2 ^ 64 := by
    cases hsign : s.isSigned with
    | true => exact Nat.lt_of_lt_of_le (hsigned hsign) (by cases s <;> decide)
    | false => exact Nat.lt_of_lt_of_le (hunsigned hsign) (by cases s <;> decide)
  have htext : toString n ++ suffix s =
      String.ofList ((toString n).toList ++ (suffix s).toList) := by
    rw [← String.toList_append, String.ofList_toList]
  rw [Env.checkExpr, htext, Numeral.ofText_toString hn (suffix_mem s hs),
    ofNatural_suffix hs hwide hsigned hunsigned]

/-- A checked expression of a scalar type that holds an integer. -/
structure Holds (s : Scalar) (i : Int) (x : Checked) : Prop where
  type : x.type = .scalar s
  value : ∀ call f, x.term.eval call f = Exec.pure (Value.ofInt s.register i)

theorem holds_wideConstant (s : Scalar) (n : Nat) : Holds s n (.ofConstant (wideConstant s n)) where
  type := rfl
  value := fun _ _ => by rw [Checked.ofConstant, Term.eval]; rfl

/-- The negation of a number in registers of its own. -/
theorem holds_negated {s : Scalar} (hs : s = .int ∨ s = .long ∨ s = .ulong) (n o : Nat) :
    ∃ x, (Checked.ofConstant (wideConstant s n)).unary o .sub = .ok x ∧ Holds s (-n) x := by
  rcases hs with rfl | rfl | rfl
  · refine ⟨_, rfl, rfl, fun call f => ?_⟩
    rw [Term.eval, Checked.ofConstant, Term.eval]
    show Exec.pure (Value.lanes .int32 (.atom (-BitVec.ofInt 32 n))) = _
    rw [← BitVec.ofInt_neg]
    rfl
  · refine ⟨_, rfl, rfl, fun call f => ?_⟩
    rw [Term.eval, Checked.ofConstant, Term.eval]
    show Exec.pure (Value.lanes .int64 (.atom (-BitVec.ofInt 64 n))) = _
    rw [← BitVec.ofInt_neg]
    rfl
  · refine ⟨_, rfl, rfl, fun call f => ?_⟩
    rw [Term.eval, Checked.ofConstant, Term.eval]
    show Exec.pure (Value.lanes .uint64 (.atom (-BitVec.ofInt 64 n))) = _
    rw [← BitVec.ofInt_neg]
    rfl

theorem check_numberTree {s : Scalar} (hs : s.isInteger = true) (hwide : s.isNarrow = false) {i : Int}
    (hsigned : s.isSigned = true → i.natAbs < 2 ^ (8 * s.size - 1))
    (hunsigned : s.isSigned = false → 0 ≤ i ∧ i.natAbs < 2 ^ (8 * s.size))
    (he : NumberTree (suffix s) i e) : ∃ x, env.checkExpr e = .ok x ∧ Holds s i x := by
  have hnumber : ∀ o, env.checkExpr _ = _ :=
    fun o => check_number hs hwide hsigned (fun h => (hunsigned h).2) o
  unfold NumberTree at he
  split at he
  · rename_i hneg
    obtain ⟨o₁, o₂, o₃, rfl⟩ := he
    have hint : s = .int ∨ s = .long ∨ s = .ulong := by
      cases s with
      | int => exact .inl rfl
      | long => exact .inr (.inl rfl)
      | uint | ulong => exact absurd (hunsigned rfl).1 (Int.not_le.mpr hneg)
      | char | short | uchar | ushort => cases hwide
      | bool | float | double => cases hs
    obtain ⟨x, hx, hholds⟩ := holds_negated hint i.natAbs o₂
    have hi : -(i.natAbs : Int) = i := by omega
    rw [hi] at hholds
    refine ⟨x, ?_, hholds⟩
    rw [Env.checkExpr, Env.checkExpr, hnumber]
    exact hx
  · rename_i hneg
    obtain ⟨o, rfl⟩ := he
    have hi : (i.natAbs : Int) = i := by omega
    have hholds := holds_wideConstant s i.natAbs
    rw [hi] at hholds
    exact ⟨_, hnumber o, hholds⟩

theorem signExtend_narrow {bits : Nat} (hbits : bits = 8 ∨ bits = 16) {i : Int}
    (hlow : -(2 ^ (bits - 1)) ≤ i) (hhigh : i < 2 ^ (bits - 1)) :
    ((BitVec.ofInt 32 i).truncate bits).signExtend 32 = BitVec.ofInt 32 i := by
  apply BitVec.eq_of_toInt_eq
  rcases hbits with rfl | rfl
  all_goals
    rw [BitVec.toInt_signExtend_of_le (by decide), BitVec.truncate_eq_setWidth, BitVec.toInt_setWidth,
      BitVec.toNat_ofInt, BitVec.toInt_ofInt]
    simp only [Int.bmod_def]
    omega

theorem setWidth_narrow {bits : Nat} (hbits : bits = 8 ∨ bits = 16) {i : Int} (hlow : 0 ≤ i)
    (hhigh : i < 2 ^ bits) :
    ((BitVec.ofInt 32 i).truncate bits).setWidth 32 = BitVec.ofInt 32 i := by
  apply BitVec.eq_of_toNat_eq
  rcases hbits with rfl | rfl
  all_goals
    rw [BitVec.toNat_setWidth, BitVec.truncate_eq_setWidth, BitVec.toNat_setWidth, BitVec.toNat_ofInt]
    omega

theorem wrap_signed {bits : Nat} (hbits : bits = 8 ∨ bits = 16) {i : Int}
    (hlow : -(2 ^ (bits - 1)) ≤ i) (hhigh : i < 2 ^ (bits - 1)) :
    Lanes.wrap bits (.atom (BitVec.ofInt 32 i) : Lanes .int32) = .ok (.atom (BitVec.ofInt 32 i)) := by
  have hext := signExtend_narrow hbits hlow hhigh
  rcases hbits with rfl | rfl
  · exact congrArg (fun c => Except.ok (Lanes.atom (e := .int32) c)) hext
  · exact congrArg (fun c => Except.ok (Lanes.atom (e := .int32) c)) hext

theorem wrap_unsigned {bits : Nat} (hbits : bits = 8 ∨ bits = 16) {i : Int} (hlow : 0 ≤ i)
    (hhigh : i < 2 ^ bits) :
    Lanes.wrap bits (.atom (BitVec.ofInt 32 i) : Lanes .uint32) = .ok (.atom (BitVec.ofInt 32 i)) := by
  have hext := setWidth_narrow hbits hlow hhigh
  rcases hbits with rfl | rfl
  · exact congrArg (fun c => Except.ok (Lanes.atom (e := .uint32) c)) hext
  · exact congrArg (fun c => Except.ok (Lanes.atom (e := .uint32) c)) hext

theorem Sized.natAbs_narrow {s : Scalar} {i : Int} (h : Sized s i) (hs : s.isNarrow = true) :
    i.natAbs < 2 ^ 31 := by
  have hsigned := h.signed
  have hunsigned := h.unsigned
  cases s with
  | char | short =>
    have hrange := hsigned rfl
    simp only [Scalar.size] at hrange
    omega
  | uchar | ushort =>
    have hrange := hunsigned rfl
    simp only [Scalar.size] at hrange
    omega
  | _ => cases hs

/-- What stands after the minus of a literal is of the type of the literal. -/
theorem Sized.natAbs_signed {s : Scalar} {i : Int} (h : Sized s i) (hplain : isSmallest s i = false)
    (hwide : s.isNarrow = false) (hs : s.isSigned = true) : i.natAbs < 2 ^ (8 * s.size - 1) := by
  obtain ⟨hlow, hhigh⟩ := h.signed hs
  cases s with
  | int =>
    have hne : i ≠ -0x80000000 := by simpa [isSmallest] using hplain
    simp only [Scalar.size] at hlow hhigh ⊢
    omega
  | long =>
    have hne : i ≠ -0x8000000000000000 := by simpa [isSmallest] using hplain
    simp only [Scalar.size] at hlow hhigh ⊢
    omega
  | char | short => cases hwide
  | _ => cases hs

theorem Sized.natAbs_unsigned {s : Scalar} {i : Int} (h : Sized s i) (hs : s.isSigned = false) :
    0 ≤ i ∧ i.natAbs < 2 ^ (8 * s.size) := by
  obtain ⟨hlow, hhigh⟩ := h.unsigned hs
  refine ⟨hlow, ?_⟩
  rw [← Int.ofNat_lt, Int.natAbs_of_nonneg hlow]
  exact_mod_cast hhigh

/-- A narrow integer is not changed by a cast to its type. -/
theorem castTo_narrow {s : Scalar} {i : Int} (h : Sized s i) (hs : s.isNarrow = true) :
    Value.castTo s (.atom (BitVec.ofInt 32 i) : Lanes .int32) = .ok (.atom (s.register.ofInt i)) := by
  have hsmall := h.natAbs_narrow hs
  have hint : (BitVec.ofInt 32 i).toInt = i := by
    rw [BitVec.toInt_ofInt]
    simp only [Int.bmod_def]
    omega
  have hcast : ∀ e : Elem, (.atom (BitVec.ofInt 32 i) : Lanes .int32).cast e = .atom (e.ofInt i) := by
    intro e
    exact congrArg (fun c => Lanes.atom (e.ofInt c)) hint
  rw [Value.castTo, hcast]
  cases s with
  | char => exact wrap_signed (.inl rfl) (h.signed rfl).1 (h.signed rfl).2
  | short => exact wrap_signed (.inr rfl) (h.signed rfl).1 (h.signed rfl).2
  | uchar => exact wrap_unsigned (.inl rfl) (h.unsigned rfl).1 (h.unsigned rfl).2
  | ushort => exact wrap_unsigned (.inr rfl) (h.unsigned rfl).1 (h.unsigned rfl).2
  | _ => cases hs

/-- **A literal is read as the value of its type that holds the integer.** -/
theorem Sized.check {s : Scalar} {i : Int} (h : Sized s i) (hplain : isSmallest s i = false)
    (he : Tree s i e)
    (hresolve : ∀ spec, Code.Scope.Says [] s.name false spec → env.resolve spec = .ok (.scalar s)) :
    ∃ x, env.checkExpr e = .ok x ∧ Holds s i x := by
  unfold Tree at he
  split at he
  · rename_i hs
    obtain ⟨o, spec, y, rfl, hspec, hy⟩ := he
    obtain ⟨x, hx, hholds⟩ :=
      @check_numberTree env y .int rfl rfl i (fun _ => h.natAbs_narrow hs) nofun hy
    have hne : ¬ Ty.scalar .int = .scalar s := by
      rintro ⟨⟩
      cases hs
    refine ⟨{ type := .scalar s, term := .cast s x.term }, ?_, rfl, fun call f => ?_⟩
    · rw [Env.checkExpr, hresolve spec hspec, hx]
      show x.castTo o (.scalar s) = _
      simp only [Checked.castTo, Checked.convert, hholds.type, NamedTy.isScalar, NamedTy.ty, hne,
        if_true, if_false]
    · have hcast : (Value.ofInt (Scalar.register .int) i).cast s =
          Exec.pure (Value.ofInt s.register i) := by
        show (Exec.ofLanes (Value.castTo s (.atom (BitVec.ofInt 32 i) : Lanes .int32)) >>= _) = _
        rw [castTo_narrow h hs]
        rfl
      rw [Term.eval, hholds.value]
      exact hcast
  · rename_i hs
    have hwide : s.isNarrow = false := by simpa using hs
    exact check_numberTree h.integer hwide (h.natAbs_signed hplain hwide) h.natAbs_unsigned he

end Values

end Literal

end KernelForge

namespace KernelForge.Literal

/-! ### To the device and back -/

open Token

/-- The integer in the range of an integer type that an integer is congruent to. -/
def residue (s : Scalar) (i : Int) : Int :=
  if s.isSigned then Int.bmod i (2 ^ (8 * s.size)) else i % 2 ^ (8 * s.size)

/-- A text is an expression of a type whose value is an integer. -/
def Compiles (env : Env) (text : String) (s : Scalar) (i : Int) : Prop :=
  ∃ e x, Code.Expr.parse Program.fileName (SourceText.ofChars text.toList) = .ok e ∧
    env.checkExpr e = .ok x ∧ Holds s i x

/-- The type that the device gives the smallest integer of a wide signed type. -/
def beyond : Scalar → Scalar
  | .int => .long
  | .long => .ulong
  | s => s

theorem beyond_ne {s : Scalar} {i : Int} (h : isSmallest s i = true) : beyond s ≠ s := by
  simp only [isSmallest, Bool.or_eq_true, Bool.and_eq_true, decide_eq_true_eq] at h
  rcases h with ⟨rfl, -⟩ | ⟨rfl, -⟩ <;> decide

/-! ### Writing -/

theorem signed_cases {s : Scalar} (hs : s.isInteger = true) (hsigned : s.isSigned = true) :
    s = .char ∨ s = .short ∨ s = .int ∨ s = .long := by
  cases s <;> simp [Scalar.isInteger, Scalar.isSigned] at *

theorem unsigned_cases {s : Scalar} (hs : s.isInteger = true) (hsigned : s.isSigned = false) :
    s = .uchar ∨ s = .ushort ∨ s = .uint ∨ s = .ulong := by
  cases s <;> simp [Scalar.isInteger, Scalar.isSigned] at *

theorem integer_residue {s : Scalar} (hs : s.isInteger = true) (i : Int) :
    Sized s (residue s i) ∧ integer s i = integer s (residue s i) := by
  have hpow : Nat.pow 256 s.size = 2 ^ (8 * s.size) := by cases s <;> rfl
  cases hsigned : s.isSigned with
  | true =>
    have hcases := signed_cases hs hsigned
    have hwrap : residue s i = wrapSigned s i := by
      rw [residue, if_pos hsigned, wrapSigned, hpow]
    rw [hwrap]
    exact ⟨sized_wrapSigned hcases i, (integer_wrapSigned hcases i).symm⟩
  | false =>
    have hcases := unsigned_cases hs hsigned
    have hwrap : residue s i = wrapUnsigned s i := by
      rw [residue, if_neg (by simp [hsigned]), wrapUnsigned, hpow]
      norm_cast
    rw [hwrap]
    exact ⟨sized_wrapUnsigned hcases i, (integer_wrapUnsigned hcases i).symm⟩

/-! ### Reading -/

variable {env : Env} {s : Scalar} {i : Int}

theorem parse_integer (h : Sized s i) :
    ∃ e, Code.Expr.parse Program.fileName (SourceText.ofChars (integer s i).toList) = .ok e ∧
      Tree s i e := by
  have hscans : Scans (integer s i).toList (tokens s i) := by
    simpa using h.scans Ends.nil Scans.nil
  obtain ⟨htokens, hpragmas, hnone⟩ := TokenStream.ofText_of_scans hscans Program.fileName
  have htree := @reads_tree
    { finish := (TokenStream.ofText Program.fileName (SourceText.ofChars (integer s i).toList)).finish }
    [] s i (by simp) (by simp)
  rw [List.append_nil] at htree
  obtain ⟨e, he, htree⟩ := Code.Scope.onlyExpr_of_unary htree htokens
  refine ⟨e, ?_, htree⟩
  simp [Code.Expr.parse, Code.Expr.ofStream, hpragmas, hnone, he]

theorem resolve_scalar (hs : s.isInteger = true) (henv : env.structs.lookup s.name = none)
    {spec : Code.TypeSpec} (hspec : Code.Scope.Says [] s.name false spec) :
    env.resolve spec = .ok (.scalar s) := by
  have hname : env.typeNamed? spec.name = some (.scalar s) := by
    rw [hspec.name, Env.typeNamed?, henv]
    cases s <;> rfl
  have hdouble : (NamedTy.scalar s).ty.usesDouble = false := by
    cases s <;> first | rfl | cases hs
  simp [Env.resolve, hname, hdouble, hspec.pointer]

/-- Digits that no smaller type holds are a number of the type that does. -/
theorem check_digits {n : Nat} {suffix : String} (hn : n < 2 ^ 64)
    (hsuffix : suffix.toList ∈ suffixes) {s : Scalar}
    (hs : Constant.ofNatural (suffix.toList.contains 'u') (suffix.toList.contains 'l') true n =
      wideConstant s n) (o : Nat) :
    env.checkExpr (.number o .int (toString n ++ suffix)) = .ok (.ofConstant (wideConstant s n)) := by
  have htext : toString n ++ suffix = String.ofList ((toString n).toList ++ suffix.toList) := by
    rw [← String.toList_append, String.ofList_toList]
  rw [Env.checkExpr, htext, Numeral.ofText_toString hn hsuffix, hs]

/-- The smallest integer of a wide signed type is read as an integer of the next type. -/
theorem check_smallest (hi : isSmallest s i = true) {e : Code.Expr} (he : Tree s i e) :
    ∃ x, env.checkExpr e = .ok x ∧ Holds (beyond s) (residue (beyond s) i) x := by
  simp only [isSmallest, Bool.or_eq_true, Bool.and_eq_true, decide_eq_true_eq] at hi
  rcases hi with ⟨rfl, rfl⟩ | ⟨rfl, rfl⟩
  · obtain ⟨o₁, o₂, o₃, rfl⟩ := he
    obtain ⟨x, hx, hholds⟩ := @holds_negated .long (.inr (.inl rfl)) 0x80000000 o₂
    refine ⟨x, ?_, hholds⟩
    rw [Env.checkExpr, Env.checkExpr,
      check_digits (s := .long) (by decide) (by decide) (by rfl)]
    exact hx
  · obtain ⟨o₁, o₂, o₃, rfl⟩ := he
    obtain ⟨x, hx, hholds⟩ := @holds_negated .ulong (.inr (.inr rfl)) 0x8000000000000000 o₂
    refine ⟨x, ?_, hholds.type, fun call f => ?_⟩
    · rw [Env.checkExpr, Env.checkExpr,
        check_digits (s := .ulong) (by decide) (by decide) (by rfl)]
      exact hx
    · rw [hholds.value]
      rfl

/-- What the device makes of a literal. -/
theorem compiles_integer (hs : s.isInteger = true) (henv : env.structs.lookup s.name = none) (i : Int) :
    (Compiles env (integer s i) s (residue s i) ↔ isSmallest s (residue s i) = false) ∧
      (isSmallest s (residue s i) = true →
        Compiles env (integer s i) (beyond s) (residue (beyond s) (residue s i))) := by
  obtain ⟨hsized, htext⟩ := integer_residue hs i
  obtain ⟨e, hparse, htree⟩ := parse_integer hsized
  rw [← htext] at hparse
  have hsmallest : isSmallest s (residue s i) = true →
      ∃ x, env.checkExpr e = .ok x ∧ Holds (beyond s) (residue (beyond s) (residue s i)) x :=
    fun h => check_smallest h htree
  refine ⟨⟨fun hcompiles => ?_, fun hplain => ?_⟩, fun h => ?_⟩
  · -- The other type is not the type of the literal.
    refine Bool.eq_false_iff.mpr fun h => ?_
    obtain ⟨e', x, hparse', hx, hholds⟩ := hcompiles
    obtain ⟨y, hy, hholds'⟩ := hsmallest h
    cases hparse.symm.trans hparse'
    cases hx.symm.trans hy
    exact beyond_ne h (NamedTy.scalar.inj (hholds'.type.symm.trans hholds.type))
  · obtain ⟨x, hx, hholds⟩ := hsized.check hplain htree fun spec hspec => resolve_scalar hs henv hspec
    exact ⟨e, x, hparse, hx, hholds⟩
  · obtain ⟨x, hx, hholds⟩ := hsmallest h
    exact ⟨e, x, hparse, hx, hholds⟩

/-- **A literal is read as the integer that it was written for, except the smallest integers of
`int` and `long`, which are read as integers of the next type.** -/
theorem literal_round_trip_iff (s : Scalar) (hs : s.isInteger = true) (env : Env)
    (henv : env.structs.lookup s.name = none) :
    (∀ i : Int64,
      (Compiles env (ofInt s i) s (residue s i.toInt) ↔ isSmallest s (residue s i.toInt) = false) ∧
        (isSmallest s (residue s i.toInt) = true →
          Compiles env (ofInt s i) (beyond s) (residue (beyond s) (residue s i.toInt)))) ∧
    (∀ u : UInt64,
      (Compiles env (ofUInt s u) s (residue s u.toNat) ↔ isSmallest s (residue s u.toNat) = false) ∧
        (isSmallest s (residue s u.toNat) = true →
          Compiles env (ofUInt s u) (beyond s) (residue (beyond s) (residue s u.toNat)))) :=
  ⟨fun i => compiles_integer hs henv i.toInt, fun u => compiles_integer hs henv u.toNat⟩

/-- The smallest `int` is not read as one, but as a `long`. -/
theorem smallest_int_not_round_trip :
    ofInt .int (-0x80000000) = "(-2147483648)" ∧
      ¬ Compiles {} "(-2147483648)" .int (-0x80000000) ∧
      Compiles {} "(-2147483648)" .long (-0x80000000) := by
  have htext : ofInt .int (-0x80000000) = "(-2147483648)" := by
    show parenthesize (toString (-0x80000000 : Int) ++ "") = _
    rw [parenthesize_toString]
    rfl
  have h := (literal_round_trip_iff .int rfl {} rfl).1 (-0x80000000)
  rw [htext] at h
  have hsmallest : isSmallest .int (residue .int (-0x80000000 : Int64).toInt) = true := by decide
  refine ⟨htext, fun hcompiles => ?_, h.2 hsmallest⟩
  rw [h.1.mp hcompiles] at hsmallest
  cases hsmallest

end KernelForge.Literal
