/-
Whole numbers in formulas and in kernel source.

A formula may be written as an expression of the kernel language, and then its whole numbers are read
twice: once for the formula and once, when the expression itself is compiled, by the device.  Both
readers take the same texts for numbers, and both look at the suffix.  The device goes on to a wider
type when the one that the suffix names cannot hold the number; the formula stays with this type and
drops what is too much.  So they agree on a number exactly if the type of its suffix holds it.

The names of fields are read twice as well.  The figures of a name are one number to the formula, in
base sixteen; to the device they are a lane each, or a field that is counted in base ten.
-/
import KernelForge.Formula.Infer
import KernelForge.Formula.Parse
import KernelForge.Proofs.Draft.Closed
import KernelForge.Proofs.Formula.Checking
import KernelForge.Proofs.Host.Literals

namespace KernelForge

/-! ### Texts -/

namespace Numeral

/-- No number is read that is above the limit. -/
theorem le_of_digitsFrom {base limit : Nat} {underscores : Bool} {cs : List Char} {value n : Nat}
    (hvalue : value ≤ limit) (h : digitsFrom base limit underscores value cs = .ok n) : n ≤ limit := by
  fun_induction digitsFrom base limit underscores value cs with
  | case1 value =>
    cases h
    exact hvalue
  | case2 value c cs hskip ih => exact ih hvalue h
  | case3 | case4 | case5 => cases h
  | case6 value c cs hskip d hd hbase hlimit ih => exact ih (Nat.le_of_not_lt hlimit) h

theorem natural_lt {bits : Nat} {cs : List Char} {n : Nat} (h : natural bits cs = .ok n) :
    n < 2 ^ bits := by
  have hpos : 0 < 2 ^ bits := Nat.two_pow_pos bits
  unfold natural at h
  split at h
  · cases h
  · simp only at h
    split at h
    · cases h
    · rename_i m hm
      split at h
      · cases h
      · cases h
        have hle : n ≤ 2 ^ bits - 1 := le_of_digitsFrom (Nat.zero_le _) hm
        omega

end Numeral

namespace Literal

/-- The type that the suffix of a whole number names. -/
def suffixScalar (unsigned long : Bool) : Scalar :=
  match unsigned, long with
  | true, true => .ulong
  | true, false => .uint
  | false, true => .long
  | false, false => .int

/-- The type that a whole number has by its suffix, and the number that its digits spell. -/
def readWhole (text : String) : Except NumeralFailure (Scalar × Nat) :=
  let (digits, suffix) := Numeral.splitSuffix (text.toList.map Char.toLower)
  match Numeral.natural 64 digits with
  | .ok n => .ok (suffixScalar (suffix.contains 'u') (suffix.contains 'l'), n)
  | .error e => .error e

end Literal

/-! ### Formulas -/

namespace Formula

open Literal

/-- The formula is a literal of an integer type with a value. -/
def IsInteger (f : Formula) (s : Scalar) (i : Int) : Prop :=
  ∃ type value, f = literal type value ∧ integer? type value = some (s, i)

theorem IsInteger.unique {f : Formula} {s t : Scalar} {i j : Int} (h : f.IsInteger s i)
    (h' : f.IsInteger t j) : t = s ∧ j = i := by
  obtain ⟨type, value, rfl, hs⟩ := h
  obtain ⟨type', value', heq, ht⟩ := h'
  cases heq
  cases hs.symm.trans ht
  exact ⟨rfl, rfl⟩

/-- A whole number keeps the type of its suffix and drops what this cannot hold. -/
theorem isInteger_ofNatural (unsigned long : Bool) (n : Nat) :
    (ofNatural unsigned long n).IsInteger (suffixScalar unsigned long)
      (residue (suffixScalar unsigned long) n) := by
  cases unsigned with
  | false =>
    cases long with
    | false =>
      have hlow : -(0x100000000 / 2) ≤ Int.bmod n 0x100000000 := Int.le_bmod (by decide)
      have hhigh : Int.bmod n 0x100000000 < (0x100000000 + 1) / 2 := Int.bmod_lt (by decide)
      have hint : (Int64.ofInt (Int.bmod n 0x100000000)).toInt = Int.bmod n 0x100000000 :=
        Int64.toInt_ofInt_of_le (by omega) (by omega)
      exact ⟨_, _, rfl, by simp [integer?, intScalar, suffixScalar, wrapSigned, residue, hint,
        Scalar.isSigned, Scalar.size]⟩
    | true =>
      exact ⟨_, _, rfl, by simp [integer?, intScalar, suffixScalar, wrapSigned, residue,
        Scalar.isSigned, Scalar.size]⟩
  | true =>
    cases long with
    | false =>
      exact ⟨_, _, rfl, by simp [integer?, uintScalar, suffixScalar, wrapUnsigned, residue,
        Scalar.isSigned, Scalar.size]⟩
    | true =>
      exact ⟨_, _, rfl, by simp [integer?, uintScalar, suffixScalar, wrapUnsigned, residue,
        Scalar.isSigned, Scalar.size]⟩

theorem ofExpr_number (offset : Nat) (text : String) :
    (∀ s n, readWhole text = .ok (s, n) →
      (ofExpr (.number offset .int text)).2 = [] ∧
        (ofExpr (.number offset .int text)).1.IsInteger s (residue s n)) ∧
    (∀ e, readWhole text = .error e → (ofExpr (.number offset .int text)).2 ≠ []) := by
  rw [ofExpr]
  simp only [readWhole, ofNumber?]
  cases hnat : Numeral.natural 64 (Numeral.splitSuffix (text.toList.map Char.toLower)).1 with
  | error e => simp [refused]
  | ok n =>
    refine ⟨fun s m h => ?_, by simp⟩
    cases h
    exact ⟨rfl, isInteger_ofNatural _ _ n⟩

end Formula

/-! ### The device -/

namespace Literal

theorem sized_natCast_signed {s : Scalar} (hs : s.isInteger = true) (hsigned : s.isSigned = true)
    (n : Nat) : Sized s n ↔ n < 2 ^ (8 * s.size - 1) := by
  constructor
  · intro h
    exact_mod_cast (h.signed hsigned).2
  · intro h
    have hpos : (0 : Int) < 2 ^ (8 * s.size - 1) := Int.pow_pos (by decide)
    exact ⟨hs, fun _ => ⟨by omega, by exact_mod_cast h⟩, by simp [hsigned]⟩

theorem sized_natCast_unsigned {s : Scalar} (hs : s.isInteger = true) (hsigned : s.isSigned = false)
    (n : Nat) : Sized s n ↔ n < 2 ^ (8 * s.size) := by
  constructor
  · intro h
    exact_mod_cast (h.unsigned hsigned).2
  · intro h
    exact ⟨hs, by simp [hsigned], fun _ => ⟨by omega, by exact_mod_cast h⟩⟩

/-- Nothing is dropped from what a type holds. -/
theorem Sized.residue_eq {s : Scalar} {i : Int} (h : Sized s i) : residue s i = i := by
  have hpow : Nat.pow 256 s.size = 2 ^ (8 * s.size) := by cases s <;> rfl
  cases hsigned : s.isSigned with
  | true =>
    rw [residue, if_pos hsigned, ← hpow]
    exact h.wrapSigned_eq hsigned
  | false =>
    obtain ⟨hlow, hhigh⟩ := h.unsigned hsigned
    rw [residue, if_neg (by simp [hsigned])]
    exact Int.emod_eq_of_lt hlow hhigh

/-- A number that the type of its suffix holds is of this type. -/
theorem ofNatural_of_sized (unsigned long decimal : Bool) {n : Nat}
    (h : Sized (suffixScalar unsigned long) n) :
    Constant.ofNatural unsigned long decimal n = wideConstant (suffixScalar unsigned long) n := by
  cases unsigned with
  | false =>
    cases long with
    | false =>
      have hn : n < 0x80000000 := (sized_natCast_signed rfl rfl n).mp h
      simp [Constant.ofNatural, hn]
      rfl
    | true =>
      have hn : n < 0x8000000000000000 := (sized_natCast_signed rfl rfl n).mp h
      simp [Constant.ofNatural, hn]
      rfl
  | true =>
    cases long with
    | false =>
      have hn : n < 0x100000000 := (sized_natCast_unsigned rfl rfl n).mp h
      simp [Constant.ofNatural, hn]
      rfl
    | true => rfl

/-- A number that the type of its suffix does not hold is of another type. -/
theorem ofNatural_of_not_sized (unsigned long decimal : Bool) {n : Nat} (hn : n < 2 ^ 64)
    (h : ¬ Sized (suffixScalar unsigned long) n) :
    ∃ t, t ≠ suffixScalar unsigned long ∧
      Constant.ofNatural unsigned long decimal n = wideConstant t n := by
  cases unsigned with
  | false =>
    cases long with
    | false =>
      have hint : ¬ n < 0x80000000 := fun hn => h ((sized_natCast_signed rfl rfl n).mpr hn)
      by_cases huint : decimal = false ∧ n < 0x100000000
      · refine ⟨.uint, by decide, ?_⟩
        simp [Constant.ofNatural, hint, huint]
        rfl
      · by_cases hlong : n < 0x8000000000000000
        · refine ⟨.long, by decide, ?_⟩
          simp [Constant.ofNatural, hint, huint, hlong]
          rfl
        · refine ⟨.ulong, by decide, ?_⟩
          simp [Constant.ofNatural, hint, huint, hlong]
          rfl
    | true =>
      have hlong : ¬ n < 0x8000000000000000 := fun hn => h ((sized_natCast_signed rfl rfl n).mpr hn)
      refine ⟨.ulong, by decide, ?_⟩
      simp [Constant.ofNatural, hlong]
      rfl
  | true =>
    cases long with
    | false =>
      have huint : ¬ n < 0x100000000 := fun hn => h ((sized_natCast_unsigned rfl rfl n).mpr hn)
      refine ⟨.ulong, by decide, ?_⟩
      simp [Constant.ofNatural, huint]
      rfl
    | true => exact absurd ((sized_natCast_unsigned (s := .ulong) rfl rfl n).mpr hn) h

/-- A whole number is given the type of its suffix exactly if this holds it, and refused if it is
no number. -/
theorem ofText_whole (fp64 : Bool) (text : String) :
    (∀ s n, readWhole text = .ok (s, n) →
      ∃ t, Constant.ofText fp64 .int text = .ok (wideConstant t n) ∧ (t = s ↔ Sized s n)) ∧
    (∀ e, readWhole text = .error e → ∃ c, Constant.ofText fp64 .int text = .error c) := by
  simp only [readWhole, Constant.ofText]
  generalize Numeral.splitSuffix (text.toList.map Char.toLower) = split
  obtain ⟨digits, suffix⟩ := split
  simp only
  cases hnat : Numeral.natural 64 digits with
  | error e => exact ⟨(fun s n h => by cases h), fun e h => ⟨_, rfl⟩⟩
  | ok n =>
    refine ⟨fun s m h => ?_, (fun e h => by cases h)⟩
    cases h
    by_cases hsized : Sized (suffixScalar (suffix.contains 'u') (suffix.contains 'l')) n
    · exact ⟨_, congrArg Except.ok (ofNatural_of_sized _ _ _ hsized), iff_of_true rfl hsized⟩
    · obtain ⟨t, hne, heq⟩ := ofNatural_of_not_sized _ _ (Constant.isDecimal digits)
        (Numeral.natural_lt hnat) hsized
      exact ⟨t, congrArg Except.ok heq, iff_of_false hne hsized⟩

theorem checkExpr_number (env : Env) (offset : Nat) (text : String) :
    (∀ s n, readWhole text = .ok (s, n) →
      ∃ t x, env.checkExpr (.number offset .int text) = .ok x ∧ Holds t n x ∧ (t = s ↔ Sized s n)) ∧
    (∀ e, readWhole text = .error e → ∃ c, env.checkExpr (.number offset .int text) = .error c) := by
  rw [Env.checkExpr]
  refine ⟨fun s n h => ?_, fun e h => ?_⟩
  · obtain ⟨t, ht, hiff⟩ := (ofText_whole env.fp64 text).1 s n h
    rw [ht]
    exact ⟨t, _, rfl, holds_wideConstant t n, hiff⟩
  · obtain ⟨c, hc⟩ := (ofText_whole env.fp64 text).2 e h
    rw [hc]
    exact ⟨_, rfl⟩

end Literal

/-! ### Both readings -/

namespace Formula

open Literal

/-- A whole number is refused by the formula and by the device, or it has one type and one value
for both. -/
def ReadAlike (env : Env) (offset : Nat) (text : String) : Prop :=
  ((ofExpr (.number offset .int text)).2 ≠ [] ∧
      ∃ c, env.checkExpr (.number offset .int text) = .error c) ∨
    ((ofExpr (.number offset .int text)).2 = [] ∧
      ∃ s i x, (ofExpr (.number offset .int text)).1.IsInteger s i ∧
        env.checkExpr (.number offset .int text) = .ok x ∧ Holds s i x)

/-- **A whole number is read alike by the formula and by the device exactly if it is no number or
the type of its suffix holds it.**  In the formula it has the type of its suffix and drops what is
too much; on the device it keeps its value, and its type is that of the suffix only if this holds
it. -/
theorem readAlike_iff (env : Env) (offset : Nat) (text : String) :
    (ReadAlike env offset text ↔ ∀ s n, readWhole text = .ok (s, n) → Sized s n) ∧
      ∀ s n, readWhole text = .ok (s, n) →
        (ofExpr (.number offset .int text)).2 = [] ∧
          (ofExpr (.number offset .int text)).1.IsInteger s (residue s n) ∧
          ∃ t x, env.checkExpr (.number offset .int text) = .ok x ∧ Holds t n x ∧
            (t = s ↔ Sized s n) := by
  have hformula := ofExpr_number offset text
  have hdevice := checkExpr_number env offset text
  refine ⟨⟨?_, ?_⟩, ?_⟩
  · rintro (⟨-, c, hc⟩ | ⟨-, s', i, x, hinteger, hx, hholds⟩) s n h
    · obtain ⟨t, x, hx, -⟩ := hdevice.1 s n h
      cases hc.symm.trans hx
    · -- The device has one type for the number, and the formula has that of the suffix.
      obtain ⟨rfl, -⟩ := hinteger.unique (hformula.1 s n h).2
      obtain ⟨t, y, hy, hholds', hiff⟩ := hdevice.1 _ n h
      cases hx.symm.trans hy
      exact hiff.mp (NamedTy.scalar.inj (hholds'.type.symm.trans hholds.type))
  · intro hsized
    cases hread : readWhole text with
    | error e => exact .inl ⟨hformula.2 e hread, hdevice.2 e hread⟩
    | ok whole =>
      obtain ⟨s, n⟩ := whole
      obtain ⟨t, x, hx, hholds, hiff⟩ := hdevice.1 s n hread
      have hs : Sized s n := hsized s n hread
      obtain rfl := hiff.mpr hs
      obtain ⟨hnone, hinteger⟩ := hformula.1 t n hread
      rw [hs.residue_eq] at hinteger
      exact .inr ⟨hnone, t, n, x, hinteger, hx, hholds⟩
  · intro s n h
    exact ⟨(hformula.1 s n h).1, (hformula.1 s n h).2, hdevice.1 s n h⟩

/-- Three thousand million is a `long` for the device and a negative `int` in a formula. -/
theorem not_readAlike_beyond_int :
    readWhole "3000000000" = .ok (.int, 3000000000) ∧ ¬ ReadAlike {} 0 "3000000000" ∧
      (ofExpr (.number 0 .int "3000000000")).1.IsInteger .int (-1294967296) := by
  have hread : readWhole "3000000000" = .ok (.int, 3000000000) := by decide +kernel
  have h := readAlike_iff {} 0 "3000000000"
  refine ⟨hread, fun halike => ?_, (h.2 _ _ hread).2.1⟩
  have hsized := h.1.mp halike .int 3000000000 hread
  exact absurd (hsized.signed rfl).2 (by decide)

end Formula

/-! ### Selected fields -/

theorem Component.length_lanesIn {alphabet : List Char} {n : Nat} : ∀ {cs : List Char} {is : List Nat},
    lanesIn alphabet n cs = some is → is.length = cs.length
  | [], is, h => by
    cases h
    rfl
  | c :: cs, is, h => by
    rw [lanesIn] at h
    split at h
    · rename_i i js hi hjs
      split at h
      · cases h
        rw [List.length_cons, List.length_cons, length_lanesIn hjs]
      · cases h
    · cases h

/-- A figure names the lane that it counts. -/
theorem Numeral.findIdx?_figure {c : Char} {d : Nat} (hc : digitValue? c = some d) (hd : d < 16) :
    "0123456789abcdef".toList.findIdx? (· = c.toLower) = some d := by
  have hall : ∀ d < 16, ∀ k < 128, digitValue? (Char.ofNat k) = some d →
      "0123456789abcdef".toList.findIdx? (· = (Char.ofNat k).toLower) = some d := by
    decide +kernel
  have hlt : c.toNat < 128 := by
    unfold digitValue? at hc
    split at hc
    · rename_i h
      simp only [Char.isDigit, Bool.and_eq_true, decide_eq_true_eq] at h
      exact Nat.lt_of_le_of_lt h.2 (by decide)
    · split at hc
      · rename_i h
        simp only [Bool.and_eq_true, decide_eq_true_eq] at h
        exact Nat.lt_of_le_of_lt h.2 (by decide)
      · split at hc
        · rename_i h
          simp only [Bool.and_eq_true, decide_eq_true_eq] at h
          exact Nat.lt_of_le_of_lt h.2 (by decide)
        · cases hc
  have h := hall d hd c.toNat hlt
  rw [Char.ofNat_toNat] at h
  exact h hc

theorem Numeral.hexNatural_lt {bits n : Nat} {cs : List Char} (h : hexNatural bits cs = .ok n) :
    n < 2 ^ bits := by
  unfold hexNatural at h
  split at h
  · cases h
  · have hle : n ≤ 2 ^ bits - 1 := le_of_digitsFrom (Nat.zero_le _) h
    have hpos := Nat.two_pow_pos bits
    omega

theorem Numeral.digitValue?_of_hexNatural {d : Char} {n : Nat} (h : hexNatural 8 [d] = .ok n) :
    digitValue? d = some n ∧ n < 16 := by
  simp only [hexNatural, List.isEmpty_cons, digitsFrom, Bool.false_and, Bool.false_eq_true, if_false,
    Nat.zero_mul, Nat.zero_add] at h
  split at h
  · cases h
  · rename_i v hd
    split at h
    · cases h
    · rename_i hlt
      split at h <;> cases h
      exact ⟨hd, Nat.lt_of_not_le hlt⟩

theorem eq_ok_of_toOption {ε α : Type} {x : Except ε α} {a : α} (h : x.toOption = some a) : x = .ok a := by
  cases x with
  | error e => cases h
  | ok b =>
    cases h
    rfl

namespace Formula

/-- The names of the fields of pairs, and names with at most one figure. -/
def IsShort (field : String) : Prop :=
  field = "first" ∨ field = "second" ∨ field.toList.length ≤ 2

/-- A name that stands for one lane is read as the number of the lane. -/
theorem lanes?_single_iff {n i : Nat} {field : String} {is : List Nat}
    (hindex : fieldIndex? field = some i) (hlanes : Component.lanes? n field = some is) :
    is = [i] ↔ IsShort field := by
  unfold Component.lanes? at hlanes
  split at hlanes
  · cases hindex
  · cases hindex
  · cases hindex
  · cases hindex
  have hpair : ¬ (field = "first" ∨ field = "second") := by
    rintro (rfl | rfl) <;> cases hlanes
  rw [IsShort, ← or_assoc, or_iff_right hpair]
  rw [not_or] at hpair
  unfold fieldIndex? at hindex
  generalize field.toList = cs at hlanes hindex ⊢
  match cs with
  | [] => cases hlanes
  | [c] =>
    refine iff_of_true ?_ (by simp)
    dsimp only at hlanes
    rw [Component.lanesIn] at hlanes
    split at hlanes
    case h_2 => cases hlanes
    rename_i j js hj hjs
    cases hjs
    split at hlanes
    case isFalse => cases hlanes
    cases hlanes
    -- The four letters, in their order.
    split at hindex
    case h_5 c' digits _ _ _ _ htext =>
      obtain ⟨rfl, rfl⟩ := List.cons.inj htext
      rw [if_neg hpair.1, if_neg hpair.2] at hindex
      split at hindex <;> cases hindex
    case h_6 => cases hindex
    all_goals
      rename_i htext
      obtain ⟨rfl, -⟩ := List.cons.inj htext
      cases hj
      cases hindex
      rfl
  | c :: d :: cs =>
    dsimp only at hlanes
    simp only [if_neg hpair.1, if_neg hpair.2] at hindex
    by_cases hs : c = 's'
    · subst hs
      simp only [true_or, if_true, List.map_cons, Char.reduceEq, decide_true, Bool.or_true] at hlanes hindex
      have hlength := Component.length_lanesIn hlanes
      simp only [List.length_cons, List.length_map] at hlength ⊢
      constructor
      · rintro rfl
        rw [List.length_singleton] at hlength
        omega
      · intro hle
        obtain rfl := List.length_eq_zero_iff.mp (show cs.length = 0 by omega)
        obtain ⟨hd, hlt⟩ := Numeral.digitValue?_of_hexNatural (eq_ok_of_toOption hindex)
        simp only [List.map_nil, Component.lanesIn, Numeral.findIdx?_figure hd hlt] at hlanes
        split at hlanes
        · exact (Option.some.inj hlanes).symm
        · cases hlanes
    · by_cases hv : c = 'v'
      · subst hv
        rw [if_neg (by decide), Component.lanesIn] at hlanes
        cases hlanes
      · simp [hs, hv] at hindex

/-- The name of a field is read as its number if that has one figure. -/
theorem index_kept_iff {n i j : Nat} (hj : j < n) (hindex : fieldIndex? (Ty.fieldName n j) = some i) :
    i = j ↔ IsShort (Ty.fieldName n j) := by
  unfold Ty.fieldName at hindex ⊢
  split at hindex
  · rename_i hn
    split at hindex
    · rename_i hzero
      cases hindex
      exact iff_of_true hzero.symm (.inl (by simp [hn, hzero]))
    · rename_i hzero
      cases hindex
      exact iff_of_true (by omega) (.inr (.inl (by simp [hn, hzero])))
  · rename_i hn
    rw [if_neg hn]
    have htext : ("v" ++ toString j).toList = 'v' :: Nat.toDigits 10 j := by simp [Nat.repr]
    have hpair : ¬ ("v" ++ toString j = "first" ∨ "v" ++ toString j = "second") := by
      rintro (h | h) <;> · rw [← String.toList_inj, htext] at h; cases h
    have hread : Numeral.hexNatural 8 (Nat.toDigits 10 j) = .ok i := by
      rw [not_or] at hpair
      unfold fieldIndex? at hindex
      rw [htext] at hindex
      simp only [if_neg hpair.1, if_neg hpair.2] at hindex
      exact eq_ok_of_toOption hindex
    rw [IsShort, ← or_assoc, or_iff_right hpair, htext, List.length_cons,
      Nat.add_le_add_iff_right (n := 1), Nat.length_toDigits_le_iff (by decide) (by decide)]
    constructor
    · rintro rfl
      have hall : ∀ i < 256, Numeral.hexNatural 8 (Nat.toDigits 10 i) = .ok i → i < 10 ^ 1 := by
        decide +kernel
      have hlt : i < 2 ^ 8 := Numeral.hexNatural_lt hread
      exact hall i hlt hread
    · intro hlt
      have hall : ∀ j < 10 ^ 1, Numeral.hexNatural 8 (Nat.toDigits 10 j) = .ok j := by decide +kernel
      exact Except.ok.inj (hread.symm.trans (hall j hlt))

/-- **A selected field is read alike by the formula and by the device exactly if its name has at most
one figure.** -/
theorem selection_kept_iff {x y : Checked} {s t : Ty} (hx : x.type = NamedTy.ofTy s) {field : String}
    {i : Nat} (hindex : fieldIndex? field = some i) (helem : HasElement i s t) (o : Nat)
    (hy : x.select ⟨o, field⟩ = .ok y) :
    x.select ⟨o, elementName i s⟩ = .ok y ↔ IsShort field := by
  unfold Checked.select at hy ⊢
  rw [hx] at hy ⊢
  cases helem with
  | lane hlo hhi =>
    rename_i e w
    have hone := Checked.lanes?_elementName w i (by omega)
    simp only [NamedTy.ofTy, elementName, Int.toNat_natCast, hone] at hy ⊢
    split at hy
    · cases hy
    · rename_i is hlanes
      rw [← lanes?_single_iff hindex hlanes]
      have hterm : y.term = .lanes is x.term := by
        split at hy
        · cases hy
          rfl
        · split at hy <;> cases hy
          rfl
      constructor
      · intro h
        cases h
        injection hterm with h
        exact h.symm
      · rintro rfl
        exact hy
  | field hlo ht =>
    rename_i ts
    have hlt := (List.getElem?_eq_some_iff.mp ht).1
    have hfind : (NamedTy.fieldNames ts.length 0 ts).findIdx? (· = elementName i (.tuple ts)) = some i := by
      have h := @Checked.findIdx?_fieldNames ts.length ts 0 i (by omega) hlt
      rw [Nat.zero_add] at h
      exact h
    rw [NamedTy.ofTy] at hy ⊢
    dsimp only at hy ⊢
    rw [hfind]
    split at hy
    · cases hy
    · rename_i j hj
      obtain ⟨hjn, hname⟩ : j < ts.length ∧ Ty.fieldName ts.length j = field := by
        obtain ⟨hlt', heq, -⟩ := List.findIdx?_eq_some_iff_getElem.mp hj
        rw [NamedTy.fieldNames_eq] at hlt'
        simp only [NamedTy.fieldNames_eq, decide_eq_true_eq, List.getElem_map, List.getElem_range',
          Nat.zero_add, Nat.one_mul] at heq
        exact ⟨by simpa using hlt', heq⟩
      rw [← hname] at hindex ⊢
      rw [← index_kept_iff hjn hindex]
      cases hy
      constructor
      · intro h
        injection h with h
        injection h with _ h
        injection h
      · rintro rfl
        rfl

/-- Seventeen fields, of which the tenth and the sixteenth are told apart by their types. -/
def seventeen : List Ty :=
  List.replicate 10 (.scalar .int) ++ .scalar .float :: List.replicate 5 (.scalar .int) ++ [.scalar .long]

theorem tenth_field_not_kept :
    let x : Checked := { type := NamedTy.ofTy (.tuple seventeen), term := .var 0 }
    fieldIndex? "v10" = some 16 ∧ ∃ y, x.select ⟨0, "v10"⟩ = .ok y ∧ y.type = .scalar .float ∧
      x.select ⟨0, elementName 16 (.tuple seventeen)⟩ ≠ .ok y := by
  intro x
  have hindex : fieldIndex? "v10" = some 16 := by decide +kernel
  refine ⟨hindex, _, rfl, rfl, fun h => ?_⟩
  have hshort := (selection_kept_iff (s := .tuple seventeen) rfl hindex (.field (by decide) rfl) 0 rfl).mp h
  rw [IsShort] at hshort
  exact absurd hshort (by decide)

end Formula
end KernelForge
