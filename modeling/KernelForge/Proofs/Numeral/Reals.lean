/-
Numbers are read as what their figures say.

An integer that is written in base ten is read back: its digits have no leading zero, so nothing in
them announces another base.  The value of a number with a fraction and an exponent is its digits,
scaled by a power of ten.  The device reads it as the double precision number nearest to this value.
-/
import KernelForge.Program.Constant
import KernelForge.Proofs.Binary.Exact
import KernelForge.Proofs.Names
import KernelForge.Proofs.Token.Reals
import Mathlib.Algebra.Order.Ring.Nat
import Mathlib.Data.List.TakeWhile

namespace KernelForge.Numeral

open Token (IsNumeral)

/-! ### Digits -/

theorem head?_toDigits {n : Nat} (h : 0 < n) : (Nat.toDigits 10 n).head? ≠ some '0' := by
  induction n using Nat.base_induction 10 (by decide) with
  | single m hm =>
    rw [Nat.toDigits_of_lt_base hm]
    revert h
    revert m
    decide
  | digit m k hk hm ih =>
    rw [← Nat.toDigits_append_toDigits (by decide) hm hk]
    obtain ⟨c, cs, hcs⟩ := List.exists_cons_of_ne_nil (Nat.toDigits_ne_nil (n := m) (b := 10))
    rw [hcs] at ih ⊢
    exact ih hm

/-- The digits of a number are a numeral. -/
theorem isNumeral_toString (n : Nat) : IsNumeral (toString n).toList := by
  refine ⟨Names.isDigit_toString, Names.toString_ne_nil n, fun hzero => ?_⟩
  rw [Nat.toString_eq_repr, Nat.toList_repr] at hzero ⊢
  rcases Nat.eq_zero_or_pos n with rfl | hpos
  · rfl
  · exact absurd hzero (head?_toDigits hpos)

theorem digitValue?_of_isDigit {c : Char} (h : c.isDigit = true) :
    digitValue? c = some (c.toNat - '0'.toNat) ∧ c.toNat - '0'.toNat < 10 := by
  obtain ⟨hlow, hhigh⟩ := Token.isDigit_toNat h
  refine ⟨by rw [digitValue?, if_pos h], ?_⟩
  show c.toNat - 48 < 10
  omega

theorem le_ofDigitChars (cs : List Char) (value : Nat) : value ≤ Nat.ofDigitChars 10 cs value := by
  rw [Nat.ofDigitChars_eq_ofDigitChars_zero]
  have hpow : 1 ≤ 10 ^ cs.length := Nat.one_le_pow _ _ (by decide)
  calc value = 1 * value := (Nat.one_mul value).symm
    _ ≤ 10 ^ cs.length * value := Nat.mul_le_mul_right value hpow
    _ ≤ _ := Nat.le_add_right _ _

/-- Digits are read one after another. -/
theorem digitsFrom_digits {cs : List Char} (hcs : ∀ c ∈ cs, c.isDigit = true) {limit value : Nat}
    (h : Nat.ofDigitChars 10 cs value ≤ limit) :
    digitsFrom 10 limit true value cs = .ok (Nat.ofDigitChars 10 cs value) := by
  induction cs generalizing value with
  | nil => rfl
  | cons c cs ih =>
    have hc := hcs c List.mem_cons_self
    obtain ⟨hvalue, hlt⟩ := digitValue?_of_isDigit hc
    have hmul : value * 10 + (c.toNat - '0'.toNat) = 10 * value + (c.toNat - '0'.toNat) := by omega
    rw [Nat.ofDigitChars_cons] at h ⊢
    have hle := Nat.le_trans (le_ofDigitChars cs _) h
    have hunderscore : (true && decide (c = '_')) = false := by
      simpa using Token.isDigit_ne_underscore hc
    rw [digitsFrom, hunderscore, hvalue]
    simp only [Bool.false_eq_true, if_false]
    rw [if_neg (by omega), hmul, if_neg (by omega)]
    exact ih (fun d hd => hcs d (List.mem_cons_of_mem _ hd)) h

/-- **A number is read back from its digits.** -/
theorem natural_toString {n : Nat} (h : n < 2 ^ 64) : natural 64 (toString n).toList = .ok n := by
  have hnumeral := isNumeral_toString n
  have hunderscore : (toString n).toList.contains '_' = false := by
    rw [Bool.eq_false_iff]
    intro hmem
    exact Token.isDigit_ne_underscore (hnumeral.digits _ (List.contains_iff_mem.mp hmem)) rfl
  have hvalue : Nat.ofDigitChars 10 (toString n).toList 0 = n := by
    rw [Nat.toString_eq_repr, Nat.toList_repr, Nat.ofDigitChars_ten_toDigits]
  obtain ⟨c, cs, hcs⟩ := List.exists_cons_of_ne_nil hnumeral.ne_nil
  rcases Nat.eq_zero_or_pos n with rfl | hpos
  · rfl
  · have hc : c ≠ '0' := by
      rintro rfl
      apply head?_toDigits hpos
      rw [← Nat.toList_repr, ← Nat.toString_eq_repr, hcs]
      rfl
    have hbase : baseOf (c :: cs) = (10, c :: cs) := by
      unfold baseOf
      split
      · rename_i heq
        cases heq
        exact absurd rfl hc
      · rename_i heq
        cases heq
        exact absurd rfl hc
      · rfl
    rw [hcs] at hunderscore hvalue hnumeral
    have hdigits := @digitsFrom_digits _ hnumeral.digits (Nat.pow 2 64 - 1) 0
      (by rw [hvalue]; exact Nat.le_sub_one_of_lt h)
    rw [hcs, natural, hbase]
    simp only [List.isEmpty_cons, Bool.false_eq_true, if_false, hdigits, hvalue, hunderscore,
      Bool.false_and]

/-! ### Constants -/

theorem toLower_of_isDigit {c : Char} (h : c.isDigit = true) : c.toLower = c := by
  obtain ⟨hlow, hhigh⟩ := Token.isDigit_toNat h
  have hval : c.val.toNat = c.toNat := rfl
  delta Char.toLower
  rw [dif_neg]
  rw [ge_iff_le, UInt32.le_iff_toNat_le]
  show ¬ (65 ≤ _ ∧ _)
  omega

/-- The suffix of a number is told from its digits. -/
theorem splitSuffix_append {ds suffix : List Char} (hds : ∀ c ∈ ds, c.isDigit = true)
    (hsuffix : suffix ∈ Token.suffixes) : splitSuffix (ds ++ suffix) = (ds, suffix) := by
  have hletters : ∀ c ∈ suffix.reverse, (decide (c = 'u') || decide (c = 'l')) = true := by
    have hall : ∀ s ∈ Token.suffixes,
        (s.reverse.all fun c => decide (c = 'u') || decide (c = 'l')) = true := by decide
    exact List.all_eq_true.mp (hall suffix hsuffix)
  have hdigits : ∀ c ∈ ds.reverse, (decide (c = 'u') || decide (c = 'l')) = false := by
    intro c hc
    have hdigit := hds c (List.mem_reverse.mp hc)
    rw [Bool.or_eq_false_iff, decide_eq_false_iff_not, decide_eq_false_iff_not]
    constructor
    · rintro rfl
      cases hdigit
    · rintro rfl
      cases hdigit
  have hstop : ds.reverse.takeWhile (fun c => decide (c = 'u') || decide (c = 'l')) = [] ∧
      ds.reverse.dropWhile (fun c => decide (c = 'u') || decide (c = 'l')) = ds.reverse := by
    cases hrev : ds.reverse with
    | nil => exact ⟨rfl, rfl⟩
    | cons c cs =>
      have hc := hdigits c (hrev ▸ List.mem_cons_self)
      simp [hc]
  rw [splitSuffix, List.reverse_append, List.dropWhile_append_of_pos hletters,
    List.takeWhile_append_of_pos hletters, hstop.1, hstop.2]
  simp

/-- **A number with a suffix is read as the constant that it says.** -/
theorem ofText_toString {n : Nat} (h : n < 2 ^ 64) {suffix : List Char}
    (hsuffix : suffix ∈ Token.suffixes) (fp64 : Bool) :
    Constant.ofText fp64 .int (String.ofList ((toString n).toList ++ suffix)) =
      .ok (.ofNatural (suffix.contains 'u') (suffix.contains 'l') true n) := by
  have hnumeral := isNumeral_toString n
  have hlower : ((toString n).toList ++ suffix).map Char.toLower = (toString n).toList ++ suffix := by
    have hsmall : suffix.map Char.toLower = suffix := by
      revert suffix
      decide
    rw [List.map_append, hsmall]
    congr 1
    conv => rhs; rw [← List.map_id (toString n).toList]
    exact List.map_congr_left fun c hc => toLower_of_isDigit (hnumeral.digits c hc)
  have hdecimal : Constant.isDecimal (toString n).toList = true := by
    unfold Constant.isDecimal
    split
    · rfl
    · rename_i rest hne heq
      rw [heq] at hnumeral
      exact absurd (List.cons.inj (hnumeral.zero rfl)).2 hne
    · rfl
  simp only [Constant.ofText, String.toList_ofList, hlower,
    splitSuffix_append hnumeral.digits hsuffix, natural_toString h, hdecimal]

end KernelForge.Numeral

namespace KernelForge.Token.Figures

/-- All digits of a number. -/
def digits (p : Figures) : Nat := Nat.ofDigitChars 10 (p.whole ++ p.fraction) 0

/-- The power of ten that is written. -/
def power (p : Figures) : Int :=
  match p.exponent? with
  | none => 0
  | some (negative, ds) =>
    if negative then -(Nat.ofDigitChars 10 ds 0 : Int) else Nat.ofDigitChars 10 ds 0

/-- The power of ten that the digits are scaled by. -/
def scale (p : Figures) : Int := p.power - p.fraction.length

end KernelForge.Token.Figures

namespace KernelForge.Numeral

open Token (Figures)

variable {p : Figures}

/-! ### Mantissas -/

theorem mantissa_digits {ds : List Char} (hds : ∀ c ∈ ds, c.isDigit = true) (m : Mantissa)
    (rest : List Char) :
    mantissa 10 m (ds ++ rest) =
      mantissa 10 { m with
        digits := Nat.ofDigitChars 10 ds m.digits
        count := m.count + ds.length
        fraction := if m.point then m.fraction + ds.length else m.fraction } rest := by
  induction ds generalizing m with
  | nil => cases m; simp
  | cons c cs ih =>
    have hc := hds c List.mem_cons_self
    obtain ⟨hvalue, hlt⟩ := digitValue?_of_isDigit hc
    have hperiod : c ≠ '.' := by
      rintro rfl
      cases hc
    rw [List.cons_append, mantissa, if_neg (Token.isDigit_ne_underscore hc), if_neg hperiod, hvalue]
    simp only [if_pos hlt]
    rw [ih fun d hd => hds d (List.mem_cons_of_mem _ hd)]
    simp only [Nat.ofDigitChars_cons, List.length_cons]
    congr 2
    · omega
    · split <;> omega

theorem mantissa_figures (hp : p.IsReal) :
    mantissa 10 {} p.chars =
      ({ digits := p.digits, count := (p.whole ++ p.fraction).length, fraction := p.fraction.length
         point := !p.fraction.isEmpty }, p.mark) := by
  have hstop : ∀ m : Mantissa, mantissa 10 m p.mark = (m, p.mark) := by
    intro m
    unfold Figures.mark
    cases p.exponent? with
    | none => rfl
    | some e => simp [mantissa, digitValue?]
  rw [Figures.chars, mantissa_digits hp.whole.digits, Figures.digits]
  unfold Figures.point
  have hfraction := hp.fraction
  cases hf : p.fraction with
  | nil => simp [hstop]
  | cons c cs =>
    rw [hf] at hfraction
    rw [List.cons_append, mantissa, if_neg (by decide), if_pos rfl]
    simp only [Bool.false_eq_true, if_false]
    rw [mantissa_digits hfraction, hstop, Nat.ofDigitChars_append]
    simp

/-! ### Exponents -/

/-- Digits of an exponent that is not cut off. -/
theorem foldl_exponent {ds : List Char} (hds : ∀ c ∈ ds, c.isDigit = true) {e : Nat}
    (h : Nat.ofDigitChars 10 ds e < 10000) :
    ds.foldl (fun e c => if c = '_' || 10000 ≤ e then e else 10 * e + (c.toNat - '0'.toNat)) e =
      Nat.ofDigitChars 10 ds e := by
  induction ds generalizing e with
  | nil => rfl
  | cons c cs ih =>
    have hc := hds c List.mem_cons_self
    have hle := le_ofDigitChars (c :: cs) e
    rw [List.foldl_cons, Nat.ofDigitChars_cons]
    rw [Nat.ofDigitChars_cons] at h
    have hstep : (decide (c = '_') || decide (10000 ≤ e)) = false := by
      rw [Nat.ofDigitChars_cons] at hle
      simp only [Bool.or_eq_false_iff, decide_eq_false_iff_not]
      exact ⟨Token.isDigit_ne_underscore hc, by omega⟩
    rw [hstep]
    exact ih (fun d hd => hds d (List.mem_cons_of_mem _ hd)) h

/-- The exponent of a number is read from its sign and digits. -/
theorem exponent?_figures {negative : Bool} {ds : List Char} (hne : ds ≠ [])
    (hds : ∀ c ∈ ds, c.isDigit = true) (h : Nat.ofDigitChars 10 ds 0 < 10000) :
    exponent? ((if negative then '-' else '+') :: ds) =
      some (if negative then -(Nat.ofDigitChars 10 ds 0 : Int) else Nat.ofDigitChars 10 ds 0, []) := by
  obtain ⟨c, cs, rfl⟩ := List.exists_cons_of_ne_nil hne
  have hc := hds c List.mem_cons_self
  have hall : ∀ d ∈ c :: cs, (d.isDigit || decide (d = '_')) = true := fun d hd => by
    rw [hds d hd, Bool.true_or]
  have htake : (c :: cs).takeWhile (fun d => d.isDigit || decide (d = '_')) = c :: cs :=
    List.takeWhile_eq_self_iff.mpr hall
  have hdrop : (c :: cs).dropWhile (fun d => d.isDigit || decide (d = '_')) = [] :=
    List.dropWhile_eq_nil_iff.mpr hall
  have hfold := foldl_exponent hds h
  cases negative <;> simp only [exponent?, Bool.false_eq_true, if_false, if_true, hc, htake, hdrop, hfold]

/-! ### Real numbers -/

/-- Takes the sign. -/
def takeSign (cs : List Char) : Bool × List Char :=
  match cs with
  | '-' :: rest => (true, rest)
  | '+' :: rest => (false, rest)
  | cs => (false, cs)

/-- Takes what announces base sixteen. -/
def takeBase (cs : List Char) : Bool × List Char :=
  match cs with
  | '0' :: x :: c :: rest => if x = 'x' || x = 'X' then (true, c :: rest) else (false, cs)
  | cs => (false, cs)

/-- A number is taken apart from its start to its end. -/
theorem realParts?_eq (text : List Char) :
    realParts? text =
      let (negative, cs) := takeSign text
      let (hex, cs) := takeBase cs
      let (m, cs) := mantissa (if hex then 16 else 10) {} cs
      if m.count = 0 then none
      else
        let finish := fun (e : Int) (rest : List Char) =>
          if !rest.isEmpty then none
          else if text.contains '_' && !separates text then none
          else some { negative, hex, digits := m.digits, fraction := m.fraction, exponent := e }
        match cs with
        | c :: rest =>
          if (if hex then c = 'p' || c = 'P' else c = 'e' || c = 'E') then
            match exponent? rest with
            | some (e, rest) => finish e rest
            | none => none
          else none
        | [] => if hex then none else finish 0 [] := rfl

/-- A number starts with a digit. -/
theorem exists_chars (hp : p.IsReal) : ∃ c cs, c.isDigit = true ∧ p.chars = c :: cs := by
  obtain ⟨c, cs, hcs⟩ := List.exists_cons_of_ne_nil hp.whole.ne_nil
  refine ⟨c, cs ++ (p.point ++ p.mark), hp.whole.digits c (hcs ▸ List.mem_cons_self), ?_⟩
  rw [Figures.chars, hcs, List.cons_append]

theorem takeSign_digit {c : Char} (hc : c.isDigit = true) (cs : List Char) :
    takeSign (c :: cs) = (false, c :: cs) := by
  unfold takeSign
  split
  · rename_i heq
    cases heq
    cases hc
  · rename_i heq
    cases heq
    cases hc
  · rfl

/-- No letter of another notation stands in a number. -/
theorem ne_of_mem_figures (hp : p.IsReal) {c d : Char} (hc : c ∈ p.chars) (hd : d ∈ ['x', 'X', '_']) :
    c ≠ d := by
  rintro rfl
  simp only [List.mem_cons, List.not_mem_nil, or_false] at hd
  rcases hp.figure hc with h | h
  · rcases hd with rfl | rfl | rfl <;> cases h
  · rcases hd with rfl | rfl | rfl <;> simp at h

theorem takeBase_figures (hp : p.IsReal) : takeBase p.chars = (false, p.chars) := by
  unfold takeBase
  split
  · rename_i x d rest heq
    have hx : ∀ e ∈ ['x', 'X', '_'], x ≠ e := fun e he => ne_of_mem_figures hp (by rw [heq]; simp) he
    simp [hx 'x' (by simp), hx 'X' (by simp)]
  · rfl

/-- **A real number is taken apart into its figures.** -/
theorem realParts?_figures (hp : p.IsReal)
    (hsmall : ∀ e ∈ p.exponent?, Nat.ofDigitChars 10 e.2 0 < 10000) :
    realParts? p.chars =
      some { negative := false, hex := false, digits := p.digits, fraction := p.fraction.length,
             exponent := p.power } := by
  have hunderscore : p.chars.contains '_' = false := by
    rw [Bool.eq_false_iff]
    exact fun hmem => ne_of_mem_figures hp (List.contains_iff_mem.mp hmem) (by simp) rfl
  have hcount : (p.whole ++ p.fraction).length ≠ 0 := by
    have := List.length_pos_iff.mpr hp.whole.ne_nil
    rw [List.length_append]
    omega
  have hsign : takeSign p.chars = (false, p.chars) := by
    obtain ⟨c, cs, hc, hcs⟩ := exists_chars hp
    rw [hcs, takeSign_digit hc]
  rw [realParts?_eq, hsign]
  simp only [takeBase_figures hp, Bool.false_eq_true, if_false, mantissa_figures hp, if_neg hcount, hunderscore,
    Bool.false_and]
  unfold Figures.mark Figures.power
  cases he : p.exponent? with
  | none => rfl
  | some e =>
    obtain ⟨negative, ds⟩ := e
    obtain ⟨hne, hds⟩ := hp.exponent _ he
    simp [exponent?_figures hne hds (hsmall _ he)]

/-- A word is looked for after a sign. -/
theorem special?_eq (cs : List Char) :
    special? cs =
      let (negative, signed, rest) := match cs with
        | '-' :: rest => (true, true, rest)
        | '+' :: rest => (false, true, rest)
        | cs => (false, false, cs)
      if String.ofList (rest.map Char.toLower) = "inf" || String.ofList (rest.map Char.toLower) = "infinity" then
        some (Binary64.ofParts negative Binary64.format.infinity)
      else if String.ofList (rest.map Char.toLower) = "nan" && !signed then some ⟨0x7ff8000000000001⟩
      else none := rfl

/-- Real numbers are no words. -/
theorem special?_digit {c : Char} (hc : c.isDigit = true) (cs : List Char) : special? (c :: cs) = none := by
  have hword : ∀ w : String, w.toList.head?.any Char.isDigit = false →
      String.ofList ((c :: cs).map Char.toLower) ≠ w := by
    rintro w hw rfl
    simp [toLower_of_isDigit hc, hc] at hw
  rw [special?_eq]
  split
  rename_i heq
  split at heq
  · rename_i heq'
    cases heq'
    cases hc
  · rename_i heq'
    cases heq'
    cases hc
  · cases heq
    simp only [hword "inf" (by decide), hword "infinity" (by decide), hword "nan" (by decide), decide_false,
      Bool.or_self, Bool.false_and, Bool.false_eq_true, if_false]

theorem ratio_value {q : RealParts} (hq : q.hex = false) :
    0 < q.ratio.2 ∧ (q.ratio.1 / q.ratio.2 : ℚ) = q.digits * 10 ^ (q.exponent - q.fraction) := by
  unfold RealParts.ratio
  simp only [hq, Bool.false_eq_true, if_false]
  split
  · rename_i he
    obtain ⟨n, hn⟩ := Int.eq_ofNat_of_zero_le he
    rw [hn]
    simp
  · rename_i he
    obtain ⟨n, hn⟩ : ∃ n : Nat, q.exponent - q.fraction = -(n : Int) :=
      ⟨(-(q.exponent - q.fraction)).toNat, by omega⟩
    rw [hn]
    refine ⟨Nat.pow_pos (by decide), ?_⟩
    simp [div_eq_mul_inv]

/-- **A real number is read as the double precision number nearest to its value.** -/
theorem real_figures (hp : p.IsReal) (hsmall : ∀ e ∈ p.exponent?, Nat.ofDigitChars 10 e.2 0 < 10000) :
    ∃ num den : Nat, 0 < den ∧ (num / den : ℚ) = p.digits * 10 ^ p.scale ∧
      real p.chars = .ok ⟨Binary64.ofParts false (Binary64.format.round num den),
        Binary64.format.round num den = Binary64.format.infinity⟩ := by
  obtain ⟨c, cs, hc, hcs⟩ := exists_chars hp
  have hreal : ∀ q, realParts? p.chars = some q → real p.chars =
      .ok ⟨Binary64.ofParts q.negative (Binary64.format.round q.ratio.1 q.ratio.2),
        Binary64.format.round q.ratio.1 q.ratio.2 = Binary64.format.infinity⟩ := by
    intro q hq
    rw [hcs] at hq ⊢
    rw [real, special?_digit hc, hq]
  obtain ⟨hden, hval⟩ := @ratio_value
    { negative := false, hex := false, digits := p.digits, fraction := p.fraction.length,
      exponent := p.power } rfl
  exact ⟨_, _, hden, hval, hreal _ (realParts?_figures hp hsmall)⟩

/-- A real number with an `f` is narrowed to single precision. -/
theorem ofText_figures (hp : p.IsReal) (hsmall : ∀ e ∈ p.exponent?, Nat.ofDigitChars 10 e.2 0 < 10000)
    (fp64 : Bool) :
    ∃ num den : Nat, 0 < den ∧ (num / den : ℚ) = p.digits * 10 ^ p.scale ∧
      Constant.ofText fp64 .float (String.ofList (p.chars ++ ['f'])) =
        .ok (.ofFloat (Binary64.ofParts false (Binary64.format.round num den)).narrow) := by
  obtain ⟨num, den, hden, hval, hreal⟩ := real_figures hp hsmall
  refine ⟨num, den, hden, hval, ?_⟩
  have hlower : (p.chars ++ ['f']).map Char.toLower = p.chars ++ ['f'] := by
    conv => rhs; rw [← List.map_id (p.chars ++ ['f'])]
    refine List.map_congr_left fun c hc => ?_
    rcases List.mem_append.mp hc with hc | hc
    · rcases hp.figure hc with h | h
      · exact toLower_of_isDigit h
      · simp only [List.mem_cons, List.not_mem_nil, or_false] at h
        rcases h with rfl | rfl | rfl | rfl | rfl <;> rfl
    · rw [List.mem_singleton.mp hc]
      rfl
  have hbase : (p.chars ++ ['f']).take 2 ≠ ['0', 'x'] := by
    intro h
    have hmem : 'x' ∈ p.chars ++ ['f'] := List.mem_of_mem_take (h ▸ by simp : 'x' ∈ (p.chars ++ ['f']).take 2)
    rcases List.mem_append.mp hmem with hmem | hmem
    · exact ne_of_mem_figures hp hmem (by simp) rfl
    · cases List.mem_singleton.mp hmem
  simp [Constant.ofText, hlower, hbase, hreal]

end KernelForge.Numeral
