/-
The general notation of a decimal has its value.

A decimal is written in one of four forms: digits with zeros behind them, with the point among them or
before them, or one digit with an exponent.  Each form is a number whose figures stand for the decimal;
where neither a point nor an exponent is written, the point and a zero that are put behind the digits
make it one.
-/
import KernelForge.Proofs.Decimal.Shortest
import KernelForge.Proofs.Numeral.Reals

namespace KernelForge.Decimal

open Token (Figures IsNumeral)

/-! ### Digits -/

/-- Decimal digits that start with no zero. -/
structure IsLeading (ds : List Char) : Prop where
  digits : ∀ c ∈ ds, c.isDigit = true
  ne_nil : ds ≠ []
  first : ds.head? ≠ some '0'

theorem isLeading_toDigits {n : Nat} (hn : 0 < n) : IsLeading (Nat.toDigits 10 n) where
  digits := by
    have h := Numeral.isNumeral_toString n
    rw [Nat.toString_eq_repr, Nat.toList_repr] at h
    exact h.digits
  ne_nil := Nat.toDigits_ne_nil
  first := Numeral.head?_toDigits hn

theorem IsLeading.numeral {ds : List Char} (h : IsLeading ds) : IsNumeral ds :=
  ⟨h.digits, h.ne_nil, fun hzero => absurd hzero h.first⟩

theorem IsLeading.take_append {ds es : List Char} {n : Nat} (h : IsLeading ds) (hn : 0 < n)
    (hes : ∀ c ∈ es, c.isDigit = true) : IsLeading (ds.take n ++ es) := by
  obtain ⟨c, cs, rfl⟩ := List.exists_cons_of_ne_nil h.ne_nil
  obtain ⟨n, rfl⟩ : ∃ m, n = m + 1 := ⟨n - 1, by omega⟩
  refine ⟨fun d hd => ?_, nofun, h.first⟩
  rcases List.mem_append.mp hd with hd | hd
  · exact h.digits d (List.mem_of_mem_take hd)
  · exact hes d hd

theorem isDigit_replicate_zero {n : Nat} : ∀ c ∈ List.replicate n '0', c.isDigit = true := by
  intro c hc
  rw [(List.mem_replicate.mp hc).2]
  rfl

theorem isDigit_zero : ∀ c ∈ ['0'], c.isDigit = true := List.forall_mem_singleton.mpr rfl

theorem isNumeral_zero : IsNumeral ['0'] := ⟨isDigit_zero, nofun, fun _ => rfl⟩

/-! ### Figures -/

/-- A text is a number that is no whole one, with a given value. -/
def Spells (text : String) (x : ℚ) : Prop :=
  ∃ p : Figures, p.IsReal ∧ text.toList = p.chars ∧ p.digits * 10 ^ p.scale = x ∧
    ∀ e ∈ p.exponent?, Nat.ofDigitChars 10 e.2 0 < 10000

/-- A number without an exponent. -/
theorem spells_plain {whole fraction : List Char} (hwhole : IsNumeral whole)
    (hfraction : ∀ c ∈ fraction, c.isDigit = true) (hne : fraction ≠ []) {text : String}
    (htext : text.toList = whole ++ '.' :: fraction) {x : ℚ}
    (hx : (Nat.ofDigitChars 10 (whole ++ fraction) 0 : ℚ) * 10 ^ (-(fraction.length : Int)) = x) :
    Spells text x := by
  obtain ⟨c, cs, rfl⟩ := List.exists_cons_of_ne_nil hne
  refine ⟨⟨whole, c :: cs, none⟩, ⟨hwhole, hfraction, nofun, .inl nofun⟩, ?_, ?_, nofun⟩
  · rw [htext, Figures.chars, Figures.point, Figures.mark, List.append_nil]
  · rw [← hx, Figures.digits, Figures.scale, Figures.power, zero_sub]

theorem exists_exponentText (e : Int) :
    ∃ ds, (exponentText e).toList = 'e' :: (if e < 0 then '-' else '+') :: ds ∧ ds ≠ [] ∧
      (∀ c ∈ ds, c.isDigit = true) ∧ Nat.ofDigitChars 10 ds 0 = e.natAbs := by
  have hnumeral := Numeral.isNumeral_toString e.natAbs
  have hvalue : Nat.ofDigitChars 10 (toString e.natAbs).toList 0 = e.natAbs := by
    rw [Nat.toString_eq_repr, Nat.toList_repr, Nat.ofDigitChars_ten_toDigits]
  have hsign : (if e < 0 then "e-" else "e+").toList = ['e', if e < 0 then '-' else '+'] := by
    split <;> rfl
  rw [exponentText, String.toList_append, hsign]
  by_cases hsmall : e.natAbs < 10
  · rw [if_pos hsmall]
    refine ⟨'0' :: (toString e.natAbs).toList, ?_, nofun, ?_, ?_⟩
    · rw [String.toList_append]
      rfl
    · exact List.forall_mem_cons.mpr ⟨rfl, hnumeral.digits⟩
    · rw [Nat.ofDigitChars_cons]
      exact hvalue
  · rw [if_neg hsmall]
    exact ⟨(toString e.natAbs).toList, rfl, hnumeral.ne_nil, hnumeral.digits, hvalue⟩

/-- One digit, further ones behind a point, and an exponent. -/
theorem spells_scientific {d : Char} {ds : List Char} (hd : IsLeading (d :: ds)) {e : Int}
    (he : e.natAbs < 10000) {text : String}
    (htext : text.toList = d :: ((if ds = [] then [] else '.' :: ds) ++ (exponentText e).toList)) {x : ℚ}
    (hx : (Nat.ofDigitChars 10 (d :: ds) 0 : ℚ) * 10 ^ (e - (ds.length : Int)) = x) : Spells text x := by
  obtain ⟨es, hes, hne, hdigits, hvalue⟩ := exists_exponentText e
  have hwhole : IsNumeral [d] := by
    refine ⟨?_, nofun, fun h => absurd h hd.first⟩
    rintro c hc
    exact hd.digits c (List.mem_singleton.mp hc ▸ List.mem_cons_self)
  refine ⟨⟨[d], ds, some (decide (e < 0), es)⟩,
    ⟨hwhole, fun c hc => hd.digits c (List.mem_cons_of_mem _ hc), ?_, .inr rfl⟩, ?_, ?_, ?_⟩
  · rintro _ ⟨⟩
    exact ⟨hne, hdigits⟩
  · rw [htext, hes, Figures.chars, Figures.point, Figures.mark]
    cases ds <;> simp
  · have hpower : (if e < 0 then -(e.natAbs : Int) else e.natAbs) = e := by split <;> omega
    rw [← hx, Figures.digits, Figures.scale, Figures.power]
    simp only [hvalue, decide_eq_true_eq, hpower]
    rfl
  · rintro _ ⟨⟩
    rw [hvalue]
    exact he

/-! ### General notation -/

/-- A point and a zero behind a text that has neither a point nor an exponent. -/
def pointed (text : String) : String :=
  if text.any fun c => c = '.' || c = 'e' then text else text ++ ".0"

theorem pointed_of_mem {text : String} {c : Char} (hc : c ∈ text.toList) (h : c = '.' ∨ c = 'e') :
    pointed text = text := by
  have hany : (text.any fun c => decide (c = '.') || decide (c = 'e')) = true := by
    refine String.contains_bool_eq.trans (List.any_eq_true.mpr ⟨c, hc, ?_⟩)
    rcases h with rfl | rfl <;> rfl
  rw [pointed, if_pos hany]

theorem pointed_digits {text : String} (h : ∀ c ∈ text.toList, c.isDigit = true) :
    pointed text = text ++ ".0" := by
  have hany : ¬ (text.any fun c => decide (c = '.') || decide (c = 'e')) = true := by
    intro hany
    obtain ⟨c, hc, hpoint⟩ := List.any_eq_true.mp (String.contains_bool_eq.symm.trans hany)
    have hdigit := h c hc
    simp only [Bool.or_eq_true, decide_eq_true_eq] at hpoint
    rcases hpoint with rfl | rfl <;> cases hdigit
  rw [pointed, if_neg hany]

variable {ds : List Char}

/-- Digits with the point among them, or before or behind them. -/
theorem spells_positional (hds : IsLeading ds) {point : Int} {x : ℚ}
    (hx : (Nat.ofDigitChars 10 ds 0 : ℚ) * 10 ^ (point - ds.length) = x) :
    Spells (pointed (positional ds point)) x := by
  have hlen := List.length_pos_iff.mpr hds.ne_nil
  unfold positional
  split
  · -- Zeros stand between the point and the digits.
    rename_i hpoint
    obtain ⟨n, rfl⟩ : ∃ n : Nat, point = -(n : Int) := ⟨(-point).toNat, by omega⟩
    rw [neg_neg, Int.toNat_natCast]
    rw [pointed_of_mem (c := '.') (by simp) (.inl rfl)]
    refine @spells_plain _ (List.replicate n '0' ++ ds) isNumeral_zero ?_ (by simp [hds.ne_nil]) _
      (by simp) _ ?_
    · exact List.forall_mem_append.mpr ⟨isDigit_replicate_zero, hds.digits⟩
    · rw [← hx, List.singleton_append, Nat.ofDigitChars_cons, Nat.ofDigitChars_append,
        Nat.ofDigitChars_replicate_zero]
      simp only [List.length_append, List.length_replicate]
      congr 2
      push_cast
      ring
  · rename_i hpoint
    obtain ⟨n, rfl⟩ : ∃ n : Nat, point = n := ⟨point.toNat, by omega⟩
    simp only [Int.toNat_natCast]
    split
    · -- Zeros stand behind the digits.
      rename_i hle
      obtain ⟨k, hk⟩ := Nat.exists_eq_add_of_le hle
      have hlead : IsLeading (ds ++ List.replicate (n - ds.length) '0') := by
        have h := hds.take_append hlen (isDigit_replicate_zero (n := n - ds.length))
        rwa [List.take_length] at h
      rw [pointed_digits (by simpa using hlead.digits)]
      refine spells_plain hlead.numeral isDigit_zero nofun (by simp) ?_
      rw [← hx, hk, Nat.add_sub_cancel_left, Nat.ofDigitChars_append, Nat.ofDigitChars_append,
        Nat.ofDigitChars_replicate_zero, Nat.ofDigitChars_cons, Nat.ofDigitChars_nil]
      push_cast
      rw [add_sub_cancel_left, zpow_natCast]
      norm_num
      ring
    · -- The point stands among the digits.
      rename_i hlt
      rw [pointed_of_mem (c := '.') (by simp) (.inl rfl)]
      have hlead : IsLeading (ds.take n) := by
        have h : IsLeading (ds.take n ++ []) := hds.take_append (by omega) nofun
        rwa [List.append_nil] at h
      refine @spells_plain _ (ds.drop n) hlead.numeral
        (fun c hc => hds.digits c (List.mem_of_mem_drop hc)) ?_ _ (by simp) _ ?_
      · rw [ne_eq, List.drop_eq_nil_iff]
        omega
      · rw [← hx, List.take_append_drop, List.length_drop]
        congr 2
        omega

theorem lead_value {s : Scaled} (hs : 0 < s.digits) :
    (10 : ℚ) ^ (s.exponent + (Nat.toDigits 10 s.digits).length - 1) ≤ s.value ∧
      s.value < 10 ^ (s.exponent + (Nat.toDigits 10 s.digits).length) := by
  obtain ⟨n, hn⟩ : ∃ n, (Nat.toDigits 10 s.digits).length = n + 1 := by
    have := List.length_pos_iff.mpr (isLeading_toDigits hs).ne_nil
    exact ⟨_, (Nat.sub_add_cancel this).symm⟩
  have hlow : 10 ^ n ≤ s.digits := by
    rcases Nat.eq_zero_or_pos n with rfl | hpos
    · exact hs
    · by_contra hlt
      have := (Nat.length_toDigits_le_iff (by decide) hpos).mpr (not_le.mp hlt)
      omega
  have hhigh : s.digits < 10 ^ (n + 1) :=
    (Nat.length_toDigits_le_iff (by decide) (Nat.succ_pos n)).mp hn.le
  have hunit : (0 : ℚ) < 10 ^ s.exponent := by positivity
  rw [hn, Nat.cast_add, Nat.cast_one, ← add_assoc, add_sub_cancel_right, add_assoc,
    zpow_add₀ (by norm_num), zpow_add₀ (by norm_num), Scaled.value, mul_comm (s.digits : ℚ)]
  constructor
  · gcongr
    rw [zpow_natCast]
    exact_mod_cast hlow
  · gcongr
    have hcast : ((n : Int) + 1) = ((n + 1 : Nat) : Int) := by push_cast; rfl
    rw [hcast, zpow_natCast]
    exact_mod_cast hhigh

/-- **A decimal in general notation is a number that stands for it.** -/
theorem spells_general {s : Scaled} {n : Int} (hn : n < 9999) (hlow : 0 < s.digits → (10 : ℚ) ^ (-n) ≤ s.value)
    (hhigh : s.value < (10 : ℚ) ^ n) : Spells (pointed s.general) s.value := by
  by_cases hzero : s.digits = 0
  · have htext : s.general = "0" := if_pos hzero
    have hvalue : s.value = 0 := by simp [Scaled.value, hzero]
    have hdigits : ∀ c ∈ "0".toList, c.isDigit = true := isDigit_zero
    rw [htext, hvalue, pointed_digits hdigits]
    exact spells_plain isNumeral_zero isDigit_zero (by simp) rfl (by simp [Nat.ofDigitChars_cons])
  · have hpos := Nat.pos_of_ne_zero hzero
    have hds := isLeading_toDigits hpos
    have hdigits : Nat.ofDigitChars 10 (Nat.toDigits 10 s.digits) 0 = s.digits :=
      Nat.ofDigitChars_ten_toDigits
    obtain ⟨hlead, hlead'⟩ := lead_value hpos
    have htext : s.general = _ := if_neg hzero
    simp only at htext
    set ds := Nat.toDigits 10 s.digits
    set lead : Int := s.exponent + ds.length - 1 with hleadEq
    have habove : lead < n := (zpow_lt_zpow_iff_right₀ (by norm_num)).1 (hlead.trans_lt hhigh)
    have hbelow : -n < lead + 1 := by
      have h := (zpow_lt_zpow_iff_right₀ (by norm_num)).1 ((hlow hpos).trans_lt hlead')
      omega
    obtain ⟨d, es, hdes⟩ := List.exists_cons_of_ne_nil hds.ne_nil
    have hlenes : ds.length = es.length + 1 := by rw [hdes, List.length_cons]
    by_cases hform : (decide (lead < -4) || decide (6 ≤ lead)) = true
    · have hchars : s.general.toList =
          d :: ((if es = [] then [] else '.' :: es) ++ (exponentText lead).toList) := by
        rw [htext, if_pos hform, hdes]
        cases es <;> simp
      have hmem : 'e' ∈ s.general.toList := by
        obtain ⟨xs, hxs, -⟩ := exists_exponentText lead
        rw [hchars, hxs]
        simp
      rw [pointed_of_mem hmem (.inr rfl)]
      refine spells_scientific (hdes ▸ hds) (by omega) hchars ?_
      rw [← hdes, hdigits, Scaled.value]
      congr 2
      omega
    · rw [htext, if_neg hform]
      refine spells_positional hds ?_
      rw [hdigits, Scaled.value]
      congr 2
      omega

end KernelForge.Decimal
