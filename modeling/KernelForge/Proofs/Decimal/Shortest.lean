/-
The shortest decimal reads back, and it is the nearest of its grid.

The search looks at ever finer decimal grids.  A grid finer than the distance from the magnitude to
the end of its interval has a point in the interval, so the search ends, and what it ends with lies
between the midpoints beside the magnitude.  Of the points of its grid in there it is the nearest one.
-/
import KernelForge.Decimal.Shortest
import KernelForge.Proofs.Binary.Nearest

namespace KernelForge.Decimal

open KernelForge.Binary

/-- The number that a decimal stands for. -/
def Scaled.value (s : Scaled) : ℚ := s.digits * 10 ^ s.exponent

/-! ### Grids -/

theorem unscale_value (num : Nat) {den : Nat} (hden : 0 < den) (k : Int) :
    0 < (unscale num den k).2 ∧
      ((unscale num den k).1 : ℚ) / (unscale num den k).2 * 10 ^ k = num / den := by
  have hd : (den : ℚ) ≠ 0 := by positivity
  unfold unscale
  split
  · rename_i hk
    obtain ⟨n, rfl⟩ := Int.eq_ofNat_of_zero_le hk
    refine ⟨Nat.mul_pos hden (Nat.pow_pos (by decide)), ?_⟩
    simp only [Nat.pow_eq, Int.toNat_natCast, Nat.cast_mul, Nat.cast_pow, Nat.cast_ofNat, zpow_natCast]
    field_simp
  · rename_i hk
    obtain ⟨n, rfl⟩ : ∃ n : Nat, k = -(n : Int) := ⟨(-k).toNat, by omega⟩
    refine ⟨hden, ?_⟩
    simp only [Nat.pow_eq, neg_neg, Int.toNat_natCast, Nat.cast_mul, Nat.cast_pow, Nat.cast_ofNat,
      zpow_neg, zpow_natCast]
    field_simp

theorem digitCount_pos {n : Nat} (hn : 0 < n) : 0 < digitCount n := by
  rw [digitCount, if_neg (by omega)]
  exact Nat.length_toDigits_pos

theorem digitCount_le_iff {n k : Nat} (hn : 0 < n) (hk : 0 < k) : digitCount n ≤ k ↔ n < 10 ^ k := by
  rw [digitCount, if_neg (by omega)]
  exact Nat.length_toDigits_le_iff (by decide) hk

/-- The power of ten of the leading digit is not above the number. -/
theorem leadingExponent_le {num den : Nat} (hnum : 0 < num) (hden : 0 < den) :
    (10 : ℚ) ^ leadingExponent num den ≤ num / den := by
  have hdq : (0 : ℚ) < den := by exact_mod_cast hden
  rw [le_div_iff₀ hdq]
  by_cases hle : den ≤ num
  · have hq : 0 < num / den := Nat.div_pos hle hden
    obtain ⟨c, hc⟩ : ∃ c, digitCount (num / den) = c + 1 :=
      ⟨digitCount (num / den) - 1, by have := digitCount_pos hq; omega⟩
    have hpow : 10 ^ c ≤ num / den := by
      rcases Nat.eq_zero_or_pos c with rfl | hpos
      · exact hq
      · by_contra hlt
        have := (digitCount_le_iff hq hpos).2 (not_le.1 hlt)
        omega
    have hmul : 10 ^ c * den ≤ num := (Nat.mul_le_mul_right den hpow).trans (Nat.div_mul_le_self num den)
    rw [leadingExponent, if_pos hle, hc]
    simp only [Nat.cast_add, Nat.cast_one, add_sub_cancel_right, zpow_natCast]
    exact_mod_cast hmul
  · have hq : 0 < (den - 1) / num := Nat.div_pos (by omega) hnum
    have hpow : (den - 1) / num < 10 ^ digitCount ((den - 1) / num) :=
      (digitCount_le_iff hq (digitCount_pos hq)).1 (le_refl _)
    have hmul := (Nat.div_lt_iff_lt_mul hnum).1 hpow
    have hmul' : den ≤ num * 10 ^ digitCount ((den - 1) / num) := by
      rw [Nat.mul_comm]
      omega
    rw [leadingExponent, if_neg hle, zpow_neg, zpow_natCast, inv_mul_le_iff₀ (by positivity), mul_comm]
    exact_mod_cast hmul'

/-! ### Intervals -/

namespace Interval

variable {i : Interval} {d : Nat} {k : Int}

/-- A point is in an interval that may have its ends. -/
def Has (i : Interval) (x : ℚ) : Prop :=
  if i.closed then (i.low / i.den : ℚ) ≤ x ∧ x ≤ i.high / i.den
  else (i.low / i.den : ℚ) < x ∧ x < i.high / i.den

/-- The test of a grid point compares it with the ends. -/
theorem holds_iff (hden : 0 < i.den) : i.holds d k = true ↔ i.Has (d * 10 ^ k) := by
  have hdq : (0 : ℚ) < i.den := by exact_mod_cast hden
  obtain ⟨lhs, mul, hmul, heq, hval⟩ : ∃ lhs mul : Nat, (0 : ℚ) < mul ∧
      (d * 10 ^ k : ℚ) * (i.den * mul) = lhs ∧
      i.holds d k = if i.closed then decide (i.low * mul ≤ lhs) && decide (lhs ≤ i.high * mul)
        else decide (i.low * mul < lhs) && decide (lhs < i.high * mul) := by
    unfold holds
    by_cases hk : 0 ≤ k
    · obtain ⟨n, rfl⟩ := Int.eq_ofNat_of_zero_le hk
      refine ⟨d * 10 ^ n * i.den, 1, by norm_num, ?_, by simp⟩
      push_cast
      rw [zpow_natCast]
      ring
    · obtain ⟨n, rfl⟩ : ∃ n : Nat, k = -(n : Int) := ⟨(-k).toNat, by omega⟩
      have hn : n ≠ 0 := by rintro rfl; exact hk le_rfl
      refine ⟨d * i.den, 10 ^ n, by positivity, ?_, by simp [hn]⟩
      push_cast
      rw [zpow_neg, zpow_natCast]
      field_simp
  have hlow : (i.low / i.den : ℚ) ≤ d * 10 ^ k ↔ i.low * mul ≤ lhs := by
    rw [div_le_iff₀ hdq, ← mul_le_mul_iff_left₀ hmul, mul_assoc, heq]
    exact_mod_cast Iff.rfl
  have hhigh : (d * 10 ^ k : ℚ) ≤ i.high / i.den ↔ lhs ≤ i.high * mul := by
    rw [le_div_iff₀ hdq, ← mul_le_mul_iff_left₀ hmul, mul_assoc, heq]
    exact_mod_cast Iff.rfl
  have hlow' : (i.low / i.den : ℚ) < d * 10 ^ k ↔ i.low * mul < lhs := by
    rw [div_lt_iff₀ hdq, ← mul_lt_mul_iff_left₀ hmul, mul_assoc, heq]
    exact_mod_cast Iff.rfl
  have hhigh' : (d * 10 ^ k : ℚ) < i.high / i.den ↔ lhs < i.high * mul := by
    rw [lt_div_iff₀ hdq, ← mul_lt_mul_iff_left₀ hmul, mul_assoc, heq]
    exact_mod_cast Iff.rfl
  rw [hval, Has, hlow, hhigh, hlow', hhigh']
  cases i.closed <;> simp

/-- An interval has what lies between two of its points. -/
theorem Has.between {x y z : ℚ} (hx : i.Has x) (hz : i.Has z) (hxy : x ≤ y) (hyz : y ≤ z) : i.Has y := by
  unfold Has at *
  split_ifs at * with h
  · exact ⟨hx.1.trans hxy, hyz.trans hz.2⟩
  · exact ⟨hx.1.trans_le hxy, hyz.trans_lt hz.2⟩

/-- A point of a grid in the interval that is the nearest one to the magnitude. -/
structure Nearest (i : Interval) (d : Nat) (k : Int) : Prop where
  has : i.Has (d * 10 ^ k)
  le : ∀ d' : Nat, i.Has (d' * 10 ^ k) →
    |(d * 10 ^ k : ℚ) - i.value / i.den| ≤ |(d' * 10 ^ k : ℚ) - i.value / i.den|

/-- The two points of a grid beside the magnitude. -/
theorem exists_floor (hden : 0 < i.den) (k : Int) :
    ∃ n m : Nat, 0 < m ∧ (i.value / i.den : ℚ) = n / m * 10 ^ k ∧
      ((n / m : Nat) * 10 ^ k : ℚ) ≤ i.value / i.den ∧
      (i.value / i.den : ℚ) < ((n / m + 1 : Nat) : ℚ) * 10 ^ k ∧ unscale i.value i.den k = (n, m) := by
  obtain ⟨hpos, hval⟩ := unscale_value i.value hden k
  refine ⟨(unscale i.value i.den k).1, (unscale i.value i.den k).2, hpos, hval.symm, ?_, ?_, rfl⟩
  all_goals
    rw [← hval]
    have hmq : (0 : ℚ) < (unscale i.value i.den k).2 := by exact_mod_cast hpos
  · gcongr
    rw [le_div_iff₀ hmq]
    exact_mod_cast Nat.div_mul_le_self _ _
  · gcongr
    rw [div_lt_iff₀ hmq]
    exact_mod_cast (Nat.div_lt_iff_lt_mul hpos).1 (Nat.lt_succ_self _)

/-- **What is found on a grid is the nearest of its points in the interval.** -/
theorem nearest_of_onGrid? (hden : 0 < i.den) (hvalue : i.Has (i.value / i.den)) (h : i.onGrid? k = some d) :
    i.Nearest d k := by
  obtain ⟨n, m, hm, hval, hlow, hup, hscale⟩ := exists_floor hden k
  have hunit : (0 : ℚ) < 10 ^ k := by positivity
  have hmq : (0 : ℚ) < m := by exact_mod_cast hm
  set q := n / m with hq
  set x : ℚ := i.value / i.den with hx
  -- The remainder tells which of the two points is nearer.
  have hrest : (n : ℚ) = q * m + (n % m : Nat) := by exact_mod_cast (Nat.div_add_mod' n m).symm
  have hdown : x - q * 10 ^ k = (n % m : Nat) / m * 10 ^ k := by
    rw [hval, hrest]
    field_simp
    ring
  have hover : ((q + 1 : Nat) : ℚ) * 10 ^ k - x = (1 - (n % m : Nat) / m) * 10 ^ k := by
    push_cast
    linarith
  have hhalf : x - q * 10 ^ k ≤ ((q + 1 : Nat) : ℚ) * 10 ^ k - x ↔ 2 * (n % m) ≤ m := by
    rw [hdown, hover, mul_le_mul_iff_left₀ hunit, ← Nat.cast_le (α := ℚ), le_sub_iff_add_le, ← two_mul,
      mul_div, div_le_one₀ hmq]
    push_cast
    exact Iff.rfl
  have hhalf' : ((q + 1 : Nat) : ℚ) * 10 ^ k - x ≤ x - q * 10 ^ k ↔ m ≤ 2 * (n % m) := by
    rw [hdown, hover, mul_le_mul_iff_left₀ hunit, ← Nat.cast_le (α := ℚ), sub_le_iff_le_add, ← two_mul,
      mul_div, one_le_div₀ hmq]
    push_cast
    exact Iff.rfl
  have hbelow : |(q * 10 ^ k : ℚ) - x| = x - q * 10 ^ k := by
    rw [abs_of_nonpos (by linarith), neg_sub]
  have habove : |((q + 1 : Nat) : ℚ) * 10 ^ k - x| = ((q + 1 : Nat) : ℚ) * 10 ^ k - x :=
    abs_of_nonneg (by linarith)
  -- Every point of the grid is as far as one of the two, on its side.
  have hside : ∀ d' : Nat, (d' ≤ q ∧ x - q * 10 ^ k ≤ |(d' * 10 ^ k : ℚ) - x|) ∨
      (q + 1 ≤ d' ∧ ((q + 1 : Nat) : ℚ) * 10 ^ k - x ≤ |(d' * 10 ^ k : ℚ) - x|) := by
    intro d'
    rcases Nat.lt_or_ge q d' with hgt | hle
    · refine Or.inr ⟨hgt, le_trans ?_ (le_abs_self _)⟩
      have : ((q + 1 : Nat) : ℚ) * 10 ^ k ≤ d' * 10 ^ k := by gcongr; exact hgt
      linarith
    · refine Or.inl ⟨hle, le_trans ?_ (neg_le_abs _)⟩
      have : (d' * 10 ^ k : ℚ) ≤ q * 10 ^ k := by gcongr
      linarith
  have hlower : ∀ d', d' ≤ q → i.Has (d' * 10 ^ k) → i.Has (q * 10 ^ k) := by
    intro d' hle hd'
    exact hd'.between hvalue (by gcongr) hlow
  have hupper : ∀ d', q + 1 ≤ d' → i.Has (d' * 10 ^ k) → i.Has (((q + 1 : Nat) : ℚ) * 10 ^ k) := by
    intro d' hle hd'
    exact hvalue.between hd' hup.le (by gcongr)
  have hnear : ∀ (hq : i.Has (q * 10 ^ k))
      (hle : i.Has (((q + 1 : Nat) : ℚ) * 10 ^ k) → 2 * (n % m) ≤ m), i.Nearest q k := by
    intro hq hle
    refine ⟨hq, fun d' hd' => ?_⟩
    rw [hbelow]
    rcases hside d' with ⟨-, h⟩ | ⟨hd, h⟩
    · exact h
    · exact (hhalf.2 (hle (hupper d' hd hd'))).trans h
  have hnear' : ∀ (hq : i.Has (((q + 1 : Nat) : ℚ) * 10 ^ k))
      (hle : i.Has (q * 10 ^ k) → m ≤ 2 * (n % m)), i.Nearest (q + 1) k := by
    intro hq hle
    refine ⟨hq, fun d' hd' => ?_⟩
    rw [habove]
    rcases hside d' with ⟨hd, h⟩ | ⟨-, h⟩
    · exact (hhalf'.2 (hle (hlower d' hd hd'))).trans h
    · exact h
  rw [onGrid?, hscale] at h
  simp only [← hq] at h
  split at h
  · rename_i h₁ h₂
    rw [holds_iff hden] at h₁ h₂
    split_ifs at h with hlt hgt heven <;> rw [← Option.some.inj h]
    · exact hnear h₁ fun _ => by omega
    · exact hnear' h₂ fun _ => by omega
    · exact hnear h₁ fun _ => by omega
    · exact hnear' h₂ fun _ => by omega
  · rename_i h₁ h₂
    rw [← Option.some.inj h]
    rw [holds_iff hden] at h₁
    refine hnear h₁ fun hhas => absurd ((holds_iff hden).2 hhas) (by simp [h₂])
  · rename_i h₁ h₂
    rw [← Option.some.inj h]
    rw [holds_iff hden] at h₂
    refine hnear' h₂ fun hhas => absurd ((holds_iff hden).2 hhas) (by simp [h₁])
  · cases h

/-- A grid that is fine enough has a point in the interval. -/
theorem onGrid?_isSome (hden : 0 < i.den) (hvalue : i.Has (i.value / i.den))
    (hfine : (i.low / i.den : ℚ) + 10 ^ k ≤ i.value / i.den) : (i.onGrid? k).isSome = true := by
  obtain ⟨n, m, hm, -, hlow, hup, hscale⟩ := exists_floor hden k
  have hunit : (0 : ℚ) < 10 ^ k := by positivity
  have hhas : i.Has ((n / m : Nat) * 10 ^ k) := by
    have hlt : (i.low / i.den : ℚ) < (n / m : Nat) * 10 ^ k := by
      push_cast at hup
      linarith
    unfold Has at *
    split_ifs at * with hc
    · exact ⟨hlt.le, hlow.trans hvalue.2⟩
    · exact ⟨hlt, hlow.trans_lt hvalue.2⟩
  have hyes := (holds_iff hden).2 hhas
  rw [onGrid?, hscale]
  dsimp only
  rw [hyes]
  split <;> first | rfl | (split_ifs <;> rfl) | simp_all

/-- The search ends with a grid that has a point in the interval, when there is one to be found. -/
theorem onGrid?_search : ∀ (fuel : Nat) (k : Int), (∃ j : Nat, j ≤ fuel ∧ (i.onGrid? (k - j)).isSome = true) →
    i.onGrid? (i.search fuel k).exponent = some (i.search fuel k).digits := by
  intro fuel
  induction fuel with
  | zero =>
    rintro k ⟨j, hj, hsome⟩
    obtain rfl : j = 0 := by omega
    obtain ⟨d, hd⟩ := Option.isSome_iff_exists.1 hsome
    rw [Nat.cast_zero, sub_zero] at hd
    simp [search, hd]
  | succ fuel ih =>
    rintro k ⟨j, hj, hsome⟩
    rw [search]
    split
    · assumption
    · rename_i hnone
      refine ih (k - 1) ⟨j - 1, by omega, ?_⟩
      have hj0 : j ≠ 0 := by
        rintro rfl
        simp [hnone] at hsome
      have hstep : k - 1 - ((j - 1 : Nat) : Int) = k - j := by omega
      rw [hstep]
      exact hsome

end Interval

/-! ### The shortest decimal -/

/-- Zeros at the end are dropped without a change of the value. -/
theorem value_trim (fuel : Nat) (s : Scaled) :
    (Scaled.trim fuel s).value = s.value ∧ (0 < s.digits → 0 < (Scaled.trim fuel s).digits) := by
  induction fuel generalizing s with
  | zero => exact ⟨rfl, id⟩
  | succ fuel ih =>
    rw [Scaled.trim]
    split
    · rename_i h
      obtain ⟨hval, hpos⟩ := ih ⟨s.digits / 10, s.exponent + 1⟩
      refine ⟨hval.trans ?_, fun hs => hpos ?_⟩
      · have hten : s.digits = s.digits / 10 * 10 := by omega
        rw [Scaled.value, Scaled.value, zpow_add_one₀ (by norm_num)]
        conv_rhs => rw [hten]
        push_cast
        ring
      · show 0 < s.digits / 10
        omega
    · exact ⟨rfl, id⟩

/-- The interval of a magnitude lies between the midpoints beside it. -/
theorem interval_spec {f : Format} {b : Nat} (hf : f.hidden % 2 = 0) (hb : 0 < b) :
    0 < (interval f b).den ∧ ((interval f b).value / (interval f b).den : ℚ) = f.valueOf b ∧
      ((interval f b).low / (interval f b).den : ℚ) = f.midpoint (b - 1) ∧
      ((interval f b).high / (interval f b).den : ℚ) = f.midpoint b ∧
      (interval f b).closed = decide (b % 2 = 0) := by
  obtain ⟨m, e, hunpack, hm, hval, hup, hlow, hparity, -⟩ := Format.unpack_beside hf hb
  obtain ⟨hpos, hunit⟩ := Format.scale_value 1 Nat.one_pos (e - 2)
  set unit := (Format.scale 1 1 (e - 2)).1 with hunit'
  set den := (Format.scale 1 1 (e - 2)).2 with hden'
  have hscale : (unit / den : ℚ) = 2 ^ e / 4 := by
    rw [hunit, zpow_sub₀ two_ne_zero]
    norm_num
  have hinterval : interval f b =
      { value := 4 * m * unit
        low := (4 * m - if b % f.hidden = 0 ∧ f.hidden < b then 1 else 2) * unit
        high := (4 * m + 2) * unit
        den := den
        closed := m % 2 = 0 } := by
    rw [interval, hunpack]
  rw [hinterval]
  refine ⟨hpos, ?_, ?_, ?_, ?_⟩
  · rw [hval]
    push_cast
    rw [mul_div_assoc, hscale]
    ring
  · have hle : (if b % f.hidden = 0 ∧ f.hidden < b then 1 else 2) ≤ 4 * m := by split <;> omega
    dsimp only
    rw [Nat.cast_mul, mul_div_assoc, hscale, hlow, Nat.cast_sub hle]
    push_cast
    ring
  · rw [hup]
    push_cast
    rw [mul_div_assoc, hscale]
    ring
  · simp only [hparity]

/-- A magnitude is not large against its distance from the midpoint below. -/
theorem valueOf_le_gap {f : Format} {b : Nat} (hf : f.hidden % 2 = 0) (hb : 0 < b) :
    f.valueOf b ≤ 8 * f.hidden * (f.valueOf b - f.midpoint (b - 1)) := by
  obtain ⟨m, e, -, -, hval, -, hlow, -, hm⟩ := Format.unpack_beside hf hb
  have hmq : (m : ℚ) ≤ 2 * f.hidden := by exact_mod_cast hm.le
  have hunit : (0 : ℚ) < 2 ^ e := by positivity
  have hbelow : (1 : ℚ) ≤ (if b % f.hidden = 0 ∧ f.hidden < b then 1 else 2 : Nat) := by
    split <;> norm_num
  rw [hval, hlow]
  calc (m : ℚ) * 2 ^ e ≤ 2 * f.hidden * 2 ^ e := by gcongr
    _ = 8 * f.hidden * (1 / 4 * 2 ^ e) := by ring
    _ ≤ 8 * f.hidden *
        ((if b % f.hidden = 0 ∧ f.hidden < b then 1 else 2 : Nat) / 4 * 2 ^ e) := by gcongr
    _ = _ := by ring

variable {f : Format} {b : Nat}

theorem interval_has_value (hf : f.hidden % 2 = 0) (hb : 0 < b) :
    (interval f b).Has ((interval f b).value / (interval f b).den) := by
  obtain ⟨-, hval, hlow, hhigh, -⟩ := interval_spec hf hb
  have hbelow : f.midpoint (b - 1) < f.valueOf b := by
    have h := f.midpoint_lt (b - 1)
    rwa [Nat.sub_add_cancel hb] at h
  have habove := f.lt_midpoint b
  rw [Interval.Has, hval, hlow, hhigh]
  split
  · exact ⟨hbelow.le, habove.le⟩
  · exact ⟨hbelow, habove⟩

/-- **The shortest decimal is the nearest point of a grid in the interval of the magnitude.** -/
theorem exists_nearest_shortest (hf : f.hidden % 2 = 0) (hsmall : f.hidden ≤ 2 ^ 60) (hb : 0 < b) :
    ∃ (d : Nat) (k : Int), (shortest f b).value = d * 10 ^ k ∧ (interval f b).Nearest d k := by
  obtain ⟨hden, hval, hlow, -, -⟩ := interval_spec hf hb
  have hvalue := interval_has_value hf hb
  set i := interval f b with hi
  set lead := leadingExponent i.value i.den with hlead
  have hzero : (0 : ℚ) < f.valueOf b := f.valueOf_zero ▸ f.valueOf_strictMono hb
  have hpos : 0 < i.value := by
    rw [← hval] at hzero
    rcases Nat.eq_zero_or_pos i.value with h | h
    · simp [h] at hzero
    · exact h
  -- Twenty more digits are enough to fall between the magnitude and the end of its interval.
  have hfine : (i.low / i.den : ℚ) + 10 ^ (lead - (20 : Nat)) ≤ i.value / i.den := by
    have hle := leadingExponent_le hpos hden
    have hgap := valueOf_le_gap hf hb
    have hH : (8 * f.hidden : ℚ) ≤ 10 ^ 20 := by
      have : (f.hidden : ℚ) ≤ 2 ^ 60 := by exact_mod_cast hsmall
      linarith
    rw [← hlead, hval] at hle
    rw [hval, hlow, zpow_sub₀ (by norm_num), zpow_natCast, ← le_sub_iff_add_le']
    have hnonneg : 0 ≤ f.valueOf b - f.midpoint (b - 1) := by
      by_contra hneg
      have : (0 : ℚ) ≤ 8 * f.hidden := by positivity
      nlinarith
    rw [div_le_iff₀ (by positivity), mul_comm]
    exact hle.trans (hgap.trans (mul_le_mul_of_nonneg_right hH hnonneg))
  have hsearch := Interval.onGrid?_search (i := i) 20 lead
    ⟨20, le_rfl, Interval.onGrid?_isSome hden hvalue hfine⟩
  refine ⟨_, _, ?_, Interval.nearest_of_onGrid? hden hvalue hsearch⟩
  rw [shortest, if_neg (by omega)]
  exact (value_trim 20 _).1

/-- **The shortest decimal reads back**: it lies between the midpoints beside the magnitude, and on one
of them only where the bits of the magnitude are even. -/
theorem shortest_between (hf : f.hidden % 2 = 0) (hsmall : f.hidden ≤ 2 ^ 60) (hb : 0 < b) :
    f.midpoint (b - 1) ≤ (shortest f b).value ∧ (shortest f b).value ≤ f.midpoint b ∧
      (b % 2 = 1 → f.midpoint (b - 1) < (shortest f b).value ∧ (shortest f b).value < f.midpoint b) := by
  obtain ⟨d, k, hdk, hnearest⟩ := exists_nearest_shortest hf hsmall hb
  obtain ⟨-, -, hlow, hhigh, hclosed⟩ := interval_spec hf hb
  have hhas := hnearest.has
  rw [Interval.Has, hclosed, hlow, hhigh, ← hdk] at hhas
  by_cases heven : b % 2 = 0
  · rw [if_pos (by simpa using heven)] at hhas
    exact ⟨hhas.1, hhas.2, fun h => by omega⟩
  · rw [if_neg (by simpa using heven)] at hhas
    exact ⟨hhas.1.le, hhas.2.le, fun _ => hhas⟩

end KernelForge.Decimal
