/-
Single precision decimals that are read by way of double precision.

The shortest decimal of a single precision number lies between the midpoints beside it, so it can go
wrong in one way only: double precision rounds it onto one of the midpoints.  Then the decimal is
closer to the midpoint than a part in `2 ^ 53` of it, but not equal to it.  Since no other decimal of
its grid is nearer to the number, the grid is as coarse as the numbers themselves are there, so the
decimal is a number of tens that do not depend on it, and few of them.

That a few tens come so close to an odd number of half units is a question about rational
approximation, one for each binade: the continued fraction of the ratio of the two units answers it.
Only in one binade, and there only for one number, the decimal comes close enough.
-/
import KernelForge.Proofs.Binary.Nearest
import KernelForge.Proofs.Decimal.Shortest
import Mathlib.Tactic.LinearCombination

namespace KernelForge.Decimal

open KernelForge.Binary

/-! ### Rational approximation -/

/-- Between two neighbouring approximations of a ratio from its two sides there is no better one with
a smaller denominator: what is not a multiple of the first is further away, and the further the
smaller its denominator is. -/
theorem multiple_or_far {p q a₁ b₁ a₂ b₂ a b : Int}
    (hdet : a₁ * b₂ - a₂ * b₁ = 1 ∨ a₁ * b₂ - a₂ * b₁ = -1)
    (hsides : (a₁ * p - b₁ * q) * (a₂ * p - b₂ * q) ≤ 0) (ha₁ : 0 < a₁) (ha : 0 ≤ a) (haa₂ : a < a₂) :
    (∃ x, a = x * a₁ ∧ b = x * b₁) ∨
      |a₁ * p - b₁ * q| ≤ |a * p - b * q| ∧ (a₂ - a) * |a₁ * p - b₁ * q| ≤ a₁ * |a * p - b * q| := by
  obtain ⟨x, y, hax, hbx⟩ : ∃ x y, a = x * a₁ + y * a₂ ∧ b = x * b₁ + y * b₂ := by
    rcases hdet with h | h
    · exact ⟨a * b₂ - b * a₂, a₁ * b - b₁ * a, by linear_combination -a * h, by linear_combination -b * h⟩
    · exact ⟨b * a₂ - a * b₂, b₁ * a - a₁ * b, by linear_combination a * h, by linear_combination b * h⟩
  set r₁ := a₁ * p - b₁ * q
  set r₂ := a₂ * p - b₂ * q
  have hr : a * p - b * q = x * r₁ + y * r₂ := by
    rw [hax, hbx]
    ring
  rcases eq_or_ne y 0 with rfl | hy
  · exact Or.inl ⟨x, by simpa using hax, by simpa using hbx⟩
  -- The two multiples point to opposite sides, so their distances add up.
  have hxy : x * y < 0 ∧ a₂ - a ≤ |x| * a₁ := by
    rcases lt_or_gt_of_ne hy with hneg | hpos
    · have hx : 0 < x := by
        by_contra hx
        nlinarith
      refine ⟨mul_neg_of_pos_of_neg hx hneg, ?_⟩
      rw [abs_of_pos hx]
      nlinarith
    · have hx : x < 0 := by
        by_contra hx
        nlinarith
      refine ⟨mul_neg_of_neg_of_pos hx hpos, ?_⟩
      rw [abs_of_neg hx]
      nlinarith
  have hsame : 0 ≤ (x * r₁) * (y * r₂) := by
    have h := mul_nonneg_of_nonpos_of_nonpos hxy.1.le hsides
    calc 0 ≤ x * y * (r₁ * r₂) := h
      _ = (x * r₁) * (y * r₂) := by ring
  have hsum : |x| * |r₁| ≤ |a * p - b * q| := by
    rw [hr, ← abs_mul]
    rcases le_or_gt 0 (x * r₁) with h₁ | h₁ <;> rcases le_or_gt 0 (y * r₂) with h₂ | h₂
    · rw [abs_of_nonneg h₁, abs_of_nonneg (add_nonneg h₁ h₂)]
      omega
    · have hzero : x * r₁ = 0 := by nlinarith
      rw [hzero, abs_zero]
      exact abs_nonneg _
    · have hzero : y * r₂ = 0 := by nlinarith
      rw [hzero, add_zero]
    · rw [abs_of_neg h₁, abs_of_neg (add_neg h₁ h₂)]
      omega
  have hone : 1 ≤ |x| := Int.one_le_abs (by rintro rfl; simp at hxy)
  have hr₁ := abs_nonneg r₁
  refine Or.inr ⟨?_, ?_⟩
  · nlinarith
  · nlinarith [mul_le_mul_of_nonneg_right hxy.2 hr₁, mul_le_mul_of_nonneg_left hsum ha₁.le]

/-! ### Tens and half units -/

/-- The least power of ten that a decimal of a number in the binade `k` can be a multiple of, when it
is close to a midpoint. -/
def tens (k : Nat) : Int := -((149 - k) * 1233 / 4096)

/-- Ten to the power `tens k`, over half a unit of the binade `k`, as a fraction. -/
def tensRatio (k : Nat) : Nat × Nat :=
  let t := tens k
  let s := (k : Int) - 150 - t
  (5 ^ t.toNat * 2 ^ (-s).toNat, 5 ^ (-t).toNat * 2 ^ s.toNat)

theorem tensRatio_value (k : Nat) :
    0 < (tensRatio k).2 ∧
      ((tensRatio k).1 / (tensRatio k).2 : ℚ) * 2 ^ ((k : Int) - 150) = 10 ^ tens k := by
  have hsplit : ∀ (x : ℚ) (n : Int), x ≠ 0 → x ^ n = x ^ n.toNat / x ^ (-n).toNat := by
    intro x n hx
    rw [← zpow_natCast, ← zpow_natCast, ← zpow_sub₀ hx]
    congr 1
    omega
  refine ⟨by unfold tensRatio; positivity, ?_⟩
  have hten : (10 : ℚ) ^ tens k = 5 ^ tens k * 2 ^ tens k := by
    rw [← mul_zpow]
    norm_num
  have htwo : (2 : ℚ) ^ ((k : Int) - 150) = 2 ^ tens k * 2 ^ ((k : Int) - 150 - tens k) := by
    rw [← zpow_add₀ two_ne_zero]
    congr 1
    omega
  rw [hten, htwo, hsplit 5 _ (by norm_num), hsplit 2 ((k : Int) - 150 - tens k) two_ne_zero]
  unfold tensRatio
  push_cast
  field_simp

/-- The next approximations of a ratio, until the denominators are too large to matter. -/
def approximations (p q : Int) : Nat → Int × Int × Int × Int → Int × Int × Int × Int
  | 0, c => c
  | fuel + 1, (a₁, b₁, a₂, b₂) =>
    if 2 ^ 25 * q < a₂ * p then (a₁, b₁, a₂, b₂)
    else
      let n := (a₁ * p - b₁ * q).natAbs / (a₂ * p - b₂ * q).natAbs
      approximations p q fuel (a₂, b₂, a₁ + n * a₂, b₁ + n * b₂)

/-- Two approximations of a ratio on its two sides: the second one has too large a denominator, and
the first one is too far away. -/
def separates (p q : Int) : Int × Int × Int × Int → Bool
  | (a₁, b₁, a₂, b₂) =>
    ((a₁ * b₂ - a₂ * b₁).natAbs == 1) && decide ((a₁ * p - b₁ * q) * (a₂ * p - b₂ * q) ≤ 0) &&
      decide (0 < a₁) && decide (2 ^ 25 * q < a₂ * p) && decide (q < 2 ^ 28 * (a₁ * p - b₁ * q).natAbs)

/-- What is checked of a binade: tens are not much smaller than its units, and a few of them are not
close to a number of half units. -/
def settled (k : Nat) : Bool :=
  let (p, q) := tensRatio k
  decide (2 ^ 28 * p < 20 * (2 ^ 28 - 1) * q) &&
    (decide (q ≤ 2 ^ 28) || k == 42 || separates p q (approximations p q 60 (1, 0, 0, 1)))

theorem settled_binades : ∀ k < 254, settled k = true := by decide +kernel

/-- The denominator of what is close to a number of half units is bounded. -/
theorem le_of_close {p q a b : Int} (hq : 0 < q) (hb : b < 2 ^ 25)
    (hclose : 2 ^ 28 * |a * p - b * q| < q) : a * p ≤ 2 ^ 25 * q := by
  have hres := le_abs_self (a * p - b * q)
  have hbq : b * q ≤ (2 ^ 25 - 1) * q := by
    gcongr
    omega
  omega

/-- Nothing is close that two approximations separate. -/
theorem not_close_of_separates {p q a b : Int} {c : Int × Int × Int × Int} (hp : 0 < p) (hq : 0 < q)
    (hsep : separates p q c = true) (ha : 0 ≤ a) (hb : 0 < b) (hbits : b < 2 ^ 25) :
    ¬ 2 ^ 28 * |a * p - b * q| < q := by
  intro hclose
  obtain ⟨a₁, b₁, a₂, b₂⟩ := c
  simp only [separates, Bool.and_eq_true, decide_eq_true_eq, beq_iff_eq] at hsep
  obtain ⟨⟨⟨⟨hdet, hsides⟩, ha₁⟩, ha₂⟩, hfar⟩ := hsep
  rw [← Int.abs_eq_natAbs] at hfar
  have haa₂ : a < a₂ := by
    by_contra hle
    have hmul : a₂ * p ≤ a * p := mul_le_mul_of_nonneg_right (not_lt.1 hle) hp.le
    have := le_of_close hq hbits hclose
    omega
  have hle : |a₁ * p - b₁ * q| ≤ |a * p - b * q| := by
    rcases multiple_or_far (b := b) (Int.natAbs_eq_iff.1 hdet) hsides ha₁ ha haa₂ with ⟨x, hx, hx'⟩ | ⟨h, -⟩
    · have hone : 1 ≤ |x| := by
        refine Int.one_le_abs ?_
        rintro rfl
        omega
      have hres : a * p - b * q = x * (a₁ * p - b₁ * q) := by
        rw [hx, hx']
        ring
      rw [hres, abs_mul]
      exact le_mul_of_one_le_left (abs_nonneg _) hone
    · exact h
  omega

/-- In one binade there is an approximation that is close enough, but its multiples have too large
denominators. -/
theorem eq_of_close_exception {a b : Int} (ha : 0 ≤ a) (hb : 0 < b) (hbits : b < 2 ^ 25)
    (hclose : 2 ^ 28 * |a * 2 ^ 76 - b * 5 ^ 32| < 5 ^ 32) : a = 7038531 ∧ b = 22841339 := by
  have hbound := le_of_close (by norm_num) hbits hclose
  rcases @multiple_or_far (2 ^ 76) (5 ^ 32) 7038531 22841339 1376980346 4468556703 a b (by norm_num)
      (by norm_num) (by norm_num) ha (by omega) with ⟨x, hx, hx'⟩ | ⟨-, hfar⟩
  · omega
  · -- What is no multiple of it is far away, as its denominator is small.
    exfalso
    have hr : |(7038531 : Int) * 2 ^ 76 - 22841339 * 5 ^ 32| = 16835570817659 := by norm_num
    have ha' : a < 20000000 := by omega
    rw [hr] at hfar
    omega

/-- A few tens are not close to a number of half units, but for one exception. -/
theorem eq_of_close {k a b : Nat} (hk : k < 254) (hb : 0 < b) (hbits : b < 2 ^ 25)
    (hclose : 2 ^ 28 * |(a : Int) * (tensRatio k).1 - b * (tensRatio k).2| < (tensRatio k).2) :
    a * (tensRatio k).1 = b * (tensRatio k).2 ∨ k = 42 ∧ a = 7038531 ∧ b = 22841339 := by
  have hsettled := settled_binades k hk
  have hp : 0 < (tensRatio k).1 := by unfold tensRatio; positivity
  have hq : 0 < (tensRatio k).2 := (tensRatio_value k).1
  simp only [settled, Bool.and_eq_true, Bool.or_eq_true, decide_eq_true_eq, beq_iff_eq] at hsettled
  obtain ⟨-, (hsmall | rfl) | hsep⟩ := hsettled
  · left
    have hnonneg := abs_nonneg ((a : Int) * (tensRatio k).1 - b * (tensRatio k).2)
    have hsmall' : ((tensRatio k).2 : Int) ≤ 2 ^ 28 := by exact_mod_cast hsmall
    have hzero : (a : Int) * (tensRatio k).1 = b * (tensRatio k).2 :=
      sub_eq_zero.1 (abs_eq_zero.1 (by omega))
    exact_mod_cast hzero
  · right
    have hratio : tensRatio 42 = (2 ^ 76, 5 ^ 32) := by decide
    rw [hratio] at hclose
    push_cast at hclose
    obtain ⟨ha, hb'⟩ := eq_of_close_exception (Int.natCast_nonneg a) (by omega) (by omega) hclose
    exact ⟨rfl, by omega, by omega⟩
  · exact absurd hclose (not_close_of_separates (by exact_mod_cast hp) (by exact_mod_cast hq) hsep
      (Int.natCast_nonneg a) (by exact_mod_cast hb) (by exact_mod_cast hbits))

/-! ### Decimals close to a midpoint -/

/-- The grid of a nearest point is at least twice as coarse as the point is far away. -/
theorem Interval.Nearest.coarse {i : Interval} {d : Nat} {k : Int} {v : ℚ} (h : i.Nearest d k)
    (hv : (i.value / i.den : ℚ) = v) (hpos : 0 < v)
    (hsym : ∀ x, |x - v| ≤ |(d * 10 ^ k : ℚ) - v| → i.Has x) : 2 * |(d * 10 ^ k : ℚ) - v| ≤ 10 ^ k := by
  by_contra hlt
  rw [not_le] at hlt
  have hunit : (0 : ℚ) < 10 ^ k := by positivity
  -- The next point of the grid on the side of the magnitude would be nearer.
  obtain ⟨d', hd'⟩ : ∃ d' : Nat, |(d' * 10 ^ k : ℚ) - v| < |(d * 10 ^ k : ℚ) - v| := by
    rcases le_or_gt v (d * 10 ^ k) with habove | hbelow
    · rw [abs_of_nonneg (sub_nonneg.2 habove)] at hlt ⊢
      obtain ⟨n, rfl⟩ : ∃ n, d = n + 1 := by
        refine ⟨d - 1, (Nat.sub_add_cancel ?_).symm⟩
        rw [Nat.one_le_iff_ne_zero]
        rintro rfl
        simp at habove
        linarith
      refine ⟨n, abs_lt.2 ⟨?_, ?_⟩⟩ <;> push_cast at hlt ⊢ <;> linarith
    · rw [abs_of_neg (sub_neg.2 hbelow)] at hlt ⊢
      refine ⟨d + 1, abs_lt.2 ⟨?_, ?_⟩⟩ <;> push_cast <;> linarith
  have hle := h.le d' (hsym _ hd'.le)
  rw [hv] at hle
  exact absurd hd' (not_lt.2 hle)

/-- The one magnitude of single precision whose shortest decimal is not read back. -/
def exceptional : Nat := 0x15ae43fd

/-- A magnitude with odd bits in half units of its binade, and the midpoints beside it. -/
theorem exists_half_units {b : Nat} (hfin : b < single.infinity) (hodd : b % 2 = 1) :
    ∃ k j : Nat, b = k * 2 ^ 23 + (2 * j + 1) ∧ k < 254 ∧ j < 2 ^ 23 ∧
      single.valueOf b = (4 * j + 2 : Nat) * 2 ^ ((k : Int) - 150) ∧
      single.midpoint (b - 1) = (4 * j + 1 : Nat) * 2 ^ ((k : Int) - 150) ∧
      single.midpoint b = (4 * j + 3 : Nat) * 2 ^ ((k : Int) - 150) := by
  have hH : single.hidden = 2 ^ 23 := by decide
  have hI : single.infinity = 255 * 2 ^ 23 := by decide
  have hE : single.minExponent = -149 := by decide
  obtain ⟨k, m, hb, hlow, hup⟩ := single.exists_units b
  rw [hH] at hb hlow hup
  rw [hI] at hfin
  obtain ⟨j, rfl⟩ : ∃ j, m = 2 * j + 1 := ⟨m / 2, by omega⟩
  have hexp : single.minExponent + (k : Int) - 1 = (k : Int) - 150 := by omega
  have hbelow : b - 1 = k * single.hidden + 2 * j := by rw [hH]; omega
  refine ⟨k, j, hb, by omega, by omega, ?_, ?_, ?_⟩
  · have hval := single.valueOf_units (k := k) (m := 2 * j + 1) (by rwa [hH]) (by rw [hH]; omega)
    have htwo : (2 : ℚ) ^ (single.minExponent + k) = 2 * 2 ^ ((k : Int) - 150) := by
      rw [← zpow_one_add₀ two_ne_zero]
      congr 1
      omega
    rw [hb, ← hH, hval, htwo]
    push_cast
    ring
  · rw [Format.midpoint_units hbelow (by rw [hH]; omega) (by rw [hH]; omega), hexp]
    push_cast
    ring
  · rw [Format.midpoint_units (b := b) (by rw [hH, hb]) (by rwa [hH]) (by rwa [hH]), hexp]
    push_cast
    ring

/-- The tens of a grid that is almost as coarse as the numbers of a binade. -/
theorem tens_le {k : Nat} (hk : k < 254) {e : Int}
    (hcoarse : (2 ^ 28 - 1) * (2 * 2 ^ ((k : Int) - 150)) ≤ (2 ^ 28 * 10 ^ e : ℚ)) : tens k ≤ e := by
  obtain ⟨hq, hval⟩ := tensRatio_value k
  have hsettled := settled_binades k hk
  simp only [settled, Bool.and_eq_true, decide_eq_true_eq] at hsettled
  have hratio : (2 ^ 28 * (tensRatio k).1 : ℚ) < 20 * (2 ^ 28 - 1) * (tensRatio k).2 := by
    have h := hsettled.1
    norm_num at h ⊢
    exact_mod_cast h
  have hqq : (0 : ℚ) < (tensRatio k).2 := by exact_mod_cast hq
  have hlt : (2 ^ 28 * 10 ^ tens k : ℚ) < 10 * ((2 ^ 28 - 1) * (2 * 2 ^ ((k : Int) - 150))) := by
    rw [← hval]
    calc (2 ^ 28 * ((tensRatio k).1 / (tensRatio k).2 * 2 ^ ((k : Int) - 150)) : ℚ)
        = 2 ^ 28 * (tensRatio k).1 / (tensRatio k).2 * 2 ^ ((k : Int) - 150) := by ring
      _ < 20 * (2 ^ 28 - 1) * 2 ^ ((k : Int) - 150) := by
          gcongr
          rwa [div_lt_iff₀ hqq]
      _ = 10 * ((2 ^ 28 - 1) * (2 * 2 ^ ((k : Int) - 150))) := by ring
  have hpow : (10 : ℚ) ^ tens k < 10 ^ (e + 1) := by
    rw [zpow_add_one₀ (by norm_num)]
    linarith
  have := (zpow_lt_zpow_iff_right₀ (by norm_num)).1 hpow
  omega

/-- A decimal on a grid of tens that is very close to a number of half units is that number, but for
one exception. -/
theorem eq_of_close_decimal {k d n : Nat} {e : Int} (hk : k < 254) (he : tens k ≤ e) (hn : 0 < n)
    (hbits : n < 2 ^ 25)
    (hclose : 2 ^ 53 * |(d * 10 ^ e : ℚ) - n * 2 ^ ((k : Int) - 150)| ≤ n * 2 ^ ((k : Int) - 150)) :
    (d * 10 ^ e : ℚ) = n * 2 ^ ((k : Int) - 150) ∨ k = 42 ∧ n = 22841339 := by
  obtain ⟨hq, hval⟩ := tensRatio_value k
  obtain ⟨j, hj⟩ := Int.le.dest he
  set p := (tensRatio k).1
  set q := (tensRatio k).2
  set u : ℚ := 2 ^ ((k : Int) - 150)
  have hqq : (0 : ℚ) < q := by exact_mod_cast hq
  have hu : 0 < u := by positivity
  -- In units of `u / q` both numbers are whole.
  have hx : (d * 10 ^ e : ℚ) = (d * 10 ^ j : Nat) * p * (u / q) := by
    rw [← hj, zpow_add₀ (by norm_num), zpow_natCast, ← hval]
    push_cast
    ring
  have hy : (n * u : ℚ) = n * q * (u / q) := by
    field_simp
  have hunit : 0 < u / q := by positivity
  have hint : 2 ^ 28 * |((d * 10 ^ j : Nat) : Int) * p - n * q| < q := by
    rw [hx, hy, ← sub_mul, abs_mul, abs_of_pos hunit, ← mul_assoc, mul_le_mul_iff_left₀ hunit] at hclose
    have hn25 : (n : ℚ) * q < 2 ^ 25 * q := by
      gcongr
      exact_mod_cast hbits
    have h : (2 ^ 28 * |((d * 10 ^ j : Nat) : ℚ) * p - n * q|) < q := by linarith
    exact_mod_cast h
  rcases eq_of_close hk hn hbits hint with h | ⟨h, -, h'⟩
  · left
    rw [hx, hy]
    congr 1
    exact_mod_cast h
  · exact Or.inr ⟨h, h'⟩

/-- **No other shortest decimal is rounded onto a midpoint.** -/
theorem round_ne_midpoint {b c num den : Nat} (hden : 0 < den) (hfin : b < single.infinity)
    (hodd : b % 2 = 1) (hne : b ≠ exceptional) (hval : (num / den : ℚ) = (shortest single b).value)
    (hc : c = b - 1 ∨ c = b) : double.valueOf (double.round num den) ≠ single.midpoint c := by
  intro hmid
  have hb : 0 < b := by omega
  have hsmall : single.hidden ≤ 2 ^ 60 := by decide
  obtain ⟨k, j, hbits, hk, hj, hv, hlow, hup⟩ := exists_half_units hfin hodd
  obtain ⟨d, e, hde, hnearest⟩ := exists_nearest_shortest Format.single_hidden_even hsmall hb
  obtain ⟨-, -, hstrict⟩ := shortest_between Format.single_hidden_even hsmall hb
  obtain ⟨hlower, hupper⟩ := hstrict hodd
  obtain ⟨-, hival, hilow, hihigh, hclosed⟩ := interval_spec Format.single_hidden_even hb
  have hclose := Format.abs_sub_midpoint_le hden (by omega) hmid
  rw [hval] at hclose
  have hne' : (shortest single b).value ≠ single.midpoint c := by
    rcases hc with rfl | rfl
    · exact hlower.ne'
    · exact hupper.ne
  rw [hde] at hclose hne' hlower hupper
  set x : ℚ := d * 10 ^ e
  set u : ℚ := 2 ^ ((k : Int) - 150) with hu
  have hupos : 0 < u := by positivity
  obtain ⟨n, hn, hn0, hn25, hnj⟩ : ∃ n : Nat, single.midpoint c = n * u ∧ 0 < n ∧ n < 2 ^ 25 ∧
      (n = 4 * j + 1 ∨ n = 4 * j + 3) := by
    rcases hc with rfl | rfl
    · exact ⟨4 * j + 1, hlow, by omega, by omega, Or.inl rfl⟩
    · exact ⟨4 * j + 3, hup, by omega, by omega, Or.inr rfl⟩
  rw [hn] at hclose hne'
  rw [hlow] at hlower
  rw [hup] at hupper
  -- The decimal is almost half a unit away from the magnitude, so its grid is coarse.
  have hhalf : |(n * u : ℚ) - single.valueOf b| = u := by
    rw [hv]
    rcases hnj with rfl | rfl
    · rw [abs_of_neg (by push_cast; linarith)]
      push_cast
      ring
    · rw [abs_of_pos (by push_cast; linarith)]
      push_cast
      ring
  have hfar : (2 ^ 28 - 1) * u ≤ 2 ^ 28 * |x - single.valueOf b| := by
    have htri := abs_sub_le (n * u : ℚ) x (single.valueOf b)
    rw [hhalf, abs_sub_comm] at htri
    have hnu : (n * u : ℚ) ≤ 2 ^ 25 * u := by
      gcongr
      exact_mod_cast hn25.le
    linarith
  have hcoarse : 2 * |x - single.valueOf b| ≤ 10 ^ e := by
    refine hnearest.coarse hival (by rw [hv]; positivity) fun y hy => ?_
    have hsides : |x - single.valueOf b| < u := by
      rw [hv, abs_lt]
      push_cast at hlower hupper ⊢
      constructor <;> linarith
    obtain ⟨hy₁, hy₂⟩ := abs_lt.1 (hy.trans_lt hsides)
    rw [Interval.Has, hclosed, if_neg (by simp [hodd]), hilow, hihigh, hlow, hup]
    rw [hv] at hy₁ hy₂
    push_cast at hy₁ hy₂ ⊢
    constructor <;> linarith
  have he : tens k ≤ e := tens_le hk (by linarith)
  rcases eq_of_close_decimal hk he hn0 hn25 hclose with h | ⟨rfl, rfl⟩
  · exact hne' h
  · refine hne ?_
    rw [exceptional]
    omega

/-- **A single precision number is read back from its shortest decimal by way of double precision,
unless it is the exceptional one.** -/
theorem convert_round_shortest {b num den : Nat} (hden : 0 < den) (hfin : b < single.infinity)
    (hne : b ≠ exceptional) (hval : (num / den : ℚ) = (shortest single b).value) :
    double.convert single (double.round num den) = b := by
  rcases Nat.eq_zero_or_pos b with rfl | hb
  · have hnum : num = 0 := by
      have hdq : (den : ℚ) ≠ 0 := by positivity
      have hzero : (num / den : ℚ) = 0 := by rw [hval]; simp [shortest, Scaled.value]
      exact_mod_cast (div_eq_zero_iff.1 hzero).resolve_right hdq
    have hround : double.round num den = 0 := if_pos hnum
    rw [hround]
    decide
  · obtain ⟨hlow, hup, -⟩ := shortest_between Format.single_hidden_even (by decide) hb
    rw [← hval] at hlow hup
    exact Format.convert_round hden hb hfin hlow hup fun hodd c hc =>
      round_ne_midpoint hden hfin hodd hne hval hc

end KernelForge.Decimal
