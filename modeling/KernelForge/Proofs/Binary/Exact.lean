/-
Rounding is exact on what a format holds.

`round` works on a fraction: it finds the exponent of the leading digit, from it the unit of
the result, and counts units.  When the fraction is a whole number of units nothing is rounded
away, and that is the case for every finite magnitude of the format itself.  So taking a
magnitude apart and packing it again changes nothing, and since double precision holds every
single precision number, widening a number and narrowing it gives the number back.

Fractions are compared as rationals here: `round` sees a numerator and a denominator, and what
matters is only their quotient.
-/
import KernelForge.Binary.Basic
import Mathlib.Algebra.Order.Field.Power
import Mathlib.Data.Rat.Cast.Order
import Mathlib.Tactic.FieldSimp
import Mathlib.Tactic.Positivity
import Mathlib.Tactic.Ring

namespace KernelForge
namespace Binary
namespace Format

/-! ### Fractions and powers of two -/

/-- The magnitude that the parts stand for. -/
def Parts.value (p : Parts) : ℚ := p.significand * 2 ^ p.exponent

theorem scale_value (num : Nat) {den : Nat} (hden : 0 < den) (e : Int) :
    0 < (scale num den e).2 ∧
      ((scale num den e).1 : ℚ) / (scale num den e).2 = (num / den : ℚ) * 2 ^ e := by
  have hd : (den : ℚ) ≠ 0 := by positivity
  unfold scale
  split
  · rename_i he
    obtain ⟨k, rfl⟩ := Int.eq_ofNat_of_zero_le he
    refine ⟨hden, ?_⟩
    simp only [Nat.pow_eq, Int.toNat_natCast, Nat.cast_mul, Nat.cast_pow, Nat.cast_ofNat,
      zpow_natCast]
    ring
  · rename_i he
    obtain ⟨k, rfl⟩ : ∃ k : Nat, e = -(k : Int) := ⟨(-e).toNat, by omega⟩
    refine ⟨Nat.mul_pos hden (Nat.pow_pos (by decide)), ?_⟩
    simp only [Nat.pow_eq, neg_neg, Int.toNat_natCast, Nat.cast_mul, Nat.cast_pow,
      Nat.cast_ofNat, zpow_neg, zpow_natCast]
    field_simp

theorem log2_value {n : Nat} (h : 0 < n) :
    (2 : ℚ) ^ (n.log2 : Int) ≤ n ∧ (n : ℚ) < 2 ^ ((n.log2 : Int) + 1) := by
  constructor
  · rw [zpow_natCast]
    exact_mod_cast Nat.log2_self_le (Nat.pos_iff_ne_zero.1 h)
  · have hlt : (n : ℚ) < 2 ^ (n.log2 + 1) := by exact_mod_cast Nat.lt_log2_self
    exact_mod_cast hlt

/-- The leading exponent of a positive fraction: the fraction lies between its power of two
and the next. -/
theorem leadingExponent_value {num den : Nat} (hnum : 0 < num) (hden : 0 < den) :
    (2 : ℚ) ^ leadingExponent num den ≤ num / den ∧
      (num / den : ℚ) < 2 ^ (leadingExponent num den + 1) := by
  obtain ⟨hn, hn'⟩ := log2_value hnum
  obtain ⟨hd, hd'⟩ := log2_value hden
  have hdpos : (0 : ℚ) < den := by exact_mod_cast hden
  have htwo : (2 : ℚ) ≠ 0 := by norm_num
  set guess : Int := (num.log2 : Int) - den.log2 with hguess
  -- The guess is off by at most one, and only upwards.
  have hup : (num / den : ℚ) < 2 ^ (guess + 1) := by
    rw [div_lt_iff₀ hdpos]
    calc (num : ℚ) < 2 ^ ((num.log2 : Int) + 1) := hn'
      _ = 2 ^ (guess + 1) * 2 ^ (den.log2 : Int) := by
          rw [← zpow_add₀ htwo, hguess]; congr 1; ring
      _ ≤ 2 ^ (guess + 1) * den := by gcongr
  have hlow : (2 : ℚ) ^ (guess - 1) ≤ num / den := by
    rw [le_div_iff₀ hdpos]
    calc (2 : ℚ) ^ (guess - 1) * den ≤ 2 ^ (guess - 1) * 2 ^ ((den.log2 : Int) + 1) := by gcongr
      _ = 2 ^ (num.log2 : Int) := by
          rw [← zpow_add₀ htwo, hguess]; congr 1; ring
      _ ≤ num := hn
  obtain ⟨hspos, hsval⟩ := scale_value num hden (-guess)
  have htest : (scale num den (-guess)).2 ≤ (scale num den (-guess)).1 ↔
      (2 : ℚ) ^ guess ≤ num / den := by
    have hs : (0 : ℚ) < (scale num den (-guess)).2 := by exact_mod_cast hspos
    rw [← Nat.cast_le (α := ℚ), ← one_le_div₀ hs, hsval, zpow_neg, ← div_eq_mul_inv,
      one_le_div₀ (by positivity)]
  have heq : leadingExponent num den =
      if (scale num den (-guess)).2 ≤ (scale num den (-guess)).1 then guess else guess - 1 := rfl
  rw [heq]
  split
  · rename_i hle
    exact ⟨htest.1 hle, hup⟩
  · rename_i hgt
    refine ⟨hlow, ?_⟩
    rw [sub_add_cancel]
    exact lt_of_not_ge fun hle => hgt (htest.2 hle)

theorem leadingExponent_eq {num den : Nat} {L : Int} (hnum : 0 < num) (hden : 0 < den)
    (hlow : (2 : ℚ) ^ L ≤ num / den) (hup : (num / den : ℚ) < 2 ^ (L + 1)) :
    leadingExponent num den = L := by
  obtain ⟨hlow', hup'⟩ := leadingExponent_value hnum hden
  have h₁ := (zpow_lt_zpow_iff_right₀ (by norm_num : (1 : ℚ) < 2)).1 (hlow.trans_lt hup')
  have h₂ := (zpow_lt_zpow_iff_right₀ (by norm_num : (1 : ℚ) < 2)).1 (hlow'.trans_lt hup)
  omega

theorem divideNearest_of_value {n d q : Nat} (hd : 0 < d) (h : (n / d : ℚ) = q) :
    divideNearest n d = q := by
  have hn : n = q * d := by
    rw [div_eq_iff (by positivity)] at h
    exact_mod_cast h
  simp [divideNearest, hn, Nat.mul_div_cancel _ hd, hd]

/-! ### Whole numbers of units -/

/-- A fraction that is a whole number `m` of the units it is counted in is not rounded. -/
theorem round_of_units {f : Format} {num den m : Nat} {u : Int} (hnum : 0 < num)
    (hden : 0 < den)
    (hu : u = max f.minExponent (leadingExponent num den - (f.precision - 1 : Nat)))
    (hval : (num / den : ℚ) = m * 2 ^ u) :
    f.round num den = min f.infinity ((u - f.minExponent).toNat * f.hidden + m) := by
  obtain ⟨hpos, hs⟩ := scale_value num hden (-u)
  have hm : divideNearest (scale num den (-u)).1 (scale num den (-u)).2 = m := by
    refine divideNearest_of_value hpos ?_
    rw [hs, hval, mul_assoc, ← zpow_add₀ (by norm_num), add_neg_cancel, zpow_zero, mul_one]
  have heq : f.round num den =
      if num = 0 then 0
      else
        let unit := max f.minExponent (leadingExponent num den - (f.precision - 1 : Nat))
        min f.infinity ((unit - f.minExponent).toNat * f.hidden +
          divideNearest (scale num den (-unit)).1 (scale num den (-unit)).2) := rfl
  rw [heq, if_neg (Nat.pos_iff_ne_zero.1 hnum)]
  simp only [← hu, hm]

theorem hidden_pos (f : Format) : 0 < f.hidden := Nat.pow_pos (by decide)

theorem hidden_value (f : Format) : (f.hidden : ℚ) = 2 ^ ((f.precision - 1 : Nat) : Int) := by
  simp [hidden]

theorem unpack_significand_pos {f : Format} {bits : Nat} (h : 0 < bits) :
    0 < (f.unpack bits).significand := by
  have hpos := f.hidden_pos
  unfold unpack
  split
  · exact h
  · exact Nat.add_pos_left hpos _

/-- **A finite magnitude of the format is what its own value rounds to**, however the value is
written as a fraction. -/
theorem round_value {f : Format} {bits num den : Nat} (hfin : bits < f.infinity)
    (hnum : 0 < num) (hden : 0 < den) (hval : (num / den : ℚ) = (f.unpack bits).value) : f.round num den = bits := by
  have hH := f.hidden_pos
  have hHQ := f.hidden_value
  have htwo : (1 : ℚ) < 2 := by norm_num
  obtain ⟨hlow, hup⟩ := leadingExponent_value hnum hden
  by_cases hsub : bits < f.hidden
  · -- Below the hidden bit the unit is the least one, and the bits count it.
    have hv : (num / den : ℚ) = bits * 2 ^ f.minExponent := by
      rw [hval, unpack, if_pos hsub]; rfl
    have hL : leadingExponent num den - (f.precision - 1 : Nat) < f.minExponent := by
      have hlt : (2 : ℚ) ^ leadingExponent num den <
          2 ^ (((f.precision - 1 : Nat) : Int) + f.minExponent) := by
        calc (2 : ℚ) ^ leadingExponent num den ≤ bits * 2 ^ f.minExponent := hv ▸ hlow
          _ < f.hidden * 2 ^ f.minExponent := by gcongr
          _ = _ := by rw [hHQ, zpow_add₀ (by norm_num)]
      have := (zpow_lt_zpow_iff_right₀ htwo).1 hlt
      omega
    rw [round_of_units hnum hden (max_eq_left hL.le).symm hv]
    simp only [sub_self, Int.toNat_zero, zero_mul, zero_add]
    omega
  · -- From the hidden bit on the significand fills the precision, and its exponent is the unit.
    rw [not_lt] at hsub
    have hq : 1 ≤ bits / f.hidden := (Nat.one_le_div_iff hH).2 hsub
    have hmod : bits % f.hidden < f.hidden := Nat.mod_lt _ hH
    have hdm : bits / f.hidden * f.hidden + bits % f.hidden = bits := Nat.div_add_mod' ..
    obtain ⟨k, hk⟩ : ∃ k : Nat, bits / f.hidden = k + 1 := ⟨bits / f.hidden - 1, by omega⟩
    set unit : Int := f.minExponent + k with hunit
    have hv : (num / den : ℚ) = (f.hidden + bits % f.hidden : Nat) * 2 ^ unit := by
      rw [hval, unpack, if_neg (not_lt.2 hsub), hk, Parts.value]
      congr 2
      push_cast
      omega
    have hL : leadingExponent num den = unit + (f.precision - 1 : Nat) := by
      refine leadingExponent_eq hnum hden ?_ ?_
      · rw [hv, add_comm, zpow_add₀ (by norm_num), ← hHQ]
        gcongr
        omega
      · have hlt : ((f.hidden + bits % f.hidden : Nat) : ℚ) < f.hidden * 2 := by
          exact_mod_cast (by omega : f.hidden + bits % f.hidden < f.hidden * 2)
        calc (num / den : ℚ) = (f.hidden + bits % f.hidden : Nat) * 2 ^ unit := hv
          _ < f.hidden * 2 * 2 ^ unit := by gcongr
          _ = 2 ^ (unit + (f.precision - 1 : Nat) + 1) := by
              rw [hHQ, zpow_add_one₀ two_ne_zero, add_comm unit, zpow_add₀ two_ne_zero _ unit]; ring
    rw [round_of_units (u := unit) hnum hden (by rw [hL]; omega) hv]
    have hunits : (unit - f.minExponent).toNat = k := by omega
    rw [hk, Nat.add_mul] at hdm
    rw [hunits]
    omega

theorem scale_pos {num den : Nat} (hnum : 0 < num) (e : Int) : 0 < (scale num den e).1 := by
  unfold scale
  split
  · exact Nat.mul_pos hnum (Nat.pow_pos (by decide))
  · exact hnum

/-- What a magnitude is packed from decides the result only through its value. -/
theorem pack_value {f : Format} {bits : Nat} {p : Parts} (hfin : bits < f.infinity)
    (hp : 0 < p.significand) (hval : p.value = (f.unpack bits).value) :
    f.pack p = bits := by
  obtain ⟨hpos, hs⟩ := scale_value p.significand Nat.one_pos p.exponent
  rw [Nat.cast_one, div_one] at hs
  exact round_value hfin (scale_pos hp p.exponent) hpos (hs.trans hval)

/-! ### Moving to a wider format -/

/-- Bits that count whole units from the hidden bit on are the units and how many of them. -/
theorem unpack_units {f : Format} {k m : Nat} (hlow : f.hidden ≤ m) (hup : m < 2 * f.hidden) :
    f.unpack (k * f.hidden + m) = ⟨m, f.minExponent + k⟩ := by
  have hH := f.hidden_pos
  obtain ⟨r, rfl⟩ := Nat.exists_eq_add_of_le hlow
  have hr : r < f.hidden := by omega
  have hbits : k * f.hidden + (f.hidden + r) = r + f.hidden * (k + 1) := by ring
  rw [unpack, if_neg (by rw [hbits, Nat.mul_add]; omega), hbits, Nat.add_mul_mod_self_left,
    Nat.add_mul_div_left _ _ hH, Nat.mod_eq_of_lt hr, Nat.div_eq_of_lt hr]
  congr 1
  push_cast
  omega

/-- Parts that a format has room for keep their value when they are packed: the significand
fits the precision, the exponent is above the least ones and below the largest. -/
theorem unpack_pack {f : Format} {p : Parts} (hpos : 0 < p.significand)
    (hfits : p.significand < 2 * f.hidden)
    (hlow : f.minExponent + (f.precision - 1 : Nat) ≤ p.exponent)
    (hhigh : ((p.exponent - f.minExponent).toNat + 2) * f.hidden ≤ f.infinity) :
    0 < f.pack p ∧ f.pack p < f.infinity ∧ (f.unpack (f.pack p)).value = p.value := by
  obtain ⟨s, e⟩ := p
  dsimp only at hpos hfits hlow hhigh
  have hH := f.hidden_pos
  obtain ⟨hl, hu⟩ := log2_value hpos
  -- The significand is moved up until it fills the precision.
  have hlog : s.log2 ≤ f.precision - 1 := by
    have hlt : 2 ^ s.log2 < 2 ^ (f.precision - 1 + 1) :=
      calc 2 ^ s.log2 ≤ s := Nat.log2_self_le (by omega)
        _ < 2 * f.hidden := hfits
        _ = 2 ^ (f.precision - 1 + 1) := by rw [hidden, Nat.pow_eq]; ring
    have := (Nat.pow_lt_pow_iff_right (by decide)).1 hlt
    omega
  set up := f.precision - 1 - s.log2 with hup
  have hfill : f.hidden = 2 ^ s.log2 * 2 ^ up := by
    rw [← pow_add, hup, Nat.add_sub_cancel' hlog, hidden, Nat.pow_eq]
  have hm : f.hidden ≤ s * 2 ^ up := by
    rw [hfill]
    exact Nat.mul_le_mul_right _ (Nat.log2_self_le (by omega))
  have hm' : s * 2 ^ up < 2 * f.hidden := by
    rw [hfill, ← mul_assoc, ← pow_succ']
    exact Nat.mul_lt_mul_of_pos_right Nat.lt_log2_self (by positivity)
  obtain ⟨k, hk⟩ : ∃ k : Nat, (k : Int) = e - up - f.minExponent := ⟨_, Int.toNat_of_nonneg (by omega)⟩
  obtain ⟨hden, hs⟩ := scale_value s Nat.one_pos e
  rw [Nat.cast_one, div_one] at hs
  have hunits : ((s * 2 ^ up : Nat) : ℚ) * 2 ^ (f.minExponent + k) = s * 2 ^ e := by
    have : f.minExponent + (k : Int) = e + -(up : Int) := by omega
    rw [this, zpow_add₀ two_ne_zero, zpow_neg, zpow_natCast]
    push_cast
    field_simp
  have hL : leadingExponent (scale s 1 e).1 (scale s 1 e).2 = s.log2 + e := by
    refine leadingExponent_eq (scale_pos hpos _) hden ?_ ?_
    · rw [hs, zpow_add₀ two_ne_zero]
      gcongr
    · rw [hs, add_right_comm, zpow_add₀ two_ne_zero]
      gcongr
  have hbelow : k * f.hidden + s * 2 ^ up < f.infinity :=
    calc k * f.hidden + s * 2 ^ up < k * f.hidden + 2 * f.hidden := by omega
      _ = (k + 2) * f.hidden := by ring
      _ ≤ ((e - f.minExponent).toNat + 2) * f.hidden := by gcongr; omega
      _ ≤ f.infinity := hhigh
  have hbits : f.pack ⟨s, e⟩ = k * f.hidden + s * 2 ^ up := by
    have hround := round_of_units (f := f) (m := s * 2 ^ up) (u := f.minExponent + k)
      (scale_pos hpos e) hden (by rw [hL]; omega) (hs.trans hunits.symm)
    have hcount : (f.minExponent + (k : Int) - f.minExponent).toNat = k := by omega
    rw [hcount, min_eq_right hbelow.le] at hround
    exact hround
  rw [hbits, unpack_units hm hm']
  exact ⟨by omega, hbelow, hunits⟩

/-- What the parts of a finite single precision magnitude can be. -/
theorem single_unpack {bits : Nat} (h : bits < single.infinity) :
    (single.unpack bits).significand < 2 * single.hidden ∧
      -149 ≤ (single.unpack bits).exponent ∧ (single.unpack bits).exponent ≤ 104 := by
  have hH : single.hidden = 8388608 := by decide
  have hI : single.infinity = 2139095040 := by decide
  have hE : single.minExponent = -149 := by decide
  rw [hI] at h
  unfold unpack
  rw [hH, hE]
  split
  · refine ⟨?_, ?_, ?_⟩ <;> dsimp only <;> omega
  · refine ⟨?_, ?_, ?_⟩ <;> dsimp only <;> omega

/-- A finite single precision magnitude keeps its value in double precision. -/
theorem convert_double {bits : Nat} (hpos : 0 < bits) (hfin : bits < single.infinity) :
    0 < single.convert double bits ∧ single.convert double bits < double.infinity ∧
      (double.unpack (single.convert double bits)).value = (single.unpack bits).value := by
  obtain ⟨hfits, hlow, hhigh⟩ := single_unpack hfin
  rw [convert, if_pos hfin]
  refine unpack_pack (unpack_significand_pos hpos) (hfits.trans (by decide)) ?_ ?_
  · have hE : double.minExponent = -1074 := by decide
    have hP : double.precision = 53 := rfl
    omega
  · have hE : double.minExponent = -1074 := by decide
    have hI : double.infinity = 2046 * double.hidden + double.hidden := by decide
    rw [hE, hI, ← Nat.succ_mul]
    gcongr
    omega

/-- **Every single precision magnitude that is a number survives the way to double precision
and back.** -/
theorem convert_convert {bits : Nat} (h : bits ≤ single.infinity) :
    double.convert single (single.convert double bits) = bits := by
  rcases Nat.eq_or_lt_of_le h with rfl | hfin
  · decide
  rcases Nat.eq_zero_or_pos bits with rfl | hpos
  · decide
  obtain ⟨hwpos, hwfin, hval⟩ := convert_double hpos hfin
  rw [convert, if_pos hwfin]
  exact pack_value hfin (unpack_significand_pos hwpos) hval

theorem round_le (f : Format) (num den : Nat) : f.round num den ≤ f.infinity := by
  unfold round
  split
  · exact Nat.zero_le _
  · exact Nat.min_le_left _ _

theorem convert_le {src : Format} (dst : Format) {bits : Nat} (h : bits ≤ src.infinity) :
    src.convert dst bits ≤ dst.infinity := by
  unfold convert
  split
  · exact round_le dst _ _
  · rw [if_pos (by omega)]

end Format
end Binary

/-! ### Numbers -/

namespace Binary32

theorem ofParts_self (x : Binary32) : ofParts x.isNegative x.magnitude = x := by
  have hS : format.signBit = 2147483648 := by decide
  obtain ⟨bits⟩ := x
  have hlt := bits.toNat_lt
  simp only [ofParts, isNegative, magnitude, hS, mk.injEq, decide_eq_true_eq, ← UInt32.toNat_inj,
    UInt32.toNat_ofNat']
  split <;> omega

theorem ofParts_parts (negative : Bool) {m : Nat} (h : m ≤ format.infinity) :
    (ofParts negative m).isNegative = negative ∧ (ofParts negative m).magnitude = m := by
  have hS : format.signBit = 2147483648 := by decide
  have hI : format.infinity = 2139095040 := by decide
  rw [hI] at h
  simp only [isNegative, magnitude, ofParts, hS, UInt32.toNat_ofNat']
  cases negative <;> simp <;> omega

theorem neg_ofParts (negative : Bool) {m : Nat} (h : m ≤ format.infinity) :
    (ofParts negative m).neg = ofParts (!negative) m := by
  obtain ⟨hneg, hmag⟩ := ofParts_parts negative h
  rw [neg, hneg, hmag]

end Binary32

namespace Binary64

theorem ofParts_parts (negative : Bool) {m : Nat} (h : m ≤ format.infinity) :
    (ofParts negative m).isNegative = negative ∧ (ofParts negative m).magnitude = m := by
  have hS : format.signBit = 9223372036854775808 := by decide
  have hI : format.infinity = 9218868437227405312 := by decide
  rw [hI] at h
  simp only [isNegative, magnitude, ofParts, hS, UInt64.toNat_ofNat']
  cases negative <;> simp <;> omega

/-- **A single precision number that is widened is narrowed to itself**, unless it is not a
number: those are all narrowed alike. -/
theorem narrow_widen {x : Binary32} (h : x.isNaN = false) : x.widen.narrow = x := by
  have hle : x.magnitude ≤ Binary32.format.infinity := by simpa [Binary32.isNaN] using h
  obtain ⟨hneg, hmag⟩ := ofParts_parts x.isNegative (Binary.Format.convert_le format hle)
  rw [narrow, Binary32.widen, hneg, hmag]
  rw [show format.convert Binary32.format (Binary32.format.convert format x.magnitude) = x.magnitude
    from Binary.Format.convert_convert hle]
  exact x.ofParts_self

end Binary64
end KernelForge
