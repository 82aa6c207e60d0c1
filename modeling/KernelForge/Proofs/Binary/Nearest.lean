/-
Rounding finds the nearest number of a format.

The bits of a magnitude grow with it, so two neighbours are magnitudes whose bits follow one another,
and halfway between them lies the midpoint.  What `round` gives for a fraction is the neighbour on
the fraction's side of the midpoint, and on the midpoint itself the one with even bits.  From this it
follows that rounding keeps the order, and that a magnitude is the result exactly for the fractions
between the midpoints on its two sides.

The bits of infinity are taken as a magnitude here as well, the one that would follow the largest
number; what is rounded up to it is what is too large for the format.

A fraction that is rounded to double precision and then to single precision mostly ends where one
rounding would have put it: the midpoints of single precision are double precision numbers, so the
first rounding does not step over one.  But it may step onto one, and then the second rounding goes to
the even neighbour, wherever the fraction came from.  For that the fraction must lie closer to the
midpoint than half a unit of double precision.
-/
import KernelForge.Proofs.Binary.Exact
import Mathlib.Tactic.Linarith

namespace KernelForge.Binary.Format

variable {f : Format} {bits b num den : Nat}

/-! ### Neighbours -/

/-- The number that bits stand for. -/
def valueOf (f : Format) (bits : Nat) : ℚ := (f.unpack bits).value

/-- The middle between a number and the next one. -/
def midpoint (f : Format) (bits : Nat) : ℚ := (f.valueOf bits + f.valueOf (bits + 1)) / 2

/-- Bits that count units from the start of their binade on, and those that end it. -/
theorem valueOf_units (f : Format) {k m : Nat} (hlow : k = 0 ∨ f.hidden ≤ m) (hup : m ≤ 2 * f.hidden) :
    f.valueOf (k * f.hidden + m) = m * 2 ^ (f.minExponent + k) := by
  have hH := f.hidden_pos
  rcases Nat.lt_or_ge m f.hidden with hm | hm
  · obtain rfl : k = 0 := by omega
    rw [valueOf, Nat.zero_mul, Nat.zero_add, unpack, if_pos hm, Parts.value]
    simp
  rcases Nat.lt_or_ge m (2 * f.hidden) with hm' | hm'
  · rw [valueOf, unpack_units hm hm', Parts.value]
  · obtain rfl : m = 2 * f.hidden := by omega
    have hbits : k * f.hidden + 2 * f.hidden = (k + 1) * f.hidden + f.hidden := by ring
    rw [hbits, valueOf, unpack_units (le_refl _) (by omega), Parts.value]
    push_cast
    rw [← add_assoc, zpow_add_one₀ two_ne_zero]
    ring

/-- Bits are counted in units of a binade. -/
theorem exists_units (f : Format) (bits : Nat) :
    ∃ k m, bits = k * f.hidden + m ∧ (k = 0 ∨ f.hidden ≤ m) ∧ m < 2 * f.hidden := by
  have hH := f.hidden_pos
  have hmod : bits % f.hidden < f.hidden := Nat.mod_lt _ hH
  have hdiv : bits / f.hidden * f.hidden + bits % f.hidden = bits := Nat.div_add_mod' ..
  by_cases hsub : bits < f.hidden
  · exact ⟨0, bits, by simp, Or.inl rfl, by omega⟩
  · have hq : 1 ≤ bits / f.hidden := (Nat.one_le_div_iff hH).2 (not_lt.1 hsub)
    refine ⟨bits / f.hidden - 1, f.hidden + bits % f.hidden, ?_, Or.inr (by omega), by omega⟩
    have hstep : bits / f.hidden * f.hidden = (bits / f.hidden - 1) * f.hidden + f.hidden := by
      rw [← Nat.succ_mul]
      congr 1
      omega
    omega

/-- The next number is one unit further. -/
theorem valueOf_succ (f : Format) {k m : Nat} (hlow : k = 0 ∨ f.hidden ≤ m) (hup : m < 2 * f.hidden) :
    f.valueOf (k * f.hidden + m + 1) = f.valueOf (k * f.hidden + m) + 2 ^ (f.minExponent + k) := by
  rw [add_assoc, f.valueOf_units (by omega) (by omega), f.valueOf_units hlow (by omega)]
  push_cast
  ring

theorem valueOf_strictMono (f : Format) : StrictMono f.valueOf := by
  refine strictMono_nat_of_lt_succ fun bits => ?_
  obtain ⟨k, m, rfl, hlow, hup⟩ := f.exists_units bits
  rw [f.valueOf_succ hlow hup]
  exact lt_add_of_pos_right _ (by positivity)

theorem valueOf_zero (f : Format) : f.valueOf 0 = 0 := by
  have h := f.valueOf_units (k := 0) (m := 0) (Or.inl rfl) (by omega)
  simpa using h

theorem lt_midpoint (f : Format) (bits : Nat) : f.valueOf bits < f.midpoint bits := by
  have h := f.valueOf_strictMono (Nat.lt_succ_self bits)
  rw [midpoint]
  linarith

theorem midpoint_lt (f : Format) (bits : Nat) : f.midpoint bits < f.valueOf (bits + 1) := by
  have h := f.valueOf_strictMono (Nat.lt_succ_self bits)
  rw [midpoint]
  linarith

/-- The parts of a number, and the midpoints beside it in units of its binade.  The midpoint below the
first number of a binade is nearer. -/
theorem unpack_beside (hf : f.hidden % 2 = 0) (hb : 0 < b) :
    ∃ m e, f.unpack b = ⟨m, e⟩ ∧ 0 < m ∧ f.valueOf b = m * 2 ^ e ∧ f.midpoint b = (m + 1 / 2) * 2 ^ e ∧
      f.midpoint (b - 1) =
        (m - (if b % f.hidden = 0 ∧ f.hidden < b then 1 else 2 : Nat) / 4) * 2 ^ e ∧
      m % 2 = b % 2 ∧ m < 2 * f.hidden := by
  have hH := f.hidden_pos
  obtain ⟨c, rfl⟩ : ∃ c, b = c + 1 := ⟨b - 1, by omega⟩
  obtain ⟨k, m, rfl, hlow, hup⟩ := f.exists_units c
  have hval : f.valueOf (k * f.hidden + m + 1) = (m + 1 : Nat) * 2 ^ (f.minExponent + k) := by
    rw [add_assoc, f.valueOf_units (by omega) (by omega)]
  have hmid : f.midpoint (k * f.hidden + m) = (m + 1 / 2) * 2 ^ (f.minExponent + k) := by
    rw [midpoint, f.valueOf_succ hlow hup, f.valueOf_units hlow hup.le]
    ring
  have hparity : (k * f.hidden + m + 1) % 2 = (m + 1) % 2 := by
    rw [Nat.add_assoc, Nat.add_mod, Nat.mul_mod, hf]
    simp
  rw [Nat.add_sub_cancel, hmid, hval]
  by_cases hlast : m + 1 < 2 * f.hidden
  · -- The number counts the units of the one below it.
    have hunpack : f.unpack (k * f.hidden + m + 1) = ⟨m + 1, f.minExponent + k⟩ := by
      by_cases hsub : m + 1 < f.hidden
      · obtain rfl : k = 0 := by omega
        rw [unpack, if_pos (by omega)]
        simp
      · exact unpack_units (not_lt.1 hsub) hlast
    have hbelow : ¬ ((k * f.hidden + m + 1) % f.hidden = 0 ∧ f.hidden < k * f.hidden + m + 1) := by
      rintro ⟨hmod, hlt⟩
      have hmod' : (m + 1) % f.hidden = 0 := by
        rw [← hmod, Nat.add_assoc, Nat.mul_comm, Nat.mul_add_mod]
      rcases Nat.lt_or_ge (m + 1) f.hidden with h | h
      · rw [Nat.mod_eq_of_lt h] at hmod'
        omega
      · rw [Nat.mod_eq_sub_mod h, Nat.mod_eq_of_lt (by omega)] at hmod'
        obtain rfl : k = 0 := by omega
        omega
    refine ⟨m + 1, f.minExponent + k, hunpack, by omega, rfl, ?_, ?_, hparity.symm, hlast⟩
    · have hnext := f.valueOf_succ (k := k) (m := m + 1) (by omega) hlast
      rw [← add_assoc, hval] at hnext
      rw [midpoint, hnext, hval]
      push_cast
      ring
    · rw [if_neg hbelow]
      push_cast
      ring
  · -- It starts the next binade.
    obtain hm : m + 1 = 2 * f.hidden := by omega
    have hbits : k * f.hidden + m + 1 = (k + 1) * f.hidden + f.hidden := by
      rw [add_assoc, hm]
      ring
    have hexp : (2 : ℚ) ^ (f.minExponent + (k + 1 : Nat)) = 2 ^ (f.minExponent + k) * 2 := by
      rw [← zpow_add_one₀ two_ne_zero]
      congr 1
      push_cast
      ring
    have hbelow : (k * f.hidden + m + 1) % f.hidden = 0 ∧ f.hidden < k * f.hidden + m + 1 := by
      refine ⟨?_, by omega⟩
      rw [hbits, ← Nat.succ_mul, Nat.mul_mod_left]
    have hmq : (m : ℚ) + 1 = 2 * f.hidden := by exact_mod_cast hm
    refine ⟨f.hidden, f.minExponent + (k + 1 : Nat), ?_, hH, ?_, ?_, ?_, ?_, by omega⟩
    · rw [hbits, unpack_units le_rfl (by omega)]
    · rw [hexp, hm]
      push_cast
      ring
    · rw [midpoint, hbits, f.valueOf_succ (Or.inr le_rfl) (by omega),
        f.valueOf_units (Or.inr le_rfl) (by omega)]
      ring
    · rw [if_pos hbelow, hexp]
      rw [eq_sub_of_add_eq hmq]
      push_cast
      ring
    · rw [hparity, hm, hf]
      omega

theorem midpoint_mono (f : Format) {a b : Nat} (h : a ≤ b) : f.midpoint a ≤ f.midpoint b := by
  have hlow := f.valueOf_strictMono.monotone h
  have hup := f.valueOf_strictMono.monotone (Nat.succ_le_succ h)
  rw [midpoint, midpoint]
  linarith

/-! ### The nearest number -/

/-- What is rounded to, of a number and the next one. -/
def nearer (f : Format) (bits : Nat) (x : ℚ) : Nat :=
  if x < f.midpoint bits then bits
  else if f.midpoint bits < x then bits + 1
  else if bits % 2 = 0 then bits else bits + 1

theorem nearer_cases (f : Format) (bits : Nat) (x : ℚ) :
    f.nearer bits x = bits ∧ x ≤ f.midpoint bits ∧ (bits % 2 = 1 → x < f.midpoint bits) ∨
      f.nearer bits x = bits + 1 ∧ f.midpoint bits ≤ x ∧ (bits % 2 = 0 → f.midpoint bits < x) := by
  unfold nearer
  split_ifs with hlt hgt heven
  · exact Or.inl ⟨rfl, hlt.le, fun _ => hlt⟩
  · exact Or.inr ⟨rfl, hgt.le, fun _ => hgt⟩
  · exact Or.inl ⟨rfl, not_lt.1 hgt, fun h => by omega⟩
  · exact Or.inr ⟨rfl, not_lt.1 hlt, fun h => by omega⟩

/-- The quotient is rounded as its remainder says. -/
theorem divideNearest_eq {n d : Nat} (hd : 0 < d) :
    divideNearest n d = if (n / d : ℚ) < (n / d : Nat) + 1 / 2 then n / d
      else if ((n / d : Nat) : ℚ) + 1 / 2 < n / d then n / d + 1
      else if n / d % 2 = 0 then n / d else n / d + 1 := by
  have hdq : (0 : ℚ) < d := by exact_mod_cast hd
  have hval : (n / d : ℚ) = (n / d : Nat) + (n % d : Nat) / d := by
    have h : (n : ℚ) = (n / d : Nat) * d + (n % d : Nat) := by
      exact_mod_cast (Nat.div_add_mod' n d).symm
    rw [eq_comm, ← sub_eq_zero]
    field_simp
    linarith
  have hless : (n / d : ℚ) < (n / d : Nat) + 1 / 2 ↔ 2 * (n % d) < d := by
    rw [hval, add_lt_add_iff_left, div_lt_iff₀ hdq, ← Nat.cast_lt (α := ℚ)]
    push_cast
    constructor <;> intro h <;> linarith
  have hmore : ((n / d : Nat) : ℚ) + 1 / 2 < n / d ↔ d < 2 * (n % d) := by
    rw [hval, add_lt_add_iff_left, lt_div_iff₀ hdq, ← Nat.cast_lt (α := ℚ)]
    push_cast
    constructor <;> intro h <;> linarith
  simp only [divideNearest, hless, hmore]

/-- **Rounding gives the nearer one of the two numbers that a fraction lies between.** -/
theorem exists_round (hf : f.hidden % 2 = 0) (hnum : 0 < num) (hden : 0 < den) :
    ∃ b, f.valueOf b ≤ num / den ∧ (num / den : ℚ) < f.valueOf (b + 1) ∧
      f.round num den = min f.infinity (f.nearer b (num / den)) := by
  obtain ⟨hlow, hup⟩ := leadingExponent_value hnum hden
  set lead := leadingExponent num den with hlead
  set u : Int := max f.minExponent (lead - (f.precision - 1 : Nat)) with hu
  obtain ⟨k, hk⟩ : ∃ k : Nat, u = f.minExponent + k := ⟨(u - f.minExponent).toNat, by omega⟩
  obtain ⟨hpos, hval⟩ := scale_value num hden (-u)
  set n := (scale num den (-u)).1
  set d := (scale num den (-u)).2
  have hdq : (0 : ℚ) < d := by exact_mod_cast hpos
  have hunit : (0 : ℚ) < 2 ^ u := by positivity
  -- The fraction is `n / d` units, and `q` is the number of whole ones.
  have hx : (num / den : ℚ) = n / d * 2 ^ u := by
    rw [hval, mul_assoc, ← zpow_add₀ two_ne_zero, neg_add_cancel, zpow_zero, mul_one]
  set q := n / d with hq
  have hqle : (q : ℚ) ≤ n / d := by
    rw [le_div_iff₀ hdq]
    exact_mod_cast Nat.div_mul_le_self n d
  have hqlt : (n / d : ℚ) < q + 1 := by
    rw [div_lt_iff₀ hdq]
    exact_mod_cast (Nat.div_lt_iff_lt_mul hpos).1 (Nat.lt_succ_self q)
  have hfill : (2 : ℚ) ^ lead ≤ n / d * 2 ^ u ∧ n / d * 2 ^ u < (2 : ℚ) ^ (lead + 1) := by
    rw [← hx]
    exact ⟨hlow, hup⟩
  have hwhole : q < 2 * f.hidden := by
    have hlt : (q : ℚ) * 2 ^ u < 2 * f.hidden * 2 ^ u := by
      calc (q : ℚ) * 2 ^ u ≤ n / d * 2 ^ u := by gcongr
        _ < 2 ^ (lead + 1) := hfill.2
        _ ≤ 2 ^ (u + ((f.precision - 1 : Nat) : Int) + 1) := by
            refine zpow_le_zpow_right₀ (by norm_num) ?_
            omega
        _ = 2 * f.hidden * 2 ^ u := by
            rw [hidden_value, zpow_add_one₀ two_ne_zero, zpow_add₀ two_ne_zero]
            ring
    have := lt_of_mul_lt_mul_right hlt hunit.le
    exact_mod_cast this
  have hbinade : k = 0 ∨ f.hidden ≤ q := by
    by_cases hk0 : k = 0
    · exact Or.inl hk0
    refine Or.inr ?_
    have hlt : (f.hidden : ℚ) * 2 ^ u < (q + 1) * 2 ^ u := by
      calc (f.hidden : ℚ) * 2 ^ u = 2 ^ lead := by
            rw [hidden_value, ← zpow_add₀ two_ne_zero]
            congr 1
            omega
        _ ≤ n / d * 2 ^ u := hfill.1
        _ < (q + 1) * 2 ^ u := by gcongr
    have : (f.hidden : ℚ) < q + 1 := lt_of_mul_lt_mul_right hlt hunit.le
    have : f.hidden < q + 1 := by exact_mod_cast this
    omega
  have hb : f.valueOf (k * f.hidden + q) = q * 2 ^ u := by
    rw [f.valueOf_units hbinade hwhole.le, hk]
  have hb' : f.valueOf (k * f.hidden + q + 1) = (q + 1) * 2 ^ u := by
    rw [f.valueOf_succ hbinade hwhole, hb, hk]
    ring
  refine ⟨k * f.hidden + q, ?_, ?_, ?_⟩
  · rw [hb, hx]
    gcongr
  · rw [hb', hx]
    gcongr
  have hmid : f.midpoint (k * f.hidden + q) = (q + 1 / 2) * 2 ^ u := by
    rw [midpoint, hb, hb']
    ring
  have hparity : (k * f.hidden + q) % 2 = q % 2 := by
    rw [Nat.add_mod, Nat.mul_mod, hf]
    simp
  have hround : f.round num den = min f.infinity (k * f.hidden + divideNearest n d) := by
    have hcount : (u - f.minExponent).toNat = k := by omega
    rw [← hcount]
    exact if_neg (Nat.pos_iff_ne_zero.1 hnum)
  have hless : n / d * 2 ^ u < (q + 1 / 2 : ℚ) * 2 ^ u ↔ (n / d : ℚ) < q + 1 / 2 :=
    mul_lt_mul_iff_of_pos_right hunit
  have hmore : (q + 1 / 2 : ℚ) * 2 ^ u < n / d * 2 ^ u ↔ (q + 1 / 2 : ℚ) < n / d :=
    mul_lt_mul_iff_of_pos_right hunit
  rw [hround, divideNearest_eq hpos, nearer, hmid, hx, hparity]
  simp only [hless, hmore, ← hq]
  congr 1
  split_ifs <;> omega

/-- Rounding looks at the value of a fraction only. -/
theorem round_congr (hf : f.hidden % 2 = 0) {num' den' : Nat} (hden : 0 < den) (hden' : 0 < den')
    (h : (num / den : ℚ) = num' / den') : f.round num den = f.round num' den' := by
  have hzero : num = 0 ↔ num' = 0 := by
    have hsame : (num / den : ℚ) = 0 ↔ (num' / den' : ℚ) = 0 := by rw [h]
    simpa [div_eq_zero_iff, hden.ne', hden'.ne'] using hsame
  rcases Nat.eq_zero_or_pos num with rfl | hnum
  · rw [hzero.1 rfl]
    simp [round]
  have hnum' : 0 < num' := Nat.pos_of_ne_zero fun h' => by
    have := hzero.2 h'
    omega
  obtain ⟨b, hle, hlt, hround⟩ := exists_round hf hnum hden
  obtain ⟨b', hle', hlt', hround'⟩ := exists_round hf hnum' hden'
  rw [h] at hle hlt hround
  have hb : b < b' + 1 := f.valueOf_strictMono.lt_iff_lt.1 (hle.trans_lt hlt')
  have hb' : b' < b + 1 := f.valueOf_strictMono.lt_iff_lt.1 (hle'.trans_lt hlt)
  obtain rfl : b = b' := by omega
  rw [hround, hround']

/-! ### Order -/

variable {L : Nat}

/-- What is not below a number of the format is not rounded below it. -/
theorem le_round (hf : f.hidden % 2 = 0) (hden : 0 < den) (hL : L ≤ f.infinity)
    (h : f.valueOf L ≤ num / den) : L ≤ f.round num den := by
  rcases Nat.eq_zero_or_pos num with rfl | hnum
  · have hle : f.valueOf L ≤ f.valueOf 0 := by simpa [valueOf_zero] using h
    have := f.valueOf_strictMono.le_iff_le.1 hle
    omega
  obtain ⟨b, -, hlt, hround⟩ := exists_round hf hnum hden
  have hLb : L < b + 1 := f.valueOf_strictMono.lt_iff_lt.1 (h.trans_lt hlt)
  rcases f.nearer_cases b (num / den) with ⟨hb, -⟩ | ⟨hb, -⟩ <;>
    rw [hround, hb] <;> omega

/-- What is not above a number of the format is not rounded above it. -/
theorem round_le_of_le (hf : f.hidden % 2 = 0) (hden : 0 < den) (h : (num / den : ℚ) ≤ f.valueOf L) :
    f.round num den ≤ L := by
  rcases Nat.eq_zero_or_pos num with rfl | hnum
  · simp [round]
  obtain ⟨b, hle, -, hround⟩ := exists_round hf hnum hden
  have hbL : b ≤ L := f.valueOf_strictMono.le_iff_le.1 (hle.trans h)
  rcases f.nearer_cases b (num / den) with ⟨hb, -⟩ | ⟨hb, hmid, -⟩
  · rw [hround, hb]
    omega
  · -- The number itself is not rounded up.
    have hne : b ≠ L := by
      rintro rfl
      exact absurd (f.lt_midpoint b) (not_lt.2 (hmid.trans h))
    rw [hround, hb]
    omega

/-- **The fractions that are rounded to a number lie between the midpoints beside it**, and on one of
them only where the bits of the number are even. -/
theorem round_eq_of_between (hf : f.hidden % 2 = 0) (hden : 0 < den) (hb : 0 < b) (hfin : b < f.infinity)
    (hlow : f.midpoint (b - 1) ≤ num / den) (hup : (num / den : ℚ) ≤ f.midpoint b)
    (hodd : b % 2 = 1 → f.midpoint (b - 1) < num / den ∧ (num / den : ℚ) < f.midpoint b) :
    f.round num den = b := by
  obtain ⟨c, rfl⟩ : ∃ c, b = c + 1 := ⟨b - 1, by omega⟩
  rw [Nat.add_sub_cancel] at hlow hodd
  have hx : (0 : ℚ) < num / den := by
    have hc := f.lt_midpoint c
    have hzero : 0 ≤ f.valueOf c := f.valueOf_zero ▸ f.valueOf_strictMono.monotone (Nat.zero_le c)
    linarith
  have hnum : 0 < num := by
    rcases Nat.eq_zero_or_pos num with rfl | h
    · simp at hx
    · exact h
  obtain ⟨a, hle, hlt, hround⟩ := exists_round hf hnum hden
  have hac : c ≤ a := by
    have h : f.valueOf c < f.valueOf (a + 1) := (f.lt_midpoint c).trans_le (hlow.trans hlt.le)
    have := f.valueOf_strictMono.lt_iff_lt.1 h
    omega
  have hac' : a < c + 1 + 1 :=
    f.valueOf_strictMono.lt_iff_lt.1 ((hle.trans hup).trans_lt (f.midpoint_lt (c + 1)))
  rw [hround]
  -- The fraction lies below the number or above it.
  rcases (by omega : a = c ∨ a = c + 1) with rfl | rfl
  · rcases f.nearer_cases a (num / den) with ⟨-, hmid, hstrict⟩ | ⟨h, -⟩
    · exfalso
      rcases Nat.mod_two_eq_zero_or_one a with ha | ha
      · exact absurd hmid (not_le.2 (hodd (by omega)).1)
      · exact absurd (hstrict ha) (not_lt.2 hlow)
    · rw [h]
      omega
  · rcases f.nearer_cases (c + 1) (num / den) with ⟨h, -⟩ | ⟨-, hmid, hstrict⟩
    · rw [h]
      omega
    · exfalso
      rcases Nat.mod_two_eq_zero_or_one (c + 1) with ha | ha
      · exact absurd (hstrict ha) (not_lt.2 hup)
      · exact absurd hmid (not_le.2 (hodd ha).2)

/-! ### Distance -/

/-- The unit beside a number that fills the precision is small against the number. -/
theorem hidden_mul_gap_le (hb : f.hidden ≤ b + 1) :
    f.hidden * (f.valueOf (b + 1) - f.valueOf b) ≤ f.valueOf (b + 1) := by
  obtain ⟨k, m, rfl, hlow, hup⟩ := f.exists_units b
  have hm : f.hidden ≤ m + 1 := by
    rcases hlow with rfl | hm
    · omega
    · omega
  have hgap : f.valueOf (k * f.hidden + m + 1) = (m + 1 : Nat) * 2 ^ (f.minExponent + k) := by
    rw [add_assoc, f.valueOf_units (by omega) (by omega)]
  rw [f.valueOf_succ hlow hup, add_sub_cancel_left, ← f.valueOf_succ hlow hup, hgap]
  gcongr

/-- What is rounded to a number that fills the precision is at most half a unit away from it. -/
theorem abs_sub_le_of_round (hf : f.hidden % 2 = 0) (hden : 0 < den) (hb : f.hidden ≤ b)
    (hfin : b < f.infinity) (h : f.round num den = b) :
    2 * f.hidden * |(num / den : ℚ) - f.valueOf b| ≤ f.valueOf b := by
  have hH := f.hidden_pos
  have hHQ : (0 : ℚ) < f.hidden := by exact_mod_cast hH
  rcases Nat.eq_zero_or_pos num with rfl | hnum
  · have : b = 0 := by simpa [round] using h.symm
    omega
  obtain ⟨a, hle, hlt, hround⟩ := exists_round hf hnum hden
  rw [h] at hround
  rcases f.nearer_cases a (num / den) with ⟨ha, hmid, -⟩ | ⟨ha, hmid, -⟩
  · -- The fraction lies above the number.
    obtain rfl : b = a := by omega
    obtain ⟨k, m, rfl, hlow, hup⟩ := f.exists_units b
    have hm : f.hidden ≤ m := by
      rcases hlow with rfl | hm
      · omega
      · exact hm
    have hval : f.valueOf (k * f.hidden + m) = m * 2 ^ (f.minExponent + k) :=
      f.valueOf_units hlow hup.le
    have hfills : (f.hidden : ℚ) * 2 ^ (f.minExponent + k) ≤ f.valueOf (k * f.hidden + m) := by
      rw [hval]
      gcongr
    rw [midpoint, f.valueOf_succ hlow hup] at hmid
    rw [abs_of_nonneg (by linarith)]
    calc 2 * f.hidden * ((num / den : ℚ) - f.valueOf (k * f.hidden + m))
        ≤ 2 * f.hidden * (2 ^ (f.minExponent + k) / 2) := by gcongr; linarith
      _ = f.hidden * 2 ^ (f.minExponent + k) := by ring
      _ ≤ f.valueOf (k * f.hidden + m) := hfills
  · obtain rfl : b = a + 1 := by omega
    rw [midpoint] at hmid
    rw [abs_of_nonpos (by linarith), neg_sub]
    calc 2 * f.hidden * (f.valueOf (a + 1) - (num / den : ℚ))
        ≤ 2 * f.hidden * ((f.valueOf (a + 1) - f.valueOf a) / 2) := by gcongr; linarith
      _ = f.hidden * (f.valueOf (a + 1) - f.valueOf a) := by ring
      _ ≤ f.valueOf (a + 1) := hidden_mul_gap_le hb

/-! ### Rounding twice -/

theorem single_hidden_even : single.hidden % 2 = 0 := by decide

theorem double_hidden_even : double.hidden % 2 = 0 := by decide

/-- A midpoint of single precision is an odd number of half units. -/
theorem midpoint_units {b k m : Nat} (hb : b = k * single.hidden + m) (hlow : k = 0 ∨ single.hidden ≤ m)
    (hup : m < 2 * single.hidden) :
    single.midpoint b = (2 * m + 1 : Nat) * 2 ^ (single.minExponent + k - 1) := by
  subst hb
  rw [midpoint, single.valueOf_succ hlow hup, single.valueOf_units hlow hup.le,
    zpow_sub_one₀ two_ne_zero]
  push_cast
  ring

/-- A midpoint of single precision is a number of double precision. -/
theorem exists_midpoint (hb : b < single.infinity) :
    ∃ L, double.hidden ≤ L ∧ L < double.infinity ∧ double.valueOf L = single.midpoint b := by
  have hH : single.hidden = 8388608 := by decide
  have hD : double.hidden = 4503599627370496 := by decide
  have hI : single.infinity = 2139095040 := by decide
  have hE : single.minExponent = -149 := by decide
  have hE' : double.minExponent = -1074 := by decide
  have hP : double.precision = 53 := rfl
  obtain ⟨k, m, rfl, hlow, hup⟩ := single.exists_units b
  have hk : k ≤ 253 := by
    rw [hH, hI] at *
    omega
  let p : Parts := ⟨2 * m + 1, single.minExponent + k - 1⟩
  have hmid : p.value = single.midpoint (k * single.hidden + m) := (midpoint_units rfl hlow hup).symm
  have hroom : ((p.exponent - double.minExponent).toNat + 2) * double.hidden ≤ double.infinity := by
    have hinf : double.infinity = 2047 * double.hidden := by decide
    rw [hinf]
    refine Nat.mul_le_mul_right _ ?_
    show (single.minExponent + k - 1 - double.minExponent).toNat + 2 ≤ 2047
    omega
  obtain ⟨-, hfin, hval⟩ := @unpack_pack double p (Nat.succ_pos _)
    (by show 2 * m + 1 < _; omega)
    (by show _ ≤ single.minExponent + k - 1; omega) hroom
  refine ⟨double.pack p, ?_, hfin, hval.trans hmid⟩
  -- The least midpoint is far above the numbers that do not fill the precision.
  refine double.valueOf_strictMono.le_iff_le.1 ?_
  have hleast : double.valueOf double.hidden = 2 ^ (-1022 : Int) := by
    have h := double.valueOf_units (k := 0) (m := double.hidden) (Or.inl rfl) (by omega)
    rw [Nat.zero_mul, Nat.zero_add] at h
    rw [h, hidden_value, hP, hE', ← zpow_add₀ two_ne_zero]
    norm_num
  rw [hleast]
  calc (2 : ℚ) ^ (-1022 : Int) ≤ 1 * 2 ^ (single.minExponent + k - 1) := by
        rw [one_mul]
        exact zpow_le_zpow_right₀ (by norm_num) (by omega)
    _ ≤ p.value := by
        rw [Parts.value]
        gcongr
        show (1 : ℚ) ≤ (2 * m + 1 : Nat)
        exact_mod_cast Nat.succ_pos _
    _ = double.valueOf (double.pack p) := hval.symm

/-- Narrowing rounds the value of a finite number. -/
theorem exists_convert (hb : b < double.infinity) :
    ∃ n d : Nat, 0 < d ∧ (n / d : ℚ) = double.valueOf b ∧ double.convert single b = single.round n d := by
  obtain ⟨hpos, hs⟩ := scale_value (double.unpack b).significand Nat.one_pos (double.unpack b).exponent
  rw [Nat.cast_one, div_one] at hs
  refine ⟨_, _, hpos, hs, ?_⟩
  rw [convert, if_pos hb, pack]

/-- **Rounding twice is rounding once, unless the first step ends on a midpoint** beside a number with
odd bits. -/
theorem convert_round (hden : 0 < den) (hb : 0 < b) (hfin : b < single.infinity)
    (hlow : single.midpoint (b - 1) ≤ num / den) (hup : (num / den : ℚ) ≤ single.midpoint b)
    (hodd : b % 2 = 1 → ∀ c, c = b - 1 ∨ c = b →
      double.valueOf (double.round num den) ≠ single.midpoint c) :
    double.convert single (double.round num den) = b := by
  obtain ⟨L, -, hLfin, hL⟩ := exists_midpoint (b := b - 1) (by omega)
  obtain ⟨U, -, hUfin, hU⟩ := exists_midpoint hfin
  have hLR : L ≤ double.round num den := le_round double_hidden_even hden hLfin.le (hL ▸ hlow)
  have hRU : double.round num den ≤ U := round_le_of_le double_hidden_even hden (hU ▸ hup)
  have hlow' := double.valueOf_strictMono.monotone hLR
  have hup' := double.valueOf_strictMono.monotone hRU
  rw [hL] at hlow'
  rw [hU] at hup'
  obtain ⟨n, d, hd, hval, hconvert⟩ := exists_convert (hRU.trans_lt hUfin)
  rw [hconvert]
  rw [← hval] at hlow' hup' hodd
  refine round_eq_of_between single_hidden_even hd hb hfin hlow' hup' fun ho => ⟨?_, ?_⟩
  · exact lt_of_le_of_ne hlow' (Ne.symm (hodd ho (b - 1) (Or.inl rfl)))
  · exact lt_of_le_of_ne hup' (hodd ho b (Or.inr rfl))

/-- What double precision rounds to a midpoint of single precision is very close to it. -/
theorem abs_sub_midpoint_le (hden : 0 < den) (hb : b < single.infinity)
    (h : double.valueOf (double.round num den) = single.midpoint b) :
    2 ^ 53 * |(num / den : ℚ) - single.midpoint b| ≤ single.midpoint b := by
  obtain ⟨L, hL, hfin, hval⟩ := exists_midpoint hb
  have hround : double.round num den = L := double.valueOf_strictMono.injective (h.trans hval.symm)
  have hclose := abs_sub_le_of_round double_hidden_even hden hL hfin hround
  have hD : (2 * double.hidden : ℚ) = 2 ^ 53 := by
    have : double.hidden = 2 ^ 52 := by decide
    rw [this]
    norm_num
  rwa [hval, hD] at hclose

end KernelForge.Binary.Format
