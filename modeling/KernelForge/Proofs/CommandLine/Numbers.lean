/-
Lists of whole numbers on the command line.

A number is written as in source text: its first characters announce the base, and an underscore may
stand before any digit but the very first one.  The grammar below says which integer such a text
denotes, and the reader takes exactly the texts of the grammar whose integer has 64 bits.  The
type of the numbers is looked at only then: the integer is cut to its width, and nobody notices what
is lost.  So a list is read as it is written exactly if its type holds all of its integers.
-/
import KernelForge.CommandLine.Task
import KernelForge.Proofs.Formula.Numerals

namespace KernelForge

namespace Numeral

/-! ### What a text denotes -/

/-- Digits that follow a value in some base, each of them maybe after an underscore, and what all of
them together come to. -/
inductive Digits (base : Nat) : Nat → List Char → Nat → Prop where
  | nil {v : Nat} : Digits base v [] v
  | digit {v d n : Nat} {c : Char} {cs : List Char} : digitValue? c = some d → d < base →
      Digits base (v * base + d) cs n → Digits base v (c :: cs) n
  | separated {v d n : Nat} {c : Char} {cs : List Char} : digitValue? c = some d → d < base →
      Digits base (v * base + d) cs n → Digits base v ('_' :: c :: cs) n

/-- The base that a letter after a zero announces. -/
def announced? (c : Char) : Option Nat :=
  if c = 'x' || c = 'X' then some 16
  else if c = 'o' || c = 'O' then some 8
  else if c = 'b' || c = 'B' then some 2
  else none

/-- A text that denotes a natural number. -/
inductive Natural : List Char → Nat → Prop where
  | decimal {d n : Nat} {c : Char} {cs : List Char} : digitValue? c = some d → 0 < d → d < 10 →
      Digits 10 d cs n → Natural (c :: cs) n
  | octal {n : Nat} {cs : List Char} : Digits 8 0 cs n → Natural ('0' :: cs) n
  | based {base n : Nat} {c : Char} {cs : List Char} : announced? c = some base → cs ≠ [] →
      Digits base 0 cs n → Natural ('0' :: c :: cs) n

/-- A text that denotes an integer; signs are for signed types only. -/
inductive Denotes (signed : Bool) : List Char → Int → Prop where
  | plain {n : Nat} {cs : List Char} : Natural cs n → Denotes signed cs n
  | plus {n : Nat} {cs : List Char} : signed = true → Natural cs n → Denotes signed ('+' :: cs) n
  | minus {n : Nat} {cs : List Char} : signed = true → Natural cs n → Denotes signed ('-' :: cs) (-n)

/-! ### Digits -/

theorem isDigit_of_digitValue? {c : Char} {d : Nat} (hc : digitValue? c = some d) (hd : d < 10) :
    c.isDigit = true := by
  unfold digitValue? at hc
  split at hc
  · assumption
  · split at hc
    · cases hc
      omega
    · split at hc <;> cases hc
      omega

/-- Digits only make a number larger. -/
theorem Digits.le {base : Nat} (hbase : 0 < base) {v n : Nat} {cs : List Char}
    (h : Digits base v cs n) : v ≤ n := by
  have hgrow : ∀ v d : Nat, v ≤ v * base + d := fun v d =>
    (Nat.le_mul_of_pos_right v hbase).trans (Nat.le_add_right _ _)
  induction h with
  | nil => exact Nat.le_refl _
  | digit _ _ _ ih => exact (hgrow _ _).trans ih
  | separated _ _ _ ih => exact (hgrow _ _).trans ih

/-- One digit is read if the number does not get too large by it. -/
theorem digitsFrom_digit {base limit v d : Nat} {c : Char} (cs : List Char)
    (hc : digitValue? c = some d) (hd : d < base) (hle : v * base + d ≤ limit) :
    digitsFrom base limit true v (c :: cs) = digitsFrom base limit true (v * base + d) cs := by
  have hne : c ≠ '_' := by
    rintro rfl
    cases hc
  rw [digitsFrom]
  simp [hne, hc, Nat.not_le.mpr hd, Nat.not_lt.mpr hle]

theorem Digits.read {base limit : Nat} (hbase : 0 < base) {v n : Nat} {cs : List Char}
    (h : Digits base v cs n) (hn : n ≤ limit) : digitsFrom base limit true v cs = .ok n := by
  induction h with
  | nil => rw [digitsFrom]
  | digit hc hd htail ih =>
    rw [digitsFrom_digit _ hc hd ((htail.le hbase).trans hn)]
    exact ih hn
  | separated hc hd htail ih =>
    rw [digitsFrom, if_pos (by rfl), digitsFrom_digit _ hc hd ((htail.le hbase).trans hn)]
    exact ih hn

/-- The bases whose digits are looked for between underscores. -/
def Spelled (hex : Bool) (base : Nat) : Prop := base ≤ 10 ∨ hex = true ∧ base = 16

theorem separatesFrom_digit {hex : Bool} {base d : Nat} {c : Char} (hbase : Spelled hex base)
    (hc : digitValue? c = some d) (hd : d < base) (b : Before) (cs : List Char) :
    separatesFrom hex b (c :: cs) = separatesFrom hex .digit cs := by
  have hdigit : (c.isDigit || (hex && (digitValue? c).any (· < 16))) = true := by
    rcases hbase with hten | ⟨rfl, rfl⟩
    · rw [isDigit_of_digitValue? hc (by omega), Bool.true_or]
    · simp [hc, hd]
  rw [separatesFrom, if_pos hdigit]

theorem separatesFrom_underscore (hex : Bool) (b : Before) (cs : List Char) :
    separatesFrom hex b ('_' :: cs) = (decide (b = .digit) && separatesFrom hex .underscore cs) := by
  cases hex <;> rfl

/-- Underscores between digits stand where they may. -/
theorem Digits.separates {hex : Bool} {base v n : Nat} {cs : List Char} (hbase : Spelled hex base)
    (h : Digits base v cs n) : separatesFrom hex .digit cs = true := by
  induction h with
  | nil => rfl
  | digit hc hd _ ih => rw [separatesFrom_digit hbase hc hd, ih]
  | separated hc hd _ ih =>
    rw [separatesFrom_underscore, separatesFrom_digit hbase hc hd, ih]
    rfl

/-- What reads as digits is an underscore, or a digit. -/
theorem digitsFrom_cons {base limit v n : Nat} {c : Char} {cs : List Char}
    (h : digitsFrom base limit true v (c :: cs) = .ok n) :
    (c = '_' ∧ digitsFrom base limit true v cs = .ok n) ∨
      ∃ d, c ≠ '_' ∧ digitValue? c = some d ∧ d < base ∧
        digitsFrom base limit true (v * base + d) cs = .ok n := by
  rw [digitsFrom] at h
  by_cases hc : c = '_'
  · exact .inl ⟨hc, by simpa [hc] using h⟩
  · rw [if_neg (by simp [hc])] at h
    split at h
    · cases h
    · rename_i d hd
      split at h
      · cases h
      · split at h
        · cases h
        · exact .inr ⟨d, hc, hd, by omega, h⟩

/-- What is read, with its underscores where they may stand, are digits, also after one more
underscore if that is still missing its digit. -/
theorem digits_of_separates {hex : Bool} {base limit : Nat} (hbase : Spelled hex base) :
    ∀ {cs : List Char} {v n : Nat}, digitsFrom base limit true v cs = .ok n →
      (separatesFrom hex .digit cs = true → Digits base v cs n) ∧
        (separatesFrom hex .underscore cs = true → Digits base v ('_' :: cs) n)
  | [], v, n, h => by
    cases h
    exact ⟨fun _ => .nil, nofun⟩
  | c :: cs, v, n, h => by
    rcases digitsFrom_cons h with ⟨rfl, hrest⟩ | ⟨d, -, hc, hd, hrest⟩
    · simp only [separatesFrom_underscore]
      refine ⟨fun hsep => (digits_of_separates hbase hrest).2 ?_, nofun⟩
      simpa using hsep
    · simp only [separatesFrom_digit hbase hc hd]
      have ih := (digits_of_separates hbase hrest).1
      exact ⟨fun hsep => .digit hc hd (ih hsep), fun hsep => .separated hc hd (ih hsep)⟩

/-- Without an underscore there is nothing to check. -/
theorem digits_of_not_mem {base limit : Nat} : ∀ {cs : List Char} {v n : Nat}, '_' ∉ cs →
    digitsFrom base limit true v cs = .ok n → Digits base v cs n
  | [], v, n, _, h => by
    cases h
    exact .nil
  | c :: cs, v, n, hcs, h => by
    rw [List.mem_cons, not_or] at hcs
    rcases digitsFrom_cons h with ⟨hc, -⟩ | ⟨d, -, hc, hd, htail⟩
    · exact absurd hc.symm hcs.1
    · exact .digit hc hd (digits_of_not_mem hcs.2 htail)

/-! ### Natural numbers -/

theorem announced?_cases {c : Char} {base : Nat} (h : announced? c = some base) :
    (c = 'x' ∨ c = 'X') ∧ base = 16 ∨ (c = 'o' ∨ c = 'O') ∧ base = 8 ∨
      (c = 'b' ∨ c = 'B') ∧ base = 2 := by
  unfold announced? at h
  split at h
  · rename_i hc
    cases h
    exact .inl ⟨by simpa using hc, rfl⟩
  · split at h
    · rename_i hc
      cases h
      exact .inr (.inl ⟨by simpa using hc, rfl⟩)
    · split at h
      · rename_i hc
        cases h
        exact .inr (.inr ⟨by simpa using hc, rfl⟩)
      · cases h

/-- No octal digit announces a base, and no underscore does. -/
theorem announced?_eq_none {c : Char} (h : c = '_' ∨ ∃ d, digitValue? c = some d ∧ d < 8) :
    announced? c = none := by
  cases hc : announced? c with
  | none => rfl
  | some base =>
    exfalso
    rcases h with rfl | ⟨d, hd, hlt⟩
    · cases hc
    · rcases announced?_cases hc with ⟨rfl | rfl, -⟩ | ⟨rfl | rfl, -⟩ | ⟨rfl | rfl, -⟩ <;>
        (cases hd; omega)

theorem baseOf_announced {c : Char} {base : Nat} (h : announced? c = some base) {cs : List Char}
    (hcs : cs ≠ []) : baseOf ('0' :: c :: cs) = (base, cs) := by
  obtain ⟨d, rest, rfl⟩ := List.exists_cons_of_ne_nil hcs
  rcases announced?_cases h with ⟨rfl | rfl, rfl⟩ | ⟨rfl | rfl, rfl⟩ | ⟨rfl | rfl, rfl⟩ <;> rfl

theorem baseOf_octal {cs : List Char}
    (h : ∀ c rest, cs = c :: rest → rest ≠ [] → announced? c = none) : baseOf ('0' :: cs) = (8, cs) := by
  match cs with
  | [] => rfl
  | [_] => rfl
  | c :: d :: rest =>
    have hc := h c _ rfl (List.cons_ne_nil d rest)
    unfold announced? at hc
    rw [baseOf]
    split at hc <;> rename_i hx
    · cases hc
    · split at hc <;> rename_i ho
      · cases hc
      · split at hc <;> rename_i hb
        · cases hc
        · rw [if_neg hx, if_neg ho, if_neg hb]

theorem baseOf_decimal {c : Char} (hc : c ≠ '0') (cs : List Char) : baseOf (c :: cs) = (10, c :: cs) := by
  unfold baseOf
  split
  · rename_i heq
    exact absurd (List.cons_eq_cons.mp heq).1 hc
  · rename_i heq
    exact absurd (List.cons_eq_cons.mp heq).1 hc
  · rfl

theorem separates_announced {c : Char} {base : Nat} (h : announced? c = some base) (cs : List Char) :
    ∃ hex, Spelled hex base ∧ separates ('0' :: c :: cs) = separatesFrom hex .digit cs := by
  rcases announced?_cases h with ⟨rfl | rfl, rfl⟩ | ⟨hc, rfl⟩ | ⟨hc, rfl⟩
  · exact ⟨true, .inr ⟨rfl, rfl⟩, rfl⟩
  · exact ⟨true, .inr ⟨rfl, rfl⟩, rfl⟩
  · exact ⟨false, .inl (by decide), by rcases hc with rfl | rfl <;> simp [separates, String.contains_char_eq]⟩
  · exact ⟨false, .inl (by decide), by rcases hc with rfl | rfl <;> simp [separates, String.contains_char_eq]⟩

theorem separates_octal {cs : List Char} (h : ∀ c rest, cs = c :: rest → announced? c = none) :
    separates ('0' :: cs) = separatesFrom false .digit cs := by
  match cs with
  | [] => rfl
  | c :: rest =>
    have hc := h c rest rfl
    have hx : ¬(c = 'x' || c = 'X') = true := by
      intro hx
      rw [announced?, if_pos hx] at hc
      cases hc
    have hb : ¬"bBoO".contains c = true := by
      simp only [String.contains_char_eq, decide_eq_true_eq]
      intro hb
      rw [show "bBoO".toList = ['b', 'B', 'o', 'O'] from rfl] at hb
      simp only [List.mem_cons, List.not_mem_nil, or_false] at hb
      rcases hb with rfl | rfl | rfl | rfl <;> cases hc
    show (if c = 'x' || c = 'X' then separatesFrom true .digit rest
      else if "bBoO".contains c then separatesFrom false .digit rest
      else separatesFrom false .start ('0' :: c :: rest)) = separatesFrom false .digit (c :: rest)
    rw [if_neg hx, if_neg hb]
    rfl

theorem separates_decimal {c : Char} {d : Nat} (hc : digitValue? c = some d) (hpos : 0 < d)
    (cs : List Char) : separates (c :: cs) = separatesFrom false .start (c :: cs) := by
  have hne : c ≠ '-' ∧ c ≠ '+' ∧ c ≠ '0' := by
    refine ⟨?_, ?_, ?_⟩ <;> rintro rfl <;> cases hc
    omega
  simp only [separates]
  split
  · rename_i heq
    exfalso
    split at heq
    · rename_i hcons
      exact hne.1 (List.cons_eq_cons.mp hcons).1
    · rename_i hcons
      exact hne.2.1 (List.cons_eq_cons.mp hcons).1
    · exact hne.2.2 (List.cons_eq_cons.mp heq).1
  · split
    · rename_i hcons
      exact absurd (List.cons_eq_cons.mp hcons).1 hne.1
    · rename_i hcons
      exact absurd (List.cons_eq_cons.mp hcons).1 hne.2.1
    · rfl

theorem digitValue?_zero {c : Char} (h : digitValue? c = some 0) : c = '0' := by
  have hdigit := isDigit_of_digitValue? h (by decide)
  rw [digitValue?, if_pos hdigit] at h
  have hle : '0'.toNat ≤ c.toNat := by
    simp only [Char.isDigit, Bool.and_eq_true, decide_eq_true_eq] at hdigit
    exact hdigit.1
  have hzero : c.toNat - '0'.toNat = 0 := Option.some.inj h
  exact Char.toNat_inj.mp (by omega)

/-- What is asked of a text before it is read as a number. -/
theorem natural_eq_ok_iff {bits n : Nat} {cs : List Char} :
    natural bits cs = .ok n ↔
      cs ≠ [] ∧ digitsFrom (baseOf cs).1 (2 ^ bits - 1) true 0 (baseOf cs).2 = .ok n ∧
        ('_' ∈ cs → separates cs = true) := by
  cases cs with
  | nil => simp [natural]
  | cons c cs =>
    simp only [natural, List.isEmpty_cons, Bool.false_eq_true, if_false, Nat.pow_eq]
    cases digitsFrom (baseOf (c :: cs)).1 (2 ^ bits - 1) true 0 (baseOf (c :: cs)).2 with
    | error e => simp
    | ok m => cases hsep : separates (c :: cs) <;> by_cases hunder : '_' ∈ c :: cs <;> simp [hunder]

variable {bits n : Nat}

/-- A number whose base and digits are known is read by its digits. -/
theorem natural_of_form {base : Nat} {cs ds : List Char} {hex : Bool} (hne : cs ≠ [])
    (hform : baseOf cs = (base, ds)) (hpos : 0 < base) (hbase : Spelled hex base)
    (hmem : '_' ∈ ds → '_' ∈ cs) (hsep : separates cs = separatesFrom hex .digit ds) :
    natural bits cs = .ok n ↔ Digits base 0 ds n ∧ n < 2 ^ bits := by
  have hbits : 0 < 2 ^ bits := Nat.two_pow_pos bits
  rw [natural_eq_ok_iff, hform, hsep]
  constructor
  · rintro ⟨-, hread, hcheck⟩
    have hle : n ≤ 2 ^ bits - 1 := le_of_digitsFrom (Nat.zero_le _) hread
    refine ⟨?_, by omega⟩
    by_cases hunder : '_' ∈ cs
    · exact (digits_of_separates hbase hread).1 (hcheck hunder)
    · exact digits_of_not_mem (fun h => hunder (hmem h)) hread
  · rintro ⟨hdigits, hn⟩
    exact ⟨hne, hdigits.read hpos (Nat.le_sub_one_of_lt hn), fun _ => hdigits.separates hbase⟩

theorem natural_based {c : Char} {base : Nat} {cs : List Char} (hc : announced? c = some base)
    (hcs : cs ≠ []) : natural bits ('0' :: c :: cs) = .ok n ↔ Digits base 0 cs n ∧ n < 2 ^ bits := by
  obtain ⟨hex, hbase, hsep⟩ := separates_announced hc cs
  have hpos : 0 < base := by
    rcases announced?_cases hc with ⟨-, rfl⟩ | ⟨-, rfl⟩ | ⟨-, rfl⟩ <;> decide
  exact natural_of_form (List.cons_ne_nil _ _) (baseOf_announced hc hcs) hpos hbase
    (fun h => List.mem_cons_of_mem _ (List.mem_cons_of_mem _ h)) hsep

theorem natural_octal {cs : List Char} (h : ∀ c rest, cs = c :: rest → announced? c = none) :
    natural bits ('0' :: cs) = .ok n ↔ Digits 8 0 cs n ∧ n < 2 ^ bits :=
  natural_of_form (List.cons_ne_nil _ _) (baseOf_octal fun c rest hcs _ => h c rest hcs) (by decide)
    (.inl (by decide)) (fun h => List.mem_cons_of_mem _ h) (separates_octal h)

theorem natural_decimal {c : Char} {d : Nat} {cs : List Char} (hc : digitValue? c = some d)
    (hpos : 0 < d) (hd : d < 10) :
    natural bits (c :: cs) = .ok n ↔ Digits 10 d cs n ∧ n < 2 ^ bits := by
  have hbase : Spelled false 10 := .inl (Nat.le_refl _)
  have hne : c ≠ '0' := by
    rintro rfl
    cases hc
    omega
  have hsep : separates (c :: cs) = separatesFrom false .digit (c :: cs) := by
    rw [separates_decimal hc hpos, separatesFrom_digit hbase hc hd, separatesFrom_digit hbase hc hd]
  rw [natural_of_form (List.cons_ne_nil _ _) (baseOf_decimal hne cs) (by decide) hbase id hsep]
  refine and_congr_left fun _ => ⟨fun h => ?_, fun h => .digit hc hd (by simpa using h)⟩
  cases h with
  | digit hc' hd' htail =>
    cases hc.symm.trans hc'
    simpa using htail
  | separated => cases hc

/-- **Exactly the texts of the grammar are read,** if their numbers have few enough bits. -/
theorem natural_iff {cs : List Char} : natural bits cs = .ok n ↔ Natural cs n ∧ n < 2 ^ bits := by
  constructor
  · intro h
    obtain ⟨hne, hread, hcheck⟩ := natural_eq_ok_iff.mp h
    obtain ⟨c, cs, rfl⟩ := List.exists_cons_of_ne_nil hne
    by_cases hc : c = '0'
    · subst hc
      by_cases hbased : ∃ c base rest, cs = c :: rest ∧ rest ≠ [] ∧ announced? c = some base
      · obtain ⟨c, base, rest, rfl, hrest, hann⟩ := hbased
        obtain ⟨hdigits, hn⟩ := (natural_based hann hrest).mp h
        exact ⟨.based hann hrest hdigits, hn⟩
      · have hform : baseOf ('0' :: cs) = (8, cs) := by
          refine baseOf_octal fun c rest hcs hrest => Option.eq_none_iff_forall_ne_some.mpr ?_
          intro base hann
          exact hbased ⟨c, base, rest, hcs, hrest, hann⟩
        rw [hform] at hread
        have hnone : ∀ c rest, cs = c :: rest → announced? c = none := by
          rintro c rest rfl
          rcases digitsFrom_cons hread with ⟨hc, -⟩ | ⟨d, -, hd, hlt, -⟩
          · exact announced?_eq_none (.inl hc)
          · exact announced?_eq_none (.inr ⟨d, hd, hlt⟩)
        obtain ⟨hdigits, hn⟩ := (natural_octal hnone).mp h
        exact ⟨.octal hdigits, hn⟩
    · rw [baseOf_decimal hc] at hread
      rcases digitsFrom_cons hread with ⟨rfl, -⟩ | ⟨d, -, hd, hlt, -⟩
      · cases hcheck List.mem_cons_self
      · have hpos : 0 < d := by
          refine Nat.pos_of_ne_zero ?_
          rintro rfl
          exact hc (digitValue?_zero hd)
        obtain ⟨hdigits, hn⟩ := (natural_decimal hd hpos hlt).mp h
        exact ⟨.decimal hd hpos hlt hdigits, hn⟩
  · rintro ⟨h, hn⟩
    cases h with
    | decimal hc hpos hd htail => exact (natural_decimal hc hpos hd).mpr ⟨htail, hn⟩
    | octal hdigits =>
      refine (natural_octal ?_).mpr ⟨hdigits, hn⟩
      rintro c rest rfl
      cases hdigits with
      | digit hc hd => exact announced?_eq_none (.inr ⟨_, hc, hd⟩)
      | separated => exact announced?_eq_none (.inl rfl)
    | based hann hcs hdigits => exact (natural_based hann hcs).mpr ⟨hdigits, hn⟩

/-! ### Integers -/

theorem Natural.unique {cs : List Char} {m : Nat} (hn : Natural cs n) (hm : Natural cs m) : n = m := by
  have hread := natural_iff.mpr ⟨hn, Nat.lt_two_pow_self.trans_le (Nat.pow_le_pow_right (by decide)
    (Nat.le_add_right n m))⟩
  rw [natural_iff.mpr ⟨hm, Nat.lt_two_pow_self.trans_le (Nat.pow_le_pow_right (by decide)
    (Nat.le_add_left m n))⟩] at hread
  exact (Except.ok.inj hread).symm

theorem Natural.ne_sign {c : Char} {cs : List Char} (h : Natural (c :: cs) n) : c ≠ '+' ∧ c ≠ '-' := by
  constructor <;> (rintro rfl; cases h; contradiction)

theorem Denotes.unique {signed : Bool} {cs : List Char} {i j : Int} (hi : Denotes signed cs i)
    (hj : Denotes signed cs j) : i = j := by
  cases hi with
  | plain hn =>
    cases hj with
    | plain hm => rw [hn.unique hm]
    | plus => exact absurd rfl hn.ne_sign.1
    | minus => exact absurd rfl hn.ne_sign.2
  | plus _ hn =>
    cases hj with
    | plain hm => exact absurd rfl hm.ne_sign.1
    | plus _ hm => rw [hn.unique hm]
  | minus _ hn =>
    cases hj with
    | plain hm => exact absurd rfl hm.ne_sign.2
    | minus _ hm => rw [hn.unique hm]

theorem denotes_unsigned_iff {cs : List Char} {i : Int} :
    Denotes false cs i ↔ ∃ n : Nat, Natural cs n ∧ i = n := by
  constructor
  · intro h
    cases h with
    | plain hn => exact ⟨_, hn, rfl⟩
    | plus h => cases h
    | minus h => cases h
  · rintro ⟨n, hn, rfl⟩
    exact .plain hn

theorem signed_plus {read : List Char → Except NumeralFailure Nat} {cs : List Char} {i : Int} :
    signed bits read ('+' :: cs) = .ok i ↔ ∃ n : Nat, read cs = .ok n ∧ n < 2 ^ (bits - 1) ∧ i = n := by
  simp only [signed, Nat.pow_eq]
  cases read cs with
  | error e => simp
  | ok n =>
    by_cases hn : 2 ^ (bits - 1) ≤ n
    · simp [hn]
    · simp [hn, eq_comm]
      omega

theorem signed_minus {read : List Char → Except NumeralFailure Nat} {cs : List Char} {i : Int} :
    signed bits read ('-' :: cs) = .ok i ↔ ∃ n : Nat, read cs = .ok n ∧ n ≤ 2 ^ (bits - 1) ∧ i = -n := by
  simp only [signed, Nat.pow_eq]
  cases read cs with
  | error e => simp
  | ok n =>
    by_cases hn : 2 ^ (bits - 1) < n
    · simp [hn]
    · simp [hn, eq_comm]
      omega

/-- Without a sign, a number is read as it is. -/
theorem signed_plain {read : List Char → Except NumeralFailure Nat} {cs : List Char} {i : Int}
    (h : ∀ c ∈ cs.head?, c ≠ '+' ∧ c ≠ '-') :
    signed bits read cs = .ok i ↔ ∃ n : Nat, read cs = .ok n ∧ n < 2 ^ (bits - 1) ∧ i = n := by
  have hread : signed bits read cs = signed bits (fun _ => read cs) ('+' :: cs) := by
    cases cs with
    | nil => rfl
    | cons c cs =>
      obtain ⟨hplus, hminus⟩ := h c rfl
      unfold signed
      split
      rename_i hsign
      split at hsign
      · rename_i heq
        exact absurd (List.cons_eq_cons.mp heq).1 hminus
      · rename_i heq
        exact absurd (List.cons_eq_cons.mp heq).1 hplus
      · cases hsign
        rfl
  rw [hread, signed_plus]

/-- **Integers are read like natural numbers,** with a sign and half of the range on each side. -/
theorem integer_iff {cs : List Char} {i : Int} :
    integer 64 cs = .ok i ↔ Denotes true cs i ∧ -2 ^ 63 ≤ i ∧ i < 2 ^ 63 := by
  by_cases hsign : ∀ c ∈ cs.head?, c ≠ '+' ∧ c ≠ '-'
  · rw [integer, signed_plain hsign]
    constructor
    · rintro ⟨n, hn, hlt, rfl⟩
      exact ⟨.plain (natural_iff.mp hn).1, by omega, by omega⟩
    · rintro ⟨h, hlow, hhigh⟩
      cases h with
      | plain hn => exact ⟨_, natural_iff.mpr ⟨hn, by omega⟩, by omega, rfl⟩
      | plus => exact absurd rfl (hsign _ rfl).1
      | minus => exact absurd rfl (hsign _ rfl).2
  · cases cs with
    | nil => exact absurd (by simp) hsign
    | cons c cs =>
      have hc : c = '+' ∨ c = '-' := by
        by_contra hc
        rw [not_or] at hc
        refine hsign fun d hd => ?_
        cases hd
        exact hc
      rcases hc with rfl | rfl
      · rw [integer, signed_plus]
        constructor
        · rintro ⟨n, hn, hlt, rfl⟩
          exact ⟨.plus rfl (natural_iff.mp hn).1, by omega, by omega⟩
        · rintro ⟨h, hlow, hhigh⟩
          cases h with
          | plain hn => exact absurd rfl hn.ne_sign.1
          | plus _ hn => exact ⟨_, natural_iff.mpr ⟨hn, by omega⟩, by omega, rfl⟩
      · rw [integer, signed_minus]
        constructor
        · rintro ⟨n, hn, hle, rfl⟩
          exact ⟨.minus rfl (natural_iff.mp hn).1, by omega, by omega⟩
        · rintro ⟨h, hlow, hhigh⟩
          cases h with
          | plain hn => exact absurd rfl hn.ne_sign.2
          | minus _ hn => exact ⟨_, natural_iff.mpr ⟨hn, by omega⟩, by omega, rfl⟩

end Numeral

namespace CommandLine

open Literal

/-! ### Lists -/

/-- An integer as a value of an integer type of the host. -/
def integerValue (s : Scalar) (i : Int) : HostValue :=
  if s.isSigned then .int (Int64.ofInt i) else .uint (UInt64.ofNat i.toNat)

/-- The widest integer type with or without sign. -/
def widest (s : Scalar) : Scalar := if s.isSigned then .long else .ulong

/-- A part of a list is an integer, white space around it left out. -/
def Says (s : Scalar) (part : String) (i : Int) : Prop :=
  Numeral.Denotes s.isSigned (Text.trimBlanks part.toList) i

/-- A list of integers, as commas divide it. -/
def Lists (s : Scalar) (text : String) (is : List Int) : Prop :=
  List.Forall₂ (Says s) (commaParts text) is

/-- A list is read as its integers if they all are of the type, and refused otherwise. -/
def Exact (s : Scalar) (text : String) : Prop :=
  ∀ vs, readNumbers (.ofScalar s) text = .ok vs ↔
    ∃ is, Lists s text is ∧ (∀ i ∈ is, Sized s i) ∧ vs = is.map (integerValue s)

variable {s : Scalar}

theorem residue_of_sized {i : Int} (h : Sized s i) : residue s i = i := by
  have hpow : 2 ^ (8 * s.size) = Nat.pow 256 s.size := by cases s <;> rfl
  cases hsigned : s.isSigned with
  | true =>
    rw [residue, if_pos hsigned, hpow]
    exact h.wrapSigned_eq hsigned
  | false =>
    have hwrap := h.wrapUnsigned_eq hsigned
    rw [wrapUnsigned, ← hpow] at hwrap
    rw [residue, if_neg (by simp [hsigned])]
    exact_mod_cast hwrap

theorem sized_widest {i : Int} (h : Sized s i) : Sized (widest s) i := by
  cases hsigned : s.isSigned with
  | true =>
    obtain ⟨hlow, hhigh⟩ := h.signed hsigned
    rw [widest, if_pos hsigned]
    refine ⟨rfl, fun _ => ?_, fun hfalse => absurd hfalse (by decide)⟩
    rcases signed_cases h.integer hsigned with rfl | rfl | rfl | rfl <;>
      simp [Scalar.size] at hlow hhigh ⊢ <;> omega
  | false =>
    obtain ⟨hlow, hhigh⟩ := h.unsigned hsigned
    rw [widest, if_neg (by simp [hsigned])]
    refine ⟨rfl, fun htrue => absurd htrue (by decide), fun _ => ?_⟩
    rcases unsigned_cases h.integer hsigned with rfl | rfl | rfl | rfl <;>
      simp [Scalar.size] at hhigh ⊢ <;> omega

theorem readNumber_int_iff {w : IntWidth} {part : String} {v : HostValue} :
    readNumber (.int w) part = .ok v ↔
      ∃ i, Numeral.integer 64 (Text.trimBlanks part.toList) = .ok i ∧
        v = .int (Int64.ofInt (Int.bmod i (2 ^ w.bits))) := by
  simp only [readNumber, Nat.pow_eq]
  cases Numeral.integer 64 (Text.trimBlanks part.toList) <;> simp [eq_comm]

theorem readNumber_uint_iff {w : IntWidth} {part : String} {v : HostValue} :
    readNumber (.uint w) part = .ok v ↔
      ∃ n, Numeral.natural 64 (Text.trimBlanks part.toList) = .ok n ∧
        v = .uint (UInt64.ofNat (n % 2 ^ w.bits)) := by
  simp only [readNumber, Nat.pow_eq]
  cases Numeral.natural 64 (Text.trimBlanks part.toList) <;> simp [eq_comm]

theorem ofScalar_signed (hs : s.isInteger = true) (hsigned : s.isSigned = true) :
    ∃ w : IntWidth, HostTy.ofScalar s = .int w ∧ w.bits = 8 * s.size := by
  rcases signed_cases hs hsigned with rfl | rfl | rfl | rfl <;> exact ⟨_, rfl, rfl⟩

theorem ofScalar_unsigned (hs : s.isInteger = true) (hsigned : s.isSigned = false) :
    ∃ w : IntWidth, HostTy.ofScalar s = .uint w ∧ w.bits = 8 * s.size := by
  rcases unsigned_cases hs hsigned with rfl | rfl | rfl | rfl <;> exact ⟨_, rfl, rfl⟩

/-- **One number is read** if it is an integer of 64 bits; what the type cannot hold of it is cut off. -/
theorem readNumber_iff (hs : s.isInteger = true) {part : String} {v : HostValue} :
    readNumber (.ofScalar s) part = .ok v ↔
      ∃ i, Says s part i ∧ Sized (widest s) i ∧ v = integerValue s (residue s i) := by
  cases hsigned : s.isSigned with
  | true =>
    obtain ⟨w, hw, hbits⟩ := ofScalar_signed hs hsigned
    rw [hw, readNumber_int_iff, hbits]
    have hval : ∀ i, integerValue s (residue s i) = .int (Int64.ofInt (Int.bmod i (2 ^ (8 * s.size)))) := by
      intro i
      rw [integerValue, residue, if_pos hsigned, if_pos hsigned]
    simp only [hval, Says, widest, hsigned, if_true, sized_long_iff, Numeral.integer_iff, and_assoc]
  | false =>
    obtain ⟨w, hw, hbits⟩ := ofScalar_unsigned hs hsigned
    have hval : ∀ n : Nat, integerValue s (residue s n) = .uint (UInt64.ofNat (n % 2 ^ (8 * s.size))) := by
      intro n
      rw [integerValue, residue, if_neg (by simp [hsigned]), if_neg (by simp [hsigned])]
      norm_cast
    rw [hw, readNumber_uint_iff, hbits]
    simp only [Numeral.natural_iff, Says, widest, hsigned, Bool.false_eq_true, if_false, sized_ulong_iff,
      Numeral.denotes_unsigned_iff]
    constructor
    · rintro ⟨n, ⟨hn, hlt⟩, rfl⟩
      exact ⟨n, ⟨n, hn, rfl⟩, ⟨by omega, by omega⟩, (hval n).symm⟩
    · rintro ⟨-, ⟨n, hn, rfl⟩, ⟨-, hlt⟩, rfl⟩
      exact ⟨n, ⟨hn, by omega⟩, hval n⟩

/-- Actions of a list that all succeed. -/
theorem mapM_eq_ok_iff {α β ε : Type} {f : α → Except ε β} :
    ∀ {as : List α} {bs : List β}, as.mapM f = .ok bs ↔ List.Forall₂ (fun a b => f a = .ok b) as bs
  | [], bs => by simp [pure, Except.pure, eq_comm]
  | a :: as, bs => by
    rw [List.mapM_cons, List.forall₂_cons_left_iff]
    simp only [← mapM_eq_ok_iff]
    cases f a with
    | error e => simp [bind, Except.bind]
    | ok b =>
      cases as.mapM f with
      | error e => simp [bind, Except.bind]
      | ok cs => simp [bind, Except.bind, pure, Except.pure, eq_comm]

theorem forall₂_iff_exists_map {α β γ : Type} {R : α → γ → Prop} {S : α → β → Prop} {P : β → Prop}
    {g : β → γ} (h : ∀ a c, R a c ↔ ∃ b, S a b ∧ P b ∧ c = g b) {as : List α} {cs : List γ} :
    List.Forall₂ R as cs ↔ ∃ bs, List.Forall₂ S as bs ∧ (∀ b ∈ bs, P b) ∧ cs = bs.map g := by
  constructor
  · intro hcs
    induction hcs with
    | nil => exact ⟨[], .nil, nofun, rfl⟩
    | cons hc _ ih =>
      obtain ⟨b, hb, hP, rfl⟩ := (h _ _).mp hc
      obtain ⟨bs, hbs, hall, rfl⟩ := ih
      exact ⟨b :: bs, .cons hb hbs, List.forall_mem_cons.mpr ⟨hP, hall⟩, rfl⟩
  · rintro ⟨bs, hbs, hall, rfl⟩
    induction hbs with
    | nil => exact .nil
    | cons hb _ ih =>
      obtain ⟨hP, hrest⟩ := List.forall_mem_cons.mp hall
      exact .cons ((h _ _).mpr ⟨_, hb, hP, rfl⟩) (ih hrest)

theorem trimBlanks_eq_nil_iff {cs : List Char} :
    Text.trimBlanks cs = [] ↔ ∀ c ∈ cs, Text.isBlank c = true := by
  simp only [Text.trimBlanks, List.reverse_eq_nil_iff, List.dropWhile_eq_nil_iff, List.mem_reverse]
  constructor
  · intro h
    rw [← List.dropWhile_eq_nil_iff]
    cases hdrop : cs.dropWhile Text.isBlank with
    | nil => rfl
    | cons c rest =>
      have hc := List.head?_dropWhile_not Text.isBlank cs
      rw [hdrop] at h hc
      cases (h c List.mem_cons_self).symm.trans hc
  · intro h c hc
    rw [List.dropWhile_eq_nil_iff.mpr h] at hc
    cases hc

/-- White space alone is no list. -/
theorem not_lists_of_blank {text : String} (h : Text.trimBlanks text.toList = []) (is : List Int) :
    ¬ Lists s text is := by
  have hcomma : ',' ∉ text.toList := fun hmem => by cases trimBlanks_eq_nil_iff.mp h _ hmem
  rw [Lists, commaParts, List.splitOn_eq_singleton hcomma]
  intro hlists
  cases hlists with
  | cons hpart =>
    rw [Says, String.toList_ofList, h] at hpart
    cases hpart with
    | plain hn => cases hn

theorem readNumbers_iff (hs : s.isInteger = true) {text : String} {vs : List HostValue} :
    readNumbers (.ofScalar s) text = .ok vs ↔
      ∃ is, Lists s text is ∧ (∀ i ∈ is, Sized (widest s) i) ∧
        vs = is.map fun i => integerValue s (residue s i) := by
  unfold readNumbers
  split
  · rename_i hblank
    refine ⟨fun hok => ?_, ?_⟩
    · cases hok
    · rintro ⟨is, hlists, -⟩
      exact absurd hlists (not_lists_of_blank (List.isEmpty_iff.mp hblank) is)
  · rw [mapM_eq_ok_iff]
    refine forall₂_iff_exists_map fun part v => ?_
    rw [← readNumber_iff hs]
    cases readNumber (.ofScalar s) part <;> simp

theorem Lists.unique {text : String} {is js : List Int} (hi : Lists s text is) (hj : Lists s text js) :
    is = js :=
  List.right_unique_forall₂' (fun _ _ _ h h' => h.unique h') hi hj

/-- A list is read as it is written if and only if the type holds its integers whenever 64 bits do. -/
theorem exact_iff (hs : s.isInteger = true) {text : String} :
    Exact s text ↔
      ∀ is, Lists s text is → (∀ i ∈ is, Sized (widest s) i) → ∀ i ∈ is, Sized s i := by
  constructor
  · intro h is his hwide
    obtain ⟨js, hjs, hsized, -⟩ := (h _).mp ((readNumbers_iff hs).mpr ⟨is, his, hwide, rfl⟩)
    rw [his.unique hjs]
    exact hsized
  · intro h vs
    rw [readNumbers_iff hs]
    constructor
    · rintro ⟨is, his, hwide, rfl⟩
      have hsized := h is his hwide
      exact ⟨is, his, hsized, List.map_congr_left fun i hi => by rw [residue_of_sized (hsized i hi)]⟩
    · rintro ⟨is, his, hsized, rfl⟩
      refine ⟨is, his, fun i hi => sized_widest (hsized i hi), ?_⟩
      exact List.map_congr_left fun i hi => by rw [residue_of_sized (hsized i hi)]

/-- **What becomes of a list of integers.**  It is read if and only if its parts denote integers of 64
bits, as the residues that the type holds.  So it is read exactly, or else refused, unless all of them have
64 bits and one of them is too large for the type. -/
theorem lists_read_and_exact (hs : s.isInteger = true) (text : String) :
    (∀ vs, readNumbers (.ofScalar s) text = .ok vs ↔
        ∃ is, Lists s text is ∧ (∀ i ∈ is, Sized (widest s) i) ∧
          vs = is.map fun i => integerValue s (residue s i)) ∧
      (Exact s text ↔
        ¬ ∃ is, Lists s text is ∧ (∀ i ∈ is, Sized (widest s) i) ∧ ∃ i ∈ is, ¬ Sized s i) := by
  refine ⟨fun vs => readNumbers_iff hs, ?_⟩
  rw [exact_iff hs]
  push Not
  rfl

/-- The list `300` is read by a type that holds no more than 255. -/
theorem cut_list_not_exact :
    Scalar.uchar.isInteger = true ∧ ¬ Exact .uchar "300" ∧
      readNumbers (.ofScalar .uchar) "300" = .ok [integerValue .uchar 44] := by
  have hnatural : Numeral.Natural ['3', '0', '0'] 300 :=
    .decimal (d := 3) rfl (by decide) (by decide)
      (.digit (d := 0) rfl (by decide) (.digit (d := 0) rfl (by decide) .nil))
  have hlists : Lists .uchar "300" [300] := .cons (.plain hnatural) .nil
  have hwide : ∀ i ∈ [(300 : Int)], Sized (widest .uchar) i :=
    List.forall_mem_singleton.mpr (sized_ulong_iff.mpr (by decide))
  have hcut : ¬ Sized .uchar 300 := fun h => absurd (h.unsigned rfl).2 (by decide)
  obtain ⟨hread, hexact⟩ := lists_read_and_exact (s := .uchar) rfl "300"
  refine ⟨rfl, fun h => hexact.mp h ⟨_, hlists, hwide, 300, List.mem_singleton_self _, hcut⟩, ?_⟩
  exact (hread _).mpr ⟨_, hlists, hwide, rfl⟩

end CommandLine
end KernelForge
