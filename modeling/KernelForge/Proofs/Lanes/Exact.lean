/-
What words say about integers.

A word of `w` bits stands for an integer, and its operations wrap: what they give is the exact
integer result up to a multiple of `2 ^ w`.  Every operator and every function that words have
says so here, with the exact result defined on integers and without words.  Only two things of the
machine go into the exact results: a quotient is cut towards zero, and of a shift count no more
counts than its remainder by the width.

Lane by lane the same holds of atoms and rows.  An atom stands in every lane, so a lane of a
result comes from the lanes of the operands at the same place.  A word that is reduced to its low
bits is still right modulo the smaller power of two, and it is in the range of so many bits.
-/
import KernelForge.Builtin
import KernelForge.Lanes.Arithmetic
import KernelForge.Proofs.Basic
import Mathlib.Data.Int.Bitwise
import Mathlib.Data.Int.ModEq

namespace KernelForge

/-! ### Exact results -/

/-- The exact result of an operator between integers; the width is that of the words which
stand for them. -/
def Operator.onInts? (width : Nat) : Operator → Int → Int → Option Int
  | .add, a, b => some (a + b)
  | .sub, a, b => some (a - b)
  | .mul, a, b => some (a * b)
  | .quo, a, b => if b = 0 then none else some (a.tdiv b)
  | .rem, a, b => if b = 0 then none else some (a.tmod b)
  | .shl, a, b => some (a * 2 ^ (b % width).toNat)
  | .shr, a, b => some (a / 2 ^ (b % width).toNat)
  | .and, a, b => some (a.land b)
  | .or, a, b => some (a.lor b)
  | .xor, a, b => some (a.xor b)
  | _, _, _ => none

/-- The exact result of a unary operator; the complement of bits is written `^`. -/
def Operator.unaryOnInts? : Operator → Int → Option Int
  | .sub, a => some (-a)
  | .add, a => some a
  | .xor, a => some (-a - 1)
  | _, _ => none

/-- The exact result of a function of the device. -/
def Builtin.onInts? : Builtin → List Int → Option Int
  | .abs, [a] => some |a|
  | .min, [a, b] => some (Min.min a b)
  | .max, [a, b] => some (Max.max a b)
  | .clamp, [a, lo, hi] => some (Min.min (Max.max a lo) hi)
  | _, _ => none

/-- The integer that a cell stands for; none for a floating-point number. -/
def Elem.int? : (e : Elem) → e.Cell → Option Int
  | .bool, b => some (if Truth.value b then 1 else 0)
  | .word _ signed, x => some (Word.value signed x)
  | _, _ => none

/-! ### Words -/

namespace Word

variable {w : Nat} {signed : Bool} {x y : BitVec w}

theorem ofInt_value (signed : Bool) (x : BitVec w) : BitVec.ofInt w (value signed x) = x := by
  cases signed with
  | true => exact BitVec.ofInt_toInt
  | false => simp [value]

/-- The word of an integer stands for the integer up to a multiple of `2 ^ w`. -/
theorem value_ofInt (signed : Bool) (w : Nat) (i : Int) :
    value signed (BitVec.ofInt w i) ≡ i [ZMOD 2 ^ w] := by
  have hpow : ((2 ^ w : Nat) : Int) = 2 ^ w := by push_cast; rfl
  cases signed with
  | true =>
    show (BitVec.ofInt w i).toInt % 2 ^ w = i % 2 ^ w
    rw [BitVec.toInt_ofInt, ← hpow, Int.bmod_emod]
  | false =>
    show ((BitVec.ofInt w i).toNat : Int) % 2 ^ w = i % 2 ^ w
    have hpos : (2 ^ w : Int) ≠ 0 := pow_ne_zero w (by decide)
    rw [BitVec.toNat_ofInt, hpow, Int.toNat_of_nonneg (Int.emod_nonneg i hpos)]
    exact Int.mod_modEq i _

/-! ### Bits -/

theorem getLsbD_ofInt (w : Nat) (i : Int) (k : Nat) :
    (BitVec.ofInt w i).getLsbD k = (decide (k < w) && i.testBit k) := by
  cases i with
  | ofNat n => exact BitVec.getLsbD_ofNat w n k
  | negSucc n =>
    rw [BitVec.ofInt_negSucc_eq_not_ofNat, BitVec.getLsbD_not, BitVec.getLsbD_ofNat]
    cases hk : decide (k < w) <;> simp [Int.testBit]

/-- The bits of a word are the low bits of its integer. -/
theorem testBit_value (signed : Bool) (x : BitVec w) {k : Nat} (hk : k < w) :
    (value signed x).testBit k = x.getLsbD k := by
  conv_rhs => rw [← ofInt_value signed x, getLsbD_ofInt]
  simp [hk]

/-- A word is that of an integer when it has the same bits. -/
theorem eq_ofInt_of_testBit {i : Int} (h : ∀ k, k < w → x.getLsbD k = i.testBit k) :
    x = BitVec.ofInt w i :=
  BitVec.eq_of_getLsbD_eq fun k hk => by
    rw [h k hk, getLsbD_ofInt, decide_eq_true hk, Bool.true_and]

/-! ### Arithmetic of words -/

theorem ofInt_sub (i j : Int) : BitVec.ofInt w (i - j) = BitVec.ofInt w i - BitVec.ofInt w j := by
  rw [Int.sub_eq_add_neg, BitVec.ofInt_add, BitVec.ofInt_neg, BitVec.sub_eq_add_neg]

theorem value_ne_zero (signed : Bool) (h : y ≠ 0) : value signed y ≠ 0 := by
  intro hzero
  have hy := ofInt_value signed y
  rw [hzero] at hy
  exact h (hy.symm.trans (BitVec.ofInt_natCast w 0))

theorem quotient_eq (signed : Bool) (x y : BitVec w) :
    quotient signed x y = BitVec.ofInt w ((value signed x).tdiv (value signed y)) := by
  cases signed with
  | true =>
    apply BitVec.eq_of_toInt_eq
    rw [BitVec.toInt_ofInt]
    exact BitVec.toInt_sdiv x y
  | false =>
    have hnat : ((x.toNat : Int).tdiv y.toNat) = ((x.toNat / y.toNat : Nat) : Int) := rfl
    simp only [quotient, value, Bool.false_eq_true, if_false, hnat, BitVec.ofInt_natCast]
    apply BitVec.eq_of_toNat_eq
    have hlt : x.toNat / y.toNat < 2 ^ w := Nat.lt_of_le_of_lt (Nat.div_le_self ..) x.isLt
    rw [BitVec.toNat_ofNat, Nat.mod_eq_of_lt hlt]
    exact BitVec.toNat_udiv

theorem remainder_eq (signed : Bool) (x y : BitVec w) :
    remainder signed x y = BitVec.ofInt w ((value signed x).tmod (value signed y)) := by
  cases signed with
  | true =>
    rw [← ofInt_value true (remainder true x y)]
    exact congrArg (BitVec.ofInt w) (BitVec.toInt_srem x y)
  | false =>
    have hnat : ((x.toNat : Int).tmod y.toNat) = ((x.toNat % y.toNat : Nat) : Int) := rfl
    simp only [remainder, value, Bool.false_eq_true, if_false, hnat, BitVec.ofInt_natCast]
    apply BitVec.eq_of_toNat_eq
    have hlt : x.toNat % y.toNat < 2 ^ w := Nat.lt_of_le_of_lt (Nat.mod_le ..) x.isLt
    rw [BitVec.toNat_ofNat, Nat.mod_eq_of_lt hlt]
    exact BitVec.toNat_umod

/-- The width of a word divides `2 ^ w`, so a shift count can be read with or without sign. -/
theorem shiftCount_eq (hw : w ∣ 2 ^ w) (signed : Bool) (y : BitVec w) :
    shiftCount y = (value signed y % w).toNat := by
  have hsame : value signed y % w = (y.toNat : Int) % w := by
    have hmod := value_ofInt signed w y.toNat
    rw [BitVec.ofInt_natCast, BitVec.ofNat_toNat, BitVec.setWidth_eq] at hmod
    exact hmod.of_dvd (by exact_mod_cast hw)
  rw [hsame, shiftCount]
  exact (Int.toNat_natCast _).symm

theorem shiftLeft_eq (hw : w ∣ 2 ^ w) (signed : Bool) (x y : BitVec w) :
    shiftLeft x y = BitVec.ofInt w (value signed x * 2 ^ (value signed y % w).toNat) := by
  rw [BitVec.ofInt_mul, ofInt_value, ← shiftCount_eq hw, shiftLeft,
    BitVec.shiftLeft_eq_mul_twoPow]
  congr 1
  apply BitVec.eq_of_toNat_eq
  rw [BitVec.toNat_twoPow]
  have hcast : (2 : Int) ^ shiftCount y = ((2 ^ shiftCount y : Nat) : Int) := by push_cast; rfl
  rw [hcast, BitVec.ofInt_natCast, BitVec.toNat_ofNat]

theorem shiftRight_eq (hw : w ∣ 2 ^ w) (signed : Bool) (x y : BitVec w) :
    shiftRight signed x y = BitVec.ofInt w (value signed x / 2 ^ (value signed y % w).toNat) := by
  rw [← shiftCount_eq hw]
  have hcast : (2 : Int) ^ shiftCount y = ((2 ^ shiftCount y : Nat) : Int) := by push_cast; rfl
  cases signed with
  | true =>
    rw [← ofInt_value true (shiftRight true x y), hcast]
    refine congrArg (BitVec.ofInt w) ?_
    show (x.sshiftRight (shiftCount y)).toInt = _
    rw [BitVec.toInt_sshiftRight, Int.shiftRight_eq_div_pow]
    rfl
  | false =>
    rw [← ofInt_value false (shiftRight false x y), hcast]
    refine congrArg (BitVec.ofInt w) ?_
    show ((x >>> shiftCount y).toNat : Int) = (x.toNat : Int) / ((2 ^ shiftCount y : Nat) : Int)
    rw [BitVec.toNat_ushiftRight, Nat.shiftRight_eq_div_pow]
    rfl

theorem value_least (signed : Bool) (x y : BitVec w) :
    value signed (least signed x y) = min (value signed x) (value signed y) := by
  cases signed with
  | true => grind [least, less, value, BitVec.slt]
  | false => grind [least, less, value, BitVec.ult]

theorem value_greatest (signed : Bool) (x y : BitVec w) :
    value signed (greatest signed x y) = max (value signed x) (value signed y) := by
  cases signed with
  | true => grind [greatest, less, value, BitVec.slt]
  | false => grind [greatest, less, value, BitVec.ult]

/-- The least signed word is its own absolute value, which is right modulo `2 ^ w` too. -/
theorem magnitude_eq (signed : Bool) (x : BitVec w) :
    magnitude signed x = BitVec.ofInt w |value signed x| := by
  cases signed with
  | true =>
    unfold magnitude
    by_cases hneg : x.toInt < 0
    · have hslt : x.slt 0 = true := by simpa [BitVec.slt] using hneg
      rw [hslt, Bool.and_self, if_pos rfl, value, if_pos rfl, abs_of_neg hneg, BitVec.ofInt_neg,
        BitVec.ofInt_toInt]
    · have hslt : x.slt 0 = false := by simpa [BitVec.slt] using hneg
      rw [hslt, Bool.and_false, if_neg (by simp), value, if_pos rfl, abs_of_nonneg (by omega),
        BitVec.ofInt_toInt]
  | false =>
    have habs : |((x.toNat : Nat) : Int)| = x.toNat := abs_of_nonneg (by omega)
    simp [magnitude, value, habs]

/-- The low bits of a word, which are extended to a word again. -/
def low (bits : Nat) (signed : Bool) (x : BitVec w) : BitVec w :=
  if signed then (x.truncate bits).signExtend w else (x.truncate bits).setWidth w

/-- The low bits stand for the same integer up to a multiple of the smaller power of two. -/
theorem value_low {bits : Nat} (hbits : bits ≤ w) (signed : Bool) (x : BitVec w) :
    value signed (low bits signed x) = value signed (BitVec.ofInt bits (value signed x)) := by
  have hlow : BitVec.ofInt bits (value signed x) = x.truncate bits := by
    refine BitVec.eq_of_getLsbD_eq fun k hk => ?_
    rw [getLsbD_ofInt, testBit_value signed x (by omega), BitVec.getLsbD_setWidth]
  rw [hlow]
  cases signed with
  | true => exact BitVec.toInt_signExtend_of_le hbits
  | false =>
    show (((x.truncate bits).setWidth w).toNat : Int) = ((x.truncate bits).toNat : Int)
    rw [BitVec.toNat_setWidth_of_le hbits]

/-- The low bits are in the range of integers of so many bits. -/
theorem signed_low {bits : Nat} (hbits : bits ≤ w) (x : BitVec w) :
    -2 ^ bits ≤ 2 * (low bits true x).toInt ∧ 2 * (low bits true x).toInt < 2 ^ bits := by
  have hlow : (low bits true x).toInt = (BitVec.ofInt bits x.toInt).toInt := value_low hbits true x
  rw [hlow]
  exact ⟨BitVec.le_two_mul_toInt, BitVec.two_mul_toInt_lt⟩

theorem unsigned_low {bits : Nat} (hbits : bits ≤ w) (x : BitVec w) :
    (low bits false x).toNat < 2 ^ bits := by
  have hlow : ((low bits false x).toNat : Int) = (BitVec.ofInt bits (x.toNat : Int)).toNat :=
    value_low hbits false x
  rw [Int.ofNat_inj.mp hlow]
  exact BitVec.isLt _

/-- The word of an exact result stands for it up to a multiple of `2 ^ w`. -/
theorem modEq_of_eq_ofInt {i : Int} (h : x = BitVec.ofInt w i) : value signed x ≡ i [ZMOD 2 ^ w] :=
  h ▸ value_ofInt signed w i

end Word

namespace Lanes

variable {width : WordWidth} {signed : Bool}

theorem width_dvd (width : WordWidth) : width.bits ∣ 2 ^ width.bits := by
  cases width <;> decide

/-! ### Cells -/

/-- **An operator of words gives the exact result**, up to a multiple of `2 ^ width`. -/
theorem exact_wordOp {op : Operator}
    {f : BitVec width.bits → BitVec width.bits → Except LaneError (BitVec width.bits)}
    (h : wordOp? width signed op = some (.arith f)) {x y c : BitVec width.bits}
    (hc : f x y = .ok c) : ∃ r, op.onInts? width.bits (Word.value signed x) (Word.value signed y) = some r ∧
      Word.value signed c ≡ r [ZMOD 2 ^ width.bits] := by
  have hw := width_dvd width
  cases op with
  | add =>
    cases h
    cases hc
    refine ⟨_, rfl, Word.modEq_of_eq_ofInt ?_⟩
    rw [BitVec.ofInt_add, Word.ofInt_value, Word.ofInt_value]
  | sub =>
    cases h
    cases hc
    refine ⟨_, rfl, Word.modEq_of_eq_ofInt ?_⟩
    rw [Word.ofInt_sub, Word.ofInt_value, Word.ofInt_value]
  | mul =>
    cases h
    cases hc
    refine ⟨_, rfl, Word.modEq_of_eq_ofInt ?_⟩
    rw [BitVec.ofInt_mul, Word.ofInt_value, Word.ofInt_value]
  | quo =>
    cases h
    simp only at hc
    split at hc
    · cases hc
    · rename_i hy
      cases hc
      exact ⟨_, if_neg (Word.value_ne_zero signed hy),
        Word.modEq_of_eq_ofInt (Word.quotient_eq ..)⟩
  | rem =>
    cases h
    simp only at hc
    split at hc
    · cases hc
    · rename_i hy
      cases hc
      exact ⟨_, if_neg (Word.value_ne_zero signed hy),
        Word.modEq_of_eq_ofInt (Word.remainder_eq ..)⟩
  | shl =>
    cases h
    cases hc
    exact ⟨_, rfl, Word.modEq_of_eq_ofInt (Word.shiftLeft_eq hw signed x y)⟩
  | shr =>
    cases h
    cases hc
    exact ⟨_, rfl, Word.modEq_of_eq_ofInt (Word.shiftRight_eq hw signed x y)⟩
  | and =>
    cases h
    cases hc
    refine ⟨_, rfl, Word.modEq_of_eq_ofInt (Word.eq_ofInt_of_testBit fun k hk => ?_)⟩
    rw [BitVec.getLsbD_and, Int.testBit_land, Word.testBit_value signed x hk,
      Word.testBit_value signed y hk]
  | or =>
    cases h
    cases hc
    refine ⟨_, rfl, Word.modEq_of_eq_ofInt (Word.eq_ofInt_of_testBit fun k hk => ?_)⟩
    rw [BitVec.getLsbD_or, Int.testBit_lor, Word.testBit_value signed x hk,
      Word.testBit_value signed y hk]
  | xor =>
    cases h
    cases hc
    refine ⟨_, rfl, Word.modEq_of_eq_ofInt (Word.eq_ofInt_of_testBit fun k hk => ?_)⟩
    rw [BitVec.getLsbD_xor, Int.testBit_lxor, Word.testBit_value signed x hk,
      Word.testBit_value signed y hk]
  | _ => cases h

theorem exact_wordUnary {op : Operator} {f : BitVec width.bits → BitVec width.bits}
    (h : cellUnary? (.word width signed) op = some f) (x : BitVec width.bits) :
    ∃ r, op.unaryOnInts? (Word.value signed x) = some r ∧
      Word.value signed (f x) ≡ r [ZMOD 2 ^ width.bits] := by
  cases op with
  | add =>
    cases h
    exact ⟨_, rfl, rfl⟩
  | sub =>
    cases h
    refine ⟨_, rfl, Word.modEq_of_eq_ofInt ?_⟩
    rw [BitVec.ofInt_neg, Word.ofInt_value]
  | xor =>
    cases h
    refine ⟨_, rfl, Word.modEq_of_eq_ofInt ?_⟩
    rw [Word.ofInt_sub, BitVec.ofInt_neg, Word.ofInt_value]
    exact BitVec.not_eq_neg_add x
  | _ => cases h

theorem exact_convert {e : Elem} {x : e.Cell} {i : Int} (hx : e.int? x = some i) :
    Word.value signed (e.convert (.word width signed) x : BitVec width.bits) ≡
      i [ZMOD 2 ^ width.bits] := by
  cases e with
  | bool =>
    cases hx
    exact Word.value_ofInt signed _ _
  | word width' signed' =>
    cases hx
    exact Word.value_ofInt signed _ _
  | float32 => cases hx
  | float64 => cases hx

/-! ### Lanes -/

variable {e r : Elem}

/-- The cell in a lane; an atom stands in every lane. -/
def at? (x : Lanes e) (i : Nat) : Option e.Cell :=
  match x with
  | atom c => some c
  | row cs => cs[i]?

/-- The integer in a lane. -/
def intAt? (x : Lanes e) (i : Nat) : Option Int := (x.at? i).bind e.int?

theorem at?_map (f : e.Cell → r.Cell) (x : Lanes e) (i : Nat) :
    (x.map f).at? i = (x.at? i).map f := by
  cases x with
  | atom c => rfl
  | row cs => exact List.getElem?_map

theorem cells_map (f : e.Cell → r.Cell) (x : Lanes e) : (x.map f).cells = x.cells.map f := by
  cases x <;> rfl

theorem getElem?_mapM {α β : Type} {f : α → Except LaneError β} {as : List α} {bs : List β}
    (h : as.mapM f = .ok bs) {i : Nat} {b : β} (hb : bs[i]? = some b) :
    ∃ a, as[i]? = some a ∧ f a = .ok b := by
  induction as generalizing bs i with
  | nil =>
    cases h
    cases hb
  | cons a as ih =>
    rw [List.mapM_cons] at h
    obtain ⟨c, hc, h⟩ := bind_eq_ok.mp h
    obtain ⟨cs, hcs, h⟩ := bind_eq_ok.mp h
    cases h
    cases i with
    | zero =>
      cases hb
      exact ⟨a, rfl, hc⟩
    | succ i => exact ih hcs hb

theorem map_eq_ok {α β : Type} {f : α → β} {x : Except LaneError α} {b : β} (h : x.map f = .ok b) :
    ∃ a, x = .ok a ∧ f a = b := by
  cases x with
  | ok a =>
    cases h
    exact ⟨a, rfl, rfl⟩
  | error c => cases h

/-- A lane of what two values make comes from their lanes. -/
theorem at?_zip {f : e.Cell → e.Cell → Except LaneError r.Cell} {x y : Lanes e} {z : Lanes r}
    (h : zip f x y = .ok z) {i : Nat} {c : r.Cell} (hc : z.at? i = some c) :
    ∃ a b, x.at? i = some a ∧ y.at? i = some b ∧ f a b = .ok c := by
  cases x with
  | atom a =>
    cases y with
    | atom b =>
      obtain ⟨d, hd, rfl⟩ := map_eq_ok h
      cases hc
      exact ⟨a, b, rfl, rfl, hd⟩
    | row bs =>
      obtain ⟨ds, hds, rfl⟩ := map_eq_ok h
      obtain ⟨b, hb, hf⟩ := getElem?_mapM hds hc
      exact ⟨a, b, rfl, hb, hf⟩
  | row as =>
    cases y with
    | atom b =>
      obtain ⟨ds, hds, rfl⟩ := map_eq_ok h
      obtain ⟨a, ha, hf⟩ := getElem?_mapM hds hc
      exact ⟨a, b, ha, rfl, hf⟩
    | row bs =>
      simp only [zip] at h
      split at h
      · obtain ⟨ds, hds, rfl⟩ := map_eq_ok h
        obtain ⟨⟨a, b⟩, hab, hf⟩ := getElem?_mapM hds hc
        obtain ⟨ha, hb⟩ := List.getElem?_zip_eq_some.mp hab
        exact ⟨a, b, ha, hb, hf⟩
      · cases h

/-- **A unary operator gives exact results in every lane.** -/
theorem exact_unary {op : Operator} {x y : Lanes (.word width signed)} (h : x.unary op = .ok y)
    {i : Nat} {k : Int} (hk : y.intAt? i = some k) :
    ∃ a r, x.intAt? i = some a ∧ op.unaryOnInts? a = some r ∧ k ≡ r [ZMOD 2 ^ width.bits] := by
  unfold unary at h
  split at h
  · cases h
  · rename_i f hf
    cases h
    obtain ⟨c, hc, hk⟩ := Option.bind_eq_some_iff.mp hk
    rw [at?_map] at hc
    obtain ⟨b, hb, rfl⟩ := Option.map_eq_some_iff.mp hc
    cases hk
    obtain ⟨r, hr, hmod⟩ := exact_wordUnary hf b
    exact ⟨_, r, Option.bind_eq_some_iff.mpr ⟨b, hb, rfl⟩, hr, hmod⟩

/-- **A binary operator gives exact results in every lane.** -/
theorem exact_binary {op : Operator} {x y z : Lanes (.word width signed)}
    (h : x.binary op y = .ok (.same z)) {i : Nat} {k : Int} (hk : z.intAt? i = some k) :
    ∃ a b r, x.intAt? i = some a ∧ y.intAt? i = some b ∧ op.onInts? width.bits a b = some r ∧
      k ≡ r [ZMOD 2 ^ width.bits] := by
  unfold binary at h
  split at h
  · cases h
  · rename_i f hf
    obtain ⟨z', hz, hsame⟩ := map_eq_ok h
    cases hsame
    obtain ⟨c, hc, hk⟩ := Option.bind_eq_some_iff.mp hk
    obtain ⟨a, b, ha, hb, hab⟩ := at?_zip hz hc
    cases hk
    obtain ⟨r, hr, hmod⟩ := exact_wordOp hf hab
    exact ⟨_, _, r, Option.bind_eq_some_iff.mpr ⟨a, ha, rfl⟩,
      Option.bind_eq_some_iff.mpr ⟨b, hb, rfl⟩, hr, hmod⟩
  · obtain ⟨z', hz, hsame⟩ := map_eq_ok h
    cases hsame

theorem exact_zipTotal {f : BitVec width.bits → BitVec width.bits → BitVec width.bits}
    {g : Int → Int → Int}
    (hf : ∀ a b, Word.value signed (f a b) = g (Word.value signed a) (Word.value signed b))
    {x y z : Lanes (.word width signed)} (h : zipTotal f x y = .ok z) {i : Nat} {k : Int}
    (hk : z.intAt? i = some k) :
    ∃ a b, x.intAt? i = some a ∧ y.intAt? i = some b ∧ k = g a b := by
  obtain ⟨c, hc, hk⟩ := Option.bind_eq_some_iff.mp hk
  obtain ⟨a, b, ha, hb, hab⟩ := at?_zip h hc
  cases hab
  cases hk
  exact ⟨_, _, Option.bind_eq_some_iff.mpr ⟨a, ha, rfl⟩, Option.bind_eq_some_iff.mpr ⟨b, hb, rfl⟩,
    hf a b⟩

theorem apply_one {f : e.Cell → e.Cell} {xs : List (Lanes e)} {y : Lanes e}
    (h : apply (.one f) xs = .ok y) : ∃ x, xs = [x] ∧ x.map f = y := by
  match xs, h with
  | [x], h =>
    cases h
    exact ⟨x, rfl, rfl⟩

theorem apply_two {f : e.Cell → e.Cell → e.Cell} {xs : List (Lanes e)} {y : Lanes e}
    (h : apply (.two f) xs = .ok y) : ∃ x x', xs = [x, x'] ∧ zipTotal f x x' = .ok y := by
  match xs, h with
  | [x, x'], h => exact ⟨x, x', rfl, h⟩

theorem apply_clamp {lower upper : e.Cell → e.Cell → e.Cell} {xs : List (Lanes e)} {y : Lanes e}
    (h : apply (.clamp lower upper) xs = .ok y) :
    ∃ x lo hi z, xs = [x, lo, hi] ∧ zipTotal lower x lo = .ok z ∧ zipTotal upper z hi = .ok y := by
  match xs, h with
  | [x, lo, hi], h =>
    obtain ⟨z, hz, h⟩ := bind_eq_ok.mp h
    exact ⟨x, lo, hi, z, rfl, hz, h⟩

/-- **A function of the device gives exact results in every lane.** -/
theorem exact_math {fn : Builtin} {xs : List (Lanes (.word width signed))}
    {y : Lanes (.word width signed)} (h : math fn.name xs = .ok y) {i : Nat} {k : Int}
    (hk : y.intAt? i = some k) :
    ∃ as r, xs.mapM (·.intAt? i) = some as ∧ fn.onInts? as = some r ∧
      k ≡ r [ZMOD 2 ^ width.bits] := by
  unfold math at h
  split at h
  · cases h
  · rename_i f hf
    cases fn with
    | abs =>
      cases hf
      obtain ⟨x, rfl, rfl⟩ := apply_one h
      obtain ⟨c, hc, hk⟩ := Option.bind_eq_some_iff.mp hk
      rw [at?_map] at hc
      obtain ⟨a, ha, rfl⟩ := Option.map_eq_some_iff.mp hc
      cases hk
      refine ⟨[Word.value signed a], _, ?_, rfl,
        Word.modEq_of_eq_ofInt (Word.magnitude_eq signed a)⟩
      simp [intAt?, ha, Elem.int?]
    | min =>
      cases hf
      obtain ⟨x, x', rfl, hz⟩ := apply_two h
      obtain ⟨a, b, ha, hb, rfl⟩ := exact_zipTotal (Word.value_least signed) hz hk
      exact ⟨[a, b], _, by simp [ha, hb], rfl, rfl⟩
    | max =>
      cases hf
      obtain ⟨x, x', rfl, hz⟩ := apply_two h
      obtain ⟨a, b, ha, hb, rfl⟩ := exact_zipTotal (Word.value_greatest signed) hz hk
      exact ⟨[a, b], _, by simp [ha, hb], rfl, rfl⟩
    | clamp =>
      cases hf
      obtain ⟨x, lo, hi, z, rfl, hz, hy⟩ := apply_clamp h
      obtain ⟨a, b, ha, hb, rfl⟩ := exact_zipTotal (Word.value_least signed) hy hk
      obtain ⟨c, d, hc, hd, rfl⟩ := exact_zipTotal (Word.value_greatest signed) hz ha
      exact ⟨[c, d, b], _, by simp [hb, hc, hd], rfl, rfl⟩
    | _ => cases hf

/-- Wrapping replaces every word by its low bits. -/
theorem wrap_eq_ok {bits : Int} {x y : Lanes (.word .w32 signed)} (h : x.wrap bits = .ok y) :
    (0 < bits ∧ bits < 32) ∧
      y = x.map (e := .word .w32 signed) (r := .word .w32 signed) (Word.low bits.toNat signed) := by
  unfold wrap at h
  split at h
  · cases h
  · rename_i hbits
    cases h
    exact ⟨by omega, rfl⟩

/-- What is wrapped is still right modulo the smaller power of two, in every lane. -/
theorem exact_wrap {bits : Int} {x y : Lanes (.word .w32 signed)} (h : x.wrap bits = .ok y)
    {i : Nat} {k : Int} (hk : y.intAt? i = some k) :
    ∃ a, x.intAt? i = some a ∧ k ≡ a [ZMOD 2 ^ bits.toNat] := by
  obtain ⟨hbits, rfl⟩ := wrap_eq_ok h
  obtain ⟨c, hc, hk⟩ := Option.bind_eq_some_iff.mp hk
  rw [at?_map] at hc
  obtain ⟨a, ha, rfl⟩ := Option.map_eq_some_iff.mp hc
  cases hk
  refine ⟨_, Option.bind_eq_some_iff.mpr ⟨a, ha, rfl⟩, ?_⟩
  rw [Word.value_low (show bits.toNat ≤ 32 by omega)]
  exact Word.value_ofInt signed _ _

/-- A conversion of integers is exact in every lane. -/
theorem exact_cast {x : Lanes e} {i : Nat} {a k : Int} (ha : x.intAt? i = some a)
    (hk : (x.cast (.word width signed)).intAt? i = some k) : k ≡ a [ZMOD 2 ^ width.bits] := by
  obtain ⟨c, hc, ha⟩ := Option.bind_eq_some_iff.mp ha
  obtain ⟨d, hd, hk⟩ := Option.bind_eq_some_iff.mp hk
  rw [cast, at?_map, hc] at hd
  cases hd
  cases hk
  exact exact_convert ha

end Lanes
end KernelForge
