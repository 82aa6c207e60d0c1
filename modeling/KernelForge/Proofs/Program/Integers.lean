/-
Integers in registers.

The device holds an integer in a register that may be wider than its type.  As long as an integer
is in the range of a type, it does not matter which: conversions keep it, comparisons compare it,
and memory gives back the integer that its bytes spell.
-/
import KernelForge.Proofs.Basic
import KernelForge.Proofs.Formula.Checking
import KernelForge.Proofs.Host.Literals
import KernelForge.Proofs.Program.Bounds

namespace KernelForge

open Literal (Sized residue)

/-- An integer of a scalar type in its register. -/
def Scalar.holding (s : Scalar) (i : Int) : Value := .ofInt s.register i

/-- The integer that the bytes of an integer type spell. -/
def Scalar.spelled (s : Scalar) (bs : List UInt8) : Int := residue s (Bytes.toNat bs)

variable {s r : Scalar} {i j : Int}

theorem Scalar.sized_spelled (hs : s.isInteger = true) (bs : List UInt8) : Sized s (s.spelled bs) :=
  (Literal.integer_residue hs _).1

/-! ### Ranges -/

theorem Literal.sized_uint {n : Nat} (h : n < 2 ^ 32) : Sized .uint n :=
  ⟨rfl, nofun, fun _ => ⟨by omega, by simp only [Scalar.size]; omega⟩⟩

/-- What an integer type holds, the type of its operands holds too. -/
theorem Literal.Sized.arithmetic (h : Sized s i) : Sized s.arithmetic i := by
  have hs := h.integer
  cases s with
  | char | short =>
    have hrange := h.signed rfl
    simp only [Scalar.size] at hrange
    have hint : -(2 ^ 31) ≤ i ∧ i < 2 ^ 31 := by omega
    exact ⟨rfl, fun _ => hint, by intros; contradiction⟩
  | uchar | ushort =>
    have hrange := h.unsigned rfl
    simp only [Scalar.size] at hrange
    have hint : -(2 ^ 31) ≤ i ∧ i < 2 ^ 31 := by omega
    exact ⟨rfl, fun _ => hint, by intros; contradiction⟩
  | int | uint | long | ulong => exact h
  | _ => cases hs

/-- A register holds the integers of its type as they are. -/
theorem Literal.Sized.value_cell (h : Sized s i) :
    ∃ w signed, s.register = .word w signed ∧ Word.value signed (BitVec.ofInt w.bits i) = i := by
  have hs := h.integer
  have hsigned := h.signed
  have hunsigned := h.unsigned
  cases s with
  | char | short | int =>
    have hrange := hsigned rfl
    simp only [Scalar.size] at hrange
    refine ⟨.w32, true, rfl, ?_⟩
    simp only [Word.value, WordWidth.bits, if_true, BitVec.toInt_ofInt, Int.bmod_def]
    omega
  | long =>
    have hrange := hsigned rfl
    simp only [Scalar.size] at hrange
    refine ⟨.w64, true, rfl, ?_⟩
    simp only [Word.value, WordWidth.bits, if_true, BitVec.toInt_ofInt, Int.bmod_def]
    omega
  | uchar | ushort | uint =>
    have hrange := hunsigned rfl
    simp only [Scalar.size] at hrange
    refine ⟨.w32, false, rfl, ?_⟩
    simp only [Word.value, WordWidth.bits, Bool.false_eq_true, if_false, BitVec.toNat_ofInt]
    omega
  | ulong =>
    have hrange := hunsigned rfl
    simp only [Scalar.size] at hrange
    refine ⟨.w64, false, rfl, ?_⟩
    simp only [Word.value, WordWidth.bits, Bool.false_eq_true, if_false, BitVec.toNat_ofInt]
    omega
  | _ => cases hs

/-! ### Conversions -/

/-- An integer in the range of a type is brought into its register as it is. -/
theorem Literal.Sized.wrapTo (h : Sized r i) :
    Value.wrapTo (.scalar r) (.atom (r.register.ofInt i)) = .ok (.atom (r.register.ofInt i)) := by
  cases r with
  | char => exact wrap_signed (.inl rfl) (h.signed rfl).1 (h.signed rfl).2
  | short => exact wrap_signed (.inr rfl) (h.signed rfl).1 (h.signed rfl).2
  | uchar => exact wrap_unsigned (.inl rfl) (h.unsigned rfl).1 (h.unsigned rfl).2
  | ushort => exact wrap_unsigned (.inr rfl) (h.unsigned rfl).1 (h.unsigned rfl).2
  | _ => rfl

/-- An integer that both types hold is kept by a conversion. -/
theorem Literal.Sized.convert (hs : Sized s i) (hr : Sized r i) :
    (s.holding i).convert (.scalar s) (.scalar r) = pure (r.holding i) := by
  by_cases heq : s = r
  · rw [heq, Value.convert_self]
  · obtain ⟨w, signed, hregister, hvalue⟩ := hs.value_cell
    have hcast : (s.holding i).cast r = pure (r.holding i) := by
      have hwrap := hr.wrapTo
      unfold Scalar.holding Value.ofInt
      rw [hregister]
      show (do return Value.lanes r.register (← Exec.ofLanes (Value.wrapTo (.scalar r)
        (.atom (r.register.ofInt (Word.value signed (BitVec.ofInt w.bits i))))))) = _
      rw [hvalue, hwrap]
      rfl
    rw [← hcast]
    exact if_neg heq

/-! ### Comparisons -/

/-- The relation that a comparison stands for. -/
def Operator.relates : Operator → Int → Int → Bool
  | .eql, i, j => i = j
  | .neq, i, j => i ≠ j
  | .lss, i, j => i < j
  | .leq, i, j => i ≤ j
  | .gtr, i, j => j < i
  | .geq, i, j => j ≤ i
  | _, _, _ => false

theorem Word.less_iff {w : Nat} (signed : Bool) (x y : BitVec w) :
    Word.less signed x y = decide (Word.value signed x < Word.value signed y) := by
  cases signed with
  | true => simp [Word.less, Word.value, BitVec.slt]
  | false => simp [Word.less, Word.value, BitVec.ult]

theorem Word.atMost_iff {w : Nat} (signed : Bool) (x y : BitVec w) :
    Word.atMost signed x y = decide (Word.value signed x ≤ Word.value signed y) := by
  cases signed with
  | true => simp [Word.atMost, Word.value, BitVec.sle]
  | false => simp [Word.atMost, Word.value, BitVec.ule]

theorem Word.value_inj {w : Nat} {signed : Bool} {x y : BitVec w} :
    Word.value signed x = Word.value signed y ↔ x = y := by
  cases signed with
  | true => exact ⟨BitVec.eq_of_toInt_eq, fun h => by rw [h]⟩
  | false =>
    refine ⟨fun h => BitVec.eq_of_toNat_eq ?_, fun h => by rw [h]⟩
    exact Int.ofNat_inj.mp h

/-- Words are compared as the integers that they hold. -/
theorem Lanes.compare_words {op : Operator} (hop : op.isComparison = true) (w : WordWidth)
    (signed : Bool) (x y : BitVec w.bits) :
    Lanes.binary op (.atom x : Lanes (.word w signed)) (.atom y) =
      .ok (.truths (.atom (op.relates (Word.value signed x) (Word.value signed y)).toUInt8)) := by
  have htest : ∀ f : BitVec w.bits → BitVec w.bits → Bool, wordOp? w signed op = some (.test f) →
      Lanes.binary op (.atom x : Lanes (.word w signed)) (.atom y) =
        .ok (.truths (.atom (f x y).toUInt8)) := by
    intro f hf
    rw [Lanes.binary, cellOp?, hf]
    rfl
  cases op with
  | eql =>
    rw [htest _ rfl, Operator.relates, decide_eq_decide.mpr Word.value_inj]
    rfl
  | neq =>
    rw [htest _ rfl, Operator.relates, decide_eq_decide.mpr (not_congr Word.value_inj), decide_not]
    rfl
  | lss => rw [htest _ rfl, Operator.relates, Word.less_iff]
  | leq => rw [htest _ rfl, Operator.relates, Word.atMost_iff]
  | gtr => rw [htest _ rfl, Operator.relates, Word.less_iff]
  | geq => rw [htest _ rfl, Operator.relates, Word.atMost_iff]
  | _ => cases hop

/-- **Integers of one type are compared as integers.** -/
theorem Literal.Sized.compare (hi : Sized s i) (hj : Sized s j) {op : Operator}
    (hop : op.isComparison = true) :
    (s.holding i).binary op (.scalar .bool) (s.holding j) = pure (.ofBool (op.relates i j)) := by
  obtain ⟨w, signed, hregister, hvalue⟩ := hi.value_cell
  obtain ⟨w', signed', hregister', hvalue'⟩ := hj.value_cell
  rw [hregister] at hregister'
  cases hregister'
  have hlanes := Lanes.compare_words hop w signed (BitVec.ofInt w.bits i) (BitVec.ofInt w.bits j)
  rw [hvalue, hvalue'] at hlanes
  unfold Scalar.holding Value.ofInt
  rw [hregister]
  simp only [Value.binary, dite_true]
  rw [show (Elem.word w signed).ofInt i = BitVec.ofInt w.bits i from rfl,
    show (Elem.word w signed).ofInt j = BitVec.ofInt w.bits j from rfl, hlanes]
  rfl

/-- Integers are added in a wide register, where the sum may wrap. -/
theorem Scalar.add_holding (hs : s.isInteger = true) (hwide : s.isNarrow = false) (i j : Int) :
    (s.holding i).binary .add (.scalar s) (s.holding j) = pure (s.holding (i + j)) := by
  cases s with
  | int | uint =>
    exact congrArg (fun c => (pure (Value.lanes _ (.atom c)) : Exec Value)) (BitVec.ofInt_add i j).symm
  | long | ulong =>
    exact congrArg (fun c => (pure (Value.lanes _ (.atom c)) : Exec Value)) (BitVec.ofInt_add i j).symm
  | char | short | uchar | ushort => cases hwide
  | _ => cases hs

/-! ### Memory -/

theorem Word.ofNat_eq_bmod (w n : Nat) : BitVec.ofNat w n = BitVec.ofInt w (Int.bmod n (2 ^ w)) := by
  apply BitVec.eq_of_toInt_eq
  rw [BitVec.toInt_ofNat', BitVec.toInt_ofInt, Int.bmod_bmod]

theorem Word.ofNat_eq_emod (w n : Nat) : BitVec.ofNat w n = BitVec.ofInt w ((n : Int) % 2 ^ w) := by
  apply BitVec.eq_of_toInt_eq
  rw [BitVec.toInt_ofNat', BitVec.toInt_ofInt]
  exact (Int.emod_bmod n (2 ^ w)).symm

/-- Bytes of an integer type are read as the integer that they spell. -/
theorem Scalar.decode_integer (hs : s.isInteger = true) {bs : List UInt8} (hlen : bs.length = s.size) :
    Value.decode (.scalar s) bs = .ok (s.holding (s.spelled bs)) := by
  have hlt := Bytes.toNat_lt bs
  rw [hlen] at hlt
  have hcell : ∀ c : s.register.Cell, c = s.register.ofInt (s.spelled bs) →
      (Value.lanes s.register (.atom c)) = s.holding (s.spelled bs) := by
    rintro c rfl
    rfl
  have htake : bs.take s.size = bs := List.take_of_length_le (Nat.le_of_eq hlen)
  unfold Value.decode Value.decodeAt Value.lanesOfBytes
  simp only [htake]
  refine congrArg Except.ok (hcell _ ?_)
  unfold Scalar.spelled residue
  cases s with
  | char | short => rfl
  | uchar | ushort =>
    simp only [Scalar.size] at hlt
    refine congrArg (BitVec.ofInt 32) (Int.emod_eq_of_lt (Int.natCast_nonneg _) ?_).symm
    simp only [Scalar.size]
    omega
  | int =>
    rw [show 8 * Scalar.int.size = 32 from rfl, if_neg (by decide), if_pos (by decide)]
    exact Word.ofNat_eq_bmod 32 _
  | long =>
    rw [show 8 * Scalar.long.size = 64 from rfl, if_neg (by decide), if_pos (by decide)]
    exact Word.ofNat_eq_bmod 64 _
  | uint =>
    rw [show 8 * Scalar.uint.size = 32 from rfl, if_neg (by decide), if_neg (by decide)]
    exact Word.ofNat_eq_emod 32 _
  | ulong =>
    rw [show 8 * Scalar.ulong.size = 64 from rfl, if_neg (by decide), if_neg (by decide)]
    exact Word.ofNat_eq_emod 64 _
  | _ => cases hs

/-- The bytes of an element of a block whose elements have a size. -/
def Bytes.element (block : Bytes) (size k : Nat) : List UInt8 := Bytes.slice block (k * size) size

theorem Bytes.length_element {block : Bytes} {size k : Nat} (h : (k + 1) * size ≤ block.size) :
    (block.element size k).length = size := by
  rw [Nat.succ_mul] at h
  rw [element, slice, Array.length_toList, Array.size_extract]
  omega

/-- An element within its block is read. -/
theorem Store.load_element {st : Store} {m k : Nat} {t : Ty} {v : Value}
    (hsize : (st.getD m #[]).size < 2 ^ 63) (hk : (k + 1) * t.size ≤ (st.getD m #[]).size)
    (hv : Value.decode t ((st.getD m #[]).element t.size k) = .ok v) :
    st.load m (BitVec.ofNat 64 (k * t.size)) t = .ok v := by
  rw [Nat.succ_mul] at hk
  have hoffset : (BitVec.ofNat 64 (k * t.size)).toInt = (k * t.size : Nat) := by
    rw [BitVec.toInt_ofNat']
    exact Int.bmod_eq_of_le (by omega) (by omega)
  have hnat : (BitVec.ofNat 64 (k * t.size)).toNat = k * t.size :=
    Nat.mod_eq_of_lt (by omega)
  have hgranted : verdict (st.getD m #[]).size t.size (k * t.size : Nat) = .granted := by
    unfold verdict
    rw [if_neg (by omega), if_neg (by omega), if_pos (by omega)]
  unfold Store.load
  simp only [access_eq hsize (by omega : t.size < 2 ^ 63), hoffset, hgranted, hnat]
  rw [show Bytes.slice (st.getD m #[]) (k * t.size) t.size = (st.getD m #[]).element t.size k from rfl, hv]

/-! ### Indices -/

/-- The element that is `i` places after place `n`, both being added as the device adds them: a
place that an `int` holds is added to an unsigned index, and then the sum wraps. -/
def reach (n i : Nat) : Nat := if n < 2 ^ 31 then (n + i) % 2 ^ 32 else n + i

theorem reach_eq {n i : Nat} (h : n + i < 2 ^ 32 ∨ 2 ^ 31 ≤ n) : reach n i = n + i := by
  unfold reach
  split
  · exact Nat.mod_eq_of_lt (by omega)
  · rfl

theorem reach_le (n i : Nat) : reach n i ≤ n + i := by
  unfold reach
  split
  · exact Nat.mod_le _ _
  · exact Nat.le_refl _

namespace Index

theorem natural_int {n : Nat} (h : n < 2 ^ 31) : natural n = .ofInt n := by
  have : n < 0x80000000 := h
  simp [natural, Constant.ofNatural, this]

theorem natural_long {n : Nat} (h : 2 ^ 31 ≤ n) (h' : n < 2 ^ 63) : natural n = .ofLong n := by
  have hint : ¬ n < 0x80000000 := by omega
  have hlong : n < 0x8000000000000000 := h'
  simp [natural, Constant.ofNatural, hint, hlong]

theorem after_uint {i n : Nat} (hi : i < 2 ^ 32) (hn : n < 2 ^ 63) :
    after .uint (Scalar.uint.holding i) n = pure (Scalar.long.holding (reach n i)) := by
  have hlong : ∀ k : Nat, k < 2 ^ 63 → Sized .long k := fun k hk =>
    ⟨rfl, fun _ => ⟨by simp only [Scalar.size]; omega, by simp only [Scalar.size]; omega⟩,
      by intros; contradiction⟩
  unfold after reach
  by_cases hsmall : n < 2 ^ 31
  · have hint : Sized .int n :=
      ⟨rfl, fun _ => ⟨by simp only [Scalar.size]; omega, by simp only [Scalar.size]; omega⟩,
        by intros; contradiction⟩
    have hcell : BitVec.ofInt 32 ((i : Int) + n) = BitVec.ofInt 32 ((n + i) % 2 ^ 32 : Nat) := by
      apply BitVec.eq_of_toNat_eq
      rw [BitVec.toNat_ofInt, BitVec.toNat_ofInt]
      omega
    have hsum : Scalar.uint.holding ((i : Int) + n) = Scalar.uint.holding ((n + i) % 2 ^ 32 : Nat) :=
      congrArg (fun c => Value.lanes .uint32 (.atom c)) hcell
    have hconvert := hint.convert (Literal.sized_uint (n := n) (by omega))
    have hwide := (Literal.sized_uint (n := (n + i) % 2 ^ 32) (by omega)).convert (hlong _ (by omega))
    rw [natural_int hsmall, if_pos hsmall]
    show (do
      let v ← (Scalar.uint.holding i).convert (.scalar .uint) (.scalar .uint)
      let w ← (Scalar.int.holding n).convert (.scalar .int) (.scalar .uint)
      let i ← v.binary .add (.scalar .uint) w
      i.convert (.scalar .uint) (.scalar .long)) = _
    rw [Value.convert_self, pure_bind, hconvert, pure_bind, Scalar.add_holding rfl rfl, pure_bind, hsum,
      hwide]
  · have hconvert := (Literal.sized_uint hi).convert (hlong i (by omega))
    rw [natural_long (by omega) hn, if_neg hsmall]
    show (do
      let v ← (Scalar.uint.holding i).convert (.scalar .uint) (.scalar .long)
      let w ← (Scalar.long.holding n).convert (.scalar .long) (.scalar .long)
      let i ← v.binary .add (.scalar .long) w
      i.convert (.scalar .long) (.scalar .long)) = _
    rw [Value.convert_self, hconvert, pure_bind, pure_bind, Scalar.add_holding rfl rfl, pure_bind,
      Value.convert_self, Int.natCast_add, Int.add_comm]

theorem after_zero {n : Nat} (hn : n < 2 ^ 63) :
    after .int (Scalar.int.holding 0) n = pure (Scalar.long.holding n) := by
  have hzero : Sized .int 0 := Literal.sized_int_iff.mpr (by decide)
  have hlong : ∀ k : Nat, k < 2 ^ 63 → Sized .long k := fun k hk => Literal.sized_long_iff.mpr (by omega)
  unfold after
  by_cases hsmall : n < 2 ^ 31
  · have hint : Sized .int n := Literal.sized_int_iff.mpr (by omega)
    rw [natural_int hsmall]
    show (do
      let v ← (Scalar.int.holding 0).convert (.scalar .int) (.scalar .int)
      let w ← (Scalar.int.holding n).convert (.scalar .int) (.scalar .int)
      let i ← v.binary .add (.scalar .int) w
      i.convert (.scalar .int) (.scalar .long)) = _
    rw [Value.convert_self, Value.convert_self, pure_bind, pure_bind, Scalar.add_holding rfl rfl, pure_bind,
      Int.zero_add, hint.convert (hlong n hn)]
  · rw [natural_long (by omega) hn]
    show (do
      let v ← (Scalar.int.holding 0).convert (.scalar .int) (.scalar .long)
      let w ← (Scalar.long.holding n).convert (.scalar .long) (.scalar .long)
      let i ← v.binary .add (.scalar .long) w
      i.convert (.scalar .long) (.scalar .long)) = _
    rw [Value.convert_self, hzero.convert (hlong 0 (by decide)), pure_bind, pure_bind,
      Scalar.add_holding rfl rfl, pure_bind, Value.convert_self, Int.zero_add]

end Index

theorem Value.elementAt_holding (m k : Nat) (t : Ty) :
    (Value.pointer ⟨some m, 0⟩).elementAt t (Scalar.long.holding k) =
      pure (m, BitVec.ofNat 64 (k * t.size)) := by
  have hoffset : (0 : BitVec 64) + BitVec.ofInt 64 k * BitVec.ofNat 64 t.size =
      BitVec.ofNat 64 (k * t.size) := by
    show 0#64 + _ = _
    rw [BitVec.ofInt_natCast, BitVec.zero_add, BitVec.ofNat_mul]
  exact congrArg (fun o => (pure (m, o) : Exec (Nat × BitVec 64))) hoffset

end KernelForge
