/-
The device and the host read the same memory alike.

There are two codecs for the values of a kernel type.  The interpreter reads a block into
registers and writes registers into a block, narrow integers making a detour through 32 bits;
the host reads and writes values of its own types.  They share no code but the layout, so each
fact here follows the type, with its fields, and says at every level what one codec does to a
stretch of a block that starts anywhere.

A register of a narrow integer may hold more than the integer can.  A value is *formed* when
its registers do not, and those are the values that memory gives back.
-/
import KernelForge.Proofs.Host.Codec
import KernelForge.Proofs.Program.Bounds

namespace KernelForge

/-! ### Bytes -/

namespace Bytes

theorem length_slice {src : Bytes} {offset length : Nat} (h : offset + length ≤ src.size) :
    (slice src offset length).length = length := by
  rw [length_slice_eq_min]
  omega

theorem take_drop_slice (src : Bytes) (offset : Nat) {length start n : Nat} (h : start + n ≤ length) :
    ((slice src offset length).drop start).take n = slice src (offset + start) n := by
  refine List.ext_getElem? fun i => ?_
  rw [getElem?_slice, List.getElem?_take]
  split
  · rw [List.getElem?_drop, getElem?_slice, if_pos (by omega), Nat.add_assoc]
  · rfl

theorem take_slice {src : Bytes} {offset length n : Nat} (h : n ≤ length) :
    (slice src offset length).take n = slice src offset n := by
  simpa using take_drop_slice src offset (by omega : 0 + n ≤ length)

/-- Only the bytes that are spelled matter. -/
theorem ofNat_mod (width n : Nat) : ofNat width (n % Nat.pow 256 width) = ofNat width n := by
  have h := ofNat_toNat (ofNat width n)
  rwa [length_ofNat, toNat_ofNat] at h

theorem slice_add {src : Bytes} {offset m n : Nat} (h : offset + (m + n) ≤ src.size) :
    slice src offset (m + n) = slice src offset m ++ slice src (offset + m) n := by
  have hm : (slice src offset m).length = m := length_slice (by omega)
  rw [← List.take_append_drop m (slice src offset (m + n)), take_slice (Nat.le_add_right m n)]
  congr 1
  have hdrop := take_drop_slice src offset (Nat.le_refl (m + n))
  rwa [List.take_of_length_le] at hdrop
  rw [List.length_drop, length_slice h]
  omega

theorem toList_eq_slice {src : Bytes} {n : Nat} (h : src.size = n) : src.toList = slice src 0 n := by
  subst h
  simp [slice]

end Bytes

/-! ### Scalars -/

namespace Scalar

/-- The register that the bytes of a scalar are read into. -/
def read (s : Scalar) (bs : List UInt8) : s.register.Cell :=
  let n := Bytes.toNat (bs.take s.size)
  if s.isNarrow then s.register.ofInt (if s.isSigned then Int.bmod n (Nat.pow 256 s.size) else n)
  else s.register.ofBits n

/-- The bytes that a register is written as. -/
def spell (s : Scalar) (c : s.register.Cell) : List UInt8 := Bytes.ofNat s.size (s.register.bits c)

/-- The number in a register is one of the scalar. -/
def Holds : (s : Scalar) → s.register.Cell → Prop
  | .char, c => -2 ^ 7 ≤ BitVec.toInt c ∧ BitVec.toInt c < 2 ^ 7
  | .uchar, c => BitVec.toNat c < 2 ^ 8
  | .short, c => -2 ^ 15 ≤ BitVec.toInt c ∧ BitVec.toInt c < 2 ^ 15
  | .ushort, c => BitVec.toNat c < 2 ^ 16
  | _, _ => True

@[simp] theorem length_spell (s : Scalar) (c : s.register.Cell) : (s.spell c).length = s.size := by
  simp [spell]

theorem toNat_take_lt (s : Scalar) (bs : List UInt8) :
    Bytes.toNat (bs.take s.size) < Nat.pow 256 s.size :=
  Nat.lt_of_lt_of_le (Bytes.toNat_lt _)
    (Nat.pow_le_pow_right (by decide) (by rw [List.length_take]; omega))

/-- Reading bytes gives a number of the scalar. -/
theorem holds_read (s : Scalar) (bs : List UInt8) : s.Holds (s.read bs) := by
  have hlt := s.toNat_take_lt bs
  unfold read
  generalize Bytes.toNat (bs.take s.size) = n at hlt
  cases s <;> simp [Holds, size, isNarrow, isSigned, register, Elem.ofInt, Int.bmod_def,
    WordWidth.bits, BitVec.toInt_ofInt] at hlt ⊢
  all_goals omega

theorem bits_read {s : Scalar} {bs : List UInt8} (hlen : bs.length = s.size) :
    s.register.bits (s.read bs) % Nat.pow 256 s.size = Bytes.toNat bs := by
  have hlt := s.toNat_take_lt bs
  unfold read
  rw [List.take_of_length_le hlen.le] at hlt ⊢
  generalize Bytes.toNat bs = n at hlt
  cases s <;> simp [size, isNarrow, isSigned, register, Elem.ofInt, Elem.ofBits, Elem.bits,
    Int.bmod_def, WordWidth.bits] at hlt ⊢
  all_goals omega

/-- Bytes that are read into a register are written back as they were. -/
theorem spell_read {s : Scalar} {bs : List UInt8} (hlen : bs.length = s.size) :
    s.spell (s.read bs) = bs := by
  rw [spell, ← Bytes.ofNat_mod, bits_read hlen, ← hlen, Bytes.ofNat_toNat]

theorem read_spell {s : Scalar} {c : s.register.Cell} (hc : s.Holds c) :
    s.read (s.spell c) = c := by
  unfold read spell
  rw [Host.toNat_take_ofNat]
  cases s with
  | bool =>
    have hbits : UInt8.toNat c % Nat.pow 256 1 = UInt8.toNat c := Nat.mod_eq_of_lt (UInt8.toNat_lt c)
    simp [size, isNarrow, register, Elem.ofBits, Elem.bits, hbits]
    exact UInt8.ofNat_toNat
  | float =>
    obtain ⟨bits⟩ := c
    have hbits : bits.toNat % Nat.pow 256 4 = bits.toNat := Nat.mod_eq_of_lt bits.toNat_lt
    simp [size, isNarrow, register, Elem.ofBits, Elem.bits, hbits]
  | double =>
    obtain ⟨bits⟩ := c
    have hbits : bits.toNat % Nat.pow 256 8 = bits.toNat := Nat.mod_eq_of_lt bits.toNat_lt
    simp [size, isNarrow, register, Elem.ofBits, Elem.bits, hbits]
  | char | short =>
    have hint := @BitVec.toInt_eq_toNat_cond 32 c
    refine BitVec.eq_of_toNat_eq ?_
    simp [Holds, size, isNarrow, isSigned, register, Elem.ofInt, Elem.bits, Int.bmod_def,
      WordWidth.bits] at hc ⊢
    omega
  | _ =>
    have hlt := BitVec.isLt c
    refine BitVec.eq_of_toNat_eq ?_
    simp [Holds, size, isNarrow, isSigned, register, Elem.ofInt, Elem.ofBits, Elem.bits,
      WordWidth.bits] at hc hlt ⊢
    omega

end Scalar

/-! ### Numbers on both sides -/

/-- A host value is the number in a register.  What is not a number is so on both sides; its
bits may differ, for the host passes single precision numbers through double precision. -/
def Elem.Denotes : (e : Elem) → e.Cell → HostValue → Prop
  | .bool, b, .bool c => Truth.value b = c
  | .word _ true, x, .int i => BitVec.toInt x = i.toInt
  | .word _ false, x, .uint u => BitVec.toNat x = u.toNat
  | .float32, x, .float32 y => x = y ∨ x.isNaN = true ∧ y.isNaN = true
  | .float64, x, .float64 y => x = y
  | _, _, _ => False

namespace Binary64

/-- What is not a number stays none. -/
theorem isNaN_narrow_widen {x : Binary32} (h : x.isNaN = true) : x.widen.narrow.isNaN = true := by
  have hmag : Binary32.format.infinity < x.magnitude := by simpa [Binary32.isNaN] using h
  have hwide : Binary32.format.convert format x.magnitude = format.infinity + format.hidden / 2 := by
    rw [Binary.Format.convert, if_neg (by omega), if_neg (by omega)]
  rw [Binary32.widen, hwide]
  cases x.isNegative <;> decide

end Binary64

namespace Host

/-! Integers -/

theorem Number.ofBytes_signed {s : Scalar} (hs : s.isSigned = true) (bs : List UInt8) :
    Number.ofBytes s bs = .ofInt (signedOf s.size (Bytes.toNat (bs.take s.size))) := by
  cases s <;> simp [Scalar.isSigned] at hs <;> rfl

theorem Number.ofBytes_unsigned {s : Scalar} (hs : s.isInteger = true) (hs' : s.isSigned = false)
    (bs : List UInt8) : Number.ofBytes s bs = .ofInt (Bytes.toNat (bs.take s.size)) := by
  cases s <;> simp [Scalar.isInteger, Scalar.isSigned] at hs hs' <;> rfl

theorem denotes_signed {s : Scalar} (hs : s.isSigned = true) {bs : List UInt8} {i : Int64}
    (hi : i.toInt = signedOf s.size (Bytes.toNat (bs.take s.size))) :
    s.register.Denotes (s.read bs) (.int i) := by
  have hlt := s.toNat_take_lt bs
  unfold Scalar.read
  generalize Bytes.toNat (bs.take s.size) = n at hlt hi
  cases s <;> simp [Scalar.isSigned] at hs <;>
    simp [Scalar.size, Scalar.isNarrow, Scalar.isSigned, Scalar.register, Elem.ofInt, Elem.ofBits,
      signedOf, WordWidth.bits, Elem.Denotes, BitVec.toInt_ofInt] at hi hlt ⊢ <;> rw [hi]
  case char | short => rw [Int.bmod_eq_of_le] <;> rw [Int.bmod_def] <;> omega
  case int | long => exact BitVec.toInt_ofNat ..

theorem denotes_unsigned {s : Scalar} (hs : s.isInteger = true) (hs' : s.isSigned = false)
    {bs : List UInt8} {u : UInt64} (hu : u.toNat = Bytes.toNat (bs.take s.size)) :
    s.register.Denotes (s.read bs) (.uint u) := by
  have hlt := s.toNat_take_lt bs
  unfold Scalar.read
  generalize Bytes.toNat (bs.take s.size) = n at hlt hu
  cases s <;> simp [Scalar.isInteger, Scalar.isSigned] at hs hs' <;>
    simp [Scalar.size, Scalar.isNarrow, Scalar.isSigned, Scalar.register, Elem.ofInt, Elem.ofBits,
      WordWidth.bits, Elem.Denotes] at hu hlt ⊢ <;> omega

/-- A number that a host integer can hold on the device is that integer on the host. -/
theorem toInt_word {w : IntWidth} {z : Int} (hlow : -2 ^ (w.deviceBits - 1) ≤ z)
    (hup : z < 2 ^ (w.deviceBits - 1)) :
    (Int64.ofInt (Int.bmod (Int64.ofInt z).toInt (Nat.pow 2 w.bits))).toInt = z := by
  have hz : (Int64.ofInt z).toInt = z := by
    refine Int64.toInt_ofInt_of_le ?_ ?_ <;> cases w <;> norm_num [IntWidth.deviceBits] at hlow hup ⊢ <;> omega
  rw [hz, bmod_word hlow hup, hz]

theorem toNat_toUInt64_ofInt {n : Nat} (h : n < 2 ^ 64) : (Int64.ofInt n).toUInt64.toNat = n := by
  have hn := toUInt64_ofInt_toNat (UInt64.ofNat n)
  have hsmall : (UInt64.ofNat n).toNat = n := UInt64.toNat_ofNat_of_lt' h
  rw [hsmall] at hn
  rw [hn, hsmall]

theorem toNat_word {w : IntWidth} {n : Nat} (h : n < 2 ^ w.deviceBits) :
    (UInt64.ofNat ((Int64.ofInt n).toUInt64.toNat % Nat.pow 2 w.bits)).toNat = n := by
  have hwide : n < Nat.pow 2 w.bits :=
    h.trans_le (Nat.pow_le_pow_right (by decide) (by cases w <;> decide))
  have hbits : Nat.pow 2 w.bits ≤ 2 ^ 64 := by cases w <;> decide
  have hn : n < 2 ^ 64 := hwide.trans_le hbits
  rw [toNat_toUInt64_ofInt hn, Nat.mod_eq_of_lt hwide]
  exact UInt64.toNat_ofNat_of_lt' hn

/-- Bytes of a scalar are read as one number on both sides. -/
theorem decodeScalar_denotes {h : HostTy} {s : Scalar} (hk : h.kernelTy = .ok (.scalar s))
    (bs : List UInt8) : ∃ u, decodeScalar s bs h = .ok u ∧ s.register.Denotes (s.read bs) u := by
  have hlt := s.toNat_take_lt bs
  cases h with
  | bool =>
    cases hk
    refine ⟨_, rfl, ?_⟩
    show Truth.value (UInt8.ofNat (Bytes.toNat (bs.take 1))) =
      decide ((Int64.ofInt (Bytes.toNat (bs.take 1) : Nat)).toUInt64 ≠ 0)
    have hbyte : (UInt8.ofNat (Bytes.toNat (bs.take 1))).toNat = Bytes.toNat (bs.take 1) :=
      UInt8.toNat_ofNat_of_lt' hlt
    have hn : (Int64.ofInt (Bytes.toNat (bs.take 1))).toUInt64.toNat = Bytes.toNat (bs.take 1) :=
      toNat_toUInt64_ofInt (hlt.trans (by decide))
    rw [Truth.value, Bool.eq_iff_iff, bne_iff_ne, decide_eq_true_eq]
    simp only [ne_eq, ← UInt8.toNat_inj, ← UInt64.toNat_inj, hbyte, hn, UInt8.toNat_zero, UInt64.toNat_zero]
  | int w =>
    have hs : s.isSigned = true := by cases w <;> cases hk <;> rfl
    have hz : -2 ^ (w.deviceBits - 1) ≤ signedOf s.size (Bytes.toNat (bs.take s.size)) ∧
        signedOf s.size (Bytes.toNat (bs.take s.size)) < 2 ^ (w.deviceBits - 1) := by
      generalize Bytes.toNat (bs.take s.size) = n at hlt
      rw [signedOf, Int.bmod_def]
      cases w <;> cases hk <;> norm_num [Scalar.size, IntWidth.deviceBits] at hlt ⊢ <;> omega
    refine ⟨_, by rw [decodeScalar, Number.ofBytes_signed hs]; rfl, denotes_signed hs ?_⟩
    exact toInt_word hz.1 hz.2
  | uint w =>
    have hs : s.isInteger = true ∧ s.isSigned = false := by cases w <;> cases hk <;> exact ⟨rfl, rfl⟩
    have hw : 2 ^ w.deviceBits = Nat.pow 256 s.size := by cases w <;> cases hk <;> rfl
    refine ⟨_, by rw [decodeScalar, Number.ofBytes_unsigned hs.1 hs.2]; rfl,
      denotes_unsigned hs.1 hs.2 ?_⟩
    exact toNat_word (hw ▸ hlt)
  | float32 =>
    cases hk
    refine ⟨_, rfl, ?_⟩
    by_cases hnan : Binary32.isNaN (Scalar.float.read bs) = true
    · exact .inr ⟨hnan, Binary64.isNaN_narrow_widen hnan⟩
    · exact .inl (Binary64.narrow_widen (Bool.eq_false_iff.mpr hnan)).symm
  | float64 =>
    cases hk
    exact ⟨_, rfl, rfl⟩
  | array m t =>
    obtain ⟨s', w, -, -, h⟩ := HostTy.kernelTy_array hk
    cases h
  | struct fs =>
    obtain ⟨ts, -, -, h⟩ := HostTy.kernelTy_struct hk
    cases h
  | _ => cases hk

end Host

/-! ### Lanes -/

namespace Value

theorem lanesOfBytes_none (s : Scalar) (bs : List UInt8) :
    lanesOfBytes s none bs = .atom (s.read bs) := rfl

theorem bytesOfLanes_eq {t : Ty} {s : Scalar} (ht : t.element? = some s) (x : Lanes s.register) :
    bytesOfLanes t x = x.cells.flatMap s.spell := by
  have hwide : s.isNarrow = false → s.register.size = s.size := by cases s <;> decide
  simp only [bytesOfLanes, ht, Lanes.bytes]
  split
  · rfl
  · rename_i hs
    rw [hwide (by simpa using hs)]
    rfl

theorem length_flatMap_spell (s : Scalar) (cs : List s.register.Cell) :
    (cs.flatMap s.spell).length = s.size * cs.length := by
  induction cs with
  | nil => rfl
  | cons c cs ih => rw [List.flatMap_cons, List.length_append, ih, Scalar.length_spell,
      List.length_cons, Nat.mul_succ, Nat.add_comm]

/-- The cells that lie one after the other in some bytes. -/
def cellsOf (s : Scalar) (n : Nat) (bs : List UInt8) : List s.register.Cell :=
  (List.range n).map fun i => s.read (bs.drop (i * s.size))

theorem cellsOf_succ {s : Scalar} {n : Nat} {front rest : List UInt8} (h : front.length = s.size) :
    cellsOf s (n + 1) (front ++ rest) = s.read front :: cellsOf s n rest := by
  rw [cellsOf, List.range_succ_eq_map, List.map_cons, List.map_map, cellsOf]
  congr 1
  · rw [Nat.zero_mul, List.drop_zero, Scalar.read, Scalar.read, ← h, List.take_left, List.take_length]
  · refine List.map_congr_left fun i _ => ?_
    have hdrop : (i + 1) * s.size = front.length + i * s.size := by rw [h, Nat.succ_mul, Nat.add_comm]
    rw [Function.comp, Nat.succ_eq_add_one, hdrop, ← List.drop_drop, List.drop_left]

/-- Lanes that are spelled one after the other are read one after the other. -/
theorem cellsOf_spelled {s : Scalar} : ∀ {cs : List s.register.Cell}, (∀ c ∈ cs, s.Holds c) →
    cellsOf s cs.length (cs.flatMap s.spell) = cs
  | [], _ => rfl
  | c :: cs, h => by
    rw [List.length_cons, List.flatMap_cons, cellsOf_succ (s.length_spell c),
      Scalar.read_spell (h c List.mem_cons_self),
      cellsOf_spelled fun d hd => h d (List.mem_cons_of_mem _ hd)]

/-- Lanes that are read one after the other are spelled as they were. -/
theorem spell_cellsOf {s : Scalar} : ∀ {n : Nat} {bs : List UInt8}, bs.length = s.size * n →
    (cellsOf s n bs).flatMap s.spell = bs
  | 0, bs, hlen => (List.length_eq_zero_iff.mp hlen).symm
  | n + 1, bs, hlen => by
    rw [Nat.mul_succ] at hlen
    obtain ⟨front, rest, rfl, hfront⟩ : ∃ front rest, bs = front ++ rest ∧ front.length = s.size :=
      ⟨bs.take s.size, bs.drop s.size, (List.take_append_drop ..).symm, by rw [List.length_take]; omega⟩
    rw [List.length_append] at hlen
    rw [cellsOf_succ hfront, List.flatMap_cons,
      Scalar.spell_read hfront, spell_cellsOf (by omega)]

/-! ### Values that memory can give back -/

mutual

/-- A value has the form of a type, and its registers hold numbers of their scalars. -/
def Formed (t : Ty) (v : Value) : Prop :=
  match t with
  | .scalar s => ∃ c : s.register.Cell, v = .lanes s.register (.atom c) ∧ s.Holds c
  | .vector s w => ∃ cs : List s.register.Cell,
      v = .lanes s.register (.row cs) ∧ cs.length = w.lanes ∧ ∀ c ∈ cs, s.Holds c
  | .tuple ts => ∃ vs, v = .record vs ∧ FormedAll ts vs
  | .void | .pointer _ _ _ => False

/-- The same for the fields of a structure, one by one. -/
def FormedAll (ts : List Ty) (vs : List Value) : Prop :=
  match ts, vs with
  | [], [] => True
  | t :: ts, v :: vs => Formed t v ∧ FormedAll ts vs
  | _, _ => False

end

/-! ### Writing -/

/-- What a block is after a value was written into it: the write succeeds, it keeps the bytes
that belong to no scalar of the value, and the value is read back. -/
structure Written (t : Ty) (v : Value) (dst : Bytes) (base : Nat) (dst' : Bytes) : Prop where
  encoded : encodeAt t v dst base = (dst', .ok ())
  size_eq : dst'.size = dst.size
  kept : ∀ i, ¬ (base ≤ i ∧ t.covers (i - base) = true) → dst'[i]? = dst[i]?
  decoded : decodeAt t (Bytes.slice dst' base t.size) = .ok v

theorem exists_written_lanes {t : Ty} {s : Scalar} (ht : t.element? = some s) {x : Lanes s.register}
    (hlen : s.size * x.cells.length = t.size) (hcovers : ∀ i, i < t.size → t.covers i = true)
    (hread : decodeAt t (x.cells.flatMap s.spell) = .ok (.lanes s.register x)) {dst : Bytes}
    {base : Nat} (hroom : base + t.size ≤ dst.size) :
    ∃ dst', Written t (.lanes s.register x) dst base dst' := by
  have hbytes : (bytesOfLanes t x).take t.size = x.cells.flatMap s.spell := by
    rw [bytesOfLanes_eq ht, List.take_of_length_le (by rw [length_flatMap_spell, hlen])]
  have hsize : (x.cells.flatMap s.spell).length = t.size := by rw [length_flatMap_spell, hlen]
  refine ⟨Bytes.write dst base (x.cells.flatMap s.spell), ?_, by simp, fun i hi => ?_, ?_⟩
  · simp only [encodeAt, hbytes]
  · refine Bytes.getElem?_write_of_not_mem fun hin => hi ⟨hin.1, hcovers _ ?_⟩
    omega
  · rw [← hread, ← hsize, Bytes.slice_write (by omega)]

mutual

/-- **A formed value is written and read back**, at any offset with room for it. -/
theorem exists_written : ∀ {t : Ty} {v : Value}, Formed t v → ∀ {dst : Bytes} {base : Nat},
    base + t.size ≤ dst.size → ∃ dst', Written t v dst base dst'
  | .void, v, h, dst, base, _ => by simp [Formed] at h
  | .scalar s, v, h, dst, base, hroom => by
    simp only [Formed] at h
    obtain ⟨c, rfl, hc⟩ := h
    refine exists_written_lanes rfl (by simp [Lanes.cells, Ty.size])
      (fun i hi => by simpa [Ty.covers, Ty.size] using hi) ?_ hroom
    simp only [decodeAt, lanesOfBytes_none, Lanes.cells, List.flatMap_singleton, Scalar.read_spell hc]
  | .vector s w, v, h, dst, base, hroom => by
    simp only [Formed] at h
    obtain ⟨cs, rfl, hlen, hcs⟩ := h
    refine exists_written_lanes rfl (by simp [Lanes.cells, Ty.size, hlen])
      (fun i hi => by simpa [Ty.covers, Ty.size] using hi) ?_ hroom
    have hcells : cellsOf s w.lanes (cs.flatMap s.spell) = cs := hlen ▸ cellsOf_spelled hcs
    simp only [decodeAt, Lanes.cells]
    exact congrArg (fun cs => Except.ok (Value.lanes s.register (.row cs))) hcells
  | .tuple ts, v, h, dst, base, hroom => by
    simp only [Formed] at h
    obtain ⟨vs, rfl, hvs⟩ := h
    have hend := Ty.fieldsEnd_le_size ts
    obtain ⟨dst', henc, hsize, hkept, hdec⟩ :=
      exists_writtenFields hvs dst base 0 (by omega)
    refine ⟨dst', ?_, hsize, hkept, ?_⟩
    · simp only [encodeAt, henc]
    · simp only [decodeAt, hdec _ hend]
  | .pointer _ _ _, v, h, dst, base, _ => by simp [Formed] at h

theorem exists_writtenFields : ∀ {ts : List Ty} {vs : List Value}, FormedAll ts vs →
    ∀ (dst : Bytes) (base used : Nat), base + Ty.fieldsEnd used ts ≤ dst.size →
    ∃ dst', encodeFields ts vs dst base used = (dst', .ok ()) ∧ dst'.size = dst.size ∧
      (∀ i, ¬ (base ≤ i ∧ Ty.coversFrom used ts (i - base) = true) → dst'[i]? = dst[i]?) ∧
      ∀ n, Ty.fieldsEnd used ts ≤ n → decodeFields ts (Bytes.slice dst' base n) used = .ok vs
  | [], [], _, dst, base, used, _ =>
    ⟨dst, by simp only [encodeFields], rfl, fun _ _ => rfl, fun _ _ => by simp only [decodeFields]⟩
  | [], _ :: _, h, dst, base, used, _ | _ :: _, [], h, dst, base, used, _ => by
    simp [FormedAll] at h
  | t :: ts, v :: vs, h, dst, base, used, hroom => by
    simp only [FormedAll] at h
    rw [Ty.fieldsEnd] at hroom
    have hend := Ty.le_fieldsEnd (alignUp used t.align + t.size) ts
    have hfits : base + alignUp used t.align + t.size ≤ dst.size := by omega
    obtain ⟨mid, hw⟩ := exists_written h.1 hfits
    obtain ⟨dst', henc, hsize, hkept, hdec⟩ := exists_writtenFields h.2 mid base
      (alignUp used t.align + t.size) (by rw [hw.size_eq]; exact hroom)
    -- The fields after this one change only bytes behind it.
    have hbefore : ∀ i, i < base + (alignUp used t.align + t.size) → dst'[i]? = mid[i]? :=
      fun i hi => hkept i fun ⟨hle, hc⟩ => by
        have := (Ty.lt_fieldsEnd_of_coversFrom hc).1
        omega
    refine ⟨dst', ?_, hsize.trans hw.size_eq, fun i hi => ?_, fun n hn => ?_⟩
    · simp only [encodeFields, hw.encoded, henc]
    · rw [Ty.coversFrom] at hi
      rw [hkept i (by grind), hw.kept i (by grind)]
    · rw [Ty.fieldsEnd] at hn
      have hfirst : decodeAt t (Bytes.slice dst' (base + alignUp used t.align) t.size) = .ok v := by
        rw [Bytes.slice_congr fun i hi hi' => hbefore i (by omega)]
        exact hw.decoded
      simp only [decodeFields, Bytes.take_drop_slice _ _ (by omega : alignUp used t.align + t.size ≤ n),
        hfirst, hdec n hn]

end

/-! ### Reading -/

mutual

theorem decodeAt_formed : ∀ {t : Ty} {bs : List UInt8} {v : Value},
    decodeAt t bs = .ok v → Formed t v
  | .void, bs, v, h => by simp [decodeAt] at h
  | .scalar s, bs, v, h => by
    simp only [decodeAt, Except.ok.injEq] at h
    subst h
    simp only [Formed]
    exact ⟨s.read bs, rfl, s.holds_read bs⟩
  | .vector s w, bs, v, h => by
    simp only [decodeAt, Except.ok.injEq] at h
    subst h
    simp only [Formed]
    refine ⟨cellsOf s w.lanes bs, rfl, by simp [cellsOf], fun c hc => ?_⟩
    obtain ⟨i, -, rfl⟩ := List.mem_map.mp hc
    exact s.holds_read _
  | .tuple ts, bs, v, h => by
    simp only [decodeAt] at h
    split at h
    · cases h
    · rename_i vs hvs
      cases h
      simp only [Formed]
      exact ⟨vs, rfl, decodeFields_formed hvs⟩
  | .pointer _ _ _, bs, v, h => by simp [decodeAt] at h

theorem decodeFields_formed : ∀ {ts : List Ty} {bs : List UInt8} {used : Nat} {vs : List Value},
    decodeFields ts bs used = .ok vs → FormedAll ts vs
  | [], bs, used, vs, h => by
    simp only [decodeFields, Except.ok.injEq] at h
    subst h
    simp [FormedAll]
  | t :: ts, bs, used, vs, h => by
    simp only [decodeFields] at h
    split at h
    · cases h
    · rename_i v hv
      split at h
      · cases h
      · rename_i ws hws
        cases h
        simp only [FormedAll]
        exact ⟨decodeAt_formed hv, decodeFields_formed hws⟩

end

end Value

namespace Value

/-- Lanes that spell a stretch of a block are written as that stretch. -/
theorem copies_lanes {t : Ty} {s : Scalar} (ht : t.element? = some s) {x : Lanes s.register}
    {src dst dst' : Bytes} {offset base : Nat}
    (hspell : x.cells.flatMap s.spell = Bytes.slice src offset t.size)
    (hsrc : offset + t.size ≤ src.size) (hdst : base + t.size ≤ dst.size)
    (henc : encodeAt t (.lanes s.register x) dst base = (dst', .ok ())) {i : Nat} (hi : i < t.size) :
    dst'[base + i]? = src[offset + i]? := by
  have hlen := Bytes.length_slice hsrc
  have hbytes : (bytesOfLanes t x).take t.size = Bytes.slice src offset t.size := by
    rw [bytesOfLanes_eq ht, hspell, List.take_of_length_le hlen.le]
  simp only [encodeAt, hbytes, Prod.mk.injEq, and_true] at henc
  rw [← henc, Bytes.getElem?_write, hlen, if_pos (by omega), Nat.add_sub_cancel_left,
    Bytes.getElem?_slice, if_pos hi]

mutual

/-- **Bytes that were read are written back as they were**, those of the padding excepted. -/
theorem copies : ∀ {t : Ty} {src : Bytes} {offset : Nat} {v : Value} {dst dst' : Bytes} {base : Nat},
    decodeAt t (Bytes.slice src offset t.size) = .ok v →
    offset + t.size ≤ src.size → base + t.size ≤ dst.size →
    encodeAt t v dst base = (dst', .ok ()) →
    ∀ i, t.covers i = true → dst'[base + i]? = src[offset + i]?
  | .void, src, offset, v, dst, dst', base, h, _, _, _ => by simp [decodeAt] at h
  | .scalar s, src, offset, v, dst, dst', base, h, hsrc, hdst, henc => by
    simp only [decodeAt, Except.ok.injEq] at h
    subst h
    intro i hi
    refine copies_lanes rfl ?_ hsrc hdst henc (Ty.lt_size_of_covers hi)
    have hlen := Bytes.length_slice hsrc
    rw [lanesOfBytes_none, Lanes.cells, List.flatMap_singleton]
    exact Scalar.spell_read (by rw [hlen, Ty.size])
  | .vector s w, src, offset, v, dst, dst', base, h, hsrc, hdst, henc => by
    simp only [decodeAt, Except.ok.injEq] at h
    subst h
    intro i hi
    refine copies_lanes rfl ?_ hsrc hdst henc (Ty.lt_size_of_covers hi)
    have hlen := Bytes.length_slice hsrc
    exact spell_cellsOf (by rw [hlen, Ty.size])
  | .tuple ts, src, offset, v, dst, dst', base, h, hsrc, hdst, henc => by
    have hend := Ty.fieldsEnd_le_size ts
    simp only [decodeAt] at h
    split at h
    · cases h
    · rename_i vs hvs
      cases h
      simp only [encodeAt] at henc
      exact copiesFields hvs hsrc hend (by omega) henc
  | .pointer _ _ _, src, offset, v, dst, dst', base, h, _, _, _ => by simp [decodeAt] at h

theorem copiesFields : ∀ {ts : List Ty} {src : Bytes} {offset used n : Nat} {vs : List Value}
    {dst dst' : Bytes} {base : Nat},
    decodeFields ts (Bytes.slice src offset n) used = .ok vs →
    offset + n ≤ src.size → Ty.fieldsEnd used ts ≤ n → base + Ty.fieldsEnd used ts ≤ dst.size →
    encodeFields ts vs dst base used = (dst', .ok ()) →
    ∀ i, Ty.coversFrom used ts i = true → dst'[base + i]? = src[offset + i]?
  | [], src, offset, used, n, vs, dst, dst', base, _, _, _, _, _ => by simp [Ty.coversFrom]
  | t :: ts, src, offset, used, n, vs, dst, dst', base, h, hsrc, hn, hdst, henc => by
    have hend := Ty.le_fieldsEnd (alignUp used t.align + t.size) ts
    rw [Ty.fieldsEnd] at hn hdst
    simp only [decodeFields,
      Bytes.take_drop_slice _ _ (by omega : alignUp used t.align + t.size ≤ n)] at h
    split at h
    · cases h
    rename_i v hv
    split at h
    · cases h
    rename_i ws hws
    cases h
    have hfits : base + alignUp used t.align + t.size ≤ dst.size := by omega
    obtain ⟨mid, hmid⟩ := exists_written (decodeAt_formed hv) hfits
    obtain ⟨out, hout, -, hkept, -⟩ := exists_writtenFields (decodeFields_formed hws) mid base
      (alignUp used t.align + t.size) (by rw [hmid.size_eq]; exact hdst)
    simp only [encodeFields, hmid.encoded, hout, Prod.mk.injEq, and_true] at henc
    subst henc
    intro i hi
    rw [Ty.coversFrom, Bool.or_eq_true, Bool.and_eq_true, decide_eq_true_eq] at hi
    rcases hi with ⟨hle, hi⟩ | hi
    · -- The fields after this one change only bytes behind it.
      have hlt := Ty.lt_size_of_covers hi
      obtain ⟨j, rfl⟩ := Nat.exists_eq_add_of_le hle
      rw [Nat.add_sub_cancel_left] at hi hlt
      rw [hkept _ fun ⟨_, hc⟩ => by
        have := (Ty.lt_fieldsEnd_of_coversFrom hc).1
        omega]
      rw [← Nat.add_assoc, ← Nat.add_assoc]
      exact copies hv (by omega) (by omega) hmid.encoded j hi
    · exact copiesFields hws hsrc hn (by rw [hmid.size_eq]; exact hdst) hout i hi

end

end Value

/-! ### The host side -/

mutual

/-- A host type has the parts of a kernel type; hidden fields are no parts. -/
def Ty.Mirrors (t : Ty) (h : HostTy) : Prop :=
  match t with
  | .scalar s => h.kernelTy = .ok (.scalar s)
  | .vector s w => ∃ elem, h = .array w.lanes elem ∧ elem.kernelTy = .ok (.scalar s)
  | .tuple ts => ∃ fs, h = .struct fs ∧ Ty.MirrorsAll ts (HostTy.visible fs)
  | .void | .pointer _ _ _ => False

def Ty.MirrorsAll (ts : List Ty) (hs : List HostTy) : Prop :=
  match ts, hs with
  | [], [] => True
  | t :: ts, h :: hs => Ty.Mirrors t h ∧ Ty.MirrorsAll ts hs
  | _, _ => False

end

mutual

/-- A host value of a host type stands for a value of the device: each scalar of the one is
the number in the register of the other.  Hidden fields stand for nothing. -/
def Value.Agrees (t : Ty) (h : HostTy) (v : Value) (u : HostValue) : Prop :=
  match t with
  | .scalar s => ∃ c : s.register.Cell, v = .lanes s.register (.atom c) ∧ s.register.Denotes c u
  | .vector s _ => ∃ (cs : List s.register.Cell) (us : List HostValue),
      v = .lanes s.register (.row cs) ∧ u = .list us ∧ List.Forall₂ s.register.Denotes cs us
  | .tuple ts => ∃ fs vs us, h = .struct fs ∧ v = .record vs ∧ u = .list us ∧
      us.length = fs.length ∧ Value.AgreesAll ts (HostTy.visible fs) vs (HostTy.visibleValues fs us)
  | .void | .pointer _ _ _ => False

def Value.AgreesAll (ts : List Ty) (hs : List HostTy) (vs : List Value) (us : List HostValue) : Prop :=
  match ts, hs, vs, us with
  | [], [], [], [] => True
  | t :: ts, h :: hs, v :: vs, u :: us => Value.Agrees t h v u ∧ Value.AgreesAll ts hs vs us
  | _, _, _, _ => False

end

namespace Host

theorem decodeLanes_denotes {h : HostTy} {s : Scalar} (hk : h.kernelTy = .ok (.scalar s))
    {src : Bytes} : ∀ (n offset : Nat), offset + s.size * n ≤ src.size →
    ∃ us, decodeLanes s src offset h n = .ok us ∧
      List.Forall₂ s.register.Denotes (Value.cellsOf s n (Bytes.slice src offset (s.size * n))) us
  | 0, offset, _ => ⟨[], rfl, .nil⟩
  | n + 1, offset, hroom => by
    rw [Nat.mul_succ] at hroom
    obtain ⟨u, hu, hd⟩ := decodeScalar_denotes hk (Bytes.slice src offset s.size)
    obtain ⟨us, hus, hds⟩ := decodeLanes_denotes hk n (offset + s.size)
      (by omega : offset + s.size + s.size * n ≤ src.size)
    refine ⟨u :: us, by simp only [decodeLanes, hu, hus], ?_⟩
    rw [Nat.mul_succ, Nat.add_comm (s.size * n), Bytes.slice_add (by omega),
      Value.cellsOf_succ (Bytes.length_slice (by omega))]
    exact .cons hd hds

theorem visibleValues_refill : ∀ (fs : List (Bool × HostTy)) {us : List HostValue},
    us.length = (HostTy.visible fs).length →
    HostTy.visibleValues fs (refill fs us) = us ∧ (refill fs us).length = fs.length
  | [], us, h => by
    rw [List.length_eq_zero_iff.mp h]
    exact ⟨rfl, rfl⟩
  | (true, t) :: fs, us, h => by
    obtain ⟨hvals, hlen⟩ := visibleValues_refill fs h
    rw [refill, HostTy.visibleValues_hidden, List.length_cons, List.length_cons, hlen]
    exact ⟨hvals, rfl⟩
  | (false, t) :: fs, [], h => by simp at h
  | (false, t) :: fs, u :: us, h => by
    obtain ⟨hvals, hlen⟩ := visibleValues_refill fs (Nat.succ.inj h)
    rw [refill, HostTy.visibleValues_shown, hvals, List.length_cons, List.length_cons, hlen]
    exact ⟨rfl, rfl⟩

theorem mirrorsAll_length : ∀ {ts : List Ty} {hs : List HostTy}, Ty.MirrorsAll ts hs →
    hs.length = ts.length
  | [], [], _ => rfl
  | [], _ :: _, h | _ :: _, [], h => by simp [Ty.MirrorsAll] at h
  | t :: ts, h :: hs, hm => by
    simp only [Ty.MirrorsAll] at hm
    rw [List.length_cons, List.length_cons, mirrorsAll_length hm.2]

theorem agreesAll_length : ∀ {ts : List Ty} {hs : List HostTy} {vs : List Value}
    {us : List HostValue}, Value.AgreesAll ts hs vs us → us.length = hs.length
  | [], [], [], [], _ => rfl
  | t :: ts, h :: hs, v :: vs, u :: us, hd => by
    simp only [Value.AgreesAll] at hd
    rw [List.length_cons, List.length_cons, agreesAll_length hd.2]

mutual

/-- **The host reads what the device reads.** -/
theorem decodeAt_agrees : ∀ {t : Ty} {h : HostTy} {src : Bytes} {offset : Nat} {v : Value},
    Ty.Mirrors t h → Value.decodeAt t (Bytes.slice src offset t.size) = .ok v →
    offset + t.size ≤ src.size → ∃ u, decodeAt t src offset h = .ok u ∧ Value.Agrees t h v u
  | .void, h, src, offset, v, hm, _, _ => by simp [Ty.Mirrors] at hm
  | .scalar s, h, src, offset, v, hm, hv, hroom => by
    simp only [Ty.Mirrors] at hm
    simp only [Value.decodeAt, Except.ok.injEq] at hv
    subst hv
    have hfits : ¬ src.size - offset < (Ty.scalar s).size := by omega
    obtain ⟨u, hu, hd⟩ := decodeScalar_denotes hm (Bytes.slice src offset s.size)
    refine ⟨u, by simp only [decodeAt, if_neg hfits, hu], ?_⟩
    simp only [Value.Agrees]
    exact ⟨_, rfl, hd⟩
  | .vector s w, h, src, offset, v, hm, hv, hroom => by
    simp only [Ty.Mirrors] at hm
    obtain ⟨elem, rfl, hk⟩ := hm
    simp only [Value.decodeAt, Except.ok.injEq] at hv
    subst hv
    have hfits : ¬ src.size - offset < (Ty.vector s w).size := by omega
    obtain ⟨us, hus, hds⟩ := decodeLanes_denotes hk w.lanes offset
      (by simpa only [Ty.size] using hroom)
    refine ⟨.list us, by simp only [decodeAt, if_neg hfits, if_pos, hus], ?_⟩
    simp only [Value.Agrees]
    exact ⟨_, us, rfl, rfl, hds⟩
  | .tuple ts, h, src, offset, v, hm, hv, hroom => by
    have hend := Ty.fieldsEnd_le_size ts
    simp only [Ty.Mirrors] at hm
    obtain ⟨fs, rfl, hm⟩ := hm
    simp only [Value.decodeAt] at hv
    split at hv
    · cases hv
    rename_i vs hvs
    cases hv
    have hfits : ¬ src.size - offset < (Ty.tuple ts).size := by omega
    have hlen := mirrorsAll_length hm
    obtain ⟨us, hus, hd⟩ := decodeFields_agree (n := (Ty.tuple ts).size) hm hvs hroom hend
    obtain ⟨hvals, hrefill⟩ := visibleValues_refill fs (agreesAll_length hd)
    refine ⟨.list (refill fs us), by simp only [decodeAt, if_neg hfits, if_pos hlen, hus], ?_⟩
    simp only [Value.Agrees]
    exact ⟨fs, vs, _, rfl, rfl, rfl, hrefill, hvals.symm ▸ hd⟩
  | .pointer _ _ _, h, src, offset, v, hm, _, _ => by simp [Ty.Mirrors] at hm

theorem decodeFields_agree : ∀ {ts : List Ty} {hs : List HostTy} {src : Bytes}
    {offset used n : Nat} {vs : List Value},
    Ty.MirrorsAll ts hs → Value.decodeFields ts (Bytes.slice src offset n) used = .ok vs →
    offset + n ≤ src.size → Ty.fieldsEnd used ts ≤ n →
    ∃ us, decodeFields ts src offset used hs = .ok us ∧ Value.AgreesAll ts hs vs us
  | [], [], src, offset, used, n, vs, _, hv, _, _ => by
    simp only [Value.decodeFields, Except.ok.injEq] at hv
    subst hv
    exact ⟨[], by simp only [decodeFields], by simp only [Value.AgreesAll]⟩
  | [], _ :: _, src, offset, used, n, vs, hm, _, _, _ => by simp [Ty.MirrorsAll] at hm
  | _ :: _, [], src, offset, used, n, vs, hm, _, _, _ => by simp [Ty.MirrorsAll] at hm
  | t :: ts, h :: hs, src, offset, used, n, vs, hm, hv, hroom, hn => by
    simp only [Ty.MirrorsAll] at hm
    have hend := Ty.le_fieldsEnd (alignUp used t.align + t.size) ts
    rw [Ty.fieldsEnd] at hn
    simp only [Value.decodeFields,
      Bytes.take_drop_slice _ _ (by omega : alignUp used t.align + t.size ≤ n)] at hv
    split at hv
    · cases hv
    rename_i v hv'
    split at hv
    · cases hv
    rename_i ws hws
    cases hv
    obtain ⟨u, hu, hd⟩ := decodeAt_agrees hm.1 hv' (by omega)
    obtain ⟨us, hus, hds⟩ := decodeFields_agree hm.2 hws hroom hn
    refine ⟨u :: us, by simp only [decodeFields, hu, hus], ?_⟩
    simp only [Value.AgreesAll]
    exact ⟨hd, hds⟩

end

end Host

/-! ### Host types of a kernel type -/

namespace HostTy

theorem kernelTy_ofScalar (s : Scalar) : (ofScalar s).kernelTy = .ok (.scalar s) := by
  cases s <;> rfl

theorem visible_fieldsOf (ts : List Ty) : visible (fieldsOf ts) = ts.map ofTy := by
  induction ts with
  | nil => rfl
  | cons t ts ih => rw [fieldsOf, visible_shown, ih, List.map_cons]

mutual

/-- Every type that memory holds has a host type with its parts. -/
theorem mirrors_ofTy : ∀ {t : Ty}, t.isStored = true → Ty.Mirrors t (ofTy t)
  | .void, h | .pointer _ _ _, h => by simp [Ty.isStored] at h
  | .scalar s, _ => by
    simp only [Ty.Mirrors, ofTy]
    exact kernelTy_ofScalar s
  | .vector s w, _ => by
    simp only [Ty.Mirrors, ofTy]
    exact ⟨_, rfl, kernelTy_ofScalar s⟩
  | .tuple ts, h => by
    simp only [Ty.isStored] at h
    simp only [Ty.Mirrors, ofTy]
    exact ⟨_, rfl, visible_fieldsOf ts ▸ mirrorsAll_ofTy h⟩

theorem mirrorsAll_ofTy : ∀ {ts : List Ty}, Ty.areStored ts = true →
    Ty.MirrorsAll ts (ts.map ofTy)
  | [], _ => by simp [Ty.MirrorsAll]
  | t :: ts, h => by
    simp only [Ty.areStored, Bool.and_eq_true] at h
    simp only [List.map_cons, Ty.MirrorsAll]
    exact ⟨mirrors_ofTy h.1, mirrorsAll_ofTy h.2⟩

end

end HostTy

/-! ### The two codecs -/

namespace Value

/-- **The device and the host agree on memory.**  For every type that memory holds, the device
reads every block of its size; whatever host type has the parts of the type, the host reads the
same numbers; and writing the value that was read, to any place with room, puts every byte of its
scalars back and changes nothing else.  A formed value that is written is read back. -/
theorem codecs_agree {t : Ty} (ht : t.isStored = true) :
    (∀ block : Bytes, block.size = t.size →
      ∃ v, decode t block.toList = .ok v ∧ Formed t v ∧
        (∃ h, Ty.Mirrors t h) ∧
        (∀ h, Ty.Mirrors t h → ∃ u, Host.decode t block h = .ok u ∧ Agrees t h v u) ∧
        ∀ (dst : Bytes) (base : Nat), base + t.size ≤ dst.size →
          ∃ dst', encodeAt t v dst base = (dst', .ok ()) ∧ dst'.size = dst.size ∧
            (∀ i, t.covers i = true → dst'[base + i]? = block[i]?) ∧
            ∀ i, ¬ (base ≤ i ∧ t.covers (i - base) = true) → dst'[i]? = dst[i]?) ∧
    ∀ v, Formed t v → ∀ dst : Bytes, dst.size = t.size →
      ∃ dst', encodeAt t v dst 0 = (dst', .ok ()) ∧ dst'.size = t.size ∧
        decode t dst'.toList = .ok v := by
  constructor
  · intro block hsize
    obtain ⟨v, hv⟩ := decodeAt_ok ht (Bytes.slice block 0 t.size)
    have hformed := decodeAt_formed hv
    refine ⟨v, ?_, hformed, ⟨_, HostTy.mirrors_ofTy ht⟩, fun h hm => ?_, fun dst base hroom => ?_⟩
    · rw [decode, Bytes.toList_eq_slice hsize, hv]
    · exact Host.decodeAt_agrees hm hv (by omega)
    · obtain ⟨dst', hw⟩ := exists_written hformed hroom
      refine ⟨dst', hw.encoded, hw.size_eq, fun i hi => ?_, hw.kept⟩
      have hcopy := copies hv (by omega) hroom hw.encoded i hi
      rwa [Nat.zero_add] at hcopy
  · intro v hv dst hsize
    have hroom : 0 + t.size ≤ dst.size := by omega
    obtain ⟨dst', hw⟩ := exists_written hv hroom
    refine ⟨dst', hw.encoded, hw.size_eq.trans hsize, ?_⟩
    rw [decode, Bytes.toList_eq_slice (hw.size_eq.trans hsize), hw.decoded]

set_option maxRecDepth 2000 in
/-- A structure with narrow integers, truth values and padding: the block that holds -2, 1 and
-1.5 is read into registers, by the host too, and written back around its padding. -/
theorem codecs_agree_record :
    let t : Ty := .tuple [.scalar .char, .scalar .bool, .scalar .float]
    let v : Value := .record [.lanes .int32 (.atom (-2)), .lanes .bool (.atom 1),
      .lanes .float32 (.atom ⟨0xbfc00000⟩)]
    let block : Bytes := #[0xfe, 1, 0x33, 0x44, 0, 0, 0xc0, 0xbf]
    decode t block.toList = .ok v ∧
      (∃ u, Host.decode t block (HostTy.ofTy t) = .ok u ∧ Agrees t (HostTy.ofTy t) v u) ∧
      ∃ dst', encodeAt t v (Array.replicate 12 0xaa) 4 = (dst', .ok ()) ∧ dst'[4]? = some 0xfe ∧
        dst'[6]? = some 0xaa := by
  intro t v block
  have hread : decode t block.toList = .ok v := rfl
  obtain ⟨w, hw, -, -, hhost, hcopy⟩ := (codecs_agree (t := t) rfl).1 block rfl
  obtain rfl : v = w := Except.ok.inj (hread.symm.trans hw)
  obtain ⟨dst', henc, -, hback, hkept⟩ := hcopy (Array.replicate 12 0xaa) 4 (by decide)
  exact ⟨hread, hhost _ (HostTy.mirrors_ofTy rfl), dst', henc, hback 0 (by decide), hkept 6 (by decide)⟩

end Value
end KernelForge
