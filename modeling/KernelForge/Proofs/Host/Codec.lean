/-
Host values survive the way through device memory.

Writing and reading are two recursions that share only the places of the fields, so the proof
follows the host type once and says three things at each level: the write succeeds, it changes
no byte outside of the scalars of the type, and reading what it left gives the value back.
The second is what makes the third compose: a field that is written later lies after the
fields that are written already, so these read as before.

A value comes back as a kernel can have seen it.  A hidden field is not written, and a value
that is read has zero there; `shown` is the value with its hidden fields so cleared.  Native
integers are 32 bits wide on the device, so `admits` asks that those fit, and it asks that no
floating-point part is a NaN, since the payload of a NaN is not kept.  For writing and reading
just to succeed, it is enough that there is room and that the value has the form of its type.
-/
import KernelForge.Host.Memory
import KernelForge.Proofs.Basic
import KernelForge.Proofs.Binary.Exact
import KernelForge.Proofs.Ty.Layout

namespace KernelForge

/-! ### The bytes of the fields -/

namespace Ty

mutual

/-- Whether the byte at an offset within a value belongs to a scalar of it; the others are
padding, or lie behind the value. -/
def covers : Ty → Nat → Bool
  | void, _ => false
  | scalar s, i => i < s.size
  | vector s w, i => i < s.size * w.lanes
  | tuple ts, i => coversFrom 0 ts i
  | pointer _ _ _, i => i < pointerSize

/-- The same for some fields of a tuple, when those before them end at `used`. -/
def coversFrom (used : Nat) : List Ty → Nat → Bool
  | [], _ => false
  | t :: ts, i =>
    decide (alignUp used t.align ≤ i) && t.covers (i - alignUp used t.align) ||
      coversFrom (alignUp used t.align + t.size) ts i

end

mutual

/-- A byte of a scalar lies within the value. -/
theorem lt_size_of_covers : ∀ {t : Ty} {i : Nat}, t.covers i = true → i < t.size
  | void, i, h => by simp [covers] at h
  | scalar s, i, h => by simpa [covers, size] using h
  | vector s w, i, h => by simpa [covers, size] using h
  | tuple ts, i, h => by
    rw [covers] at h
    exact Nat.lt_of_lt_of_le (lt_fieldsEnd_of_coversFrom h).2 (fieldsEnd_le_size ts)
  | pointer _ _ _, i, h => by simpa [covers, size] using h

theorem lt_fieldsEnd_of_coversFrom : ∀ {ts : List Ty} {used i : Nat},
    coversFrom used ts i = true → used ≤ i ∧ i < fieldsEnd used ts
  | [], used, i, h => by simp [coversFrom] at h
  | t :: ts, used, i, h => by
    have hup := le_alignUp used t.align
    have hend := le_fieldsEnd (alignUp used t.align + t.size) ts
    rw [fieldsEnd]
    rw [coversFrom, Bool.or_eq_true, Bool.and_eq_true, decide_eq_true_eq] at h
    rcases h with ⟨hle, h⟩ | h
    · have := lt_size_of_covers h
      omega
    · have := lt_fieldsEnd_of_coversFrom h
      omega

end

end Ty

/-! ### Values that the device can hold -/

/-- The bits that a host integer has on the device. -/
def IntWidth.deviceBits : IntWidth → Nat
  | native => 32
  | w8 => 8
  | w16 => 16
  | w32 => 32
  | w64 => 64

namespace HostTy

mutual

/-- Whether a value is one of a host type whose visible parts the device can hold: integers
within their width on the device, and no NaN.  A hidden field may be anything. -/
def admits : HostTy → HostValue → Bool
  | bool, .bool _ => true
  | int w, .int i =>
    decide (-2 ^ (w.deviceBits - 1) ≤ i.toInt) && decide (i.toInt < 2 ^ (w.deviceBits - 1))
  | uint w, .uint u => decide (u.toNat < 2 ^ w.deviceBits)
  | float32, .float32 x => !x.isNaN
  | float64, .float64 x => !x.isNaN
  | array n t, .list vs => decide (vs.length = n) && vs.all t.admits
  | struct fs, .list vs => admitsFields fs vs
  | _, _ => false

def admitsFields : List (Bool × HostTy) → List HostValue → Bool
  | [], [] => true
  | f :: fs, v :: vs => admitsField f v && admitsFields fs vs
  | _, _ => false

def admitsField : Bool × HostTy → HostValue → Bool
  | (hidden, t), v => hidden || t.admits v

end

mutual

/-- Whether a value is built as those of a host type are.  Numbers may be any, also a NaN, and a
hidden field may be anything. -/
def forms : HostTy → HostValue → Bool
  | bool, .bool _ => true
  | int _, .int _ => true
  | uint _, .uint _ => true
  | float32, .float32 _ => true
  | float64, .float64 _ => true
  | array n t, .list vs => decide (vs.length = n) && vs.all t.forms
  | struct fs, .list vs => formsFields fs vs
  | _, _ => false

def formsFields : List (Bool × HostTy) → List HostValue → Bool
  | [], [] => true
  | f :: fs, v :: vs => formsField f v && formsFields fs vs
  | _, _ => false

def formsField : Bool × HostTy → HostValue → Bool
  | (hidden, t), v => hidden || t.forms v

end

mutual

/-- A value with zero in its hidden fields, at every depth. -/
def shown : HostTy → HostValue → HostValue
  | struct fs, .list vs => .list (shownFields fs vs)
  | _, v => v

def shownFields : List (Bool × HostTy) → List HostValue → List HostValue
  | f :: fs, v :: vs => shownField f v :: shownFields fs vs
  | _, _ => []

def shownField : Bool × HostTy → HostValue → HostValue
  | (hidden, t), v => if hidden then t.zero else t.shown v

end

mutual

/-- Whether no field of a host type is hidden, at any depth. -/
def isOpen : HostTy → Bool
  | struct fs => areOpen fs
  | _ => true

def areOpen : List (Bool × HostTy) → Bool
  | [] => true
  | f :: fs => isOpenField f && areOpen fs

def isOpenField : Bool × HostTy → Bool
  | (hidden, t) => !hidden && t.isOpen

end

mutual

theorem shown_of_isOpen : ∀ {h : HostTy} {v : HostValue},
    h.isOpen = true → h.admits v = true → h.shown v = v
  | struct fs, .list vs, ho, hv => by
    rw [isOpen] at ho
    rw [admits] at hv
    rw [shown, shownFields_of_areOpen ho hv]
  | struct _, .bool _, _, _ | struct _, .int _, _, _ | struct _, .uint _, _, _
  | struct _, .float32 _, _, _ | struct _, .float64 _, _, _ | struct _, .text _, _, _
  | struct _, .other, _, _ => by rw [shown]; simp
  | bool, _, _, _ | int _, _, _, _ | uint _, _, _, _ | float32, _, _, _ | float64, _, _, _
  | string, _, _, _ | complex64, _, _, _ | array _ _, _, _, _ | slice _, _, _, _
  | pointer _, _, _, _ => by rw [shown]; simp

theorem shownFields_of_areOpen : ∀ {fs : List (Bool × HostTy)} {vs : List HostValue},
    areOpen fs = true → admitsFields fs vs = true → shownFields fs vs = vs
  | [], [], _, _ => by rw [shownFields]; simp
  | [], _ :: _, _, hv => by simp [admitsFields] at hv
  | _ :: _, [], _, hv => by simp [admitsFields] at hv
  | f :: fs, v :: vs, ho, hv => by
    rw [areOpen, Bool.and_eq_true] at ho
    rw [admitsFields, Bool.and_eq_true] at hv
    rw [shownFields, shownField_of_isOpenField ho.1 hv.1, shownFields_of_areOpen ho.2 hv.2]

theorem shownField_of_isOpenField : ∀ {f : Bool × HostTy} {v : HostValue},
    isOpenField f = true → admitsField f v = true → shownField f v = v
  | (hidden, t), v, ho, hv => by
    rw [isOpenField, Bool.and_eq_true, Bool.not_eq_true'] at ho
    rw [admitsField, ho.1, Bool.false_or] at hv
    rw [shownField, ho.1]
    exact shown_of_isOpen ho.2 hv

end

end HostTy

/-! ### The shape of a kernel type -/

namespace HostTy

theorem kernelTy_array {n : Nat} {elem : HostTy} {t : Ty} (h : (array n elem).kernelTy = .ok t) :
    ∃ s w, elem.kernelTy = .ok (.scalar s) ∧ n = w.lanes ∧ t = .vector s w := by
  simp only [kernelTy] at h
  split at h
  · cases h
  · rename_i s hs
    split at h
    · rename_i v hv
      cases h
      simp only [Ty.vectorOf?, Option.ite_none_left_eq_some, Option.map_eq_some_iff] at hv
      obtain ⟨-, w, hw, rfl⟩ := hv
      exact ⟨s, w, hs, (Width.lanes_of_ofLanes? hw).symm, rfl⟩
    · cases h
  · cases h

theorem kernelTy_struct {fs : List (Bool × HostTy)} {t : Ty} (h : (struct fs).kernelTy = .ok t) :
    ∃ ts, fieldTys fs = .ok ts ∧ 2 ≤ (visible fs).length ∧ t = .tuple ts := by
  simp only [kernelTy] at h
  split at h
  · cases h
  · split at h
    · cases h
    · rename_i hlen ts hts
      cases h
      exact ⟨ts, hts, by omega, rfl⟩

@[simp] theorem visible_hidden (t : HostTy) (fs : List (Bool × HostTy)) :
    visible ((true, t) :: fs) = visible fs := rfl

@[simp] theorem visible_shown (t : HostTy) (fs : List (Bool × HostTy)) :
    visible ((false, t) :: fs) = t :: visible fs := rfl

@[simp] theorem visibleValues_hidden (t : HostTy) (fs : List (Bool × HostTy)) (v : HostValue)
    (vs : List HostValue) : visibleValues ((true, t) :: fs) (v :: vs) = visibleValues fs vs := rfl

@[simp] theorem visibleValues_shown (t : HostTy) (fs : List (Bool × HostTy)) (v : HostValue)
    (vs : List HostValue) :
    visibleValues ((false, t) :: fs) (v :: vs) = v :: visibleValues fs vs := rfl

theorem fieldTys_hidden (t : HostTy) (fs : List (Bool × HostTy)) :
    fieldTys ((true, t) :: fs) = fieldTys fs := by
  rw [fieldTys, fieldTy]
  cases fieldTys fs <;> rfl

theorem fieldTys_shown {t : HostTy} {fs : List (Bool × HostTy)} {ts : List Ty}
    (h : fieldTys ((false, t) :: fs) = .ok ts) :
    ∃ k ks, t.kernelTy = .ok k ∧ fieldTys fs = .ok ks ∧ ts = k :: ks := by
  rw [fieldTys, fieldTy] at h
  cases hk : t.kernelTy with
  | error e => simp [hk] at h
  | ok k =>
    cases hks : fieldTys fs with
    | error e => simp [hk, hks] at h
    | ok ks =>
      simp only [hk, hks, Option.toList_some, List.cons_append, List.nil_append,
        Except.ok.injEq] at h
      exact ⟨k, ks, rfl, rfl, h.symm⟩

theorem length_fieldTys : ∀ {fs : List (Bool × HostTy)} {ts : List Ty},
    fieldTys fs = .ok ts → (visible fs).length = ts.length
  | [], ts, h => by cases h; rfl
  | (true, t) :: fs, ts, h => by
    rw [fieldTys_hidden] at h
    rw [visible_hidden]
    exact length_fieldTys h
  | (false, t) :: fs, ts, h => by
    obtain ⟨k, ks, -, hks, rfl⟩ := fieldTys_shown h
    simp [length_fieldTys hks]

end HostTy

namespace Host

/-! ### Scalars -/

/-- The low bytes of a word spell a signed number that fits them. -/
theorem signedOf_word {bytes : Nat} {i : Int64} (h : bytes = 1 ∨ bytes = 2 ∨ bytes = 4 ∨ bytes = 8)
    (hlow : -2 ^ (8 * bytes - 1) ≤ i.toInt) (hup : i.toInt < 2 ^ (8 * bytes - 1)) :
    signedOf bytes (i.toUInt64.toNat % Nat.pow 256 bytes) = i.toInt := by
  have hword : i.toInt = Int.bmod i.toUInt64.toNat (2 ^ 64) := BitVec.toInt_eq_toNat_bmod i.toBitVec
  have hlt := i.toUInt64.toNat_lt
  generalize i.toInt = z at *
  generalize i.toUInt64.toNat = n at *
  unfold signedOf
  rw [Int.bmod_def] at hword ⊢
  rcases h with rfl | rfl | rfl | rfl <;> norm_num at * <;> split at hword <;> split <;> omega

theorem bmod_word {w : IntWidth} {z : Int} (hlow : -2 ^ (w.deviceBits - 1) ≤ z)
    (hup : z < 2 ^ (w.deviceBits - 1)) : Int.bmod z (Nat.pow 2 w.bits) = z := by
  cases w <;> norm_num [IntWidth.deviceBits, IntWidth.bits] at * <;>
    rw [Int.bmod_eq_of_le] <;> omega

theorem toUInt64_ofInt_toNat (u : UInt64) : (Int64.ofInt u.toNat).toUInt64 = u := by
  refine UInt64.toBitVec_inj.1 ?_
  show (Int64.ofInt u.toNat).toBitVec = u.toBitVec
  simp [Int64.toBitVec_ofInt, ← UInt64.toNat_toBitVec]

theorem toNat_take_ofNat (width n : Nat) :
    Bytes.toNat ((Bytes.ofNat width n).take width) = n % Nat.pow 256 width := by
  rw [List.take_of_length_le (by simp), Bytes.toNat_ofNat]

/-- A value of a host type passes through the bytes of a scalar unchanged. -/
def Carries (s : Scalar) (h : HostTy) (v : HostValue) : Prop :=
  ∃ bs, encodeScalar s h v = .ok bs ∧ bs.length = s.size ∧ decodeScalar s bs h = .ok v

theorem carries_bool (b : Bool) : Carries .bool .bool (.bool b) := by
  refine ⟨[if b then 1 else 0], rfl, rfl, ?_⟩
  cases b <;> rfl

theorem carries_int {s : Scalar} {w : IntWidth} {i : Int64} (hs : s.isSigned = true)
    (hbits : 8 * s.size = w.deviceBits) (h : (HostTy.int w).admits (.int i) = true) :
    Carries s (.int w) (.int i) := by
  have hcases : s = .char ∨ s = .short ∨ s = .int ∨ s = .long := by
    cases s <;> first | contradiction | simp
  simp only [HostTy.admits, Bool.and_eq_true, decide_eq_true_eq] at h
  have hsize : s.size = 1 ∨ s.size = 2 ∨ s.size = 4 ∨ s.size = 8 := by
    cases s <;> simp [Scalar.size]
  have hword : signedOf s.size (i.toUInt64.toNat % Nat.pow 256 s.size) = i.toInt :=
    signedOf_word hsize (hbits ▸ h.1) (hbits ▸ h.2)
  have hnum : Number.ofBytes s (Bytes.ofNat s.size i.toUInt64.toNat) = .ofInt i.toInt := by
    unfold Number.ofBytes
    rw [toNat_take_ofNat]
    dsimp only
    rw [hword]
    rcases hcases with rfl | rfl | rfl | rfl <;> rfl
  refine ⟨Bytes.ofNat s.size i.toUInt64.toNat, ?_, by simp, ?_⟩
  · rcases hcases with rfl | rfl | rfl | rfl <;> rfl
  · simp only [decodeScalar, hnum, Number.toHost?, Number.ofInt, Int64.ofInt_toInt, bmod_word h.1 h.2]

theorem carries_uint {s : Scalar} {w : IntWidth} {u : UInt64} (hs : s.isInteger = true)
    (hs' : s.isSigned = false) (hbits : 8 * s.size = w.deviceBits)
    (h : (HostTy.uint w).admits (.uint u) = true) : Carries s (.uint w) (.uint u) := by
  have hcases : s = .uchar ∨ s = .ushort ∨ s = .uint ∨ s = .ulong := by
    cases s <;> first | contradiction | simp
  simp only [HostTy.admits, decide_eq_true_eq] at h
  have hmod : u.toNat % Nat.pow 256 s.size = u.toNat := by
    rw [← hbits, pow_mul] at h
    exact Nat.mod_eq_of_lt h
  have hwide : u.toNat % Nat.pow 2 w.bits = u.toNat := by
    refine Nat.mod_eq_of_lt (h.trans_le (Nat.pow_le_pow_right (by decide) ?_))
    cases w <;> decide
  have hnum : Number.ofBytes s (Bytes.ofNat s.size u.toNat) = .ofInt u.toNat := by
    unfold Number.ofBytes
    rw [toNat_take_ofNat, hmod]
    rcases hcases with rfl | rfl | rfl | rfl <;> rfl
  refine ⟨Bytes.ofNat s.size u.toNat, ?_, by simp, ?_⟩
  · rcases hcases with rfl | rfl | rfl | rfl <;> rfl
  · simp only [decodeScalar, hnum, Number.toHost?, Number.ofInt, toUInt64_ofInt_toNat, hwide,
      UInt64.ofNat_toNat]

theorem carries_float32 {x : Binary32} (h : x.isNaN = false) :
    Carries .float .float32 (.float32 x) := by
  refine ⟨Bytes.ofNat 4 x.bits.toNat, ?_, by simp [Scalar.size], ?_⟩
  · rw [encodeScalar, scalarBytes, Binary64.narrow_widen h]
  · have hbits : x.bits.toNat % Nat.pow 256 4 = x.bits.toNat := Nat.mod_eq_of_lt x.bits.toNat_lt
    have hnum : Number.ofBytes .float (Bytes.ofNat 4 x.bits.toNat) = .ofReal x.widen := by
      simp only [Number.ofBytes, Scalar.size, toNat_take_ofNat, hbits, UInt32.ofNat_toNat]
    simp only [decodeScalar, hnum, Number.toHost?, Number.ofReal, Binary64.narrow_widen h]

theorem carries_float64 (x : Binary64) : Carries .double .float64 (.float64 x) := by
  refine ⟨Bytes.ofNat 8 x.bits.toNat, rfl, by simp [Scalar.size], ?_⟩
  have hbits : x.bits.toNat % Nat.pow 256 8 = x.bits.toNat := Nat.mod_eq_of_lt x.bits.toNat_lt
  have hnum : Number.ofBytes .double (Bytes.ofNat 8 x.bits.toNat) = .ofReal x := by
    simp only [Number.ofBytes, Scalar.size, toNat_take_ofNat, hbits, UInt64.ofNat_toNat]
  simp only [decodeScalar, hnum, Number.toHost?, Number.ofReal]

/-- Every value of a number type passes through the scalar that stands for the type. -/
theorem carries_of_kernelTy {h : HostTy} {s : Scalar} {v : HostValue}
    (hk : h.kernelTy = .ok (.scalar s)) (hv : h.admits v = true) : Carries s h v := by
  cases h with
  | bool =>
    cases hk
    cases v <;> simp [HostTy.admits] at hv
    exact carries_bool _
  | int w =>
    cases v <;> simp only [HostTy.admits, Bool.false_eq_true] at hv
    refine carries_int ?_ ?_ hv <;> cases w <;> cases hk <;> rfl
  | uint w =>
    cases v <;> simp only [HostTy.admits, Bool.false_eq_true] at hv
    refine carries_uint ?_ ?_ ?_ hv <;> cases w <;> cases hk <;> rfl
  | float32 =>
    cases hk
    cases v <;> simp only [HostTy.admits, Bool.false_eq_true, Bool.not_eq_true'] at hv
    exact carries_float32 hv
  | float64 =>
    cases hk
    cases v <;> simp only [HostTy.admits, Bool.false_eq_true] at hv
    exact carries_float64 _
  | array n t =>
    obtain ⟨s', w, -, -, h⟩ := HostTy.kernelTy_array hk
    cases h
  | struct fs =>
    obtain ⟨ts, -, -, h⟩ := HostTy.kernelTy_struct hk
    cases h
  | string => cases hk
  | complex64 => cases hk
  | slice t => cases hk
  | pointer t => cases hk

/-! ### Reading depends on the bytes of the value -/

theorem decodeLanes_congr {s : Scalar} {a b : Bytes} {h : HostTy} :
    ∀ {n offset : Nat}, (∀ i, offset ≤ i → i < offset + s.size * n → a[i]? = b[i]?) →
      decodeLanes s a offset h n = decodeLanes s b offset h n
  | 0, _, _ => rfl
  | n + 1, offset, hab => by
    have hmul : s.size * (n + 1) = s.size * n + s.size := Nat.mul_succ ..
    have hlane : Bytes.slice a offset s.size = Bytes.slice b offset s.size :=
      Bytes.slice_congr fun i hi hi' => hab i hi (by omega)
    have hrest : decodeLanes s a (offset + s.size) h n = decodeLanes s b (offset + s.size) h n :=
      decodeLanes_congr fun i hi hi' => hab i (by omega) (by omega)
    simp only [decodeLanes, hlane, hrest]

mutual

theorem decodeAt_congr {a b : Bytes} (hsize : a.size = b.size) :
    ∀ {t : Ty} {offset : Nat} {h : HostTy},
      (∀ i, offset ≤ i → i < offset + t.size → a[i]? = b[i]?) →
      decodeAt t a offset h = decodeAt t b offset h
  | .scalar s, offset, h, hab => by
    have hslice : Bytes.slice a offset s.size = Bytes.slice b offset s.size :=
      Bytes.slice_congr hab
    simp only [decodeAt, hsize, hslice]
  | .vector s w, offset, h, hab => by
    cases h with
    | array n elem =>
      by_cases hn : n = w.lanes
      · subst hn
        have hlanes := decodeLanes_congr (s := s) (h := elem) (n := w.lanes) hab
        simp only [decodeAt, hsize, hlanes]
      · simp only [decodeAt, hsize, if_neg hn]
    | _ => simp only [decodeAt, hsize]
  | .tuple ts, offset, h, hab => by
    cases h with
    | struct fs =>
      have hend := Ty.fieldsEnd_le_size ts
      have hfields := decodeFields_congr hsize ts offset 0 (HostTy.visible fs) fun i hi hi' =>
        hab i (by omega) (by omega)
      simp only [decodeAt, hsize, hfields]
    | _ => simp only [decodeAt, hsize]
  | .void, offset, h, hab => by simp only [decodeAt, hsize]
  | .pointer _ _ _, offset, h, hab => by simp only [decodeAt, hsize]

theorem decodeFields_congr {a b : Bytes} (hsize : a.size = b.size) :
    ∀ (ts : List Ty) (base used : Nat) (hs : List HostTy),
      (∀ i, base + used ≤ i → i < base + Ty.fieldsEnd used ts → a[i]? = b[i]?) →
      decodeFields ts a base used hs = decodeFields ts b base used hs
  | [], base, used, hs, hab => by cases hs <;> rfl
  | t :: ts, base, used, [], hab => rfl
  | t :: ts, base, used, h :: hs, hab => by
    have hup := le_alignUp used t.align
    have hend := Ty.le_fieldsEnd (alignUp used t.align + t.size) ts
    rw [Ty.fieldsEnd] at hab
    rw [decodeFields, decodeFields,
      decodeAt_congr hsize fun i hi hi' => hab i (by omega) (by omega),
      decodeFields_congr hsize ts base _ hs fun i hi hi' => hab i (by omega) (by omega)]

end

/-! ### Writing and reading back -/

/-- What a block is after a host value was written into it at an offset: the write succeeds,
it keeps the bytes that belong to no scalar of the value, and the value is read back, its
hidden fields cleared. -/
structure Stored (t : Ty) (h : HostTy) (v : HostValue) (dst : Bytes) (offset : Nat)
    (dst' : Bytes) : Prop where
  encoded : encodeAt t h v dst offset = .ok dst'
  size_eq : dst'.size = dst.size
  kept : ∀ i, ¬ (offset ≤ i ∧ t.covers (i - offset) = true) → dst'[i]? = dst[i]?
  decoded : decodeAt t dst' offset h = .ok (h.shown v)

theorem Stored.kept_outside {t : Ty} {h : HostTy} {v : HostValue} {dst dst' : Bytes} {offset : Nat}
    (hst : Stored t h v dst offset dst') (i : Nat) (hi : ¬ (offset ≤ i ∧ i < offset + t.size)) :
    dst'[i]? = dst[i]? :=
  hst.kept i fun ⟨hle, hc⟩ => hi ⟨hle, by have := Ty.lt_size_of_covers hc; omega⟩

theorem exists_stored_scalar {s : Scalar} {h : HostTy} {v : HostValue} {dst : Bytes} {offset : Nat}
    (hk : h.kernelTy = .ok (.scalar s)) (hv : h.admits v = true)
    (hroom : offset + s.size ≤ dst.size) : ∃ dst', Stored (.scalar s) h v dst offset dst' := by
  obtain ⟨bs, henc, hlen, hdec⟩ := carries_of_kernelTy hk hv
  have hfits : ¬ dst.size - offset < s.size := by omega
  refine ⟨Bytes.write dst offset bs, ?_, by simp, fun i hi => ?_, ?_⟩
  · simp only [encodeAt, Ty.size, if_neg hfits, henc]
  · refine Bytes.getElem?_write_of_not_mem fun hin => hi ⟨hin.1, ?_⟩
    simp only [Ty.covers, decide_eq_true_eq]
    omega
  · have hslice : Bytes.slice (Bytes.write dst offset bs) offset s.size = bs := by
      rw [← hlen]
      exact Bytes.slice_write (by omega)
    have hshown : h.shown v = v := by
      cases h <;> first | (simp only [HostTy.shown]; done) | skip
      obtain ⟨ts, -, -, h⟩ := HostTy.kernelTy_struct hk
      cases h
    simp only [decodeAt, Ty.size, Bytes.size_write, if_neg hfits, hslice, hdec, hshown]

theorem exists_encodeLanes {s : Scalar} {h : HostTy} : ∀ (vs : List HostValue) (dst : Bytes)
    (offset : Nat), (∀ v ∈ vs, Carries s h v) → offset + s.size * vs.length ≤ dst.size →
    ∃ dst', encodeLanes s h dst offset vs = .ok dst' ∧ dst'.size = dst.size ∧
      (∀ i, ¬ (offset ≤ i ∧ i < offset + s.size * vs.length) → dst'[i]? = dst[i]?) ∧
      decodeLanes s dst' offset h vs.length = .ok vs
  | [], dst, offset, _, _ => ⟨dst, rfl, rfl, fun _ _ => rfl, rfl⟩
  | v :: vs, dst, offset, hc, hroom => by
    rw [List.length_cons, Nat.mul_succ] at hroom ⊢
    obtain ⟨bs, henc, hlen, hdec⟩ := hc v List.mem_cons_self
    obtain ⟨dst', henc', hsize', hkept', hdec'⟩ :=
      exists_encodeLanes vs (Bytes.write dst offset bs) (offset + s.size)
        (fun u hu => hc u (List.mem_cons_of_mem _ hu)) (by rw [Bytes.size_write]; omega)
    refine ⟨dst', ?_, by simpa using hsize', fun i hi => ?_, ?_⟩
    · simp only [encodeLanes, henc, henc']
    · rw [hkept' i (by omega), Bytes.getElem?_write_of_not_mem (by omega)]
    · -- The lanes after this one lie behind it, so it still reads as it was written.
      have hlane : Bytes.slice dst' offset s.size = bs := by
        rw [Bytes.slice_congr fun i hi hi' => hkept' i (by omega), ← hlen]
        exact Bytes.slice_write (by omega)
      simp only [decodeLanes, hlane, hdec, hdec']

mutual

/-- **A value that the device can hold is written and read back**, at any offset with room
for it. -/
theorem exists_stored : ∀ {h : HostTy} {t : Ty} {v : HostValue} (dst : Bytes) (offset : Nat),
    h.kernelTy = .ok t → h.admits v = true → offset + t.size ≤ dst.size →
    ∃ dst', Stored t h v dst offset dst'
  | .array n elem, t, v, dst, offset, hk, hv, hroom => by
    obtain ⟨s, w, helem, rfl, rfl⟩ := HostTy.kernelTy_array hk
    cases v <;> simp only [HostTy.admits, Bool.false_eq_true, Bool.and_eq_true,
      decide_eq_true_eq, List.all_eq_true] at hv
    rename_i vs
    obtain ⟨hlen, hv⟩ := hv
    rw [Ty.size, ← hlen] at hroom
    obtain ⟨dst', henc, hsize, hkept, hdec⟩ :=
      exists_encodeLanes vs dst offset (fun u hu => carries_of_kernelTy helem (hv u hu)) hroom
    rw [hlen] at hroom hkept hdec
    have hfits : ¬ dst.size - offset < s.size * w.lanes := by omega
    refine ⟨dst', ?_, hsize, fun i hi => hkept i fun hin => hi ⟨hin.1, ?_⟩, ?_⟩
    · simp only [encodeAt, Ty.size, if_neg hfits, ↓reduceIte, henc]
    · simp only [Ty.covers, decide_eq_true_eq]
      omega
    · simp only [decodeAt, Ty.size, hsize, if_neg hfits, ↓reduceIte, hdec]
      simp only [HostTy.shown]
  | .struct fs, t, v, dst, offset, hk, hv, hroom => by
    obtain ⟨ts, hts, -, rfl⟩ := HostTy.kernelTy_struct hk
    cases v <;> simp only [HostTy.admits, Bool.false_eq_true] at hv
    rename_i vs
    have hend := Ty.fieldsEnd_le_size ts
    obtain ⟨dst', us, henc, hsize, hkept, hdec, hfill⟩ :=
      exists_storedFields dst offset 0 hts hv (by omega)
    have hfits : ¬ dst.size - offset < (Ty.tuple ts).size := by omega
    have hlen := HostTy.length_fieldTys hts
    refine ⟨dst', ?_, hsize, hkept, ?_⟩
    · simp only [encodeAt, if_neg hfits, if_pos hlen, henc]
    · simp only [decodeAt, hsize, if_neg hfits, if_pos hlen, hdec, hfill, HostTy.shown]
  | .bool, t, v, dst, offset, hk, hv, hroom => by
    cases hk
    exact exists_stored_scalar rfl hv hroom
  | .int w, t, v, dst, offset, hk, hv, hroom => by
    cases w <;> cases hk <;> exact exists_stored_scalar rfl hv hroom
  | .uint w, t, v, dst, offset, hk, hv, hroom => by
    cases w <;> cases hk <;> exact exists_stored_scalar rfl hv hroom
  | .float32, t, v, dst, offset, hk, hv, hroom => by
    cases hk
    exact exists_stored_scalar rfl hv hroom
  | .float64, t, v, dst, offset, hk, hv, hroom => by
    cases hk
    exact exists_stored_scalar rfl hv hroom
  | .string, t, v, dst, offset, hk, hv, hroom => by cases hk
  | .complex64, t, v, dst, offset, hk, hv, hroom => by cases hk
  | .slice _, t, v, dst, offset, hk, hv, hroom => by cases hk
  | .pointer _, t, v, dst, offset, hk, hv, hroom => by cases hk

theorem exists_storedFields : ∀ {fs : List (Bool × HostTy)} {ts : List Ty} {vs : List HostValue}
    (dst : Bytes) (base used : Nat), HostTy.fieldTys fs = .ok ts →
    HostTy.admitsFields fs vs = true → base + Ty.fieldsEnd used ts ≤ dst.size →
    ∃ dst' us,
      encodeFields ts ((HostTy.visible fs).zip (HostTy.visibleValues fs vs)) dst base used =
        .ok dst' ∧
      dst'.size = dst.size ∧
      (∀ i, ¬ (base ≤ i ∧ Ty.coversFrom used ts (i - base) = true) → dst'[i]? = dst[i]?) ∧
      decodeFields ts dst' base used (HostTy.visible fs) = .ok us ∧
      refill fs us = HostTy.shownFields fs vs
  | [], ts, vs, dst, base, used, hts, hv, hroom => by
    cases hts
    exact ⟨dst, [], rfl, rfl, fun _ _ => rfl, rfl, by cases vs <;> rfl⟩
  | _ :: _, ts, [], dst, base, used, hts, hv, hroom => by simp [HostTy.admitsFields] at hv
  | (true, h) :: fs, ts, v :: vs, dst, base, used, hts, hv, hroom => by
    rw [HostTy.fieldTys_hidden] at hts
    rw [HostTy.admitsFields, Bool.and_eq_true] at hv
    obtain ⟨dst', us, henc, hsize, hkept, hdec, hfill⟩ := exists_storedFields dst base used hts hv.2 hroom
    refine ⟨dst', us, henc, hsize, hkept, hdec, ?_⟩
    rw [refill, hfill, HostTy.shownFields, HostTy.shownField, if_pos rfl]
  | (false, h) :: fs, ts, v :: vs, dst, base, used, hts, hv, hroom => by
    obtain ⟨t, ks, hk, hks, rfl⟩ := HostTy.fieldTys_shown hts
    rw [HostTy.admitsFields, Bool.and_eq_true, HostTy.admitsField, Bool.false_or] at hv
    rw [Ty.fieldsEnd] at hroom
    have hend := Ty.le_fieldsEnd (alignUp used t.align + t.size) ks
    obtain ⟨mid, hst⟩ := exists_stored dst (base + alignUp used t.align) hk hv.1 (by omega)
    obtain ⟨dst', us, henc, hsize, hkept, hdec, hfill⟩ :=
      exists_storedFields mid base (alignUp used t.align + t.size) hks hv.2
        (by rw [hst.size_eq]; exact hroom)
    -- The fields after this one change only bytes behind it.
    have hbefore : ∀ i, i < base + (alignUp used t.align + t.size) → dst'[i]? = mid[i]? :=
      fun i hi => hkept i fun ⟨hle, hc⟩ => by
        have := (Ty.lt_fieldsEnd_of_coversFrom hc).1
        omega
    have hfirst : decodeAt t dst' (base + alignUp used t.align) h = .ok (h.shown v) := by
      rw [decodeAt_congr hsize fun i hi hi' => hbefore i (by omega)]
      exact hst.decoded
    refine ⟨dst', h.shown v :: us, ?_, hsize.trans hst.size_eq, fun i hi => ?_, ?_, ?_⟩
    · simp only [HostTy.visible_shown, HostTy.visibleValues_shown, List.zip_cons_cons,
        encodeFields, hst.encoded, henc]
    · rw [Ty.coversFrom] at hi
      rw [hkept i (by grind), hst.kept i (by grind)]
    · simp only [HostTy.visible_shown, decodeFields, hfirst, hdec]
    · rw [refill, hfill, HostTy.shownFields, HostTy.shownField]
      rfl

end

/-! ### Values with room for them -/

/-- Reading a scalar needs a host type that stands for one. -/
theorem exists_decodeScalar {h : HostTy} {s : Scalar} (hk : h.kernelTy = .ok (.scalar s))
    (src : List UInt8) : ∃ v, decodeScalar s src h = .ok v := by
  cases h with
  | array n t =>
    obtain ⟨s', w, -, -, h⟩ := HostTy.kernelTy_array hk
    cases h
  | struct fs =>
    obtain ⟨ts, -, -, h⟩ := HostTy.kernelTy_struct hk
    cases h
  | string => cases hk
  | complex64 => cases hk
  | slice t => cases hk
  | pointer t => cases hk
  | _ => exact ⟨_, rfl⟩

/-- Writing a scalar needs a value of its host type. -/
theorem exists_encodeScalar {h : HostTy} {s : Scalar} {v : HostValue}
    (hk : h.kernelTy = .ok (.scalar s)) (hv : h.forms v = true) :
    ∃ bs, encodeScalar s h v = .ok bs ∧ bs.length = s.size := by
  cases h with
  | array n t =>
    obtain ⟨s', w, -, -, h⟩ := HostTy.kernelTy_array hk
    cases h
  | struct fs =>
    obtain ⟨ts, -, -, h⟩ := HostTy.kernelTy_struct hk
    cases h
  | string => cases hk
  | complex64 => cases hk
  | slice t => cases hk
  | pointer t => cases hk
  | int w =>
    cases v <;> simp only [HostTy.forms, Bool.false_eq_true] at hv
    cases w <;> cases hk <;> exact ⟨_, rfl, by simp [scalarBytes, Scalar.size]⟩
  | uint w =>
    cases v <;> simp only [HostTy.forms, Bool.false_eq_true] at hv
    cases w <;> cases hk <;> exact ⟨_, rfl, by simp [scalarBytes, Scalar.size]⟩
  | _ =>
    cases hk
    cases v <;> simp only [HostTy.forms, Bool.false_eq_true] at hv
    exact ⟨_, rfl, by simp [scalarBytes, Scalar.size]⟩

theorem exists_decodeLanes {h : HostTy} {s : Scalar} (hk : h.kernelTy = .ok (.scalar s))
    (src : Bytes) : ∀ (n offset : Nat), ∃ vs, decodeLanes s src offset h n = .ok vs
  | 0, _ => ⟨[], rfl⟩
  | n + 1, offset => by
    obtain ⟨v, hv⟩ := exists_decodeScalar hk (Bytes.slice src offset s.size)
    obtain ⟨vs, hvs⟩ := exists_decodeLanes hk src n (offset + s.size)
    exact ⟨v :: vs, by simp only [decodeLanes, hv, hvs]⟩

theorem exists_encodeLanes_of_forms {h : HostTy} {s : Scalar} (hk : h.kernelTy = .ok (.scalar s)) :
    ∀ (vs : List HostValue) (dst : Bytes) (offset : Nat), (∀ v ∈ vs, h.forms v = true) →
      ∃ dst', encodeLanes s h dst offset vs = .ok dst' ∧ dst'.size = dst.size
  | [], dst, _, _ => ⟨dst, rfl, rfl⟩
  | v :: vs, dst, offset, hvs => by
    obtain ⟨bs, henc, -⟩ := exists_encodeScalar hk (hvs v List.mem_cons_self)
    obtain ⟨dst', henc', hsize⟩ := exists_encodeLanes_of_forms hk vs (Bytes.write dst offset bs)
      (offset + s.size) fun u hu => hvs u (List.mem_cons_of_mem _ hu)
    exact ⟨dst', by simp only [encodeLanes, henc, henc'], by rw [hsize, Bytes.size_write]⟩

theorem exists_decodeAt_scalar {h : HostTy} {s : Scalar} {src : Bytes} {offset : Nat}
    (hk : h.kernelTy = .ok (.scalar s)) (hroom : offset + s.size ≤ src.size) :
    ∃ v, decodeAt (.scalar s) src offset h = .ok v := by
  obtain ⟨v, hv⟩ := exists_decodeScalar hk (Bytes.slice src offset s.size)
  have hfits : ¬ src.size - offset < s.size := by omega
  exact ⟨v, by simp only [decodeAt, Ty.size, if_neg hfits, hv]⟩

mutual

/-- Bytes with a whole value are read. -/
theorem exists_decodeAt : ∀ {h : HostTy} {t : Ty} (src : Bytes) (offset : Nat),
    h.kernelTy = .ok t → offset + t.size ≤ src.size → ∃ v, decodeAt t src offset h = .ok v
  | .array n elem, t, src, offset, hk, hroom => by
    obtain ⟨s, w, helem, rfl, rfl⟩ := HostTy.kernelTy_array hk
    obtain ⟨vs, hvs⟩ := exists_decodeLanes helem src w.lanes offset
    rw [Ty.size] at hroom
    have hfits : ¬ src.size - offset < s.size * w.lanes := by omega
    exact ⟨.list vs, by simp only [decodeAt, Ty.size, if_neg hfits, ↓reduceIte, hvs]⟩
  | .struct fs, t, src, offset, hk, hroom => by
    obtain ⟨ts, hts, -, rfl⟩ := HostTy.kernelTy_struct hk
    have hend := Ty.fieldsEnd_le_size ts
    obtain ⟨vs, hvs⟩ := exists_decodeFields src offset 0 hts (by omega)
    have hfits : ¬ src.size - offset < (Ty.tuple ts).size := by omega
    exact ⟨.list (refill fs vs), by
      simp only [decodeAt, if_neg hfits, if_pos (HostTy.length_fieldTys hts), hvs]⟩
  | .bool, t, _, _, hk, hroom => by cases hk; exact exists_decodeAt_scalar rfl hroom
  | .int w, t, _, _, hk, hroom => by
    cases w <;> cases hk <;> exact exists_decodeAt_scalar rfl hroom
  | .uint w, t, _, _, hk, hroom => by
    cases w <;> cases hk <;> exact exists_decodeAt_scalar rfl hroom
  | .float32, t, _, _, hk, hroom => by cases hk; exact exists_decodeAt_scalar rfl hroom
  | .float64, t, _, _, hk, hroom => by cases hk; exact exists_decodeAt_scalar rfl hroom
  | .string, _, _, _, hk, _ | .complex64, _, _, _, hk, _ | .slice _, _, _, _, hk, _
  | .pointer _, _, _, _, hk, _ => by cases hk

theorem exists_decodeFields : ∀ {fs : List (Bool × HostTy)} {ts : List Ty} (src : Bytes)
    (base used : Nat), HostTy.fieldTys fs = .ok ts → base + Ty.fieldsEnd used ts ≤ src.size →
    ∃ vs, decodeFields ts src base used (HostTy.visible fs) = .ok vs
  | [], ts, src, base, used, hts, _ => by cases hts; exact ⟨[], rfl⟩
  | (true, h) :: fs, ts, src, base, used, hts, hroom => by
    rw [HostTy.fieldTys_hidden] at hts
    rw [HostTy.visible_hidden]
    exact exists_decodeFields src base used hts hroom
  | (false, h) :: fs, ts, src, base, used, hts, hroom => by
    obtain ⟨t, ks, hk, hks, rfl⟩ := HostTy.fieldTys_shown hts
    rw [Ty.fieldsEnd] at hroom
    have hend := Ty.le_fieldsEnd (alignUp used t.align + t.size) ks
    obtain ⟨v, hv⟩ := exists_decodeAt src (base + alignUp used t.align) hk (by omega)
    obtain ⟨vs, hvs⟩ := exists_decodeFields src base (alignUp used t.align + t.size) hks hroom
    exact ⟨v :: vs, by simp only [HostTy.visible_shown, decodeFields, hv, hvs]⟩

end

theorem exists_encodeAt_scalar {h : HostTy} {s : Scalar} {v : HostValue} {dst : Bytes} {offset : Nat}
    (hk : h.kernelTy = .ok (.scalar s)) (hv : h.forms v = true) (hroom : offset + s.size ≤ dst.size) :
    ∃ dst', encodeAt (.scalar s) h v dst offset = .ok dst' ∧ dst'.size = dst.size := by
  obtain ⟨bs, henc, -⟩ := exists_encodeScalar hk hv
  have hfits : ¬ dst.size - offset < s.size := by omega
  exact ⟨Bytes.write dst offset bs, by simp only [encodeAt, Ty.size, if_neg hfits, henc], by simp⟩

mutual

/-- Every value of a host type is written where there is room for it. -/
theorem exists_encodeAt : ∀ {h : HostTy} {t : Ty} {v : HostValue} (dst : Bytes) (offset : Nat),
    h.kernelTy = .ok t → h.forms v = true → offset + t.size ≤ dst.size →
    ∃ dst', encodeAt t h v dst offset = .ok dst' ∧ dst'.size = dst.size
  | .array n elem, t, v, dst, offset, hk, hv, hroom => by
    obtain ⟨s, w, helem, rfl, rfl⟩ := HostTy.kernelTy_array hk
    cases v <;> simp only [HostTy.forms, Bool.false_eq_true, Bool.and_eq_true,
      decide_eq_true_eq, List.all_eq_true] at hv
    rename_i vs
    obtain ⟨dst', henc, hsize⟩ := exists_encodeLanes_of_forms helem vs dst offset hv.2
    rw [Ty.size] at hroom
    have hfits : ¬ dst.size - offset < s.size * w.lanes := by omega
    exact ⟨dst', by simp only [encodeAt, Ty.size, if_neg hfits, ↓reduceIte, henc], hsize⟩
  | .struct fs, t, v, dst, offset, hk, hv, hroom => by
    obtain ⟨ts, hts, -, rfl⟩ := HostTy.kernelTy_struct hk
    cases v <;> simp only [HostTy.forms, Bool.false_eq_true] at hv
    rename_i vs
    have hend := Ty.fieldsEnd_le_size ts
    obtain ⟨dst', henc, hsize⟩ := exists_encodeFields dst offset 0 hts hv (by omega)
    have hfits : ¬ dst.size - offset < (Ty.tuple ts).size := by omega
    exact ⟨dst', by
      simp only [encodeAt, if_neg hfits, if_pos (HostTy.length_fieldTys hts), henc], hsize⟩
  | .bool, t, _, _, _, hk, hv, hroom => by cases hk; exact exists_encodeAt_scalar rfl hv hroom
  | .int w, t, _, _, _, hk, hv, hroom => by
    cases w <;> cases hk <;> exact exists_encodeAt_scalar rfl hv hroom
  | .uint w, t, _, _, _, hk, hv, hroom => by
    cases w <;> cases hk <;> exact exists_encodeAt_scalar rfl hv hroom
  | .float32, t, _, _, _, hk, hv, hroom => by cases hk; exact exists_encodeAt_scalar rfl hv hroom
  | .float64, t, _, _, _, hk, hv, hroom => by cases hk; exact exists_encodeAt_scalar rfl hv hroom
  | .string, _, _, _, _, hk, _, _ | .complex64, _, _, _, _, hk, _, _
  | .slice _, _, _, _, _, hk, _, _ | .pointer _, _, _, _, _, hk, _, _ => by cases hk

theorem exists_encodeFields : ∀ {fs : List (Bool × HostTy)} {ts : List Ty} {vs : List HostValue}
    (dst : Bytes) (base used : Nat), HostTy.fieldTys fs = .ok ts →
    HostTy.formsFields fs vs = true → base + Ty.fieldsEnd used ts ≤ dst.size →
    ∃ dst',
      encodeFields ts ((HostTy.visible fs).zip (HostTy.visibleValues fs vs)) dst base used =
        .ok dst' ∧ dst'.size = dst.size
  | [], ts, vs, dst, base, used, hts, _, _ => by cases hts; exact ⟨dst, rfl, rfl⟩
  | _ :: _, _, [], _, _, _, _, hv, _ => by simp [HostTy.formsFields] at hv
  | (true, h) :: fs, ts, v :: vs, dst, base, used, hts, hv, hroom => by
    rw [HostTy.fieldTys_hidden] at hts
    rw [HostTy.formsFields, Bool.and_eq_true] at hv
    rw [HostTy.visible_hidden, HostTy.visibleValues_hidden]
    exact exists_encodeFields dst base used hts hv.2 hroom
  | (false, h) :: fs, ts, v :: vs, dst, base, used, hts, hv, hroom => by
    obtain ⟨t, ks, hk, hks, rfl⟩ := HostTy.fieldTys_shown hts
    rw [HostTy.formsFields, Bool.and_eq_true, HostTy.formsField, Bool.false_or] at hv
    rw [Ty.fieldsEnd] at hroom
    have hend := Ty.le_fieldsEnd (alignUp used t.align + t.size) ks
    obtain ⟨mid, henc, hsize⟩ := exists_encodeAt dst (base + alignUp used t.align) hk hv.1 (by omega)
    obtain ⟨dst', henc', hsize'⟩ := exists_encodeFields mid base (alignUp used t.align + t.size) hks
      hv.2 (by rw [hsize]; exact hroom)
    exact ⟨dst', by simp only [HostTy.visible_shown, HostTy.visibleValues_shown, List.zip_cons_cons,
      encodeFields, henc, henc'], hsize'.trans hsize⟩

end

/-! ### Blocks of values -/

theorem size_scalar_pos (s : Scalar) : 0 < (Ty.scalar s).size := by
  rw [Ty.size]
  exact s.size_pos

mutual

theorem size_pos_of_kernelTy : ∀ {h : HostTy} {t : Ty}, h.kernelTy = .ok t → 0 < t.size
  | .array n elem, t, hk => by
    obtain ⟨s, w, -, -, rfl⟩ := HostTy.kernelTy_array hk
    rw [Ty.size]
    exact Nat.mul_pos s.size_pos w.lanes_pos
  | .struct fs, t, hk => by
    obtain ⟨ts, hts, hlen, rfl⟩ := HostTy.kernelTy_struct hk
    exact Nat.lt_of_lt_of_le (fieldsEnd_pos_of_fieldTys hts (by omega)) (Ty.fieldsEnd_le_size ts)
  | .bool, t, hk => by cases hk; exact size_scalar_pos _
  | .int w, t, hk => by cases w <;> cases hk <;> exact size_scalar_pos _
  | .uint w, t, hk => by cases w <;> cases hk <;> exact size_scalar_pos _
  | .float32, t, hk => by cases hk; exact size_scalar_pos _
  | .float64, t, hk => by cases hk; exact size_scalar_pos _
  | .string, t, hk => by cases hk
  | .complex64, t, hk => by cases hk
  | .slice _, t, hk => by cases hk
  | .pointer _, t, hk => by cases hk

theorem fieldsEnd_pos_of_fieldTys : ∀ {fs : List (Bool × HostTy)} {ts : List Ty},
    HostTy.fieldTys fs = .ok ts → 0 < (HostTy.visible fs).length → 0 < Ty.fieldsEnd 0 ts
  | [], ts, _, hlen => by simp [HostTy.visible] at hlen
  | (true, h) :: fs, ts, hts, hlen => by
    rw [HostTy.fieldTys_hidden] at hts
    exact fieldsEnd_pos_of_fieldTys hts hlen
  | (false, h) :: fs, ts, hts, _ => by
    obtain ⟨t, ks, hk, -, rfl⟩ := HostTy.fieldTys_shown hts
    have hpos := size_pos_of_kernelTy hk
    have hend := Ty.le_fieldsEnd (alignUp 0 t.align + t.size) ks
    rw [Ty.fieldsEnd]
    omega

end

/-- A step of `encodeAll`. -/
theorem exists_encodeFrom {h : HostTy} {t : Ty} (hk : h.kernelTy = .ok t) :
    ∀ (vs : List HostValue) (dst : Bytes) (k : Nat), (∀ v ∈ vs, h.admits v = true) →
      (k + vs.length) * t.size ≤ dst.size →
      ∃ dst',
        (vs.zipIdx k).foldlM (fun dst (v, i) => encodeAt t h v dst (i * t.size)) dst = .ok dst' ∧
        dst'.size = dst.size ∧ (∀ i, i < k * t.size → dst'[i]? = dst[i]?) ∧
        ∀ j (hj : j < vs.length), decodeAt t dst' ((k + j) * t.size) h = .ok (h.shown vs[j])
  | [], dst, k, _, _ => ⟨dst, rfl, rfl, fun _ _ => rfl, fun j hj => absurd hj (Nat.not_lt_zero j)⟩
  | v :: vs, dst, k, hv, hroom => by
    have hnext : (k + 1) * t.size = k * t.size + t.size := Nat.succ_mul ..
    have hall : (k + (v :: vs).length) * t.size = (k + 1 + vs.length) * t.size := by
      rw [List.length_cons, Nat.add_assoc, Nat.add_comm 1]
    have hfirst : (k + 1) * t.size ≤ (k + 1 + vs.length) * t.size :=
      Nat.mul_le_mul_right _ (Nat.le_add_right ..)
    rw [hall] at hroom
    obtain ⟨mid, hst⟩ := exists_stored dst (k * t.size) hk (hv v List.mem_cons_self)
      (by omega)
    obtain ⟨dst', henc, hsize, hkept, hdec⟩ := exists_encodeFrom hk vs mid (k + 1)
      (fun u hu => hv u (List.mem_cons_of_mem _ hu)) (by rw [hst.size_eq]; exact hroom)
    refine ⟨dst', ?_, hsize.trans hst.size_eq, fun i hi => ?_, fun j hj => ?_⟩
    · simp only [List.zipIdx_cons, List.foldlM_cons, hst.encoded]
      exact henc
    · rw [hkept i (by omega), hst.kept_outside i (by omega)]
    · cases j with
      | zero =>
        rw [Nat.add_zero, decodeAt_congr hsize fun i hi hi' => hkept i (by omega)]
        exact hst.decoded
      | succ j =>
        have hat : k + (j + 1) = k + 1 + j := by omega
        rw [hat]
        exact hdec j (by simpa using hj)

/-- **A list of values is read back from the block that it was written to.** -/
theorem decodeAll_encodeAll {h : HostTy} {t : Ty} {vs : List HostValue} (hk : h.kernelTy = .ok t)
    (hv : ∀ v ∈ vs, h.admits v = true) :
    ∃ block, encodeAll t h vs = .ok block ∧ decodeAll t block h = .ok (vs.map h.shown) := by
  have hpos := size_pos_of_kernelTy hk
  obtain ⟨block, henc, hsize, -, hdec⟩ := exists_encodeFrom hk vs
    (Array.replicate (t.size * vs.length) 0) 0 hv
    (by rw [Array.size_replicate, Nat.zero_add, Nat.mul_comm])
  rw [Array.size_replicate] at hsize
  refine ⟨block, henc, ?_⟩
  have hmul : t.size * vs.length % t.size = 0 := Nat.mul_mod_right ..
  have hdiv : t.size * vs.length / t.size = vs.length := Nat.mul_div_cancel_left _ hpos
  have hread : ∀ j ∈ List.range vs.length,
      decodeAt t block (j * t.size) h = .ok ((vs.map h.shown).getD j h.zero) := by
    intro j hj
    rw [List.mem_range] at hj
    have := hdec j hj
    rw [Nat.zero_add] at this
    simp [this, hj]
  rw [decodeAll, hsize, hmul, hdiv, if_neg (by omega), mapM_ok hread]
  congr 1
  refine List.ext_getElem (by simp) fun j hj hj' => ?_
  simp at hj
  simp [hj]

theorem length_of_mapM {α β ε : Type} {f : α → Except ε β} :
    ∀ {as : List α} {bs : List β}, as.mapM f = .ok bs → bs.length = as.length
  | [], bs, h => by
    cases h
    rfl
  | a :: as, bs, h => by
    rw [List.mapM_cons] at h
    obtain ⟨b, -, h⟩ := bind_eq_ok.mp h
    obtain ⟨bs, hbs, h⟩ := bind_eq_ok.mp h
    cases h
    exact congrArg (· + 1) (length_of_mapM hbs)

/-- A step of `encodeAll`, when nothing is asked of the values but their form. -/
theorem exists_encodeFrom_of_forms {h : HostTy} {t : Ty} (hk : h.kernelTy = .ok t) :
    ∀ (vs : List HostValue) (dst : Bytes) (k : Nat), (∀ v ∈ vs, h.forms v = true) →
      (k + vs.length) * t.size ≤ dst.size →
      ∃ dst',
        (vs.zipIdx k).foldlM (fun dst (v, i) => encodeAt t h v dst (i * t.size)) dst = .ok dst' ∧
        dst'.size = dst.size
  | [], dst, _, _, _ => ⟨dst, rfl, rfl⟩
  | v :: vs, dst, k, hv, hroom => by
    have hfirst : (k + 1) * t.size ≤ (k + (v :: vs).length) * t.size :=
      Nat.mul_le_mul_right _ (by simp)
    have hall : (k + 1 + vs.length) * t.size = (k + (v :: vs).length) * t.size := by
      rw [List.length_cons, Nat.add_assoc, Nat.add_comm 1]
    obtain ⟨mid, henc, hsize⟩ := exists_encodeAt dst (k * t.size) hk (hv v List.mem_cons_self)
      (by rw [← Nat.succ_mul]; exact hfirst.trans hroom)
    obtain ⟨dst', henc', hsize'⟩ := exists_encodeFrom_of_forms hk vs mid (k + 1)
      (fun u hu => hv u (List.mem_cons_of_mem _ hu)) (by rw [hsize, hall]; exact hroom)
    refine ⟨dst', ?_, hsize'.trans hsize⟩
    simp only [List.zipIdx_cons, List.foldlM_cons, henc]
    exact henc'

/-- Values of a host type fill a block of their own. -/
theorem exists_encodeAll {h : HostTy} {t : Ty} {vs : List HostValue} (hk : h.kernelTy = .ok t)
    (hv : ∀ v ∈ vs, h.forms v = true) :
    ∃ block, encodeAll t h vs = .ok block ∧ block.size = vs.length * t.size := by
  obtain ⟨block, henc, hsize⟩ := exists_encodeFrom_of_forms hk vs
    (Array.replicate (t.size * vs.length) 0) 0 hv
    (by rw [Array.size_replicate, Nat.zero_add, Nat.mul_comm])
  exact ⟨block, henc, by rw [hsize, Array.size_replicate, Nat.mul_comm]⟩

/-- A block of values is read. -/
theorem exists_decodeAll {h : HostTy} {t : Ty} {src : Bytes} {n : Nat} (hk : h.kernelTy = .ok t)
    (hsize : src.size = n * t.size) : ∃ vs, decodeAll t src h = .ok vs := by
  have hpos := size_pos_of_kernelTy hk
  have hdiv : src.size / t.size = n := by rw [hsize, Nat.mul_div_cancel _ hpos]
  have hmod : src.size % t.size = 0 := by rw [hsize, Nat.mul_mod_left]
  have hread : ∀ i, ∃ v, i < n → decodeAt t src (i * t.size) h = .ok v := fun i => by
    by_cases hi : i < n
    · have hle : (i + 1) * t.size ≤ n * t.size := Nat.mul_le_mul_right _ hi
      obtain ⟨v, hv⟩ := exists_decodeAt src (i * t.size) hk (by rw [hsize, ← Nat.succ_mul]; exact hle)
      exact ⟨v, fun _ => hv⟩
    · exact ⟨h.zero, fun hlt => absurd hlt hi⟩
  choose value hvalue using hread
  rw [decodeAll, hdiv, hmod, if_neg (by omega)]
  exact ⟨_, mapM_ok fun i hi => hvalue i (List.mem_range.mp hi)⟩

/-- As many values are read as the block has. -/
theorem length_of_decodeAll {h : HostTy} {t : Ty} {src : Bytes} {vs : List HostValue}
    (hdec : decodeAll t src h = .ok vs) : vs.length = src.size / t.size := by
  unfold decodeAll at hdec
  split at hdec
  · cases hdec
  · simpa using length_of_mapM hdec

/-! ### The codec -/

/-- **Writing a host value into device memory and reading it gives the value back, and the
write touches nothing but the scalars of the value.**  This holds for every host type that has
a kernel type and for every block with room: the padding of a value and all that lies behind it
stay as they were.  Lists of values come back from a block of their own, exactly so when no
field is hidden. -/
theorem decode_encode {h : HostTy} {t : Ty} (hk : h.kernelTy = .ok t) :
    (∀ (v : HostValue) (dst : Bytes), h.admits v = true → t.size ≤ dst.size →
      ∃ dst', encode t h v dst = .ok dst' ∧ dst'.size = dst.size ∧
        decode t dst' h = .ok (h.shown v) ∧
        (∀ i, t.covers i = false → dst'[i]? = dst[i]?) ∧
        ∀ i, t.size ≤ i → dst'[i]? = dst[i]?) ∧
    ∀ vs : List HostValue, (∀ v ∈ vs, h.admits v = true) →
      ∃ block, encodeAll t h vs = .ok block ∧ decodeAll t block h = .ok (vs.map h.shown) ∧
        (h.isOpen = true → decodeAll t block h = .ok vs) := by
  constructor
  · intro v dst hv hroom
    obtain ⟨dst', hst⟩ := exists_stored dst 0 hk hv (by omega)
    refine ⟨dst', hst.encoded, hst.size_eq, hst.decoded, fun i hi => ?_, fun i hi => ?_⟩
    · exact hst.kept i (by simp [hi])
    · exact hst.kept_outside i (by omega)
  · intro vs hv
    obtain ⟨block, henc, hdec⟩ := decodeAll_encodeAll hk hv
    refine ⟨block, henc, hdec, fun hopen => ?_⟩
    have hsame : vs.map h.shown = vs :=
      (List.map_congr_left fun v hvs => HostTy.shown_of_isOpen hopen (hv v hvs)).trans (List.map_id vs)
    rw [hdec, hsame]

/-- A structure with a hidden text and a nested structure, so with padding, in a block that is
longer than it. -/
theorem decode_encode_nested :
    let h : HostTy := .struct [(false, .int .w8), (true, .string),
      (false, .struct [(false, .float64), (false, .array 2 (.uint .w16))])]
    let t : Ty := .tuple [.scalar .char, .tuple [.scalar .double, .vector .ushort .two]]
    let rest : HostValue := .list [.float64 ⟨0x3ff0000000000000⟩, .list [.uint 7, .uint 65535]]
    ∃ dst', encode t h (.list [.int (-3), .text "note", rest]) (Array.replicate 34 0xaa) =
        .ok dst' ∧
      decode t dst' h = .ok (.list [.int (-3), .text "", rest]) ∧
      dst'[1]? = some 0xaa ∧ dst'[33]? = some 0xaa := by
  intro h t rest
  obtain ⟨dst', henc, -, hdec, hpad, hend⟩ := (decode_encode (h := h) (t := t) rfl).1
    (.list [.int (-3), .text "note", rest]) (Array.replicate 34 0xaa) (by decide) (by decide)
  exact ⟨dst', henc, hdec, hpad 1 (by decide), hend 33 (by decide)⟩

end Host
end KernelForge
