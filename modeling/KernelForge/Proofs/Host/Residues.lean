/-
What of a host value reaches the device.

A native integer has 64 bits on the host and 32 on the device, and writing it stores the low 32
whatever the others are.  So a value is written exactly as its residue is, the value in which
every native integer is reduced to a number of 32 bits, and since the device can hold the
residue, the residue is what comes back.  A value comes back unchanged exactly when it is its
own residue, that is, when its native integers fit and its hidden fields are zero.
-/
import KernelForge.Proofs.Host.Codec

namespace KernelForge

namespace Bytes

/-- Some low bytes of a number depend on its residue only. -/
theorem ofNat_congr {width m n : Nat} (h : m % 256 ^ width = n % 256 ^ width) :
    ofNat width m = ofNat width n := by
  have hm := ofNat_toNat (ofNat width m)
  have hn := ofNat_toNat (ofNat width n)
  rw [length_ofNat, toNat_ofNat, Nat.pow_eq] at hm hn
  rw [← hm, ← hn, h]

end Bytes

namespace HostTy

/-! ### Values of a host type -/

mutual

/-- Whether a value is one of a host type: integers within their width on the host, and no NaN
where a kernel sees it.  A hidden field may be anything. -/
def holds : HostTy → HostValue → Bool
  | bool, .bool _ => true
  | int w, .int i => decide (-2 ^ (w.bits - 1) ≤ i.toInt) && decide (i.toInt < 2 ^ (w.bits - 1))
  | uint w, .uint u => decide (u.toNat < 2 ^ w.bits)
  | float32, .float32 x => !x.isNaN
  | float64, .float64 x => !x.isNaN
  | array n t, .list vs => decide (vs.length = n) && vs.all t.holds
  | struct fs, .list vs => holdsFields fs vs
  | _, _ => false

def holdsFields : List (Bool × HostTy) → List HostValue → Bool
  | [], [] => true
  | f :: fs, v :: vs => holdsField f v && holdsFields fs vs
  | _, _ => false

def holdsField : Bool × HostTy → HostValue → Bool
  | (hidden, t), v => hidden || t.holds v

end

mutual

/-- A value with its native integers reduced to 32 bits, and with zero in its hidden fields. -/
def residue : HostTy → HostValue → HostValue
  | int .native, .int i => .int (Int64.ofInt (Int.bmod i.toInt (2 ^ 32)))
  | uint .native, .uint u => .uint (UInt64.ofNat (u.toNat % 2 ^ 32))
  | array _ t, .list vs => .list (vs.map t.residue)
  | struct fs, .list vs => .list (residueFields fs vs)
  | _, v => v

def residueFields : List (Bool × HostTy) → List HostValue → List HostValue
  | f :: fs, v :: vs => residueField f v :: residueFields fs vs
  | _, _ => []

def residueField : Bool × HostTy → HostValue → HostValue
  | (hidden, t), v => if hidden then t.zero else t.residue v

end

/-! ### The device can hold a residue -/

theorem toInt_residue (i : Int64) :
    (Int64.ofInt (Int.bmod i.toInt (2 ^ 32))).toInt = Int.bmod i.toInt (2 ^ 32) := by
  have hlow := Int.le_bmod (x := i.toInt) (m := 2 ^ 32) (by decide)
  have hup := Int.bmod_lt (x := i.toInt) (m := 2 ^ 32) (by decide)
  refine Int64.toInt_ofInt_of_le ?_ ?_ <;> omega

theorem toNat_residue (u : UInt64) : (UInt64.ofNat (u.toNat % 2 ^ 32)).toNat = u.toNat % 2 ^ 32 := by
  have hlt := Nat.mod_lt u.toNat (by decide : 0 < 2 ^ 32)
  exact UInt64.toNat_ofNat_of_lt' (hlt.trans (by decide))

mutual

theorem admits_residue : ∀ {h : HostTy} {t : Ty} {v : HostValue}, h.kernelTy = .ok t →
    h.holds v = true → h.admits (h.residue v) = true
  | bool, t, v, _, hv => by
    cases v <;> simp only [holds, Bool.false_eq_true] at hv
    rfl
  | int w, t, v, _, hv => by
    cases v <;> simp only [holds, Bool.false_eq_true] at hv
    rename_i i
    cases w with
    | native =>
      have hlow := Int.le_bmod (x := i.toInt) (m := 2 ^ 32) (by decide)
      have hup := Int.bmod_lt (x := i.toInt) (m := 2 ^ 32) (by decide)
      simp only [residue, admits, toInt_residue, IntWidth.deviceBits, Bool.and_eq_true,
        decide_eq_true_eq]
      omega
    | _ => exact hv
  | uint w, t, v, _, hv => by
    cases v <;> simp only [holds, Bool.false_eq_true] at hv
    rename_i u
    cases w with
    | native =>
      simp only [residue, admits, toNat_residue, IntWidth.deviceBits, decide_eq_true_eq]
      exact Nat.mod_lt _ (by decide)
    | _ => exact hv
  | float32, t, v, _, hv => by
    cases v <;> simp only [holds, Bool.false_eq_true] at hv
    exact hv
  | float64, t, v, _, hv => by
    cases v <;> simp only [holds, Bool.false_eq_true] at hv
    exact hv
  | array n elem, t, v, hk, hv => by
    obtain ⟨s, w, helem, -, -⟩ := kernelTy_array hk
    cases v <;> simp only [holds, Bool.false_eq_true, Bool.and_eq_true, decide_eq_true_eq,
      List.all_eq_true] at hv
    simp only [residue, admits, Bool.and_eq_true, decide_eq_true_eq, List.all_eq_true,
      List.length_map, List.mem_map, forall_exists_index, and_imp]
    refine ⟨hv.1, ?_⟩
    rintro _ u hu rfl
    exact admits_residue helem (hv.2 u hu)
  | struct fs, t, v, hk, hv => by
    obtain ⟨ts, hts, -, rfl⟩ := kernelTy_struct hk
    cases v <;> simp only [holds, Bool.false_eq_true] at hv
    rw [residue, admits]
    exact admitsFields_residue hts hv
  | string, _, _, hk, _ => by cases hk
  | complex64, _, _, hk, _ => by cases hk
  | slice _, _, _, hk, _ => by cases hk
  | pointer _, _, _, hk, _ => by cases hk

theorem admitsFields_residue : ∀ {fs : List (Bool × HostTy)} {ts : List Ty} {vs : List HostValue},
    fieldTys fs = .ok ts → holdsFields fs vs = true → admitsFields fs (residueFields fs vs) = true
  | [], _, [], _, _ => by simp [residueFields, admitsFields]
  | [], _, _ :: _, _, hv => by simp [holdsFields] at hv
  | _ :: _, _, [], _, hv => by simp [holdsFields] at hv
  | (true, h) :: fs, ts, v :: vs, hts, hv => by
    rw [fieldTys_hidden] at hts
    rw [holdsFields, Bool.and_eq_true] at hv
    rw [residueFields, admitsFields, admitsField, Bool.true_or, Bool.true_and]
    exact admitsFields_residue hts hv.2
  | (false, h) :: fs, ts, v :: vs, hts, hv => by
    obtain ⟨k, ks, hk, hks, rfl⟩ := fieldTys_shown hts
    rw [holdsFields, Bool.and_eq_true, holdsField, Bool.false_or] at hv
    rw [residueFields, admitsFields, admitsField, Bool.false_or, Bool.and_eq_true, residueField,
      if_neg (by decide)]
    exact ⟨admits_residue hk hv.1, admitsFields_residue hks hv.2⟩

end

/-! ### A residue has no more to lose -/

theorem shown_of_scalar {h : HostTy} {s : Scalar} (hk : h.kernelTy = .ok (.scalar s))
    (v : HostValue) : h.shown v = v := by
  cases h with
  | struct fs =>
    obtain ⟨ts, -, -, hno⟩ := kernelTy_struct hk
    cases hno
  | _ => simp only [shown]

mutual

/-- A residue is not changed by hiding its hidden fields. -/
theorem shown_residue : ∀ (h : HostTy) (v : HostValue), h.shown (h.residue v) = h.residue v
  | struct fs, .list vs => by rw [residue, shown, shownFields_residue]
  | struct _, .bool _ | struct _, .int _ | struct _, .uint _ | struct _, .float32 _
  | struct _, .float64 _ | struct _, .text _ | struct _, .other => by simp [residue, shown]
  | bool, v | float32, v | float64, v | string, v | complex64, v | slice _, v | pointer _, v
  | int _, v | uint _, v | array _ _, v => by simp [shown]

theorem shownFields_residue : ∀ (fs : List (Bool × HostTy)) (vs : List HostValue),
    shownFields fs (residueFields fs vs) = residueFields fs vs
  | [], vs => by simp [residueFields, shownFields]
  | _ :: _, [] => by simp [residueFields, shownFields]
  | (hidden, t) :: fs, v :: vs => by
    rw [residueFields, shownFields, shownFields_residue, shownField_residue]

theorem shownField_residue : ∀ (f : Bool × HostTy) (v : HostValue),
    shownField f (residueField f v) = residueField f v
  | (true, t), v => by simp [residueField, shownField]
  | (false, t), v => by simpa [residueField, shownField] using shown_residue t v

end

end HostTy

namespace Host

open HostTy

/-! ### A value is written as its residue -/

theorem low_residue (i : Int64) :
    (Int64.ofInt (Int.bmod i.toInt (2 ^ 32))).toUInt64.toNat % 256 ^ 4 =
      i.toUInt64.toNat % 256 ^ 4 := by
  have hword : ∀ j : Int64, j.toInt = Int.bmod j.toUInt64.toNat (2 ^ 64) :=
    fun j => BitVec.toInt_eq_toNat_bmod j.toBitVec
  have hres := hword (Int64.ofInt (Int.bmod i.toInt (2 ^ 32)))
  have hi := hword i
  rw [toInt_residue] at hres
  generalize (Int64.ofInt (Int.bmod i.toInt (2 ^ 32))).toUInt64.toNat = m at *
  simp only [Int.bmod_def] at hres hi
  split at hi <;> split at hres <;> split at hres <;> omega

theorem encodeScalar_residue {h : HostTy} {s : Scalar} (hk : h.kernelTy = .ok (.scalar s))
    (v : HostValue) : encodeScalar s h (h.residue v) = encodeScalar s h v := by
  cases h with
  | int w =>
    cases v with
    | int i =>
      cases w with
      | native =>
        cases hk
        rw [residue, encodeScalar, encodeScalar, scalarBytes, scalarBytes,
          Bytes.ofNat_congr (low_residue i)]
      | _ => simp only [residue]
    | _ => simp only [residue]
  | uint w =>
    cases v with
    | uint u =>
      cases w with
      | native =>
        cases hk
        rw [residue, encodeScalar, encodeScalar, scalarBytes, scalarBytes, toNat_residue,
          Bytes.ofNat_congr (Nat.mod_mod_of_dvd _ (by decide))]
      | _ => simp only [residue]
    | _ => simp only [residue]
  | struct fs =>
    obtain ⟨ts, -, -, hno⟩ := kernelTy_struct hk
    cases hno
  | array n elem =>
    obtain ⟨s, w, -, -, hno⟩ := kernelTy_array hk
    cases hno
  | _ => rfl

theorem encodeLanes_residue {h : HostTy} {s : Scalar} (hk : h.kernelTy = .ok (.scalar s))
    (vs : List HostValue) (dst : Bytes) (offset : Nat) :
    encodeLanes s h dst offset (vs.map h.residue) = encodeLanes s h dst offset vs := by
  induction vs generalizing dst offset with
  | nil => rfl
  | cons v vs ih =>
    rw [List.map_cons, encodeLanes, encodeLanes, encodeScalar_residue hk]
    cases encodeScalar s h v with
    | error e => rfl
    | ok bs => exact ih _ _

mutual

/-- A value and its residue are written alike. -/
theorem encodeAt_residue : ∀ {h : HostTy} {t : Ty}, h.kernelTy = .ok t →
    ∀ (v : HostValue) (dst : Bytes) (offset : Nat),
      encodeAt t h (h.residue v) dst offset = encodeAt t h v dst offset
  | .array n elem, t, hk, v, dst, offset => by
    obtain ⟨s, w, helem, hn, rfl⟩ := kernelTy_array hk
    cases v with
    | list vs => simp only [residue, encodeAt, encodeLanes_residue helem]
    | _ => simp only [residue]
  | .struct fs, t, hk, v, dst, offset => by
    obtain ⟨ts, hts, hlen, rfl⟩ := kernelTy_struct hk
    cases v with
    | list vs => simp only [residue, encodeAt, encodeFields_residue hts]
    | _ => simp only [residue]
  | .bool, t, hk, v, dst, offset => rfl
  | .int w, t, hk, v, dst, offset => by
    have hs : ∃ s, t = .scalar s := by cases w <;> cases hk <;> exact ⟨_, rfl⟩
    obtain ⟨s, rfl⟩ := hs
    simp only [encodeAt, encodeScalar_residue hk]
  | .uint w, t, hk, v, dst, offset => by
    have hs : ∃ s, t = .scalar s := by cases w <;> cases hk <;> exact ⟨_, rfl⟩
    obtain ⟨s, rfl⟩ := hs
    simp only [encodeAt, encodeScalar_residue hk]
  | .float32, _, _, _, _, _ | .float64, _, _, _, _, _ | .string, _, _, _, _, _
  | .complex64, _, _, _, _, _ | .slice _, _, _, _, _, _ | .pointer _, _, _, _, _, _ => rfl

theorem encodeFields_residue : ∀ {fs : List (Bool × HostTy)} {ts : List Ty}, fieldTys fs = .ok ts →
    ∀ (vs : List HostValue) (dst : Bytes) (base used : Nat),
      encodeFields ts ((visible fs).zip (visibleValues fs (residueFields fs vs))) dst base used =
        encodeFields ts ((visible fs).zip (visibleValues fs vs)) dst base used
  | [], ts, _, vs, dst, base, used => by simp [residueFields, visible]
  | f :: fs, ts, _, [], dst, base, used => by rw [residueFields]; simp
  | (true, h) :: fs, ts, hts, v :: vs, dst, base, used => by
    rw [fieldTys_hidden] at hts
    rw [residueFields, visible_hidden, visibleValues_hidden, visibleValues_hidden]
    exact encodeFields_residue hts vs dst base used
  | (false, h) :: fs, ts, hts, v :: vs, dst, base, used => by
    obtain ⟨t, ks, hk, hks, rfl⟩ := fieldTys_shown hts
    rw [residueFields, residueField, if_neg (by decide), visible_shown, visibleValues_shown,
      visibleValues_shown, List.zip_cons_cons, List.zip_cons_cons, encodeFields, encodeFields,
      encodeAt_residue hk]
    cases encodeAt t h v dst (base + alignUp used t.align) with
    | error e => rfl
    | ok mid => exact encodeFields_residue hks vs mid _ _

end

/-- **Writing a value of a host type succeeds, and its residue is read back.** -/
theorem decode_encode_residue {h : HostTy} {t : Ty} {v : HostValue} (hk : h.kernelTy = .ok t)
    (hv : h.holds v = true) : ∃ bytes, encode t h v (Array.replicate t.size 0) = .ok bytes ∧
      bytes.size = t.size ∧ decode t bytes h = .ok (h.residue v) := by
  obtain ⟨bytes, henc, hsize, hdec, -⟩ := (decode_encode hk).1 (h.residue v)
    (Array.replicate t.size 0) (admits_residue hk hv) (by simp)
  rw [encode, encodeAt_residue hk] at henc
  rw [shown_residue] at hdec
  exact ⟨bytes, henc, by simpa using hsize, hdec⟩

end Host

namespace HostTy

/-! ### Values that are their own residue -/

theorem int_residue_eq_iff (i : Int64) :
    Int64.ofInt (Int.bmod i.toInt (2 ^ 32)) = i ↔ -2 ^ 31 ≤ i.toInt ∧ i.toInt < 2 ^ 31 := by
  rw [← Int64.toInt_inj, toInt_residue, Int.bmod_def]
  split <;> omega

theorem uint_residue_eq_iff (u : UInt64) :
    UInt64.ofNat (u.toNat % 2 ^ 32) = u ↔ u.toNat < 2 ^ 32 := by
  rw [← UInt64.toNat_inj, toNat_residue]
  omega

mutual

theorem residue_eq_shown_iff : ∀ {h : HostTy} {t : Ty} {v : HostValue}, h.kernelTy = .ok t →
    h.holds v = true → (h.residue v = h.shown v ↔ h.admits v = true)
  | bool, t, v, _, hv => by
    cases v <;> simp only [holds, Bool.false_eq_true] at hv
    exact iff_of_true (by simp only [residue, shown]) rfl
  | int w, t, v, _, hv => by
    cases v <;> simp only [holds, Bool.false_eq_true] at hv
    cases w with
    | native =>
      simp only [residue, shown, HostValue.int.injEq, int_residue_eq_iff, admits,
        Bool.and_eq_true, decide_eq_true_eq]
      rfl
    | _ => exact iff_of_true (by simp only [residue, shown]) hv
  | uint w, t, v, _, hv => by
    cases v <;> simp only [holds, Bool.false_eq_true] at hv
    cases w with
    | native =>
      simp only [residue, shown, HostValue.uint.injEq, uint_residue_eq_iff, admits,
        decide_eq_true_eq]
      rfl
    | _ => exact iff_of_true (by simp only [residue, shown]) hv
  | float32, t, v, _, hv => by
    cases v <;> simp only [holds, Bool.false_eq_true] at hv
    exact iff_of_true (by simp only [residue, shown]) hv
  | float64, t, v, _, hv => by
    cases v <;> simp only [holds, Bool.false_eq_true] at hv
    exact iff_of_true (by simp only [residue, shown]) hv
  | array n elem, t, v, hk, hv => by
    obtain ⟨s, w, helem, -, -⟩ := kernelTy_array hk
    cases v <;> simp only [holds, Bool.false_eq_true, Bool.and_eq_true, decide_eq_true_eq,
      List.all_eq_true] at hv
    rename_i vs
    have hlane : ∀ u ∈ vs, (elem.residue u = u ↔ elem.admits u = true) := fun u hu => by
      rw [← residue_eq_shown_iff helem (hv.2 u hu), shown_of_scalar helem]
    simp only [residue, shown, admits, HostValue.list.injEq, hv.1, decide_true, Bool.true_and,
      List.all_eq_true]
    have hid : vs.map elem.residue = vs ↔ ∀ u ∈ vs, elem.residue u = u := by
      simpa using List.map_inj_left (f := elem.residue) (g := id) (l := vs)
    exact hid.trans (forall₂_congr hlane)
  | struct fs, t, v, hk, hv => by
    obtain ⟨ts, hts, -, rfl⟩ := kernelTy_struct hk
    cases v <;> simp only [holds, Bool.false_eq_true] at hv
    rw [residue, shown, admits, HostValue.list.injEq]
    exact residueFields_eq_shownFields_iff hts hv
  | string, _, _, hk, _ => by cases hk
  | complex64, _, _, hk, _ => by cases hk
  | slice _, _, _, hk, _ => by cases hk
  | pointer _, _, _, hk, _ => by cases hk

theorem residueFields_eq_shownFields_iff : ∀ {fs : List (Bool × HostTy)} {ts : List Ty}
    {vs : List HostValue}, fieldTys fs = .ok ts → holdsFields fs vs = true →
    (residueFields fs vs = shownFields fs vs ↔ admitsFields fs vs = true)
  | [], _, [], _, _ => by simp [residueFields, shownFields, admitsFields]
  | [], _, _ :: _, _, hv => by simp [holdsFields] at hv
  | _ :: _, _, [], _, hv => by simp [holdsFields] at hv
  | (true, h) :: fs, ts, v :: vs, hts, hv => by
    rw [fieldTys_hidden] at hts
    rw [holdsFields, Bool.and_eq_true] at hv
    rw [residueFields, shownFields, admitsFields, residueField, shownField, admitsField, if_pos rfl,
      if_pos rfl, Bool.true_or, Bool.true_and, List.cons.injEq, eq_self_iff_true, true_and]
    exact residueFields_eq_shownFields_iff hts hv.2
  | (false, h) :: fs, ts, v :: vs, hts, hv => by
    obtain ⟨k, ks, hk, hks, rfl⟩ := fieldTys_shown hts
    rw [holdsFields, Bool.and_eq_true, holdsField, Bool.false_or] at hv
    rw [residueFields, shownFields, admitsFields, residueField, shownField, admitsField,
      if_neg (by decide), if_neg (by decide), Bool.false_or, Bool.and_eq_true, List.cons.injEq]
    exact and_congr (residue_eq_shown_iff hk hv.1) (residueFields_eq_shownFields_iff hks hv.2)

end

/-- A value is its own residue exactly when the device can hold it and its hidden fields are
zero. -/
theorem residue_eq_self_iff {h : HostTy} {t : Ty} {v : HostValue} (hk : h.kernelTy = .ok t)
    (hv : h.holds v = true) : h.residue v = v ↔ h.admits v = true ∧ h.shown v = v := by
  constructor
  · intro heq
    have hshown : h.shown v = v := by
      have := shown_residue h v
      rwa [heq] at this
    exact ⟨(residue_eq_shown_iff hk hv).1 (heq.trans hshown.symm), hshown⟩
  · rintro ⟨hadmits, hshown⟩
    exact ((residue_eq_shown_iff hk hv).2 hadmits).trans hshown

end HostTy
end KernelForge
