/-
Where the parts of a value lie in memory.

All alignments are powers of two, so of two alignments the smaller divides the larger, and the
alignment of a tuple, which is the largest of its fields, is a multiple of each of them.  A field
is moved up to its own alignment and the end of the tuple to that of the tuple, so the elements of
an array are all aligned when the first one is, and so is everything in them, however deep: what is
aligned in a tuple stays so when the tuple is moved by a multiple of its alignment.

Nothing overlaps because a field begins where those before it have ended.  The scalars of a value
(`leaves`) therefore come in the order of their places, each within its element.
-/
import KernelForge.Ty.Layout
import Mathlib.Algebra.Order.Ring.Nat

namespace KernelForge

/-! ### Moving up to an alignment -/

theorem le_alignUp (offset align : Nat) : offset ≤ alignUp offset align := by
  unfold alignUp
  split
  · exact Nat.le_refl _
  · have hmod := Nat.mod_lt (offset + align - 1) (by omega : align > 0)
    have hdiv := Nat.div_add_mod' (offset + align - 1) align
    omega

theorem dvd_alignUp {align : Nat} (h : 0 < align) (offset : Nat) : align ∣ alignUp offset align := by
  unfold alignUp
  split
  · rw [show align = 1 by omega]
    exact Nat.one_dvd _
  · exact Nat.dvd_mul_left _ _

/-- No more is skipped than what is missing to a multiple. -/
theorem alignUp_lt {align : Nat} (h : 0 < align) (offset : Nat) :
    alignUp offset align < offset + align := by
  unfold alignUp
  split
  · omega
  · have hle := Nat.div_mul_le_self (offset + align - 1) align
    omega

theorem Scalar.exists_size_eq_pow (s : Scalar) : ∃ k, s.size = 2 ^ k := by
  cases s
  case bool | char | uchar => exact ⟨0, rfl⟩
  case short | ushort => exact ⟨1, rfl⟩
  case int | uint | float => exact ⟨2, rfl⟩
  case long | ulong | double => exact ⟨3, rfl⟩

theorem Width.exists_lanes_eq_pow (w : Width) : ∃ k, w.lanes = 2 ^ k := by
  cases w
  case two => exact ⟨1, rfl⟩
  case four => exact ⟨2, rfl⟩
  case eight => exact ⟨3, rfl⟩
  case sixteen => exact ⟨4, rfl⟩

namespace Ty

/-! ### Alignments -/

mutual

theorem exists_align_eq_pow : ∀ t : Ty, ∃ k, t.align = 2 ^ k
  | void => ⟨0, rfl⟩
  | scalar s => s.exists_size_eq_pow
  | vector s w => by
    obtain ⟨i, hi⟩ := s.exists_size_eq_pow
    obtain ⟨j, hj⟩ := w.exists_lanes_eq_pow
    exact ⟨i + j, by rw [align, hi, hj, Nat.pow_add]⟩
  | tuple ts => exists_alignAll_eq_pow ts
  | pointer _ _ _ => ⟨3, rfl⟩

theorem exists_alignAll_eq_pow : ∀ ts : List Ty, ∃ k, alignAll ts = 2 ^ k
  | [] => ⟨0, rfl⟩
  | t :: ts => by
    obtain ⟨i, hi⟩ := exists_align_eq_pow t
    obtain ⟨j, hj⟩ := exists_alignAll_eq_pow ts
    rw [alignAll]
    rcases Nat.le_total t.align (alignAll ts) with hle | hle
    · exact ⟨j, by rw [Nat.max_eq_right hle, hj]⟩
    · exact ⟨i, by rw [Nat.max_eq_left hle, hi]⟩

end

theorem align_pos (t : Ty) : 0 < t.align := by
  obtain ⟨k, hk⟩ := exists_align_eq_pow t
  rw [hk]
  exact Nat.two_pow_pos k

theorem alignAll_pos (ts : List Ty) : 0 < alignAll ts := align_pos (tuple ts)

theorem align_le_alignAll {t : Ty} {ts : List Ty} (h : t ∈ ts) : t.align ≤ alignAll ts := by
  induction ts with
  | nil => exact absurd h List.not_mem_nil
  | cons u us ih =>
    rw [alignAll]
    rcases List.mem_cons.mp h with rfl | h
    · exact Nat.le_max_left _ _
    · exact Nat.le_trans (ih h) (Nat.le_max_right _ _)

/-- The alignment of a field divides that of the tuple. -/
theorem align_dvd_alignAll {t : Ty} {ts : List Ty} (h : t ∈ ts) : t.align ∣ alignAll ts := by
  have hle := align_le_alignAll h
  obtain ⟨i, hi⟩ := exists_align_eq_pow t
  obtain ⟨j, hj⟩ := exists_alignAll_eq_pow ts
  rw [hi, hj] at hle ⊢
  exact Nat.pow_dvd_pow 2 ((Nat.pow_le_pow_iff_right (by decide)).mp hle)

/-- The elements of an array are aligned when the first one is. -/
theorem align_dvd_size (t : Ty) : t.align ∣ t.size := by
  cases t with
  | void => exact Nat.one_dvd _
  | scalar s => exact Nat.dvd_refl _
  | vector s w => exact Nat.dvd_refl _
  | tuple ts =>
    rw [size]
    exact dvd_alignUp (alignAll_pos ts) _
  | pointer t s r => exact Nat.dvd_refl _

/-! ### Fields -/

theorem le_fieldsEnd (used : Nat) (ts : List Ty) : used ≤ fieldsEnd used ts := by
  induction ts generalizing used with
  | nil => exact Nat.le_refl _
  | cons t ts ih =>
    have h := le_alignUp used t.align
    have := ih (alignUp used t.align + t.size)
    rw [fieldsEnd]
    omega

theorem fieldsEnd_le_size (ts : List Ty) : fieldsEnd 0 ts ≤ (tuple ts).size := by
  rw [size]
  exact le_alignUp _ _

/-- A field lies between the end of those before it and the end of all of them. -/
theorem offsetsFrom_bounds : ∀ (ts : List Ty) (used : Nat) {i : Nat}, i < ts.length →
    used ≤ (offsetsFrom used ts).getD i 0 ∧
      (offsetsFrom used ts).getD i 0 + (ts.getD i .void).size ≤ fieldsEnd used ts
  | t :: ts, used, 0, _ => by
    rw [offsetsFrom, fieldsEnd]
    exact ⟨le_alignUp _ _, le_fieldsEnd _ ts⟩
  | t :: ts, used, i + 1, hi => by
    obtain ⟨hlow, hup⟩ := offsetsFrom_bounds ts (alignUp used t.align + t.size) (Nat.lt_of_succ_lt_succ hi)
    have hstart := le_alignUp used t.align
    rw [offsetsFrom, fieldsEnd]
    simp only [List.getD_cons_succ]
    exact ⟨by omega, hup⟩

/-- A field ends before the next one starts. -/
theorem offsetsFrom_le : ∀ (ts : List Ty) (used : Nat) {i j : Nat}, i < j → j < ts.length →
    (offsetsFrom used ts).getD i 0 + (ts.getD i .void).size ≤ (offsetsFrom used ts).getD j 0
  | t :: ts, used, i, 0, hij, _ => absurd hij (Nat.not_lt_zero i)
  | t :: ts, used, 0, j + 1, _, hj => by
    rw [offsetsFrom]
    exact (offsetsFrom_bounds ts _ (Nat.lt_of_succ_lt_succ hj)).1
  | t :: ts, used, i + 1, j + 1, hij, hj => by
    rw [offsetsFrom]
    simp only [List.getD_cons_succ]
    exact offsetsFrom_le ts _ (Nat.lt_of_succ_lt_succ hij) (Nat.lt_of_succ_lt_succ hj)

theorem align_dvd_offsetsFrom : ∀ (ts : List Ty) (used : Nat) {i : Nat}, i < ts.length →
    (ts.getD i .void).align ∣ (offsetsFrom used ts).getD i 0
  | t :: ts, used, 0, _ => by
    rw [offsetsFrom]
    exact dvd_alignUp (align_pos t) used
  | t :: ts, used, i + 1, hi => by
    rw [offsetsFrom]
    exact align_dvd_offsetsFrom ts _ (Nat.lt_of_succ_lt_succ hi)

/-- The first field starts before its alignment is skipped once. -/
theorem offsetsFrom_zero_lt {ts : List Ty} (used : Nat) (h : 0 < ts.length) :
    (offsetsFrom used ts).getD 0 0 < used + (ts.getD 0 .void).align := by
  cases ts with
  | nil => exact absurd h (Nat.lt_irrefl 0)
  | cons t ts =>
    rw [offsetsFrom]
    exact alignUp_lt (align_pos t) used

/-- Between two fields there is less than the alignment of the second. -/
theorem offsetsFrom_succ_lt : ∀ (ts : List Ty) (used : Nat) {i : Nat}, i + 1 < ts.length →
    (offsetsFrom used ts).getD (i + 1) 0 <
      (offsetsFrom used ts).getD i 0 + (ts.getD i .void).size + (ts.getD (i + 1) .void).align
  | t :: ts, used, 0, hi => by
    rw [offsetsFrom]
    exact offsetsFrom_zero_lt _ (Nat.lt_of_succ_lt_succ hi)
  | t :: ts, used, i + 1, hi => by
    rw [offsetsFrom]
    exact offsetsFrom_succ_lt ts _ (Nat.lt_of_succ_lt_succ hi)

theorem fieldsEnd_eq_last : ∀ (ts : List Ty) (used : Nat) {i : Nat}, i + 1 = ts.length →
    fieldsEnd used ts = (offsetsFrom used ts).getD i 0 + (ts.getD i .void).size
  | [t], used, 0, _ => rfl
  | t :: u :: ts, used, i + 1, hi => by
    rw [offsetsFrom, fieldsEnd]
    exact fieldsEnd_eq_last (u :: ts) _ (Nat.succ.inj hi)

/-- Where field `i` of a tuple starts. -/
def fieldStart (ts : List Ty) (i : Nat) : Nat := (fieldOffsets ts).getD i 0

/-- Where field `i` of a tuple ends. -/
def fieldFinish (ts : List Ty) (i : Nat) : Nat := fieldStart ts i + (ts.getD i .void).size

/-- The fields of a tuple are aligned and in order, and no more is skipped between them and behind
the last one than alignment asks for. -/
structure WellSpaced (ts : List Ty) : Prop where
  aligned : ∀ i < ts.length, (ts.getD i .void).align ∣ fieldStart ts i
  starts : 0 < ts.length → fieldStart ts 0 = 0
  apart : ∀ i, i + 1 < ts.length → fieldFinish ts i ≤ fieldStart ts (i + 1)
  tight : ∀ i, i + 1 < ts.length → fieldStart ts (i + 1) < fieldFinish ts i + (ts.getD (i + 1) .void).align
  inside : ∀ i < ts.length, fieldFinish ts i ≤ (tuple ts).size
  rounded : ∀ i, i + 1 = ts.length → (tuple ts).size < fieldFinish ts i + (tuple ts).align

theorem wellSpaced (ts : List Ty) : WellSpaced ts where
  aligned i hi := align_dvd_offsetsFrom ts 0 hi
  starts h := by
    have hlt := offsetsFrom_zero_lt 0 h
    have hdvd := align_dvd_offsetsFrom ts 0 h
    rw [Nat.zero_add] at hlt
    exact Nat.eq_zero_of_dvd_of_lt hdvd hlt
  apart i hi := offsetsFrom_le ts 0 (Nat.lt_succ_self i) hi
  tight i hi := offsetsFrom_succ_lt ts 0 hi
  inside i hi := Nat.le_trans (offsetsFrom_bounds ts 0 hi).2 (fieldsEnd_le_size ts)
  rounded i hi := by
    rw [size, align, fieldFinish, fieldStart, fieldOffsets, ← fieldsEnd_eq_last ts 0 hi]
    exact alignUp_lt (alignAll_pos ts) _

/-! ### The scalars of a value -/

/-- A scalar or a pointer somewhere in memory. -/
structure Leaf where
  offset : Nat
  type : Ty
deriving DecidableEq, Repr

/-- Where a scalar ends. -/
def Leaf.finish (l : Leaf) : Nat := l.offset + l.type.size

mutual

/-- The scalars and pointers of a value that starts at an offset, the lanes of vectors among them. -/
def leaves (start : Nat) : Ty → List Leaf
  | void => []
  | scalar s => [⟨start, scalar s⟩]
  | vector s w => (List.range w.lanes).map fun i => ⟨start + i * s.size, scalar s⟩
  | tuple ts => fieldLeaves start ts (fieldOffsets ts)
  | pointer t space readOnly => [⟨start, pointer t space readOnly⟩]

/-- Those of fields with given offsets. -/
def fieldLeaves (start : Nat) : List Ty → List Nat → List Leaf
  | t :: ts, offset :: offsets => t.leaves (start + offset) ++ fieldLeaves start ts offsets
  | _, _ => []

end

/-- The scalars of the first `n` elements of an array. -/
def arrayLeaves (t : Ty) (start n : Nat) : List Leaf :=
  (List.range n).flatMap fun k => t.leaves (start + k * t.size)

mutual

theorem align_dvd_leaf : ∀ {t : Ty} {start : Nat}, t.align ∣ start → ∀ l ∈ t.leaves start,
    l.type.align ∣ l.offset
  | void, _, _, l, hl => absurd hl List.not_mem_nil
  | scalar s, start, h, l, hl => by
    rw [List.mem_singleton.mp hl]
    exact h
  | vector s w, start, h, l, hl => by
    obtain ⟨i, -, rfl⟩ := List.mem_map.mp hl
    exact Nat.dvd_add (Nat.dvd_trans (Nat.dvd_mul_right _ _) h) (Nat.dvd_mul_left _ _)
  | tuple ts, start, h, l, hl =>
    align_dvd_fieldLeaf (fun _ ht => Nat.dvd_trans (align_dvd_alignAll ht) h) l hl
  | pointer t sp r, start, h, l, hl => by
    rw [List.mem_singleton.mp hl]
    exact h

theorem align_dvd_fieldLeaf : ∀ {ts : List Ty} {start used : Nat}, (∀ t ∈ ts, t.align ∣ start) →
    ∀ l ∈ fieldLeaves start ts (offsetsFrom used ts), l.type.align ∣ l.offset
  | [], _, _, _, l, hl => absurd hl List.not_mem_nil
  | t :: ts, start, used, h, l, hl => by
    rcases List.mem_append.mp hl with hl | hl
    · exact align_dvd_leaf (Nat.dvd_add (h t List.mem_cons_self) (dvd_alignUp (align_pos t) used)) l hl
    · exact align_dvd_fieldLeaf (fun u hu => h u (List.mem_cons_of_mem t hu)) l hl

end

mutual

/-- Each scalar lies within the value. -/
theorem leaf_inside : ∀ {t : Ty} {start : Nat}, ∀ l ∈ t.leaves start,
    start ≤ l.offset ∧ l.finish ≤ start + t.size
  | void, _, l, hl => absurd hl List.not_mem_nil
  | scalar s, start, l, hl => by
    rw [List.mem_singleton.mp hl]
    exact ⟨Nat.le_refl _, Nat.le_refl _⟩
  | vector s w, start, l, hl => by
    obtain ⟨i, hi, rfl⟩ := List.mem_map.mp hl
    have hlanes : (i + 1) * s.size ≤ w.lanes * s.size :=
      Nat.mul_le_mul_right _ (List.mem_range.mp hi)
    rw [Nat.add_mul, Nat.one_mul] at hlanes
    refine ⟨Nat.le_add_right _ _, ?_⟩
    show start + i * s.size + s.size ≤ start + s.size * w.lanes
    rw [Nat.mul_comm s.size]
    omega
  | tuple ts, start, l, hl => by
    have hfield := fieldLeaf_inside l hl
    have hend := fieldsEnd_le_size ts
    exact ⟨by omega, by omega⟩
  | pointer t sp r, start, l, hl => by
    rw [List.mem_singleton.mp hl]
    exact ⟨Nat.le_refl _, Nat.le_refl _⟩

theorem fieldLeaf_inside : ∀ {ts : List Ty} {start used : Nat},
    ∀ l ∈ fieldLeaves start ts (offsetsFrom used ts), start + used ≤ l.offset ∧ l.finish ≤ start + fieldsEnd used ts
  | [], _, _, l, hl => absurd hl List.not_mem_nil
  | t :: ts, start, used, l, hl => by
    have hup := le_alignUp used t.align
    have hend := le_fieldsEnd (alignUp used t.align + t.size) ts
    rw [fieldsEnd]
    rcases List.mem_append.mp hl with hl | hl
    · have hfirst := leaf_inside l hl
      exact ⟨by omega, by omega⟩
    · have hlater := fieldLeaf_inside l hl
      exact ⟨by omega, hlater.2⟩

end

/-- The scalars come one after the other. -/
def InOrder (ls : List Leaf) : Prop := ls.Pairwise fun a b => a.finish ≤ b.offset

/-- Scalars that end at some place, and then others from there on. -/
theorem InOrder.append {ls ms : List Leaf} {place : Nat} (hls : InOrder ls) (hms : InOrder ms)
    (hend : ∀ l ∈ ls, l.finish ≤ place) (hstart : ∀ m ∈ ms, place ≤ m.offset) : InOrder (ls ++ ms) :=
  List.pairwise_append.mpr ⟨hls, hms, fun l hl m hm => Nat.le_trans (hend l hl) (hstart m hm)⟩

theorem inOrder_lanes (s : Scalar) (start n : Nat) :
    InOrder ((List.range n).map fun i => ⟨start + i * s.size, scalar s⟩) := by
  refine List.pairwise_map.mpr (List.pairwise_lt_range.imp fun {i j} hij => ?_)
  have hnext : (i + 1) * s.size ≤ j * s.size := Nat.mul_le_mul_right _ hij
  rw [Nat.add_mul, Nat.one_mul] at hnext
  show start + i * s.size + s.size ≤ start + j * s.size
  omega

mutual

theorem inOrder_leaves : ∀ (t : Ty) (start : Nat), InOrder (t.leaves start)
  | void, _ => .nil
  | scalar _, _ => List.pairwise_singleton _ _
  | vector s w, start => inOrder_lanes s start w.lanes
  | tuple ts, start => inOrder_fieldLeaves ts start 0
  | pointer _ _ _, _ => List.pairwise_singleton _ _

theorem inOrder_fieldLeaves : ∀ (ts : List Ty) (start used : Nat),
    InOrder (fieldLeaves start ts (offsetsFrom used ts))
  | [], _, _ => .nil
  | t :: ts, start, used => by
    rw [offsetsFrom, fieldLeaves]
    refine (inOrder_leaves t _).append (inOrder_fieldLeaves ts start _)
      (fun l hl => (leaf_inside l hl).2) fun m hm => ?_
    rw [Nat.add_assoc]
    exact (fieldLeaf_inside m hm).1

end

theorem inOrder_arrayLeaves (t : Ty) (start n : Nat) : InOrder (t.arrayLeaves start n) := by
  induction n with
  | zero => exact .nil
  | succ n ih =>
    have hsplit : t.arrayLeaves start (n + 1) = t.arrayLeaves start n ++ t.leaves (start + n * t.size) := by
      simp [arrayLeaves, List.range_succ]
    rw [hsplit]
    refine ih.append (inOrder_leaves t _) (fun l hl => ?_) fun m hm => (leaf_inside m hm).1
    obtain ⟨k, hk, hl⟩ := List.mem_flatMap.mp hl
    have hfinish := (leaf_inside l hl).2
    have hnext : (k + 1) * t.size ≤ n * t.size := Nat.mul_le_mul_right _ (List.mem_range.mp hk)
    rw [Nat.add_mul, Nat.one_mul] at hnext
    omega

/-! ### Layouts -/

/-- The elements of an array lie at multiples of their size.  All of their scalars are aligned and within
their element, and they come one after the other. -/
structure WellPacked (t : Ty) (start n : Nat) : Prop where
  aligned : ∀ l ∈ t.arrayLeaves start n, l.type.align ∣ l.offset
  inside : ∀ k < n, ∀ l ∈ t.leaves (start + k * t.size),
    start + k * t.size ≤ l.offset ∧ l.finish ≤ start + (k + 1) * t.size
  apart : InOrder (t.arrayLeaves start n)

theorem wellPacked {t : Ty} {start : Nat} (h : t.align ∣ start) (n : Nat) : t.WellPacked start n where
  aligned l hl := by
    obtain ⟨k, -, hl⟩ := List.mem_flatMap.mp hl
    have helement : t.align ∣ start + k * t.size :=
      Nat.dvd_add h (Nat.dvd_trans (align_dvd_size t) (Nat.dvd_mul_left _ _))
    exact align_dvd_leaf helement l hl
  inside k _ l hl := by
    rw [Nat.add_mul, Nat.one_mul, ← Nat.add_assoc]
    exact leaf_inside l hl
  apart := inOrder_arrayLeaves t start n

/-- **The layout of every type is one of C.**  The alignment is a power of two and divides the size, the
fields of a tuple are well spaced, and arrays that start at a multiple of the alignment are well
packed. -/
theorem layout_of_c (t : Ty) :
    (∃ k, t.align = 2 ^ k) ∧ t.align ∣ t.size ∧ (∀ ts, t = tuple ts → WellSpaced ts) ∧
      ∀ start n, t.align ∣ start → t.WellPacked start n :=
  ⟨exists_align_eq_pow t, align_dvd_size t, fun ts _ => wellSpaced ts, fun _ n h => wellPacked h n⟩

/-- A byte, a pair of a byte and four numbers, and a pointer: the numbers are aligned to all of their
bytes, the pair begins where they may, and the whole tuple is as wide as they need. -/
theorem nested_layout_of_c :
    (tuple [.scalar .char, .tuple [.scalar .uchar, .vector .float .four], .pointer .void .global true]).size = 64 ∧
      WellPacked (tuple [.scalar .char, .tuple [.scalar .uchar, .vector .float .four],
        .pointer .void .global true]) 32 3 :=
  ⟨rfl, (layout_of_c _).2.2.2 32 3 (by decide)⟩

end Ty
end KernelForge
