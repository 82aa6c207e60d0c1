/-
Facts that more than one part uses: sequences of checks, lists that are searched by keys, and
blocks of bytes.

The checkers return a result or the first objection.  Most of what is proved about them starts
from a success, which takes apart into the successes of the steps.

What a write into a block changes, and what a slice of it reads, is said byte by byte: a write
changes the bytes from its offset on, as far as the block goes, and a slice depends on its own
bytes only.
-/
import KernelForge.Bytes
import Mathlib.Algebra.Order.Ring.Nat
import Mathlib.Data.List.Basic

namespace KernelForge

section Checks

/-! ### Sequences of checks that succeed -/

variable {ε α β : Type}

/-- A sequence succeeds when both of its steps do. -/
theorem bind_eq_ok {x : Except ε α} {f : α → Except ε β} {b : β} :
    (x >>= f) = .ok b ↔ ∃ a, x = .ok a ∧ f a = .ok b := by
  cases x with
  | ok a => exact ⟨fun h => ⟨a, rfl, h⟩, fun ⟨_, ha, h⟩ => by cases ha; exact h⟩
  | error c => exact ⟨fun h => (by cases h), fun ⟨_, ha, _⟩ => (by cases ha)⟩

/-- What is not a result is an objection. -/
theorem exists_error_iff {r : Except ε α} : (∃ c, r = .error c) ↔ ¬ ∃ a, r = .ok a := by
  cases r with
  | ok a => exact ⟨fun ⟨_, h⟩ => (by cases h), fun h => absurd ⟨a, rfl⟩ h⟩
  | error c => exact ⟨fun _ ⟨_, h⟩ => (by cases h), fun _ => ⟨c, rfl⟩⟩

/-- Steps that succeed one by one succeed in sequence. -/
theorem mapM_ok {f : α → Except ε β} {g : α → β} {as : List α} (h : ∀ a ∈ as, f a = .ok (g a)) :
    as.mapM f = .ok (as.map g) := by
  induction as with
  | nil => rfl
  | cons a as ih =>
    rw [List.mapM_cons, h a List.mem_cons_self, ih fun b hb => h b (List.mem_cons_of_mem _ hb)]
    rfl

end Checks

section Lookup

/-! ### Lists that are searched by keys -/

variable {α β : Type} [BEq α] [LawfulBEq α]

/-- With different keys every entry is found. -/
theorem lookup_of_mem {ds : List (α × β)} (hnodup : (ds.map Prod.fst).Nodup) {d : α × β}
    (hd : d ∈ ds) : ds.lookup d.1 = some d.2 := by
  induction ds with
  | nil => simp at hd
  | cons e ds ih =>
    rw [List.map_cons, List.nodup_cons] at hnodup
    rcases List.mem_cons.mp hd with rfl | hd
    · exact List.lookup_cons_self
    · have hne : (d.1 == e.1) = false := by
        rw [beq_eq_false_iff_ne]
        rintro heq
        exact hnodup.1 (List.mem_map.mpr ⟨d, hd, heq⟩)
      rw [List.lookup_cons, hne]
      exact ih hnodup.2 hd

theorem mem_of_lookup {ds : List (α × β)} {a : α} {b : β} (h : ds.lookup a = some b) :
    (a, b) ∈ ds := by
  induction ds with
  | nil => simp at h
  | cons e ds ih =>
    rw [List.lookup_cons] at h
    split at h
    · rename_i heq
      cases h
      have : a = e.1 := by simpa using heq
      subst this
      simp
    · exact List.mem_cons_of_mem _ (ih h)

/-- Without the entries of a key the others are found as before. -/
theorem lookup_filter_ne [DecidableEq α] (ds : List (α × β)) (a a' : α) :
    (ds.filter fun d => d.1 != a).lookup a' = if a' = a then none else ds.lookup a' := by
  induction ds with
  | nil => simp
  | cons d ds ih =>
    by_cases hd : d.1 = a
    · rw [List.filter_cons_of_neg (by simpa using hd), ih, List.lookup_cons]
      by_cases ha : a' = a
      · simp [ha]
      · simp [ha, beq_eq_false_iff_ne.mpr (hd ▸ ha : a' ≠ d.1)]
    · rw [List.filter_cons_of_pos (by simpa using hd), List.lookup_cons, List.lookup_cons, ih]
      by_cases ha : a' = d.1
      · subst ha
        simp [hd]
      · simp [beq_eq_false_iff_ne.mpr ha]

theorem lookup_eq_none {ds : List (α × β)} {a : α} : ds.lookup a = none ↔ a ∉ ds.map Prod.fst := by
  rw [List.lookup_eq_none_iff]
  simp only [List.mem_map, not_exists, not_and]
  exact ⟨fun h d hd heq => by simpa [heq] using h d hd,
    fun h d hd => bne_iff_ne.mpr fun heq => h d hd heq.symm⟩

/-- Of a list that is cut off, the keys that are still there are found as before. -/
theorem lookup_take (ds : List (α × β)) (n : Nat) {a : α} (h : a ∈ (ds.take n).map Prod.fst) :
    (ds.take n).lookup a = ds.lookup a := by
  induction ds generalizing n with
  | nil => simp
  | cons d ds ih =>
    cases n with
    | zero => simp at h
    | succ n =>
      rw [List.take_succ_cons, List.lookup_cons, List.lookup_cons]
      by_cases ha : a = d.1
      · simp [ha]
      · rw [beq_eq_false_iff_ne.mpr ha]
        exact ih n (by simpa [ha] using h)

end Lookup

end KernelForge

namespace KernelForge.Bytes

theorem getElem?_write (dst : Bytes) (offset : Nat) (bs : List UInt8) (i : Nat) :
    (write dst offset bs)[i]? =
      if offset ≤ i ∧ i < offset + bs.length ∧ i < dst.size then bs[i - offset]? else dst[i]? := by
  induction bs generalizing dst offset with
  | nil =>
    have hno : ¬ (offset ≤ i ∧ i < offset + ([] : List UInt8).length ∧ i < dst.size) := by
      simp only [List.length_nil]
      omega
    rw [write, if_neg hno]
  | cons b bs ih =>
    rw [write, ih, Array.getElem?_setIfInBounds, Array.size_setIfInBounds, List.length_cons]
    by_cases hi : offset = i
    · subst hi
      rw [if_neg (by omega)]
      by_cases hb : offset < dst.size <;> simp [hb]
    · rw [if_neg hi]
      by_cases hin : offset ≤ i ∧ i < offset + (bs.length + 1) ∧ i < dst.size
      · obtain ⟨k, hk⟩ : ∃ k, i - offset = k + 1 := ⟨i - offset - 1, by omega⟩
        rw [if_pos (by omega), if_pos hin, hk, List.getElem?_cons_succ]
        congr 1
        omega
      · rw [if_neg (by omega), if_neg hin]

/-- A write changes nothing outside of the bytes that it replaces. -/
theorem getElem?_write_of_not_mem {dst : Bytes} {offset : Nat} {bs : List UInt8} {i : Nat}
    (h : ¬ (offset ≤ i ∧ i < offset + bs.length)) : (write dst offset bs)[i]? = dst[i]? := by
  rw [getElem?_write, if_neg (by omega)]

/-- A block that is written over is the bytes that were written. -/
theorem write_all {dst : Bytes} {bs : List UInt8} (h : bs.length = dst.size) :
    write dst 0 bs = bs.toArray := by
  refine Array.ext_getElem? fun i => ?_
  have hlist : bs.toArray[i]? = bs[i]? := by simp
  rw [hlist, getElem?_write, Nat.sub_zero]
  by_cases hi : i < bs.length
  · rw [if_pos (by omega)]
  · rw [if_neg (by omega), List.getElem?_eq_none (by omega)]
    exact Array.getElem?_eq_none (by omega)

theorem getElem?_slice (src : Bytes) (offset length j : Nat) :
    (slice src offset length)[j]? = if j < length then src[offset + j]? else none := by
  rw [slice, Array.getElem?_toList, Array.getElem?_extract]
  by_cases hj : j < length
  · rw [if_pos hj]
    split
    · rfl
    · rw [Array.getElem?_eq_none (by omega)]
  · rw [if_neg hj, if_neg (by omega)]

theorem length_slice_eq_min (src : Bytes) (offset length : Nat) :
    (slice src offset length).length = min length (src.size - offset) := by
  rw [slice, Array.length_toList, Array.size_extract]
  omega

/-- Bytes that are written with room for them are read back. -/
theorem slice_write {dst : Bytes} {offset : Nat} {bs : List UInt8}
    (h : offset + bs.length ≤ dst.size) : slice (write dst offset bs) offset bs.length = bs := by
  refine List.ext_getElem? fun j => ?_
  rw [getElem?_slice, getElem?_write]
  by_cases hj : j < bs.length
  · rw [if_pos hj, if_pos (by omega), Nat.add_sub_cancel_left]
  · rw [if_neg hj, List.getElem?_eq_none (by omega)]

/-- A slice depends on its own bytes only. -/
theorem slice_congr {a b : Bytes} {offset length : Nat}
    (h : ∀ i, offset ≤ i → i < offset + length → a[i]? = b[i]?) :
    slice a offset length = slice b offset length := by
  refine List.ext_getElem? fun j => ?_
  rw [getElem?_slice, getElem?_slice]
  split
  · exact h _ (by omega) (by omega)
  · rfl

theorem toNat_lt (bs : List UInt8) : toNat bs < 256 ^ bs.length := by
  induction bs with
  | nil => exact Nat.one_pos
  | cons b bs ih =>
    have hb := b.toNat_lt
    rw [toNat, List.length_cons, Nat.pow_succ]
    omega

end KernelForge.Bytes
