/-
Byte blocks and the little-endian form of words.
-/

namespace KernelForge

/-- A block of bytes. -/
abbrev Bytes := Array UInt8

namespace Bytes

/-- The `width` low bytes of a number, the least significant first. -/
def ofNat : Nat → Nat → List UInt8
  | 0, _ => []
  | width + 1, n => UInt8.ofNat n :: ofNat width (n / 256)

/-- The number that some bytes spell, the least significant first. -/
def toNat : List UInt8 → Nat
  | [] => 0
  | b :: bs => b.toNat + 256 * toNat bs

/-- Replaces the bytes from `offset` on by others; what would lie outside is dropped. -/
def write (dst : Bytes) (offset : Nat) : List UInt8 → Bytes
  | [] => dst
  | b :: bs => write (dst.setIfInBounds offset b) (offset + 1) bs

/-- The `length` bytes from `offset` on, fewer at the end of the block. -/
def slice (src : Bytes) (offset length : Nat) : List UInt8 :=
  (src.extract offset (offset + length)).toList

@[simp] theorem size_write (dst : Bytes) (offset : Nat) (bs : List UInt8) :
    (write dst offset bs).size = dst.size := by
  induction bs generalizing dst offset with
  | nil => rfl
  | cons b bs ih => simp [write, ih]

@[simp] theorem length_ofNat (width n : Nat) : (ofNat width n).length = width := by
  induction width generalizing n with
  | zero => rfl
  | succ w ih => simp [ofNat, ih]

theorem toNat_ofNat (width n : Nat) : toNat (ofNat width n) = n % Nat.pow 256 width := by
  induction width generalizing n with
  | zero => exact (Nat.mod_one n).symm
  | succ w ih =>
    have h : (UInt8.ofNat n).toNat = n % 256 := by simp
    rw [ofNat, toNat, ih, h, Nat.pow_eq, Nat.pow_eq, Nat.pow_succ', Nat.mod_mul]

theorem ofNat_toNat (bs : List UInt8) : ofNat bs.length (toNat bs) = bs := by
  induction bs with
  | nil => rfl
  | cons b bs ih =>
    have hb : b.toNat < 256 := b.toNat_lt
    have hd : (b.toNat + 256 * toNat bs) / 256 = toNat bs := by omega
    simp [ofNat, toNat, hd, ih]

end Bytes
end KernelForge
