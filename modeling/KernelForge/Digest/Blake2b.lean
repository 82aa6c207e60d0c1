/-
The digest of a byte string: BLAKE2b with 32 bytes of output and no key.

A message is taken in blocks of 128 bytes, the last one filled up with zeros.  Each block is
mixed into eight words of state in twelve rounds.
-/
import KernelForge.Bytes

namespace KernelForge.Blake2b

/-- The words that the state starts from. -/
def iv : Array UInt64 := #[
  0x6a09e667f3bcc908, 0xbb67ae8584caa73b, 0x3c6ef372fe94f82b, 0xa54ff53a5f1d36f1,
  0x510e527fade682d1, 0x9b05688c2b3e6c1f, 0x1f83d9abfb41bd6b, 0x5be0cd19137e2179]

/-- The order in which the rounds take the words of a block. -/
def sigma : List (List Nat) := [
  [0, 1, 2, 3, 4, 5, 6, 7, 8, 9, 10, 11, 12, 13, 14, 15],
  [14, 10, 4, 8, 9, 15, 13, 6, 1, 12, 0, 2, 11, 7, 5, 3],
  [11, 8, 12, 0, 5, 2, 15, 13, 10, 14, 3, 6, 7, 1, 9, 4],
  [7, 9, 3, 1, 13, 12, 11, 14, 2, 6, 5, 10, 4, 0, 15, 8],
  [9, 0, 5, 7, 2, 4, 10, 15, 14, 1, 11, 12, 6, 8, 3, 13],
  [2, 12, 6, 10, 0, 11, 8, 3, 4, 13, 7, 5, 15, 14, 1, 9],
  [12, 5, 1, 15, 14, 13, 4, 10, 0, 7, 6, 3, 9, 2, 8, 11],
  [13, 11, 7, 14, 12, 1, 3, 9, 5, 0, 15, 4, 8, 6, 2, 10],
  [6, 15, 14, 9, 11, 3, 0, 8, 12, 2, 13, 7, 1, 4, 10, 5],
  [10, 2, 8, 4, 7, 6, 1, 5, 15, 11, 9, 14, 3, 12, 13, 0],
  [0, 1, 2, 3, 4, 5, 6, 7, 8, 9, 10, 11, 12, 13, 14, 15],
  [14, 10, 4, 8, 9, 15, 13, 6, 1, 12, 0, 2, 11, 7, 5, 3]]

/-- The columns and then the diagonals of the state. -/
def lines : List (Nat × Nat × Nat × Nat) := [
  (0, 4, 8, 12), (1, 5, 9, 13), (2, 6, 10, 14), (3, 7, 11, 15),
  (0, 5, 10, 15), (1, 6, 11, 12), (2, 7, 8, 13), (3, 4, 9, 14)]

def rotateRight (x : UInt64) (n : UInt64) : UInt64 := (x >>> n) ||| (x <<< (64 - n))

/-- Mixes two words of the block into four words of the state. -/
def mix (v : Array UInt64) (line : Nat × Nat × Nat × Nat) (x y : UInt64) : Array UInt64 :=
  let (ia, ib, ic, id) := line
  let a := v.getD ia 0 + v.getD ib 0 + x
  let d := rotateRight (v.getD id 0 ^^^ a) 32
  let c := v.getD ic 0 + d
  let b := rotateRight (v.getD ib 0 ^^^ c) 24
  let a := a + b + y
  let d := rotateRight (d ^^^ a) 16
  let c := c + d
  let b := rotateRight (b ^^^ c) 63
  (((v.setIfInBounds ia a).setIfInBounds ib b).setIfInBounds ic c).setIfInBounds id d

/-- Pairs up the items of a list. -/
def pairs : List Nat → List (Nat × Nat)
  | a :: b :: rest => (a, b) :: pairs rest
  | _ => []

/-- One round. -/
def round (m v : Array UInt64) (order : List Nat) : Array UInt64 :=
  (lines.zip (pairs order)).foldl (fun v (line, i, j) => mix v line (m.getD i 0) (m.getD j 0)) v

/-- The words of a block. -/
def blockWords (block : List UInt8) : Array UInt64 :=
  ((List.range 16).map fun i =>
    UInt64.ofNat (Bytes.toNat ((block.drop (8 * i)).take 8))).toArray

/-- Mixes a block into the state, `count` bytes having been taken. -/
def compress (h : Array UInt64) (block : List UInt8) (count : Nat) (isLast : Bool) :
    Array UInt64 :=
  let v := h ++ iv
  let v := v.modify 12 (· ^^^ UInt64.ofNat count)
  let v := if isLast then v.modify 14 (~~~ ·) else v
  let v := sigma.foldl (round (blockWords block)) v
  ((List.range 8).map fun i => h.getD i 0 ^^^ v.getD i 0 ^^^ v.getD (i + 8) 0).toArray

/-- Mixes the blocks of a message into the state; `blocks` bounds their number. -/
def absorb (h : Array UInt64) (taken : Nat) : Nat → List UInt8 → Array UInt64
  | 0, bs => compress h bs (taken + bs.length) true
  | blocks + 1, bs =>
    if bs.length ≤ 128 then compress h bs (taken + bs.length) true
    else absorb (compress h (bs.take 128) (taken + 128) false) (taken + 128) blocks (bs.drop 128)

/-- The digest of a message. -/
def digest (message : List UInt8) : List UInt8 :=
  let h := iv.modify 0 (· ^^^ 0x01010020)
  let h := absorb h 0 (message.length / 128) message
  (h.toList.take 4).flatMap fun w => Bytes.ofNat 8 w.toNat

end KernelForge.Blake2b
