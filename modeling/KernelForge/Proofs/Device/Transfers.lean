/-
Transfers between the host and the elements of a buffer.

A transfer is checked twice: its elements against the elements of the buffer, and then its bytes
against the bytes of the buffer.  The second check does not know of elements, so a range that the
first one lets through wrongly is at best refused without saying that it is a range of elements.
The first check adds the index and the number of elements, and the sum may wrap.  Then nothing
that follows can tell the fault of a range (`Plainly`), and since the range is none of the buffer, the
transfer is not as it should be.  All other ranges are told apart as they should be, and the elements
are transferred as far as the buffer has the bytes for its elements.
-/
import KernelForge.Proofs.Device.Running

namespace KernelForge

namespace Act

/-! ### Faults without a kind -/

section

variable {α β : Type} {x : Act α} {m : Machine} {P : α → Machine → Prop} {Q : β → Machine → Prop}

/-- The action succeeds, and what it gives and leaves satisfies `P`, or it fails with a fault that
has no kind. -/
def Plainly (x : Act α) (m : Machine) (P : α → Machine → Prop) : Prop :=
  Gives x m P ∨ Throws x m fun f _ => f.kind? = none

theorem Plainly.bind {f : α → Act β} (hx : Plainly x m P)
    (hf : ∀ a m', P a m' → Plainly (f a) m' Q) : Plainly (x >>= f) m Q := by
  rcases hx with ⟨a, m', hx, hP⟩ | hx
  · rcases hf a m' hP with ⟨b, m'', hb, hQ⟩ | ⟨c, m'', hc, hkind⟩
    · exact .inl ⟨b, m'', (bind_ok hx f).trans hb, hQ⟩
    · exact .inr ⟨c, m'', (bind_ok hx f).trans hc, hkind⟩
  · exact .inr hx.bind

theorem plainly_fail {text : String} : Plainly (fail text : Act α) m P := .inr (throws_throw rfl)

theorem plainly_get_bind {f : Machine → Act β} (h : Plainly (f m) m Q) : Plainly (get >>= f) m Q := h

/-- A condition that is objected to. -/
theorem plainly_guard {c : Prop} [Decidable c] {text : String} {y : Act α} (h : Plainly y m P) :
    Plainly (if c then fail text else y) m P := by
  by_cases hc : c
  · rw [if_pos hc]
    exact plainly_fail
  · rwa [if_neg hc]

theorem Plainly.congr {y : Act α} (h : x m = y m) (hy : Plainly y m P) : Plainly x m P := by
  unfold Plainly Gives Throws at *
  rwa [h]

/-- No kind of fault is what the action fails with. -/
theorem Plainly.not_throws {k : FaultKind} (h : Plainly x m P) :
    ¬ Throws x m fun f m' => f.kind? = some k ∧ m' = m := by
  rintro ⟨f, m', hx, hkind, -⟩
  rcases h with ⟨a, m'', hx', -⟩ | ⟨g, m'', hx', hnone⟩
  · rw [hx] at hx'
    cases hx'
  · rw [hx] at hx'
    cases hx'
    rw [hnone] at hkind
    cases hkind

end

end Act

open Act

/-! ### Ranges of elements -/

namespace TypedBuffer

variable {b : TypedBuffer} {index : Int} {n : Nat}

/-- The elements from `index` to `index + n` are elements of the buffer. -/
def InRange (b : TypedBuffer) (index : Int) (n : Nat) : Prop := 0 ≤ index ∧ index + n ≤ b.length

/-- The end of the range does not wrap, and the buffer has bytes for the elements that it counts. -/
def Sound (b : TypedBuffer) (index : Int) (n : Nat) : Prop :=
  index + n < 2 ^ 63 ∧ (b.InRange index n → (index + n) * b.elem.size ≤ b.bytes)

/-- What the check of a range objects to. -/
def Outside (b : TypedBuffer) (index : Int) (n : Nat) : Prop :=
  index < 0 ∨ (b.length : Int) < wrap64 (index + n)

/-- In a buffer with bytes for all of its elements, only the wrapped ranges are not sound. -/
theorem sound_iff (h : b.length * b.elem.size ≤ b.bytes) : b.Sound index n ↔ index + n < 2 ^ 63 := by
  refine and_iff_left fun hin => ?_
  have hmul : (index + n) * b.elem.size ≤ (b.length : Int) * b.elem.size :=
    Int.mul_le_mul_of_nonneg_right hin.2 (Int.natCast_nonneg _)
  exact hmul.trans (by exact_mod_cast h)

/-- The check objects exactly to the ranges that leave the buffer, unless their ends wrap. -/
theorem outside_iff (hlength : b.length < 2 ^ 63) (hlow : -2 ^ 63 ≤ index) (hup : index < 2 ^ 63)
    (hn : n < 2 ^ 63) : b.Outside index n ↔ ¬ b.InRange index n ∧ index + n < 2 ^ 63 := by
  unfold Outside InRange
  rcases Int.lt_or_le (index + n) (2 ^ 63) with hlt | hle
  · rw [wrap64_of_lt (by omega) (by omega)]
    omega
  · have hwrap : wrap64 (index + n) = index + n - 2 ^ 64 := by
      unfold wrap64
      rw [Int.bmod_def]
      omega
    rw [hwrap]
    omega

end TypedBuffer

namespace Machine

variable {m : Machine} {ctx q : Nat} {h : HostTy} {b : TypedBuffer} {block : Bytes}

/-- The buffer has not been released, and the queue is one of its context with nothing to do and no
fault.  The bytes of the buffer are those of its memory, and the host could allocate them. -/
structure Attached (ctx q : Nat) (b : TypedBuffer) (block : Bytes) (m : Machine) : Prop where
  queue : m.queues[q]? = some (ctx, {})
  alive : Alive ctx b.buffer b.bytes m
  memory : m.memories[b.buffer]? = some block
  size_eq : block.size = b.bytes
  small : (b.bytes : Int) ≤ maxAllocation
  countable : b.length < 2 ^ 63

/-! ### What a transfer should do -/

/-- The elements from `start` on have been read, and the machine has not changed but for the event. -/
structure HasRead (h : HostTy) (b : TypedBuffer) (start n : Nat) (block : Bytes) (m : Machine)
    (vs : List HostValue) (m' : Machine) : Prop where
  length : vs.length = n
  decoded : Host.decodeAll b.elem
    (Bytes.slice block (start * b.elem.size) (n * b.elem.size)).toArray h = .ok vs
  memories : m'.memories = m.memories
  buffers : m'.buffers = m.buffers
  queues : m'.queues = m.queues

/-- A block with other bytes from `start` on, and no other change. -/
structure Overwrites (block : Bytes) (start : Nat) (data : List UInt8) (block' : Bytes) : Prop where
  size_eq : block'.size = block.size
  inside : Bytes.slice block' start data.length = data
  outside : ∀ i, ¬ (start ≤ i ∧ i < start + data.length) → block'[i]? = block[i]?

/-- The elements from `start` on have been written: the memory of the buffer has the bytes of the
values there, and the machine has not changed but for this and the event, which tells of no fault. -/
structure HasWritten (h : HostTy) (b : TypedBuffer) (start : Nat) (vs : List HostValue) (block : Bytes)
    (m : Machine) (e : Nat) (m' : Machine) : Prop where
  written : ∃ data block', Host.encodeAll b.elem h vs = .ok data ∧
    data.size = vs.length * b.elem.size ∧
    Overwrites block (start * b.elem.size) data.toList block' ∧
    m'.memories = m.memories.setIfInBounds b.buffer block'
  buffers : m'.buffers = m.buffers
  queues : m'.queues = m.queues
  event : m'.events[e]? = some (.ok [])

/-- A transfer of `n` elements is refused as one out of range exactly if it is out of range, and then
nothing has changed; otherwise it is done. -/
structure Exactly {α : Type} (b : TypedBuffer) (index : Int) (n : Nat) (x : Act α) (m : Machine)
    (Done : α → Machine → Prop) : Prop where
  refused : ¬ b.InRange index n → Throws x m fun f m' => f.kind? = some .indexRange ∧ m' = m
  done : b.InRange index n → Gives x m Done

/-! ### The checks -/

theorem requireElem_of_kernelTy (hk : h.kernelTy = .ok b.elem) (m : Machine) :
    requireElem h b m = (.ok (), m) := by
  unfold requireElem
  rw [hk]
  simp only [if_true]
  rfl

theorem gives_allocate {size : Int} (hlow : 0 ≤ size) (hup : size ≤ maxAllocation) :
    Gives (allocate size) m fun room m' => size.toNat = room ∧ m = m' := by
  unfold allocate
  rw [if_neg (by omega)]
  exact gives_pure ⟨rfl, rfl⟩

theorem plainly_allocate (size : Int) : Plainly (allocate size) m fun _ m' => m = m' :=
  plainly_guard (.inl (gives_pure rfl))

theorem plainly_requireRange (buf : Nat) (offset : Int) (size : Nat) :
    Plainly (requireRange buf offset size) m fun _ m' => m = m' := by
  unfold requireRange
  exact plainly_get_bind (plainly_guard (.inl (gives_pure rfl)))

theorem plainly_requireUnwrapped (offset : Int) (size : Nat) :
    Plainly (requireUnwrapped q offset size) m fun _ m' => m = m' := by
  unfold requireUnwrapped
  exact plainly_get_bind (plainly_guard (.inl (gives_pure rfl)))

theorem plainly_decodeElems (bytes : List UInt8) :
    Plainly (decodeElems b h bytes) m fun _ _ => True := by
  unfold decodeElems
  cases Host.decodeAll b.elem bytes.toArray h with
  | ok vs => exact .inl (gives_pure trivial)
  | error e => exact plainly_fail

namespace Attached

/-- What a queue does with any bytes, if they are bytes of the buffer. -/
theorem plainly_accessed (ha : Attached ctx q b block m) {offset : Int} {size : Nat}
    {act : Nat → Act Nat} {P : Nat → Machine → Prop} (h : Plainly (act b.buffer) m P) :
    Plainly (do
      let memory ← memoryOf (← queueContext q) b.buffer
      requireRange b.buffer offset size
      requireUnwrapped q offset size
      act memory) m P := by
  refine Plainly.bind (P := fun c m' => ctx = c ∧ m = m')
    (.inl ⟨ctx, m, queueContext_eq ha.queue, rfl, rfl⟩) ?_
  rintro _ _ ⟨rfl, rfl⟩
  refine Plainly.bind (P := fun a m' => b.buffer = a ∧ m = m')
    (.inl (gives_memoryOf ha.alive ⟨rfl, rfl⟩)) ?_
  rintro _ _ ⟨rfl, rfl⟩
  refine (plainly_requireRange _ _ _).bind ?_
  rintro - _ rfl
  refine (plainly_requireUnwrapped _ _).bind ?_
  rintro - _ rfl
  exact h

theorem plainly_enqueueRead (ha : Attached ctx q b block m) (offset : Int) (size : Nat) :
    Plainly (enqueueRead q b.buffer offset size) m fun e m' =>
      ∃ bytes, m'.events.getD e (.ok []) = .ok bytes := by
  refine ha.plainly_accessed (.inl (gives_enqueue ha.queue _ ?_))
  refine ⟨Bytes.slice (m.memories.getD b.buffer #[]) offset.toNat size, ?_⟩
  simp [ended, Command.completion, Command.execute, Array.getD_eq_getD_getElem?]

theorem plainly_enqueueWrite (ha : Attached ctx q b block m) (offset : Int) (data : List UInt8) :
    Plainly (enqueueWrite q b.buffer offset data) m fun _ _ => True :=
  ha.plainly_accessed (.inl (gives_enqueue ha.queue _ trivial))

end Attached

/-! ### What the bytes of a transfer come to -/

theorem exactly_iff_sound {α : Type} {x : Act α} {Done : α → Machine → Prop} {index : Int} {n : Nat}
    (ha : Attached ctx q b block m) (hlow : -2 ^ 63 ≤ index) (hup : index < 2 ^ 63) (hn : n < 2 ^ 63)
    (hrefused : b.Outside index n → Throws x m fun f m' => f.kind? = some .indexRange ∧ m' = m)
    (hplain : ¬ b.Outside index n → Plainly x m fun _ _ => True)
    (hdone : b.InRange index n → (index + n) * b.elem.size ≤ b.bytes → Gives x m Done)
    (hroom : ∀ a m', b.InRange index n → Done a m' → (index + n) * b.elem.size ≤ b.bytes) :
    Exactly b index n x m Done ↔ b.Sound index n := by
  have hout := TypedBuffer.outside_iff ha.countable hlow hup hn
  constructor
  · intro hx
    have hwrap : index + n < 2 ^ 63 := by
      by_contra hge
      have hin : ¬ b.InRange index n := fun hin => by
        have := hin.2
        have := ha.countable
        omega
      exact (hplain fun h => hge (hout.mp h).2).not_throws (hx.refused hin)
    refine ⟨hwrap, fun hin => ?_⟩
    obtain ⟨a, m', -, h⟩ := hx.done hin
    exact hroom a m' hin h
  · rintro ⟨hwrap, hfits⟩
    exact ⟨fun hin => hrefused (hout.mpr ⟨hin, hwrap⟩), fun hin => hdone hin (hfits hin)⟩

namespace Attached

/-- The bytes of a range that the buffer has are counted without wrapping. -/
theorem counted (ha : Attached ctx q b block m) {start n : Nat}
    (hfits : (start + n) * b.elem.size ≤ b.bytes) :
    start * b.elem.size + n * b.elem.size ≤ b.bytes ∧ b.bytes < 2 ^ 63 ∧
      wrap64 ((start : Int) * b.elem.size) = (start * b.elem.size : Nat) ∧
      wrap64 ((n : Int) * b.elem.size) = (n * b.elem.size : Nat) := by
  have hmax : maxAllocation = 0x1000000000000 := rfl
  have hsmall := ha.small
  rw [Nat.add_mul] at hfits
  rw [← Int.natCast_mul, ← Int.natCast_mul]
  exact ⟨hfits, by omega, wrap64_of_lt (by omega) (by omega), wrap64_of_lt (by omega) (by omega)⟩

theorem not_outside (ha : Attached ctx q b block m) {start n : Nat} (hin : b.InRange start n) :
    ¬ b.Outside start n := by
  have hlength := ha.countable
  have hend := hin.2
  unfold TypedBuffer.Outside
  rw [wrap64_of_lt (by omega) (by omega)]
  omega

theorem getD_memories (ha : Attached ctx q b block m) : m.memories.getD b.buffer #[] = block := by
  simp [Array.getD_eq_getD_getElem?, ha.memory]

theorem setIfInBounds_queues (ha : Attached ctx q b block m) :
    m.queues.setIfInBounds q (ctx, {}) = m.queues := by
  refine Array.ext_getElem? fun i => ?_
  rw [Array.getElem?_setIfInBounds]
  by_cases hi : q = i
  · subst hi
    have hlt := (Array.getElem?_eq_some_iff.mp ha.queue).1
    rw [if_pos rfl, if_pos hlt, ha.queue]
  · rw [if_neg hi]

end Attached

/-! ### Reading -/

section

variable {index : Int} {n : Nat}

theorem readSlice_of_not_outside (hk : h.kernelTy = .ok b.elem) (hn : 1 ≤ n) (hin : ¬ b.Outside index n) :
    readSlice q h b index n m = (do
      let room ← allocate (wrap64 (n * b.elem.size))
      let event ← enqueueRead q b.buffer (wrap64 (index * b.elem.size)) room
      let bytes ← waitRead q event
      decodeElems b h bytes) m := by
  have hzero : ¬ (n : Int) = 0 := by omega
  have hcheck : ¬ (index < 0 ∨ (n : Int) < 0 ∨ (b.length : Int) < wrap64 (index + n)) := by
    rintro (hout | hout | hout)
    · exact hin (.inl hout)
    · omega
    · exact hin (.inr hout)
  unfold readSlice
  refine (bind_ok (requireElem_of_kernelTy hk m) _).trans ?_
  simp only [if_neg hzero, if_neg hcheck]

theorem refused_readSlice (hk : h.kernelTy = .ok b.elem) (hn : 1 ≤ n) (hout : b.Outside index n) :
    Throws (readSlice q h b index n) m fun f m' => f.kind? = some .indexRange ∧ m' = m := by
  have hzero : ¬ (n : Int) = 0 := by omega
  have hcheck : index < 0 ∨ (n : Int) < 0 ∨ (b.length : Int) < wrap64 (index + n) := by
    rcases hout with hout | hout
    · exact .inl hout
    · exact .inr (.inr hout)
  unfold readSlice
  refine Gives.bind_throws (P := fun _ m' => m = m') ⟨(), m, requireElem_of_kernelTy hk m, rfl⟩ ?_
  rintro - _ rfl
  simp only [if_neg hzero, if_pos hcheck]
  exact throws_throw ⟨rfl, rfl⟩

theorem plainly_readSlice (hk : h.kernelTy = .ok b.elem) (ha : Attached ctx q b block m) (hn : 1 ≤ n)
    (hin : ¬ b.Outside index n) : Plainly (readSlice q h b index n) m fun _ _ => True := by
  refine Plainly.congr (readSlice_of_not_outside hk hn hin) ?_
  refine (plainly_allocate _).bind ?_
  rintro room _ rfl
  refine (ha.plainly_enqueueRead _ room).bind ?_
  rintro event m₁ ⟨bytes, hevent⟩
  refine Plainly.bind (.inl (gives_waitRead hevent)) ?_
  rintro _ _ ⟨rfl, rfl⟩
  exact plainly_decodeElems _

theorem gives_readSlice (hk : h.kernelTy = .ok b.elem) (ha : Attached ctx q b block m) {start : Nat}
    (hn : 1 ≤ n) (hin : b.InRange start n) (hfits : (start + n) * b.elem.size ≤ b.bytes) :
    Gives (readSlice q h b start n) m (HasRead h b start n block m) := by
  obtain ⟨hroom, hbytes, hoffset, hsize⟩ := ha.counted hfits
  have hpos := Host.size_pos_of_kernelTy hk
  have hlength : (Bytes.slice block (start * b.elem.size) (n * b.elem.size)).length =
      n * b.elem.size := by
    rw [Bytes.length_slice_eq_min, ha.size_eq]
    omega
  obtain ⟨vs, hvs⟩ := Host.exists_decodeAll hk
    (show (Bytes.slice block (start * b.elem.size) (n * b.elem.size)).toArray.size = _ from hlength)
  rw [Gives, readSlice_of_not_outside hk hn (ha.not_outside hin), hoffset, hsize]
  have hmax : maxAllocation = 0x1000000000000 := rfl
  have hsmall := ha.small
  refine (gives_allocate (by omega) (by omega)).bind ?_
  rintro _ _ ⟨rfl, rfl⟩
  rw [Int.toNat_natCast]
  refine (gives_enqueueRead (Q := fun e m' =>
      m'.events.getD e (.ok []) = .ok (Bytes.slice block (start * b.elem.size) (n * b.elem.size)) ∧
        m'.memories = m.memories ∧ m'.buffers = m.buffers ∧ m'.queues = m.queues)
    ha.queue ha.alive hbytes (by omega) (by omega) (gives_enqueue ha.queue _ ?_)).bind ?_
  · refine ⟨?_, rfl, rfl, ha.setIfInBounds_queues⟩
    rw [Int.toNat_natCast, Command.completion, Command.execute, ha.getD_memories]
    simp [ended, Array.getD_eq_getD_getElem?]
  · rintro event m₁ ⟨hevent, hmemories, hbuffers, hqueues⟩
    refine (gives_waitRead hevent).bind ?_
    rintro _ _ ⟨rfl, rfl⟩
    unfold decodeElems
    rw [hvs]
    refine gives_pure ⟨?_, hvs, hmemories, hbuffers, hqueues⟩
    rw [Host.length_of_decodeAll hvs, List.size_toArray, hlength, Nat.mul_div_cancel _ hpos]

/-- Elements that have been read were there. -/
theorem HasRead.room {start : Nat} {vs : List HostValue} {m' : Machine}
    (hread : HasRead h b start n block m vs m') (hk : h.kernelTy = .ok b.elem) (hn : 1 ≤ n) :
    (start + n) * b.elem.size ≤ block.size := by
  have hpos := Host.size_pos_of_kernelTy hk
  have hlength := Host.length_of_decodeAll hread.decoded
  rw [hread.length, List.size_toArray, Bytes.length_slice_eq_min] at hlength
  have hle := Nat.div_mul_le_self (min (n * b.elem.size) (block.size - start * b.elem.size)) b.elem.size
  rw [← hlength] at hle
  have hbytes : 0 < n * b.elem.size := Nat.mul_pos hn hpos
  rw [Nat.add_mul]
  omega

end

/-! ### Writing -/

section

variable {index : Int} {vs : List HostValue} {data : Bytes}

theorem refused_writeSlice (hk : h.kernelTy = .ok b.elem) (hout : b.Outside index vs.length) :
    Throws (writeSlice q h b index vs) m fun f m' => f.kind? = some .indexRange ∧ m' = m := by
  unfold TypedBuffer.Outside at hout
  unfold writeSlice
  refine Gives.bind_throws (P := fun _ m' => m = m') ⟨(), m, requireElem_of_kernelTy hk m, rfl⟩ ?_
  rintro - _ rfl
  simp only [if_pos hout]
  exact throws_throw ⟨rfl, rfl⟩

/-- Past its check, a write of elements is a write of their bytes. -/
theorem writeSlice_of_not_outside (hk : h.kernelTy = .ok b.elem)
    (hdata : Host.encodeAll b.elem h vs = .ok data) (hin : ¬ b.Outside index vs.length) :
    writeSlice q h b index vs m =
      enqueueWrite q b.buffer (wrap64 (index * b.elem.size)) data.toList m := by
  unfold TypedBuffer.Outside at hin
  unfold writeSlice
  refine (bind_ok (requireElem_of_kernelTy hk m) _).trans ?_
  simp only [if_neg hin, hdata]

theorem overwrites_write {start : Nat} {bs : List UInt8} (h : start + bs.length ≤ block.size) :
    Overwrites block start bs (Bytes.write block start bs) :=
  ⟨Bytes.size_write .., Bytes.slice_write h, fun _ hi => Bytes.getElem?_write_of_not_mem hi⟩

theorem gives_writeSlice (hk : h.kernelTy = .ok b.elem) (ha : Attached ctx q b block m) {start : Nat}
    (hdata : Host.encodeAll b.elem h vs = .ok data) (hsize : data.size = vs.length * b.elem.size)
    (hin : b.InRange start vs.length) (hfits : (start + vs.length) * b.elem.size ≤ b.bytes) :
    Gives (writeSlice q h b start vs) m (HasWritten h b start vs block m) := by
  obtain ⟨hroom, hbytes, hoffset, -⟩ := ha.counted hfits
  have hlength : data.toList.length = vs.length * b.elem.size := hsize
  rw [Gives, writeSlice_of_not_outside hk hdata (ha.not_outside hin), hoffset]
  refine gives_enqueueWrite ha.queue ha.alive hbytes (by omega) (by omega) (gives_enqueue ha.queue _ ?_)
  rw [Int.toNat_natCast, Command.completion, Command.execute, ha.getD_memories]
  refine ⟨⟨data, Bytes.write block (start * b.elem.size) data.toList, hdata, hsize,
    overwrites_write (by rw [hlength, ha.size_eq]; exact hroom), ?_⟩, rfl, ha.setIfInBounds_queues, ?_⟩
  · exact Array.setIfInBounds_setIfInBounds ..
  · simp [ended]

theorem HasWritten.room {start e : Nat} {m' : Machine} (hwritten : HasWritten h b start vs block m e m')
    (hk : h.kernelTy = .ok b.elem) (hvs : vs ≠ []) :
    (start + vs.length) * b.elem.size ≤ block.size := by
  obtain ⟨data, block', -, hsize, hover, -⟩ := hwritten.written
  have hbytes : 0 < vs.length * b.elem.size :=
    Nat.mul_pos (List.length_pos_of_ne_nil hvs) (Host.size_pos_of_kernelTy hk)
  have hlength := congrArg List.length hover.inside
  rw [Bytes.length_slice_eq_min, hover.size_eq, Array.length_toList, hsize] at hlength
  rw [Nat.add_mul]
  omega

end

/-! ### Transfers -/

/-- **A transfer is exact exactly if its range is sound.**  A range is not sound if the sum of the index
and the number of elements wraps, or if the buffer counts elements that it has no bytes for; in a buffer
with bytes for all of its elements only the wrapped ranges are left.  Those are out of range, but not
refused for it. -/
theorem transfers_exact_iff (hk : h.kernelTy = .ok b.elem) (ha : Attached ctx q b block m) {index : Int}
    (hlow : -2 ^ 63 ≤ index) (hup : index < 2 ^ 63) :
    (b.length * b.elem.size ≤ b.bytes → ∀ n, b.Sound index n ↔ index + n < 2 ^ 63) ∧
    (∀ n : Nat, 1 ≤ n → n < 2 ^ 63 →
      (Exactly b index n (readSlice q h b index n) m (HasRead h b index.toNat n block m) ↔
        b.Sound index n)) ∧
    ∀ vs : List HostValue, vs ≠ [] → vs.length < 2 ^ 63 → (∀ v ∈ vs, h.forms v = true) →
      (Exactly b index vs.length (writeSlice q h b index vs) m
          (HasWritten h b index.toNat vs block m) ↔ b.Sound index vs.length) := by
  have hstart : ∀ {n : Nat}, b.InRange index n → ∃ start : Nat, index = start := fun hin =>
    Int.eq_ofNat_of_zero_le hin.1
  refine ⟨fun h n => TypedBuffer.sound_iff h, fun n hn hsmall => ?_, fun vs hvs hsmall hforms => ?_⟩
  · refine exactly_iff_sound ha hlow hup hsmall (refused_readSlice hk hn) (plainly_readSlice hk ha hn)
      (fun hin hfits => ?_) fun vs m' hin hread => ?_
    · obtain ⟨start, rfl⟩ := hstart hin
      exact gives_readSlice hk ha hn hin (by exact_mod_cast hfits)
    · obtain ⟨start, rfl⟩ := hstart hin
      have hroom := hread.room hk hn
      rw [ha.size_eq] at hroom
      exact_mod_cast hroom
  · obtain ⟨data, hdata, hsize⟩ := Host.exists_encodeAll hk hforms
    refine exactly_iff_sound ha hlow hup hsmall (refused_writeSlice hk) (fun hin => ?_)
      (fun hin hfits => ?_) fun e m' hin hwritten => ?_
    · exact Plainly.congr (writeSlice_of_not_outside hk hdata hin) (ha.plainly_enqueueWrite _ _)
    · obtain ⟨start, rfl⟩ := hstart hin
      exact gives_writeSlice hk ha hdata hsize hin (by exact_mod_cast hfits)
    · obtain ⟨start, rfl⟩ := hstart hin
      have hroom := hwritten.room hk hvs
      rw [ha.size_eq] at hroom
      exact_mod_cast hroom

/-- A buffer of two integers. -/
def pair : TypedBuffer :=
  { buffer := 0, bytes := 8, elem := .scalar .int, own? := some 2, ctx? := some 0 }

/-- A machine with one queue and two integers. -/
def withPair : Machine :=
  { memories := #[#[1, 0, 0, 0, 2, 0, 0, 0]]
    contexts := #[{ id := "context" }]
    buffers := #[{ origin := .context 0, size := 8 }]
    queues := #[(0, {})] }

/-- Past the largest index, one element is neither read nor written as it should be. -/
theorem far_transfers_not_exact :
    ¬ Exactly pair (2 ^ 63 - 1) 1 (readSlice 0 (.int .w32) pair (2 ^ 63 - 1) (1 : Nat)) withPair
        (HasRead (.int .w32) pair (2 ^ 63 - 1) 1 #[1, 0, 0, 0, 2, 0, 0, 0] withPair) ∧
      ¬ Exactly pair (2 ^ 63 - 1) 1 (writeSlice 0 (.int .w32) pair (2 ^ 63 - 1) [.int 7]) withPair
        (HasWritten (.int .w32) pair (2 ^ 63 - 1) [.int 7] #[1, 0, 0, 0, 2, 0, 0, 0] withPair) := by
  have hattached : Attached 0 0 pair #[1, 0, 0, 0, 2, 0, 0, 0] withPair :=
    ⟨rfl, rfl, rfl, rfl, by decide, by decide⟩
  obtain ⟨hsound, hread, hwrite⟩ := transfers_exact_iff (h := .int .w32) rfl hattached
    (by decide : -2 ^ 63 ≤ (2 ^ 63 - 1 : Int)) (by decide)
  have hunsound : ¬ pair.Sound (2 ^ 63 - 1) 1 := by
    rw [hsound (by decide)]
    decide
  exact ⟨fun hexact => hunsound ((hread 1 (by decide) (by decide)).mp hexact),
    fun hexact => hunsound ((hwrite [.int 7] (by simp) (by decide) (by decide)).mp hexact)⟩

end Machine
end KernelForge
