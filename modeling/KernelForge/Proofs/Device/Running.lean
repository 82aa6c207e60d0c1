/-
Commands that run at once.

A queue with nothing to do and no fault runs a command as soon as it gets it.  So what the
machine holds afterwards is what the command made of the memories; a fault stays on the queue,
and the next read reports it and takes it away.
-/
import KernelForge.Device.Transfer
import KernelForge.Proofs.Device.Compiling
import KernelForge.Proofs.Device.Queues
import KernelForge.Proofs.Host.Codec
import KernelForge.Sequence.Algorithm

namespace KernelForge

open Act

/-! ### Queues -/

/-- The queue that is left when a command has ended. -/
def Queue.after : Completion → Queue
  | .ok _ => {}
  | .error f => { failed? := some f }

theorem Queue.drain_single (event : Nat) (c : Command) (st : Store) :
    Queue.drain { pending := [(event, c)] } st =
      ([(event, c.completion st)], .after (c.completion st), (c.execute st).2) := by
  have hrun : Taken.run { event, command := c, earlier? := none } st =
      (c.completion st, (c.execute st).2) := Taken.run_of_none rfl
  simp only [drain, List.length_singleton, steps, step, take, hrun]
  cases c.completion st <;> rfl

theorem Queue.drain_poisoned (event : Nat) (c : Command) (f : Fault) (st : Store) :
    Queue.drain { pending := [(event, c)], failed? := some f } st =
      ([(event, .error (poisoned c f))], { failed? := some f }, st) := rfl

namespace Machine

variable {m m' : Machine} {ctx q : Nat} {Q : Nat → Machine → Prop}

/-- The machine after a command for a queue has ended. -/
def ended (m : Machine) (q : Nat) (entry : Nat × Queue) (st : Store) (r : Completion) : Machine :=
  { m with memories := st, queues := m.queues.setIfInBounds q entry, events := m.events.push r }

theorem setIfInBounds_push {α : Type} (xs : Array α) (a b : α) :
    (xs.push a).setIfInBounds xs.size b = xs.push b := by
  refine Array.ext_getElem? fun i => ?_
  rw [Array.getElem?_setIfInBounds, Array.getElem?_push, Array.getElem?_push, Array.size_push]
  by_cases hi : i = xs.size
  · subst hi
    simp
  · rw [if_neg (Ne.symm hi), if_neg hi, if_neg hi]

/-- What a command comes to that a queue gets. -/
theorem gives_enqueue_of_drain {queue left : Queue} {c : Command} {st : Store} {r : Completion}
    (hq : m.queues[q]? = some (ctx, queue)) (hpending : queue.pending = [])
    (hreleased : queue.released = false)
    (hdrain : Queue.drain { queue with pending := [(m.events.size, c)] } m.memories =
      ([(m.events.size, r)], left, st))
    (h : Q m.events.size (m.ended q (ctx, left) st r)) : Gives (enqueue q c) m Q := by
  have hget : m.queues.getD q (0, {}) = (ctx, queue) := by simp [Array.getD_eq_getD_getElem?, hq]
  have hlt : q < m.queues.size := (Array.getElem?_eq_some_iff.mp hq).1
  have henqueue : queue.enqueue m.events.size c = .ok { queue with pending := [(m.events.size, c)] } := by
    rw [Queue.enqueue, hreleased, hpending]
    rfl
  unfold enqueue
  refine gives_get_bind ?_
  simp only [hget]
  refine gives_ofExcept_bind henqueue (gives_modify_bind ?_)
  unfold drain
  refine gives_modify_bind (gives_pure ?_)
  have hqueue : (m.queues.setIfInBounds q (ctx, { queue with pending := [(m.events.size, c)] })).getD q
      (0, {}) = (ctx, { queue with pending := [(m.events.size, c)] }) := by
    simp [Array.getD_eq_getD_getElem?, hlt]
  simp only [hqueue, hdrain, List.foldl_cons, List.foldl_nil, setIfInBounds_push,
    Array.setIfInBounds_setIfInBounds]
  exact h

theorem gives_enqueue (hq : m.queues[q]? = some (ctx, {})) (c : Command)
    (h : Q m.events.size (m.ended q (ctx, .after (c.completion m.memories)) (c.execute m.memories).2
      (c.completion m.memories))) :
    Gives (enqueue q c) m Q :=
  gives_enqueue_of_drain hq rfl rfl (Queue.drain_single ..) h

theorem gives_enqueue_poisoned {f : Fault} (hq : m.queues[q]? = some (ctx, { failed? := some f }))
    (c : Command)
    (h : Q m.events.size (m.ended q (ctx, { failed? := some f }) m.memories
      (.error (Queue.poisoned c f)))) :
    Gives (enqueue q c) m Q :=
  gives_enqueue_of_drain hq rfl rfl (Queue.drain_poisoned ..) h

/-! ### Commands of a ready machine -/

/-- The context is open, and the queue is one of it with nothing to do and no fault. -/
structure Ready (ctx q : Nat) (m : Machine) : Prop where
  opened : (m.contexts.getD ctx default).closed = false
  queue : m.queues[q]? = some (ctx, {})

/-- What a machine has become by a command. -/
structure Did (ctx q : Nat) (c : Command) (m m' : Machine) : Prop where
  memories : m'.memories = (c.execute m.memories).2
  buffers : m'.buffers = m.buffers
  queue : m'.queues[q]? = some (ctx, .after (c.completion m.memories))
  closed : ∀ c, (m'.contexts.getD c default).closed = (m.contexts.getD c default).closed

/-- The queue is ready again after a command that did not fail. -/
theorem Did.ready {c : Command} {bytes : List UInt8} (h : Did ctx q c m m') (hm : Ready ctx q m)
    (hc : c.completion m.memories = .ok bytes) : Ready ctx q m' := by
  refine ⟨(h.closed ctx).trans hm.opened, ?_⟩
  rw [h.queue, hc]
  rfl

theorem Ready.mono (hm : Ready ctx q m) (hk : Keeps m m') : Ready ctx q m' :=
  ⟨(hk.closed ctx).trans hm.opened, by rw [hk.queues]; exact hm.queue⟩

theorem Did.of_keeps {m₁ : Machine} {c : Command} (hk : Keeps m m₁) (h : Did ctx q c m₁ m') :
    Did ctx q c m m' :=
  ⟨by rw [h.memories, hk.memories], h.buffers.trans hk.buffers, by rw [h.queue, hk.memories],
    fun c => (h.closed c).trans (hk.closed c)⟩

theorem getElem?_ended {entry : Nat × Queue} {queue : Queue} {st : Store} {r : Completion}
    (hq : m.queues[q]? = some (ctx, queue)) : (m.ended q entry st r).queues[q]? = some entry := by
  have hlt : q < m.queues.size := (Array.getElem?_eq_some_iff.mp hq).1
  simp [ended, hlt]

/-- A command that a ready machine gets is done, and its event tells how it ended. -/
theorem gives_enqueue_did (hm : Ready ctx q m) (c : Command) :
    Gives (enqueue q c) m fun e m' => Did ctx q c m m' ∧
      m'.events.getD e (.ok []) = c.completion m.memories := by
  refine gives_enqueue hm.queue c ⟨⟨rfl, rfl, getElem?_ended hm.queue, fun _ => rfl⟩, ?_⟩
  simp [ended, Array.getD_eq_getD_getElem?]

theorem queueContext_eq {queue : Queue} (hq : m.queues[q]? = some (ctx, queue)) :
    queueContext q m = (.ok ctx, m) := by
  show (Except.ok (m.queues.getD q (0, {})).1, m) = _
  simp [Array.getD_eq_getD_getElem?, hq]

/-- A buffer of a context that has not been released. -/
def Alive (ctx buf size : Nat) (m : Machine) : Prop :=
  m.buffers[buf]? = some { origin := .context ctx, size }

theorem gives_requireRange {buf size length : Nat} {offset : Int} (halive : Alive ctx buf size m)
    (hoffset : 0 ≤ offset) (hfits : offset + length ≤ size) (hsize : size < 0x8000000000000000) :
    Gives (requireRange buf offset length) m fun _ m' => m = m' := by
  have hget : m.buffers.getD buf default = { origin := .context ctx, size } := by
    simp [Array.getD_eq_getD_getElem?, show m.buffers[buf]? = _ from halive]
  have hwrap : wrap64 (offset + length) = offset + length := by
    rw [wrap64_of_lt] <;> omega
  have hin : ¬ (offset < 0 ∨ (size : Int) < offset + length) := by omega
  unfold requireRange
  refine gives_get_bind ?_
  simp only [hget, hwrap, if_neg hin]
  exact gives_pure rfl

theorem gives_requireUnwrapped {length : Nat} {offset : Int} (hoffset : 0 ≤ offset)
    (hfits : offset + length < 0x8000000000000000) :
    Gives (requireUnwrapped q offset length) m fun _ m' => m = m' := by
  have hwrap : wrap64 (offset + length) = offset + length := by
    rw [wrap64_of_lt] <;> omega
  have hin : ¬ offset + (length : Int) < offset := by omega
  unfold requireUnwrapped
  refine gives_get_bind ?_
  simp only [hwrap, hin, false_and, if_false]
  exact gives_pure rfl

section

variable {queue : Queue} {buf bytes : Nat} {offset : Int}

theorem gives_accessed {size : Nat} {act : Nat → Act Nat} (hq : m.queues[q]? = some (ctx, queue))
    (halive : Alive ctx buf bytes m) (hbytes : bytes < 0x8000000000000000) (hoffset : 0 ≤ offset)
    (hfits : offset + size ≤ bytes) (h : Gives (act buf) m Q) :
    Gives (do
      let memory ← memoryOf (← queueContext q) buf
      requireRange buf offset size
      requireUnwrapped q offset size
      act memory) m Q := by
  refine Gives.bind (P := fun c m' => ctx = c ∧ m = m') ⟨ctx, m, queueContext_eq hq, rfl, rfl⟩ ?_
  rintro _ _ ⟨rfl, rfl⟩
  refine (gives_memoryOf (Q := fun b m' => buf = b ∧ m = m') halive ⟨rfl, rfl⟩).bind ?_
  rintro _ _ ⟨rfl, rfl⟩
  refine (gives_requireRange halive hoffset hfits hbytes).bind ?_
  rintro - _ rfl
  refine (gives_requireUnwrapped hoffset (by omega)).bind ?_
  rintro - _ rfl
  exact h

theorem gives_enqueueRead {size : Nat} (hq : m.queues[q]? = some (ctx, queue))
    (halive : Alive ctx buf bytes m) (hbytes : bytes < 0x8000000000000000) (hoffset : 0 ≤ offset)
    (hfits : offset + size ≤ bytes) (h : Gives (enqueue q (.read buf offset.toNat size)) m Q) :
    Gives (enqueueRead q buf offset size) m Q :=
  gives_accessed hq halive hbytes hoffset hfits h

theorem gives_enqueueWrite {data : List UInt8} (hq : m.queues[q]? = some (ctx, queue))
    (halive : Alive ctx buf bytes m) (hbytes : bytes < 0x8000000000000000) (hoffset : 0 ≤ offset)
    (hfits : offset + data.length ≤ bytes)
    (h : Gives (enqueue q (.write buf offset.toNat data)) m Q) :
    Gives (enqueueWrite q buf offset data) m Q :=
  gives_accessed hq halive hbytes hoffset hfits h

/-- The bytes of a command that has not failed. -/
theorem gives_waitRead {event : Nat} {bs : List UInt8} (hevent : m.events.getD event (.ok []) = .ok bs) :
    Gives (waitRead q event) m fun bs' m' => bs = bs' ∧ m = m' :=
  Gives.guarded (gives_get_bind (gives_ofExcept hevent ⟨rfl, rfl⟩)) _

end

/-! ### The index of a search -/

/-- A buffer for one index. -/
def indexAt (ctx buf : Nat) : TypedBuffer :=
  { buffer := buf, bytes := 4, elem := .scalar .uint, ctx? := some ctx }

/-- The machine with a new buffer for an index. -/
def addIndex (ctx : Nat) (m : Machine) : Machine :=
  { m with
    buffers := m.buffers.push { origin := .context ctx, size := 4 }
    memories := m.memories.push (Array.replicate 4 0) }

theorem gives_newIndex {Q : TypedBuffer → Machine → Prop} (hm : Ready ctx q m)
    (h : Q (indexAt ctx m.buffers.size) (m.addIndex ctx)) :
    Gives (newScalar ctx (.uint .w32)) m Q := by
  unfold newScalar
  refine gives_ofExcept_bind (a := .scalar .uint) rfl ?_
  have hsize : (Ty.scalar .uint).size = 4 := by rw [Ty.size]; rfl
  have hopen : Gives (requireOpen ctx) m fun _ m' => m = m' := by
    unfold requireOpen
    refine gives_get_bind ?_
    dsimp only
    rw [hm.opened]
    exact gives_pure rfl
  have hnew : Gives (newBuffer ctx ((Ty.scalar .uint).size : Nat)) m
      fun b m' => m.buffers.size = b ∧ m.addIndex ctx = m' := by
    rw [hsize]
    unfold newBuffer
    simp only [show ¬ ((4 : Nat) : Int) ≤ 0 by decide, if_false]
    refine hopen.bind ?_
    rintro - _ rfl
    exact gives_modifyGet ⟨rfl, rfl⟩
  refine hnew.bind ?_
  rintro _ _ ⟨rfl, rfl⟩
  unfold typed
  refine gives_get_bind (gives_pure ?_)
  simpa [addIndex, indexAt, Array.getD_eq_getD_getElem?] using h

theorem alive_addIndex (ctx : Nat) (m : Machine) : Alive ctx m.buffers.size 4 (m.addIndex ctx) := by
  simp [Alive, addIndex]

theorem Ready.addIndex (hm : Ready ctx q m) : Ready ctx q (m.addIndex ctx) := ⟨hm.opened, hm.queue⟩

theorem Trusted.addIndex {o : CompileOptions} (h : Trusted ctx o m) : Trusted ctx o (m.addIndex ctx) := by
  intro cache hcache
  obtain ⟨hhonest, hgenuine⟩ := h cache hcache
  exact ⟨⟨hhonest.inside, hhonest.context, hhonest.entries⟩, hgenuine⟩

theorem Alive.addIndex {buf size : Nat} (h : Alive ctx buf size m) : Alive ctx buf size (m.addIndex ctx) := by
  have hlt := (Array.getElem?_eq_some_iff.mp h).1
  rw [Alive, Machine.addIndex, Array.getElem?_push, if_neg (Nat.ne_of_lt hlt)]
  exact h

theorem getD_addIndex (ctx : Nat) {k : Nat} (hk : k < m.memories.size) :
    (m.addIndex ctx).memories.getD k #[] = m.memories.getD k #[] := by
  simp [Machine.addIndex, Array.getD_eq_getD_getElem?, Array.getElem?_push, Nat.ne_of_lt hk]

theorem getD_addIndex_self (h : m.memories.size = m.buffers.size) :
    (m.addIndex ctx).memories.getD m.buffers.size #[] = Array.replicate 4 0 := by
  simp [Machine.addIndex, Array.getD_eq_getD_getElem?, ← h]

theorem requireElem_index (buf : Nat) (m : Machine) :
    requireElem (.uint .w32) (indexAt ctx buf) m = (.ok (), m) := rfl

theorem length_indexAt (buf : Nat) : (indexAt ctx buf).length = 1 := by
  simp [TypedBuffer.length, indexAt, Ty.size, Scalar.size]

theorem decodeAll_index {bs : List UInt8} (h : bs.length = 4) :
    Host.decodeAll (.scalar .uint) bs.toArray (.uint .w32) =
      .ok [.uint (UInt64.ofNat (Bytes.toNat bs))] := by
  have hsize : (Ty.scalar .uint).size = 4 := by rw [Ty.size]; rfl
  have hlen : bs.toArray.size = 4 := by rw [List.size_toArray, h]
  have hlt : Bytes.toNat bs < 2 ^ 32 := by
    have := Bytes.toNat_lt bs
    rw [h] at this
    exact this
  have hslice : Bytes.slice bs.toArray 0 4 = bs := by
    rw [Bytes.slice, Nat.zero_add, ← hlen, Array.extract_size]
  have hfits : ¬ bs.toArray.size - 0 < 4 := by omega
  have hword : (Int64.ofInt (Bytes.toNat bs)).toUInt64 = UInt64.ofNat (Bytes.toNat bs) := by
    have := Host.toUInt64_ofInt_toNat (UInt64.ofNat (Bytes.toNat bs))
    rwa [UInt64.toNat_ofNat_of_lt' (Nat.lt_trans hlt (by decide))] at this
  have hread : Host.decodeAt (.scalar .uint) bs.toArray (0 * 4) (.uint .w32) =
      .ok (.uint (UInt64.ofNat (Bytes.toNat bs))) := by
    rw [Nat.zero_mul, Host.decodeAt, hsize, if_neg hfits]
    simp only [Scalar.size, hslice, Host.decodeScalar, Host.Number.ofBytes, Host.Number.toHost?,
      Host.Number.ofInt, List.take_of_length_le (Nat.le_of_eq h), hword]
    rw [UInt64.toNat_ofNat_of_lt' (Nat.lt_trans hlt (by decide))]
    simp only [IntWidth.bits]
    rw [show Bytes.toNat bs % Nat.pow 2 32 = Bytes.toNat bs from Nat.mod_eq_of_lt hlt]
  rw [Host.decodeAll, hsize, hlen, if_neg (by decide)]
  refine (mapM_ok (g := fun _ => .uint (UInt64.ofNat (Bytes.toNat bs))) fun i hi => ?_).trans rfl
  obtain rfl : i = 0 := by simpa using hi
  exact hread

/-- Reading an index is reading four bytes, waiting for them and taking them for a number. -/
theorem readScalar_index (buf : Nat) :
    readScalar q (.uint .w32) (indexAt ctx buf) 0 m =
      (enqueueRead q buf 0 4 >>= fun event => waitRead q event >>= fun bytes =>
        decodeElems (indexAt ctx buf) (.uint .w32) bytes >>= fun vs =>
          pure (vs.headD (HostTy.uint .w32).zero)) m := by
  have hin : ¬ ((0 : Int) < 0 ∨ ((indexAt ctx buf).length : Int) ≤ 0) := by
    rw [length_indexAt]
    decide
  have hsize : (Ty.scalar .uint).size = 4 := by rw [Ty.size]; rfl
  have helem : (indexAt ctx buf).elem = .scalar .uint := rfl
  unfold readScalar
  refine (bind_ok (requireElem_index buf m) _).trans ?_
  simp only [if_neg hin, helem, hsize]
  rfl

theorem gives_readIndex {buf : Nat} {block : Bytes} (hm : Ready ctx q m) (halive : Alive ctx buf 4 m)
    (hblock : m.memories.getD buf #[] = block) (hsize : block.size = 4) :
    Gives (Sequence.readIndex q (indexAt ctx buf)) m fun n m' =>
      n = (Bytes.toNat block.toList : Nat) ∧ Did ctx q (.read buf 0 4) m m' := by
  have hlt : Bytes.toNat block.toList < 2 ^ 64 := by
    have := Bytes.toNat_lt block.toList
    rw [Array.length_toList, hsize] at this
    exact Nat.lt_trans this (by decide)
  have hcompletion : (Command.read buf 0 4).completion m.memories = .ok block.toList := by
    rw [Command.completion, Command.execute, hblock]
    simp [Bytes.slice, ← hsize]
  have hread : Gives (readScalar q (.uint .w32) (indexAt ctx buf) 0) m fun v m' =>
      v = .uint (UInt64.ofNat (Bytes.toNat block.toList)) ∧ Did ctx q (.read buf 0 4) m m' := by
    suffices h : Gives (enqueueRead q buf 0 4 >>= fun event => waitRead q event >>= fun bytes =>
        decodeElems (indexAt ctx buf) (.uint .w32) bytes >>= fun vs =>
          pure (vs.headD (HostTy.uint .w32).zero)) m fun v m' =>
        v = .uint (UInt64.ofNat (Bytes.toNat block.toList)) ∧ Did ctx q (.read buf 0 4) m m' by
      rwa [Gives, readScalar_index]
    refine (gives_enqueueRead hm.queue halive (by decide) le_rfl (by simp)
      (gives_enqueue_did hm _)).bind ?_
    rintro event m₁ ⟨hdid, hevent⟩
    rw [Int.toNat_zero, hcompletion] at hevent
    refine (gives_waitRead hevent).bind ?_
    rintro _ _ ⟨rfl, rfl⟩
    have hdecode : decodeElems (indexAt ctx buf) (.uint .w32) block.toList =
        pure [.uint (UInt64.ofNat (Bytes.toNat block.toList))] := by
      have := @decodeAll_index block.toList (by simpa using hsize)
      rw [decodeElems, show (indexAt ctx buf).elem = .scalar .uint from rfl, this]
    rw [hdecode]
    exact gives_pure_bind (gives_pure ⟨rfl, hdid⟩)
  unfold Sequence.readIndex
  refine hread.bind ?_
  rintro _ m₁ ⟨rfl, hdid⟩
  exact gives_pure ⟨by rw [UInt64.toNat_ofNat_of_lt' hlt], hdid⟩

/-- A queue with a fault is ready again when it has been finished. -/
theorem throws_finish {f : Fault} (hq : m.queues[q]? = some (ctx, { failed? := some f })) :
    Throws (finish q) m fun f' m' => f' = f ∧ Did ctx q .finish m m' := by
  unfold finish
  have hlt : q < m.queues.size := (Array.getElem?_eq_some_iff.mp hq).1
  have henqueue : Gives (enqueue q .finish) m fun _ m' =>
      m.ended q (ctx, { failed? := some f }) m.memories (.error (Queue.poisoned .finish f)) = m' :=
    gives_enqueue_poisoned hq .finish rfl
  refine henqueue.bind_throws ?_
  rintro - _ rfl
  refine (gives_modifyGet (Q := fun fault? m' => some f = fault? ∧ Did ctx q .finish m m') ?_).bind_throws ?_
  · have hget : (m.ended q (ctx, { failed? := some f }) m.memories
        (.error (Queue.poisoned .finish f))).queues.getD q (0, {}) = (ctx, { failed? := some f }) := by
      simp [Array.getD_eq_getD_getElem?, getElem?_ended hq]
    simp only [hget, Queue.takeFault]
    refine ⟨trivial, rfl, rfl, ?_, fun _ => rfl⟩
    simp [ended, hlt, Command.completion, Command.execute, Queue.after]
  · rintro _ m₁ ⟨rfl, hdid⟩
    exact throws_throw ⟨rfl, hdid⟩

/-- A read reports the fault of a queue, and takes it away. -/
theorem throws_readIndex {buf : Nat} {f : Fault}
    (hq : m.queues[q]? = some (ctx, { failed? := some f })) (halive : Alive ctx buf 4 m) :
    Throws (Sequence.readIndex q (indexAt ctx buf)) m fun f' m' =>
      f' = Queue.poisoned (.read buf 0 4) f ∧ Did ctx q .finish m m' := by
  have hread : Throws (readScalar q (.uint .w32) (indexAt ctx buf) 0) m fun f' m' =>
      f' = Queue.poisoned (.read buf 0 4) f ∧ Did ctx q .finish m m' := by
    rw [Throws, readScalar_index]
    refine Gives.bind_throws (P := fun e m' => m'.events.getD e (.ok []) =
        .error (Queue.poisoned (.read buf 0 4) f) ∧ m'.memories = m.memories ∧
        m'.buffers = m.buffers ∧ m'.queues[q]? = some (ctx, { failed? := some f }) ∧
        m'.contexts = m.contexts)
      (gives_enqueueRead hq halive (by decide) le_rfl (by simp) (gives_enqueue_poisoned hq _ ?_)) ?_
    · refine ⟨?_, rfl, rfl, getElem?_ended hq, rfl⟩
      simp [ended, Array.getD_eq_getD_getElem?]
    · rintro event m₁ ⟨hevent, hmemories, hbuffers, hq₁, hcontexts⟩
      refine Throws.bind ?_
      have hwait : Throws (wait event) m₁ fun f' m' =>
          Queue.poisoned (.read buf 0 4) f = f' ∧ m₁ = m' := by
        refine ⟨_, m₁, ?_, rfl, rfl⟩
        show (Act.ofExcept (m₁.events.getD event (.ok [])) : Act _) m₁ = _
        rw [hevent]
        rfl
      refine hwait.rethrown ?_
      rintro _ _ ⟨rfl, rfl⟩
      refine Gives.bind_throws (P := fun _ m' => Did ctx q .finish m₁ m')
        ((throws_finish hq₁).caught fun _ _ h => gives_pure h.2) ?_
      rintro - m₂ hdid
      refine throws_throw ⟨rfl, ?_, hdid.buffers.trans hbuffers, ?_, fun c => ?_⟩
      · rw [hdid.memories, hmemories]
      · rw [hdid.queue, hmemories]
      · rw [hdid.closed, hcontexts]
  unfold Sequence.readIndex
  exact hread.bind

/-! ### Buffers that are released -/

/-- The machine without a buffer; its memory stays. -/
def release (m : Machine) (buf : Nat) : Machine :=
  { m with buffers := m.buffers.modify buf fun b => { b with released := true } }

theorem gives_releaseBuffer {buf size : Nat} (halive : Alive ctx buf size m) :
    Gives (releaseBuffer buf) m fun _ m' => m.release buf = m' := by
  have hget : m.buffers.getD buf default = { origin := .context ctx, size } := by
    simp [Array.getD_eq_getD_getElem?, show m.buffers[buf]? = _ from halive]
  unfold releaseBuffer
  refine gives_get_bind ?_
  simp only [hget, Bool.false_eq_true, if_false]
  exact gives_modify rfl

section

variable {α : Type} {act : Act α} {b : TypedBuffer} {size : Nat}

theorem gives_releasing {P : α → Machine → Prop} (hact : Gives act m P)
    (halive : ∀ a m', P a m' → Alive ctx b.buffer size m') :
    Gives (releasing b act) m fun a m' => ∃ m₁, P a m₁ ∧ m' = m₁.release b.buffer := by
  unfold releasing
  have hresult : Gives (do return Except.ok (← act) : Act (Except Fault α)) m fun r m' =>
      ∃ a, .ok a = r ∧ P a m' := hact.bind fun a m' h => gives_pure ⟨a, rfl, h⟩
  refine (hresult.guarded _).bind ?_
  rintro _ m₁ ⟨a, rfl, hP⟩
  have hreleased : Gives (do releaseBuffer b.buffer; return none : Act (Option Fault)) m₁ fun r m' =>
      none = r ∧ m₁.release b.buffer = m' := by
    refine (gives_releaseBuffer (halive a m₁ hP)).bind ?_
    rintro - _ rfl
    exact gives_pure ⟨rfl, rfl⟩
  refine (hreleased.guarded _).bind ?_
  rintro _ _ ⟨rfl, rfl⟩
  exact gives_pure ⟨m₁, hP, rfl⟩

end

/-! ### Drafts that are run -/

theorem snapshot_eq {k : Kernel} {args : List KernelArg} (hargs : k.args = args.map some) :
    snapshot k = pure args := by
  have hnone : k.args.findIdx? Option.isNone = none := by
    rw [hargs]
    simp
  have hall : k.args.filterMap id = args := by
    rw [hargs, List.filterMap_map]
    simp
  rw [snapshot, hnone]
  simp only [hall]

/-- A kernel with all its arguments is run at once. -/
theorem gives_enqueueRange {kernel : Nat} {k : Kernel} {args : List KernelArg} {extent : Int}
    (hm : Ready ctx q m) (hk : HasKernel ctx kernel k m) (hargs : k.args = args.map some)
    (hextent : 0 ≤ extent) :
    Gives (enqueueRange q kernel 0 extent) m fun _ m' => ∃ crew,
      Did ctx q (.run (m.programs.getD k.program default).program k.fn args 0 extent crew) m m' := by
  unfold enqueueRange
  refine gives_get_bind ?_
  simp only [kernels_getD hk]
  refine gives_get_bind ?_
  refine Gives.bind (P := fun c m' => ctx = c ∧ m = m') ⟨ctx, m, queueContext_eq hm.queue, rfl, rfl⟩ ?_
  rintro _ _ ⟨rfl, rfl⟩
  have hin : ¬ ((0 : Int) < 0 ∨ extent < 0) := by omega
  simp only [hk.context, ne_eq, not_true_eq_false, if_false, snapshot_eq hargs, if_neg hin]
  exact gives_pure_bind (gives_get_bind ((gives_enqueue_did hm _).mono fun _ _ h => ⟨_, h.1⟩))

/-- The draft is built to a kernel of a program, and its arguments can be bound on a machine. -/
structure Launches (ctx : Nat) (m : Machine) (d : Draft) (p : Program) (fn : CheckedFn)
    (args : List KernelArg) : Prop where
  build : Program.build (.ofString d.source.1) = .built p
  kernel : p.kernel? d.name = some fn
  params : fn.params = d.part.args.map fun a => (a.name, a.type)
  bindable : ∀ a ∈ d.part.args, a.Bindable ctx m
  bound : d.part.args.map DraftArg.preset? = args.map some

section

variable {d : Draft} {o : CompileOptions} {p : Program} {fn : CheckedFn} {args : List KernelArg}
  {count : Int}

/-- **A draft whose source is built is run at once.** -/
theorem gives_runDraft (hm : Ready ctx q m) (htrusted : Trusted ctx o m)
    (hoptions : Device.optionLog? (" ".intercalate o.options) = none) (hd : Launches ctx m d p fn args)
    (hcount : 0 ≤ count) :
    Gives (Sequence.runDraft d (some ctx) q count o) m fun _ m' => ∃ crew,
      Did ctx q (.run p fn args 0 (if count = 0 then 1 else count) crew) m m' := by
  unfold Sequence.runDraft
  refine (gives_compile htrusted hoptions hd.build hd.kernel hd.params hd.bindable).bind ?_
  rintro c m₁ ⟨hkeeps, -, k, hk, rfl, hset, rfl⟩
  rw [hd.bound] at hset
  by_cases hzero : count = 0
  · simp only [if_pos hzero]
    refine (Gives.within (gives_enqueueRange (hm.mono hkeeps) hk hset (by decide)) _).bind ?_
    rintro - m₂ ⟨crew, hdid⟩
    exact gives_pure ⟨crew, hdid.of_keeps hkeeps⟩
  · simp only [if_neg hzero]
    refine (Gives.within (gives_enqueueRange (hm.mono hkeeps) hk hset hcount) _).bind ?_
    rintro - m₂ ⟨crew, hdid⟩
    exact gives_pure ⟨crew, hdid.of_keeps hkeeps⟩

end

/-! ### Machines and ranges that algorithms use -/

/-- A machine that algorithms can run on: the queue is ready, kernels are compiled as their sources
say, and every buffer has its memory. -/
structure Serves (ctx q : Nat) (o : CompileOptions) (m : Machine) : Prop extends Ready ctx q m where
  trusted : Trusted ctx o m
  options : Device.optionLog? (" ".intercalate o.options) = none
  memories : m.memories.size = m.buffers.size

/-- A range of `count` elements of a buffer from place `n` on, which the memory of the buffer holds.
No memory has more bytes than a machine integer counts. -/
structure HoldsRange (ctx : Nat) (b : TypedBuffer) (n count : Nat) (m : Machine) : Prop where
  context : b.ctx? = some ctx
  alive : ∃ size, Alive ctx b.buffer size m
  within : (n + count) * b.elem.size ≤ (m.memories.getD b.buffer #[]).size
  small : (m.memories.getD b.buffer #[]).size < 2 ^ 63

theorem HoldsRange.lt {b : TypedBuffer} {n count : Nat} (h : HoldsRange ctx b n count m) :
    b.buffer < m.buffers.size := by
  obtain ⟨size, halive⟩ := h.alive
  exact (Array.getElem?_eq_some_iff.mp halive).1

/-! ### Searches -/

section

variable {d : Draft} {o : CompileOptions} {p : Program} {fn : CheckedFn} {args : List KernelArg}
  {count : Int} {out : Nat} {st : Store} {first : Cursor}

/-- A kernel that leaves a number in the index, whatever crew runs it, is run, and the number is read. -/
theorem gives_answer {i : Nat} (hm : Ready ctx q m) (htrusted : Trusted ctx o m)
    (hoptions : Device.optionLog? (" ".intercalate o.options) = none) (halive : Alive ctx out 4 m)
    (hd : Launches ctx m d p fn args) (hcount : 0 ≤ count)
    (hrun : ∀ crew, p.runBy crew Program.loopBudget fn args 0 (if count = 0 then 1 else count) m.memories =
      (.ok (), st))
    (hindex : st.getD out #[] = (Bytes.ofNat 4 i).toArray) (hi : i < 2 ^ 32) :
    Gives (do
      Sequence.runDraft d (some ctx) q count o
      let found ← Sequence.readIndex q (indexAt ctx out)
      return first.advance found) m fun c m' =>
        c = first.advance i ∧ m'.memories = st ∧ m'.buffers = m.buffers := by
  refine (gives_runDraft hm htrusted hoptions hd hcount).bind ?_
  rintro - m₁ ⟨crew, hdid⟩
  have hcompletion : (Command.run p fn args 0 (if count = 0 then 1 else count) crew).completion m.memories =
      .ok [] := by
    simp [Command.completion, Command.execute, hrun, Command.runFault?]
  have hmemories : m₁.memories = st := by
    rw [hdid.memories]
    simp [Command.execute, hrun, Command.runFault?]
  have halive₁ : Alive ctx out 4 m₁ := by
    rw [Alive, hdid.buffers]
    exact halive
  refine (gives_readIndex (hdid.ready hm hcompletion) halive₁ (hmemories ▸ hindex) (by simp)).bind ?_
  rintro _ m₂ ⟨rfl, hdid₂⟩
  refine gives_pure ⟨?_, ?_, hdid₂.buffers.trans hdid.buffers⟩
  · have hnat : Bytes.toNat (Bytes.ofNat 4 i) = i := by
      rw [Bytes.toNat_ofNat]
      exact Nat.mod_eq_of_lt hi
    rw [List.toList_toArray, hnat]
  · rw [hdid₂.memories, ← hmemories]
    rfl

end

section

variable {α : Type} {act : TypedBuffer → Act α}

/-- A search that succeeds with its index. -/
theorem gives_withIndex {P : α → Machine → Prop} (hm : Ready ctx q m)
    (hact : Gives (act (indexAt ctx m.buffers.size)) (m.addIndex ctx) P)
    (halive : ∀ a m', P a m' → Alive ctx m.buffers.size 4 m') :
    Gives (Sequence.withIndex (some ctx) act) m fun a m' =>
      ∃ m₁, P a m₁ ∧ m' = m₁.release m.buffers.size := by
  unfold Sequence.withIndex
  refine (gives_newIndex (Q := fun b m' => indexAt ctx m.buffers.size = b ∧ m.addIndex ctx = m')
    hm ⟨rfl, rfl⟩).bind ?_
  rintro _ _ ⟨rfl, rfl⟩
  exact gives_releasing hact halive

end

end Machine
end KernelForge
