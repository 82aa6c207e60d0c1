/-
Searches leave no trace.

A search makes a buffer for an index, writes to it, runs a kernel and reads the index.  Any of these may
fail, and the kernel may fail on the device as well; then its fault is on the queue when the index is
read, and reading takes it away.  So each step is followed on both of its ways, with what it leaves: the
memories apart from that of the index, the buffers and the queue.

The kernel writes to the index only, as its source is sparing; this is where it matters that a cache gives
the program of the source that it is asked for.  A fault comes from a kernel that could be enqueued.  Such
a kernel, its queue and the index belong to one context, and so the read that takes the fault away can be
enqueued, too.
-/
import KernelForge.Proofs.Device.Stores
import KernelForge.Proofs.Sequence.Extremum
import KernelForge.Proofs.Sequence.Sparing

namespace KernelForge

namespace Machine

open Act

variable {m m' : Machine} {ctx cache capacity : Nat} {keys : Set ProgramKey} {k : ProgramKey}

theorem keeps_keepFor (m : Machine) (cache : Nat) (source options : String) (bytes : List UInt8) :
    Keeps m (m.keepFor cache source options bytes) := by
  unfold keepFor keepBinary
  split
  · exact keeps_refl m
  · split
    · exact ⟨rfl, rfl, rfl, rfl, fun _ => rfl, id⟩
    · exact keeps_refl m

theorem Makes.keeps {source options : String} {r : Except Fault Nat × Machine}
    (hr : Makes m cache source options r) : Keeps m r.2 := by
  cases hr with
  | load _ => exact (keeps_push m _).trans (keeps_putCache _ _ _)
  | build _ _ => exact ((keeps_push m _).trans (keeps_putCache _ _ _)).trans (keeps_keepFor _ _ _ _ _)
  | fail _ _ => exact keeps_putCache _ _ _

theorem Provides.congr (hs : Provides ctx cache capacity keys m) (hprograms : m'.programs = m.programs)
    (hcaches : m'.caches = m.caches) (hstores : m'.stores = m.stores) :
    Provides ctx cache capacity keys m' := by
  have he : m.Extends m' := ⟨by rw [hcaches], fun _ => by rw [hcaches], fun _ => by rw [hcaches],
    fun hp => by rw [hprograms]; exact hp⟩
  exact hs.mono he (by rw [cacheAt, hcaches, cacheAt]) (he.backed hstores hs.backed)

/-- Every cache of a machine provides for some keys, and the caches that drafts are compiled through are
caches of the machine. -/
structure Supplied (o : CompileOptions) (keys : Set ProgramKey) (m : Machine) : Prop where
  provides : ∀ cache < m.caches.size, ∃ ctx capacity, Provides ctx cache capacity keys m
  inside : ∀ ctx cache, cacheFor? ctx o m = some cache → cache < m.caches.size

theorem Supplied.congr {o : CompileOptions} (h : Supplied o keys m) (hprograms : m'.programs = m.programs)
    (hcaches : m'.caches = m.caches) (hstores : m'.stores = m.stores) (hregistry : m'.registry = m.registry) :
    Supplied o keys m' := by
  constructor
  · intro cache hlt
    rw [hcaches] at hlt
    obtain ⟨ctx, capacity, hs⟩ := h.provides cache hlt
    exact ⟨ctx, capacity, hs.congr hprograms hcaches hstores⟩
  · intro ctx cache hcache
    rw [hcaches]
    refine h.inside ctx cache ?_
    rw [cacheFor?, hregistry] at hcache
    exact hcache

section Kernels

variable {kernel prog out : Nat} {fn : CheckedFn}

/-- A kernel of a program gets a memory for its first argument, in the context of the memory. -/
structure Aims (out prog kernel : Nat) (fn : CheckedFn) (m : Machine) : Prop where
  found : ∃ args, m.kernels[kernel]? =
    some (.ok { program := prog, fn, args := some { memory? := some out } :: args })
  owned : (m.buffers.getD out default).origin = .context (m.programs.getD prog default).ctx

theorem comesTo_memoryOf (ctx buf : Nat) (m : Machine) :
    ComesTo (memoryOf ctx buf) m
      (fun memory m' => buf = memory ∧ m = m' ∧ (m.buffers.getD buf default).origin = .context ctx)
      (fun m' => m = m') := by
  unfold memoryOf
  refine comesTo_get_bind ?_
  dsimp only
  split
  · exact comesTo_fail rfl
  · rename_i owner hown
    split
    · exact comesTo_fail rfl
    · split
      · exact comesTo_fail rfl
      · rename_i hsame
        rw [ne_eq, not_not] at hsame
        exact comesTo_pure ⟨rfl, rfl, hsame ▸ hown⟩

/-- What an argument is set to, whether from bytes or to a buffer. -/
def Sets (kernel : Nat) (k : Kernel) (index : Int) (m m' : Machine) (arg : KernelArg) : Prop :=
  Keeps m m' ∧ m'.programs = m.programs ∧
    m'.kernels[kernel]? = some (.ok { k with args := k.args.set index.toNat (some arg) })

theorem Aims.set (h : Aims out prog kernel fn m) {k : Kernel} {slot : Nat} {arg : KernelArg}
    (hk : m.kernels[kernel]? = some (.ok k)) (hsets : Sets kernel k ((slot + 1 : Nat) : Int) m m' arg) :
    Aims out prog kernel fn m' := by
  obtain ⟨⟨args, hfound⟩, howned⟩ := h
  obtain ⟨hkeeps, hprograms, hkernel⟩ := hsets
  rw [hfound] at hk
  cases hk
  exact ⟨⟨args.set slot (some arg), hkernel⟩, by rw [hkeeps.buffers, hprograms]; exact howned⟩

end Kernels

/-! ### Commands of a search -/

section Commands

variable {q out : Nat} {released : Bool}

/-- The second machine has the queue and the buffers of the first, and its memories, one apart. -/
structure Spared (out q : Nat) (m m' : Machine) : Prop where
  memories : ∀ k ≠ out, m'.memories[k]? = m.memories[k]?
  buffers : m'.buffers = m.buffers
  queue : m'.queues[q]? = m.queues[q]?

theorem spared_refl (m : Machine) : Spared out q m m := ⟨fun _ _ => rfl, rfl, rfl⟩

theorem Spared.trans {m'' : Machine} (h : Spared out q m m') (h' : Spared out q m' m'') :
    Spared out q m m'' :=
  ⟨fun k hk => (h'.memories k hk).trans (h.memories k hk), h'.buffers.trans h.buffers,
    h'.queue.trans h.queue⟩

/-- A queue with nothing to do and no fault runs a command at once, unless it has been released. -/
theorem comesTo_enqueue (hq : m.queues[q]? = some (ctx, { released })) (c : Command) :
    ComesTo (enqueue q c) m
      (fun e m' => released = false ∧ m.events.size = e ∧
        m.ended q (ctx, .after (c.completion m.memories)) (c.execute m.memories).2
          (c.completion m.memories) = m')
      (fun m' => m = m') := by
  cases released with
  | false => exact .inl (gives_enqueue hq c ⟨rfl, rfl, rfl⟩)
  | true =>
    have hget : m.queues.getD q (0, {}) = (ctx, { released := true }) := by
      simp [Array.getD_eq_getD_getElem?, hq]
    unfold enqueue
    refine comesTo_get_bind ?_
    simp only [hget]
    exact (comesTo_throw (P := fun _ _ => False) rfl).bind nofun

/-- The programs, the caches and the stores are the same as well. -/
structure Wrote (out q : Nat) (m m' : Machine) : Prop extends Spared out q m m' where
  programs : m'.programs = m.programs
  caches : m'.caches = m.caches
  stores : m'.stores = m.stores
  registry : m'.registry = m.registry

/-- The machine after a command that did not fail. -/
theorem wrote_ended (hq : m.queues[q]? = some (ctx, {})) {st : Store}
    (hst : ∀ k ≠ out, st[k]? = m.memories[k]?) (r : Completion) : Wrote out q m (m.ended q (ctx, {}) st r) :=
  ⟨⟨hst, rfl, (getElem?_ended hq).trans hq.symm⟩, rfl, rfl, rfl, rfl⟩

theorem comesTo_queueContext (hq : m.queues[q]? = some (ctx, { released })) {P : Nat → Machine → Prop}
    {E : Machine → Prop} (h : P ctx m) : ComesTo (queueContext q) m P E :=
  .inl ⟨ctx, m, queueContext_eq hq, h⟩

theorem comesTo_requireRange (buf : Nat) (offset : Int) (size : Nat) (m : Machine) :
    ComesTo (requireRange buf offset size) m (fun _ m' => m = m') (fun m' => m = m') := by
  unfold requireRange
  refine comesTo_get_bind ?_
  dsimp only
  split
  · exact comesTo_fail rfl
  · exact comesTo_pure rfl

theorem comesTo_requireUnwrapped (q : Nat) (offset : Int) (size : Nat) (m : Machine) :
    ComesTo (requireUnwrapped q offset size) m (fun _ m' => m = m') (fun m' => m = m') := by
  unfold requireUnwrapped
  refine comesTo_get_bind ?_
  dsimp only
  split
  · exact comesTo_fail rfl
  · exact comesTo_pure rfl

theorem comesTo_requireElem (h : HostTy) (b : TypedBuffer) (m : Machine) :
    ComesTo (requireElem h b) m (fun _ m' => m = m') (fun m' => m = m') := by
  unfold requireElem
  split
  · exact comesTo_throw rfl
  · split
    · exact comesTo_pure rfl
    · exact comesTo_throw rfl

/-- What a read gives is what its event tells. -/
theorem comesTo_enqueueRead (hq : m.queues[q]? = some (ctx, { released })) (buf : Nat) (offset : Int)
    (size : Nat) :
    ComesTo (enqueueRead q buf offset size) m
      (fun e m' => (∃ bytes, m'.events.getD e (.ok []) = .ok bytes) ∧ Spared out q m m') (Spared out q m) := by
  have hrefl : ∀ m', m = m' → Spared out q m m' := fun m' h => h ▸ spared_refl m
  unfold enqueueRead
  refine (comesTo_queueContext (P := fun c m' => ctx = c ∧ m = m') hq ⟨rfl, rfl⟩).bind ?_
  rintro _ _ ⟨rfl, rfl⟩
  refine (comesTo_memoryOf ctx buf m).andThen hrefl ?_
  rintro _ _ ⟨rfl, rfl, -⟩
  refine (comesTo_requireRange buf offset size m).andThen hrefl ?_
  rintro - _ rfl
  refine (comesTo_requireUnwrapped q offset size m).andThen hrefl ?_
  rintro - _ rfl
  refine (comesTo_enqueue hq _).mono ?_ hrefl
  rintro _ _ ⟨rfl, rfl, rfl⟩
  refine ⟨⟨Bytes.slice (m.memories.getD buf #[]) offset.toNat size, ?_⟩,
    (wrote_ended hq (fun _ _ => rfl) _).toSpared⟩
  simp [ended, Array.getD_eq_getD_getElem?, Command.completion, Command.execute]

/-- A read from a queue that is idle leaves it so. -/
theorem comesTo_readScalar (hq : m.queues[q]? = some (ctx, { released })) (h : HostTy) (b : TypedBuffer)
    (index : Int) : ComesTo (readScalar q h b index) m (fun _ => Spared out q m) (Spared out q m) := by
  have hrefl : ∀ m', m = m' → Spared out q m m' := fun m' h => h ▸ spared_refl m
  unfold readScalar
  refine (comesTo_requireElem h b m).andThen hrefl ?_
  rintro - _ rfl
  dsimp only
  split
  · exact comesTo_throw (spared_refl m)
  · refine (comesTo_enqueueRead hq _ _ _).bind ?_
    rintro event m₁ ⟨⟨bytes, hevent⟩, hspared⟩
    have hwait : ComesTo (waitRead q event) m₁ (fun _ m' => m₁ = m') (fun m' => Spared out q m m') :=
      .inl (Gives.guarded (gives_get_bind (gives_ofExcept hevent rfl)) _)
    refine hwait.bind ?_
    rintro bytes _ rfl
    have hdecode : ComesTo (decodeElems b h bytes) m₁ (fun _ => Spared out q m) (Spared out q m) := by
      unfold decodeElems
      split
      · exact comesTo_pure hspared
      · exact comesTo_fail hspared
    exact hdecode.bind fun _ _ hs => comesTo_pure hs

theorem comesTo_readIndex (hq : m.queues[q]? = some (ctx, { released })) (index : TypedBuffer) :
    ComesTo (Sequence.readIndex q index) m (fun _ => Spared out q m) (Spared out q m) := by
  unfold Sequence.readIndex
  refine (comesTo_readScalar hq _ _ _).bind fun v _ hs => ?_
  split <;> exact comesTo_pure hs

/-! ### The run of the kernel -/

/-- The machine after the kernel of a search: the memories are the same, that of the index apart, and if the
queue has a fault now it is one of the context of the index. -/
structure Ran (out q : Nat) (m m' : Machine) : Prop where
  memories : ∀ k ≠ out, m'.memories[k]? = m.memories[k]?
  buffers : m'.buffers = m.buffers
  queue : m'.queues[q]? = m.queues[q]? ∨ ∃ ctx f, (m.buffers.getD out default).origin = .context ctx ∧
    m.queues[q]? = some (ctx, {}) ∧ m'.queues[q]? = some (ctx, { failed? := some f })

variable {d : Draft} {kernel : Nat}

/-- **The fault of the kernel is taken away by the read**, and there is none otherwise. -/
theorem Ran.readIndex {owner : Nat} (hq : m.queues[q]? = some (ctx, { released }))
    (halive : Alive owner out 4 m) (hran : Ran out q m m') :
    ComesTo (Sequence.readIndex q (indexAt owner out)) m' (fun _ => Spared out q m) (Spared out q m) := by
  rcases hran.queue with hqueue | ⟨c, f, hown, hidle, hfault⟩
  · have hspared : Spared out q m m' := ⟨hran.memories, hran.buffers, hqueue⟩
    exact (comesTo_readIndex (hqueue.trans hq) _).mono (fun _ _ hs => hspared.trans hs)
      fun _ hs => hspared.trans hs
  · have howner : owner = c := by
      rw [Array.getD_eq_getD_getElem?, show m.buffers[out]? = _ from halive] at hown
      cases hown
      rfl
    subst howner
    have halive' : Alive owner out 4 m' := by
      rw [Alive, hran.buffers]
      exact halive
    obtain ⟨g, m₁, hread, -, hdid⟩ := throws_readIndex hfault halive'
    refine .inr ⟨g, m₁, hread, fun k hk => ?_, hdid.buffers.trans hran.buffers, hdid.queue.trans hidle.symm⟩
    rw [hdid.memories]
    exact hran.memories k hk

end Commands

/-! ### Searches -/

section Searches

variable {q : Nat} {released : Bool}

/-- The second machine has the queue of the first, and all its buffers with what they hold. -/
structure Untouched (q : Nat) (m m' : Machine) : Prop where
  queue : m'.queues[q]? = m.queues[q]?
  memories : ∀ k < m.buffers.size, m'.memories[k]? = m.memories[k]?
  buffers : ∀ k < m.buffers.size, m'.buffers[k]? = m.buffers[k]?

/-- A buffer is released that the first machine does not have. -/
theorem Untouched.release (h : Untouched q m m') : Untouched q m (m'.release m.buffers.size) := by
  refine ⟨h.queue, h.memories, fun k hk => ?_⟩
  rw [← h.buffers k hk, Machine.release]
  simp [Array.getElem?_modify, Nat.ne_of_gt hk]

end Searches

end Machine

namespace Sequence

open Act Machine Draft

/-! ### What searches leave -/

/-- A search for a position. -/
inductive Search where
  | findIf (pred : Formula)
  | find (value : Formula)
  | lowerBound (value : Formula)
  /-- For an extremum, by the character of a comparison. -/
  | extremum (sign : Char)

namespace Search

/-- Performs a search of a range. -/
def run (first last : Cursor) (q : Nat) (o : CompileOptions) : Search → Act Cursor
  | findIf pred => runFindIf first last pred q o
  | find value => runFind first last value q o
  | lowerBound value => runLowerBound first last value q o
  | extremum sign => do runExtremum first last (← signOf sign) q o

/-- The formula of which the first true value is searched for. -/
def pred? : Search → Option Formula
  | findIf pred => some pred
  | find value => some (.binary .eql (.arg 0) value)
  | lowerBound value => some (.binary .geq (.arg 0) value)
  | extremum _ => none

/-- The helpers in the formula of a search were made. -/
def Made (s : Search) : Prop := ∀ pred ∈ s.pred?, pred.Made

/-- The kernels that a search may make. -/
inductive Drafts (first : Cursor) (s : Search) : Draft → Prop
  | find {out : Nat} {count : Int} {pred : Formula} {d : Draft} (hpred : s.pred? = some pred)
      (h : Sequence.findIf out count first pred = .ok d) : Drafts first s d
  | extremum {out : Nat} {count : Int} {elem : Scalar} {sign : Sign} (hpred : s.pred? = none) :
      Drafts first s (Sequence.extremum out count first elem sign)

/-- What the caches are asked for. -/
def keys (s : Search) (first : Cursor) (o : CompileOptions) : Set ProgramKey :=
  {k | ∃ d, s.Drafts first d ∧ k = ⟨d.source.1, " ".intercalate o.options⟩}

end Search

section

variable {m : Machine} {ctx q : Nat} {released : Bool} {first last : Cursor} {o : CompileOptions} {s : Search}

end

end Sequence

end KernelForge
