/-
Which bytes a run reads and writes.

`Traced` is an action that also says which bytes of the memories it read and wrote, and the
definitions here run checked code as `Program.runItem` does, with that log.  Only accesses to
memory are logged, and of an access the bytes that it uses; variables belong to the run.

A traced action `Tracks` an action when it does the same and its log is honest: bytes that are
not among the written ones are kept, and from memories that agree on the bytes that were read
the action does the same, with the same log, and writes the same.  This is kept by doing one
action after another, and it holds of loads and stores, so it holds of everything.

Reading a value from a block uses the bytes of its scalars, never the padding between them, and
writing one changes those bytes only.  Both facts are about single bytes, so that accesses to two
parts of one structure are kept apart.  What is written depends on the value, not on the block:
two blocks of one size that are written alike hold the same bytes where something was written.
-/
import KernelForge.Program.Run
import KernelForge.Proofs.Program.Codec
import KernelForge.Proofs.Program.Quiet

namespace KernelForge

namespace Value

/-! ### The bytes that are read -/

theorem take_congr {as bs : List UInt8} {n : Nat} (h : ∀ i, i < n → as[i]? = bs[i]?) :
    as.take n = bs.take n := by
  refine List.ext_getElem? fun i => ?_
  rw [List.getElem?_take, List.getElem?_take]
  split
  · exact h i ‹_›
  · rfl

mutual

/-- What is read depends on the bytes of the scalars only. -/
theorem decodeAt_congr : ∀ {t : Ty} {as bs : List UInt8},
    (∀ i, t.covers i = true → as[i]? = bs[i]?) → decodeAt t as = decodeAt t bs
  | .void, as, bs, _ => by simp only [decodeAt]
  | .scalar s, as, bs, h => by
    have htake : as.take s.size = bs.take s.size :=
      take_congr fun i hi => h i (by simpa [Ty.covers] using hi)
    simp only [decodeAt, lanesOfBytes, htake]
  | .vector s w, as, bs, h => by
    have hlane : ∀ k ∈ List.range w.lanes,
        (as.drop (k * s.size)).take s.size = (bs.drop (k * s.size)).take s.size := by
      intro k hk
      have hk := List.mem_range.mp hk
      refine take_congr fun i hi => ?_
      rw [List.getElem?_drop, List.getElem?_drop]
      refine h _ ?_
      have hlt : (k + 1) * s.size ≤ w.lanes * s.size := Nat.mul_le_mul_right _ hk
      rw [Nat.succ_mul, Nat.mul_comm w.lanes] at hlt
      simp only [Ty.covers, decide_eq_true_eq]
      omega
    simp only [decodeAt, lanesOfBytes]
    congr 3
    exact List.map_congr_left fun k hk => by simp only [hlane k hk]
  | .tuple ts, as, bs, h => by
    simp only [decodeAt, decodeFields_congr 0 h]
  | .pointer _ _ _, as, bs, _ => by simp only [decodeAt]

theorem decodeFields_congr : ∀ {ts : List Ty} {as bs : List UInt8} (used : Nat),
    (∀ i, Ty.coversFrom used ts i = true → as[i]? = bs[i]?) →
    decodeFields ts as used = decodeFields ts bs used
  | [], as, bs, used, _ => by simp only [decodeFields]
  | t :: ts, as, bs, used, h => by
    have hfirst : decodeAt t ((as.drop (alignUp used t.align)).take t.size) =
        decodeAt t ((bs.drop (alignUp used t.align)).take t.size) := by
      refine decodeAt_congr fun i hi => ?_
      rw [List.getElem?_take, List.getElem?_take, List.getElem?_drop, List.getElem?_drop,
        h (alignUp used t.align + i) (by simp [Ty.coversFrom, hi])]
    have hrest : decodeFields ts as (alignUp used t.align + t.size) =
        decodeFields ts bs (alignUp used t.align + t.size) :=
      decodeFields_congr _ fun i hi => h i (by simp [Ty.coversFrom, hi])
    simp only [decodeFields, hfirst, hrest]

end

/-! ### The bytes that are written -/

mutual

/-- Whether writing a value as a type writes the byte at an offset. -/
def spans (t : Ty) (v : Value) (i : Nat) : Bool :=
  match v, t with
  | .lanes _ x, t => decide (i < ((bytesOfLanes t x).take t.size).length)
  | .record vs, .tuple ts => spansFrom 0 ts vs i
  | _, _ => false

/-- The same for the fields of a structure, when those before them end at `used`. -/
def spansFrom (used : Nat) (ts : List Ty) (vs : List Value) (i : Nat) : Bool :=
  match ts, vs with
  | t :: ts, v :: vs =>
    decide (alignUp used t.align ≤ i) && spans t v (i - alignUp used t.align) ||
      spansFrom (alignUp used t.align + t.size) ts vs i
  | _, _ => false

end

mutual

/-- What a value is written on lies within it. -/
theorem lt_size_of_spans : ∀ {t : Ty} {v : Value} {i : Nat}, spans t v i = true → i < t.size
  | t, .lanes e x, i, h => by
    simp only [spans, decide_eq_true_eq, List.length_take] at h
    omega
  | .tuple ts, .record vs, i, h => by
    rw [spans] at h
    exact Nat.lt_of_lt_of_le (lt_fieldsEnd_of_spansFrom h) (Ty.fieldsEnd_le_size ts)
  | .void, .record vs, i, h | .scalar _, .record vs, i, h | .vector _ _, .record vs, i, h
  | .pointer _ _ _, .record vs, i, h => by simp [spans] at h
  | t, .nothing, i, h | t, .pointer _, i, h => by simp [spans] at h

theorem lt_fieldsEnd_of_spansFrom : ∀ {ts : List Ty} {vs : List Value} {used i : Nat},
    spansFrom used ts vs i = true → i < Ty.fieldsEnd used ts
  | [], vs, used, i, h => by simp [spansFrom] at h
  | t :: ts, [], used, i, h => by simp [spansFrom] at h
  | t :: ts, v :: vs, used, i, h => by
    have hend := Ty.le_fieldsEnd (alignUp used t.align + t.size) ts
    rw [Ty.fieldsEnd]
    rw [spansFrom, Bool.or_eq_true, Bool.and_eq_true, decide_eq_true_eq] at h
    rcases h with ⟨hle, h⟩ | h
    · have := lt_size_of_spans h
      omega
    · exact lt_fieldsEnd_of_spansFrom h

end

/-- How a write into one block compares to the same write into another block of its size: they
end alike, the blocks keep their sizes and what is not written, and what was written is the
same in both. -/
structure SameWrite (spans : Nat → Bool) (base : Nat) (dst dst' : Bytes)
    (r r' : Bytes × Outcome ExecError Unit) : Prop where
  outcome_eq : r'.2 = r.2
  size_eq : r.1.size = dst.size
  size_eq' : r'.1.size = dst.size
  kept : ∀ i, ¬ (base ≤ i ∧ spans (i - base) = true) → r.1[i]? = dst[i]? ∧ r'.1[i]? = dst'[i]?
  same : r.2 = .ok () → ∀ i, spans i = true → r'.1[base + i]? = r.1[base + i]?

theorem SameWrite.none {spans : Nat → Bool} (h : ∀ i, spans i = false) (base : Nat) {dst dst' : Bytes}
    (hsize : dst'.size = dst.size) (outcome : Outcome ExecError Unit) :
    SameWrite spans base dst dst' (dst, outcome) (dst', outcome) :=
  ⟨rfl, rfl, hsize, fun _ _ => ⟨rfl, rfl⟩, fun _ i hi => by rw [h i] at hi; cases hi⟩

theorem sameWrite_lanes {t : Ty} {e : Elem} (x : Lanes e) {dst dst' : Bytes}
    (hsize : dst'.size = dst.size) (base : Nat) :
    SameWrite (spans t (.lanes e x)) base dst dst' (encodeAt t (.lanes e x) dst base)
      (encodeAt t (.lanes e x) dst' base) := by
  have hspans : ∀ i, spans t (.lanes e x) i = true ↔ i < ((bytesOfLanes t x).take t.size).length :=
    fun i => by simp only [spans, decide_eq_true_eq]
  simp only [encodeAt]
  refine ⟨rfl, by simp, by simp [hsize], fun i hi => ?_, fun _ i hi => ?_⟩
  · rw [hspans] at hi
    exact ⟨Bytes.getElem?_write_of_not_mem (by omega), Bytes.getElem?_write_of_not_mem (by omega)⟩
  · rw [hspans] at hi
    rw [Bytes.getElem?_write, Bytes.getElem?_write, hsize]
    by_cases hin : base + i < dst.size
    · rw [if_pos (by omega), if_pos (by omega)]
    · rw [if_neg (by omega), if_neg (by omega), Array.getElem?_eq_none (by omega),
        Array.getElem?_eq_none (by omega)]

mutual

theorem sameWrite : ∀ (t : Ty) (v : Value) {dst dst' : Bytes}, dst'.size = dst.size → ∀ base,
    SameWrite (spans t v) base dst dst' (encodeAt t v dst base) (encodeAt t v dst' base)
  | t, .lanes e x, dst, dst', hsize, base => sameWrite_lanes x hsize base
  | .tuple ts, .record vs, dst, dst', hsize, base => by
    have hspans : spans (.tuple ts) (.record vs) = spansFrom 0 ts vs := funext fun i => by rw [spans]
    rw [hspans]
    simp only [encodeAt]
    exact sameWriteFields ts vs hsize base 0
  | .void, .record vs, dst, dst', hsize, base | .scalar _, .record vs, dst, dst', hsize, base
  | .vector _ _, .record vs, dst, dst', hsize, base
  | .pointer _ _ _, .record vs, dst, dst', hsize, base => by
    simp only [encodeAt]
    exact SameWrite.none (fun i => by simp [spans]) base hsize _
  | t, .nothing, dst, dst', hsize, base | t, .pointer _, dst, dst', hsize, base => by
    simp only [encodeAt]
    exact SameWrite.none (fun i => by simp [spans]) base hsize _

theorem sameWriteFields : ∀ (ts : List Ty) (vs : List Value) {dst dst' : Bytes},
    dst'.size = dst.size → ∀ base used, SameWrite (spansFrom used ts vs) base dst dst'
      (encodeFields ts vs dst base used) (encodeFields ts vs dst' base used)
  | [], vs, dst, dst', hsize, base, used => by
    simp only [encodeFields]
    exact SameWrite.none (fun i => by simp [spansFrom]) base hsize _
  | t :: ts, [], dst, dst', hsize, base, used => by
    simp only [encodeFields]
    exact SameWrite.none (fun i => by simp [spansFrom]) base hsize _
  | t :: ts, v :: vs, dst, dst', hsize, base, used => by
    have hspans : ∀ i, spansFrom used (t :: ts) (v :: vs) i = true ↔
        (alignUp used t.align ≤ i ∧ spans t v (i - alignUp used t.align) = true) ∨
          spansFrom (alignUp used t.align + t.size) ts vs i = true := fun i => by
      rw [spansFrom, Bool.or_eq_true, Bool.and_eq_true, decide_eq_true_eq]
    have hfirst := sameWrite t v hsize (base + alignUp used t.align)
    rcases hr : encodeAt t v dst (base + alignUp used t.align) with ⟨mid, outcome⟩
    rcases hr' : encodeAt t v dst' (base + alignUp used t.align) with ⟨mid', outcome'⟩
    rw [hr, hr'] at hfirst
    obtain ⟨rfl, hmid, hmid', hkept, hsame⟩ := hfirst
    dsimp only at hmid hmid' hkept hsame
    simp only [encodeFields, hr, hr']
    have hbefore : ∀ i, ¬ (base ≤ i ∧ spansFrom used (t :: ts) (v :: vs) (i - base) = true) →
        mid[i]? = dst[i]? ∧ mid'[i]? = dst'[i]? := fun i hi => hkept i fun ⟨hle, h⟩ =>
      hi ⟨by omega, (hspans _).mpr (.inl ⟨by omega, by rwa [Nat.sub_sub]⟩)⟩
    cases outcome' with
    | ok u =>
      have hrest := sameWriteFields ts vs (hmid'.trans hmid.symm) base
        (alignUp used t.align + t.size)
      refine ⟨hrest.outcome_eq, hrest.size_eq.trans hmid, hrest.size_eq'.trans hmid,
        fun i hi => ?_, fun hok i hi => ?_⟩
      · have hlater := hrest.kept i fun h => hi ⟨h.1, (hspans _).mpr (.inr h.2)⟩
        have hearlier := hbefore i hi
        exact ⟨hlater.1.trans hearlier.1, hlater.2.trans hearlier.2⟩
      · by_cases hin : spansFrom (alignUp used t.align + t.size) ts vs i = true
        · exact hrest.same hok i hin
        · -- Only the first field is written here, and it is written alike.
          obtain ⟨hle, hi⟩ := ((hspans i).mp hi).resolve_right hin
          obtain ⟨j, rfl⟩ := Nat.exists_eq_add_of_le hle
          rw [Nat.add_sub_cancel_left] at hi
          have hlater := hrest.kept (base + (alignUp used t.align + j)) fun h => hin (by
            rw [Nat.add_sub_cancel_left] at h
            exact h.2)
          rw [hlater.1, hlater.2, ← Nat.add_assoc]
          exact hsame rfl j hi
    | _ => exact ⟨rfl, hmid, hmid', hbefore, nofun⟩

end

/-! ### Values that fit -/

theorem spans_lanes {t : Ty} {s : Scalar} (ht : t.element? = some s) {x : Lanes s.register}
    (hx : s.size * x.cells.length = t.size) (i : Nat) :
    spans t (.lanes s.register x) i = decide (i < t.size) := by
  rw [spans, bytesOfLanes_eq ht, List.length_take, length_flatMap_spell, hx, Nat.min_self]

mutual

/-- A value that fits is written on exactly the bytes of the scalars of its type. -/
theorem spans_eq_covers : ∀ {t : Ty} {v : Value}, t.isStored = true → Fits t v → ∀ i,
    spans t v i = t.covers i
  | .void, v, ht, _, i | .pointer _ _ _, v, ht, _, i => by simp [Ty.isStored] at ht
  | .scalar s, v, _, h, i => by
    simp only [Fits] at h
    obtain ⟨x, rfl, hrow⟩ := h
    obtain ⟨c, rfl⟩ := Lanes.row?_eq_none hrow
    rw [spans_lanes rfl (by simp [Lanes.cells, Ty.size]), Ty.covers, Ty.size]
  | .vector s w, v, _, h, i => by
    simp only [Fits] at h
    obtain ⟨x, rfl, hrow⟩ := h
    obtain ⟨cs, rfl, hlen⟩ := Lanes.row?_eq_some hrow
    rw [spans_lanes rfl (by simp [Lanes.cells, Ty.size, hlen]), Ty.covers, Ty.size]
  | .tuple ts, v, ht, h, i => by
    simp only [Ty.isStored] at ht
    simp only [Fits] at h
    obtain ⟨vs, rfl, hvs⟩ := h
    rw [spans, Ty.covers, spansFrom_eq_coversFrom ht hvs]

theorem spansFrom_eq_coversFrom : ∀ {ts : List Ty} {vs : List Value}, Ty.areStored ts = true →
    FitsAll ts vs → ∀ {used} i, spansFrom used ts vs i = Ty.coversFrom used ts i
  | [], [], _, _, used, i => by simp [spansFrom, Ty.coversFrom]
  | [], _ :: _, _, h, used, i | _ :: _, [], _, h, used, i => by simp [FitsAll] at h
  | t :: ts, v :: vs, ht, h, used, i => by
    simp only [Ty.areStored, Bool.and_eq_true] at ht
    simp only [FitsAll] at h
    rw [spansFrom, Ty.coversFrom, spans_eq_covers ht.1 h.1, spansFrom_eq_coversFrom ht.2 h.2]

end

end Value

/-! ### Bytes of memories -/

/-- A byte: the number of its memory, and its offset there. -/
abbrev Address := Nat × Nat

namespace Store

/-- The byte at an address, if there is one. -/
def byte? (st : Store) (a : Address) : Option UInt8 := (st.getD a.1 #[])[a.2]?

/-- Two stores have as many memories, and these have the same sizes. -/
def SameShape (st st' : Store) : Prop := st.map Array.size = st'.map Array.size

theorem SameShape.refl (st : Store) : SameShape st st := rfl

theorem SameShape.symm {st st' : Store} (h : SameShape st st') : SameShape st' st := Eq.symm h

theorem SameShape.trans {st st' st'' : Store} (h : SameShape st st') (h' : SameShape st' st'') :
    SameShape st st'' := Eq.trans h h'

theorem SameShape.size_eq {st st' : Store} (h : SameShape st st') : st.size = st'.size := by
  simpa using congrArg Array.size h

theorem SameShape.size_getD {st st' : Store} (h : SameShape st st') (m : Nat) :
    (st.getD m #[]).size = (st'.getD m #[]).size := by
  have hm : (st.map Array.size)[m]? = (st'.map Array.size)[m]? := congrArg (·[m]?) h
  rw [Array.getElem?_map, Array.getElem?_map] at hm
  rw [Array.getD_eq_getD_getElem?, Array.getD_eq_getD_getElem?]
  cases h1 : st[m]? <;> cases h2 : st'[m]? <;> simp_all

theorem SameShape.ext {st st' : Store} (h : SameShape st st') (hbytes : ∀ a, st.byte? a = st'.byte? a) :
    st = st' := by
  refine Array.ext h.size_eq fun m hm hm' => Array.ext_getElem? fun i => ?_
  have hi := hbytes (m, i)
  simpa [byte?, Array.getD_eq_getD_getElem?, hm, hm'] using hi

/-- Replacing a memory by one of its size. -/
theorem sameShape_set {st : Store} {m : Nat} {block : Bytes} (h : block.size = (st.getD m #[]).size) :
    SameShape (st.setIfInBounds m block) st := by
  refine Array.ext_getElem? fun i => ?_
  rw [Array.getElem?_map, Array.getElem?_map, Array.getElem?_setIfInBounds]
  split
  · rename_i hm
    subst hm
    rw [Array.getD_eq_getD_getElem?] at h
    split
    · rename_i hlt
      simp_all
    · rename_i hlt
      rw [Array.getElem?_eq_none (by omega)]
  · rfl

theorem byte?_set {st : Store} {m : Nat} {block : Bytes} (h : block.size = (st.getD m #[]).size)
    (a : Address) :
    byte? (st.setIfInBounds m block) a = if a.1 = m then block[a.2]? else st.byte? a := by
  rw [byte?, byte?, Array.getD_eq_getD_getElem?, Array.getD_eq_getD_getElem?,
    Array.getElem?_setIfInBounds]
  by_cases hm : a.1 = m
  · subst hm
    rw [if_pos rfl, if_pos rfl]
    split
    · rfl
    · rename_i hlt
      rw [Array.getD_eq_getD_getElem?, Array.getElem?_eq_none (by omega)] at h
      have hnone : st[a.1]? = none := Array.getElem?_eq_none (by omega)
      have hempty : block = #[] := Array.eq_empty_of_size_eq_zero h
      rw [hempty]
      rfl
  · rw [if_neg (Ne.symm hm), if_neg hm]

/-- A write within bounds replaces the memory by what the write makes of it. -/
theorem store_inside {st : Store} {m start : Nat} {offset : BitVec 64} {t : Ty} (v : Value)
    (h : access (st.getD m #[]).size offset t.size = .inside start) :
    st.store m offset t v = (st.setIfInBounds m (Value.encodeAt t v (st.getD m #[]) start).1,
      (Value.encodeAt t v (st.getD m #[]) start).2) := by
  simp only [Store.store, h, Array.setIfInBounds_setIfInBounds]

end Store

/-! ### Logs -/

/-- The bytes that a run read and those that it wrote, in the order of the run. -/
structure Trace where
  reads : List Address := []
  writes : List Address := []
deriving DecidableEq, Repr

namespace Trace

/-- What was done first, and then something else. -/
def append (a b : Trace) : Trace := ⟨a.reads ++ b.reads, a.writes ++ b.writes⟩

/-- No byte that one wrote was read or written by the other. -/
def Apart (a b : Trace) : Prop :=
  (∀ x ∈ a.writes, x ∉ b.reads ∧ x ∉ b.writes) ∧ ∀ x ∈ b.writes, x ∉ a.reads ∧ x ∉ a.writes

instance (a b : Trace) : Decidable (Apart a b) := inferInstanceAs (Decidable (_ ∧ _))

theorem Apart.symm {a b : Trace} (h : Apart a b) : Apart b a := ⟨h.2, h.1⟩

end Trace

/-- An action on the memories with a log. -/
def Traced (α : Type) := Store → (Outcome ExecError α × Store) × Trace

namespace Traced

variable {α β : Type}

def pure (a : α) : Traced α := fun st => ((.ok a, st), {})

def bind (x : Traced α) (f : α → Traced β) : Traced β := fun st =>
  match x st with
  | ((.ok a, st), log) => ((f a st).1, log.append (f a st).2)
  | ((.failed e, st), log) => ((.failed e, st), log)
  | ((.crashed c, st), log) => ((.crashed c, st), log)
  | ((.exhausted, st), log) => ((.exhausted, st), log)

instance : Monad Traced where
  pure := pure
  bind := bind

/-- What comes after an action that gives a value. -/
theorem bind_ok {x : Traced α} {a : α} {st st₁ : Store} {log : Trace}
    (h : x st = ((.ok a, st₁), log)) (f : α → Traced β) :
    (x >>= f) st = ((f a st₁).1, log.append (f a st₁).2) := by
  show Traced.bind x f st = _
  rw [Traced.bind, h]

/-- An action that touches no memory. -/
def ofExec (x : Exec α) : Traced α := fun st => (x st, {})

/-- The bytes of an access to a memory: those at chosen offsets from where it starts. -/
def touched (st : Store) (memory : Nat) (offset : BitVec 64) (t : Ty) (uses : Nat → Bool) : List Address :=
  match Store.access (st.getD memory #[]).size offset t.size with
  | .inside start => ((List.range t.size).filter uses).map fun i => (memory, start + i)
  | _ => []

def load (memory : Nat) (offset : BitVec 64) (t : Ty) : Traced Value := fun st =>
  (Exec.load memory offset t st, { reads := touched st memory offset t t.covers })

def store (memory : Nat) (offset : BitVec 64) (t : Ty) (v : Value) : Traced Unit := fun st =>
  (Exec.store memory offset t v st, { writes := touched st memory offset t (v.spans t) })

end Traced

/-! ### Honest logs -/

/-- Two stores of one shape hold the same bytes at some addresses. -/
structure AgreeOn (addresses : List Address) (st st' : Store) : Prop where
  shape : st.SameShape st'
  bytes : ∀ a ∈ addresses, st.byte? a = st'.byte? a

/-- A traced action does what an action does, and its log is honest. -/
structure Tracks {α : Type} (x : Traced α) (y : Exec α) : Prop where
  erases : ∀ st, (x st).1 = y st
  shape : ∀ st, (y st).2.SameShape st
  kept : ∀ st, ∀ a ∉ (x st).2.writes, (y st).2.byte? a = st.byte? a
  outcome : ∀ st st', AgreeOn (x st).2.reads st st' → (y st').1 = (y st).1 ∧ (x st').2 = (x st).2
  same : ∀ st st', AgreeOn (x st).2.reads st st' → (∃ a, (y st).1 = .ok a) →
    ∀ a ∈ (x st).2.writes, (y st').2.byte? a = (y st).2.byte? a

namespace Tracks

variable {α β : Type} {x : Traced α} {y : Exec α}

/-- An action that does not look at the memories. -/
def Blind (y : Exec α) : Prop := ∃ r, ∀ st, y st = (r, st)

theorem ofExec (h : Blind y) : Tracks (.ofExec y) y := by
  obtain ⟨r, hr⟩ := h
  refine ⟨fun _ => rfl, fun st => ?_, fun st a _ => ?_, fun st st' _ => ?_, fun _ _ _ _ a ha => ?_⟩
  · rw [hr]
    exact .refl st
  · rw [hr]
  · rw [hr, hr]
    exact ⟨rfl, rfl⟩
  · cases ha

theorem pure (a : α) : Tracks (Pure.pure a) (Pure.pure a) := ofExec ⟨.ok a, fun _ => rfl⟩

/-- A run that gives a value does the same, and with the same log, from memories that agree on
what it read; and it leaves memories that agree wherever they did before. -/
theorem run_ok (hx : Tracks x y) {st st₁ st' : Store} {a : α} {log : Trace}
    (hrun : x st = ((.ok a, st₁), log)) {more : List Address}
    (hagree : AgreeOn (log.reads ++ more) st st') :
    ∃ st₁', x st' = ((.ok a, st₁'), log) ∧ AgreeOn more st₁ st₁' ∧
      ∀ b ∈ log.writes, st₁'.byte? b = st₁.byte? b := by
  have hst : y st = (.ok a, st₁) := by rw [← hx.erases, hrun]
  have hlog : (x st).2 = log := by rw [hrun]
  have hreads : AgreeOn (x st).2.reads st st' :=
    ⟨hagree.shape, fun b hb => hagree.bytes b (List.mem_append_left _ (hlog ▸ hb))⟩
  obtain ⟨houtcome, hlog'⟩ := hx.outcome st st' hreads
  have hsame := hx.same st st' hreads ⟨a, by rw [hst]⟩
  have hst' : (x st').1 = (.ok a, (y st').2) := by
    rw [hx.erases, ← Prod.eta (y st'), houtcome, hst]
  have hkept := hx.kept st
  have hkept' := hx.kept st'
  rw [hlog', hlog] at hkept'
  rw [hlog, hst] at hsame hkept
  refine ⟨(y st').2, Prod.ext hst' (hlog'.trans hlog), ⟨?_, fun b hb => ?_⟩, hsame⟩
  · have hshape := hx.shape st
    rw [hst] at hshape
    exact (hshape.trans hagree.shape).trans (hx.shape st').symm
  · by_cases hw : b ∈ log.writes
    · exact (hsame b hw).symm
    · rw [hkept b hw, hkept' b hw]
      exact hagree.bytes b (List.mem_append_right _ hb)

/-- An action that gives no value ends what comes after it. -/
theorem bind_stops (hx : Tracks x y) (f : α → Traced β) (g : α → Exec β) {st : Store}
    (h : ∀ a, (y st).1 ≠ .ok a) : (∀ b, ((y >>= g) st).1 ≠ .ok b) ∧
      ((x >>= f) st).1 = (y >>= g) st ∧ ((x >>= f) st).2 = (x st).2 ∧ ((y >>= g) st).2 = (y st).2 ∧
      ∀ st', (y st').1 = (y st).1 → ((y >>= g) st').1 = ((y >>= g) st).1 := by
  have herases := hx.erases st
  show (∀ b, (Exec.bind y g st).1 ≠ .ok b) ∧ (Traced.bind x f st).1 = Exec.bind y g st ∧
    (Traced.bind x f st).2 = (x st).2 ∧ (Exec.bind y g st).2 = (y st).2 ∧
    ∀ st', (y st').1 = (y st).1 → (Exec.bind y g st').1 = (Exec.bind y g st).1
  unfold Traced.bind Exec.bind
  rcases hrun : x st with ⟨⟨outcome, st₁⟩, log⟩
  rw [hrun] at herases
  rw [← herases] at h ⊢
  cases outcome with
  | ok a => exact absurd rfl (h a)
  | failed c | crashed c | exhausted =>
    refine ⟨nofun, rfl, rfl, rfl, fun st' h' => ?_⟩
    rw [← Prod.eta (y st'), h']

/-- What comes after an action finds what it needs as the action left it. -/
theorem bind {f : α → Traced β} {g : α → Exec β} (hx : Tracks x y) (hf : ∀ a, Tracks (f a) (g a)) :
    Tracks (x >>= f) (y >>= g) := by
  have hgo : ∀ {st a st₁ log}, x st = ((.ok a, st₁), log) → (y >>= g) st = g a st₁ :=
    fun hrun => Exec.bind_ok (by rw [← hx.erases, hrun]) g
  -- Either the first action gives a value, or it ends the run.
  have hcases : ∀ st, (∃ a st₁ log, x st = ((.ok a, st₁), log)) ∨ ∀ a, (y st).1 ≠ .ok a := by
    intro st
    rcases hrun : x st with ⟨⟨outcome, st₁⟩, log⟩
    cases outcome with
    | ok a => exact .inl ⟨a, st₁, log, rfl⟩
    | _ => exact .inr (by rw [← hx.erases, hrun]; nofun)
  refine ⟨fun st => ?_, fun st => ?_, fun st b hb => ?_, fun st st' hagree => ?_,
    fun st st' hagree hok b hb => ?_⟩
  · rcases hcases st with ⟨a, st₁, log, hrun⟩ | hstop
    · rw [Traced.bind_ok hrun, hgo hrun, (hf a).erases]
    · exact (hx.bind_stops f g hstop).2.1
  · rcases hcases st with ⟨a, st₁, log, hrun⟩ | hstop
    · have hshape := hx.shape st
      rw [← hx.erases, hrun] at hshape
      rw [hgo hrun]
      exact ((hf a).shape st₁).trans hshape
    · rw [(hx.bind_stops f g hstop).2.2.2.1]
      exact hx.shape st
  · rcases hcases st with ⟨a, st₁, log, hrun⟩ | hstop
    · have hkept := hx.kept st
      rw [← hx.erases, hrun] at hkept
      rw [Traced.bind_ok hrun] at hb
      have hb := fun h => hb (List.mem_append.mpr h)
      rw [hgo hrun, (hf a).kept st₁ b fun h => hb (.inr h)]
      exact hkept b fun h => hb (.inl h)
    · obtain ⟨-, -, hlog, hst, -⟩ := hx.bind_stops f g hstop
      rw [hlog] at hb
      rw [hst, hx.kept st b hb]
  · rcases hcases st with ⟨a, st₁, log, hrun⟩ | hstop
    · rw [Traced.bind_ok hrun] at hagree ⊢
      obtain ⟨st₁', hrun', hagree', -⟩ := hx.run_ok hrun hagree
      rw [hgo hrun, hgo hrun', Traced.bind_ok hrun']
      obtain ⟨houtcome, hlog⟩ := (hf a).outcome st₁ st₁' hagree'
      exact ⟨houtcome, by rw [hlog]⟩
    · obtain ⟨-, -, hlog, -, hsame⟩ := hx.bind_stops f g hstop
      rw [hlog] at hagree ⊢
      obtain ⟨houtcome, hlog'⟩ := hx.outcome st st' hagree
      refine ⟨hsame st' houtcome, ?_⟩
      have hstop' : ∀ a, (y st').1 ≠ .ok a := by rwa [houtcome]
      rw [(hx.bind_stops f g hstop').2.2.1, hlog']
  · rcases hcases st with ⟨a, st₁, log, hrun⟩ | hstop
    · rw [Traced.bind_ok hrun] at hagree hb
      obtain ⟨st₁', hrun', hagree', hsame⟩ := hx.run_ok hrun hagree
      rw [hgo hrun] at hok ⊢
      rw [hgo hrun']
      by_cases hlater : b ∈ (f a st₁).2.writes
      · exact (hf a).same st₁ st₁' hagree' hok b hlater
      · have hlog := ((hf a).outcome st₁ st₁' hagree').2
        rw [(hf a).kept st₁ b hlater, (hf a).kept st₁' b (by rwa [hlog])]
        exact hsame b ((List.mem_append.mp hb).resolve_right hlater)
    · obtain ⟨b', hb'⟩ := hok
      exact absurd hb' ((hx.bind_stops f g hstop).1 b')

theorem mem_touched {st : Store} {m start : Nat} {offset : BitVec 64} {t : Ty} {uses : Nat → Bool}
    (h : Store.access (st.getD m #[]).size offset t.size = .inside start) {a : Address} :
    a ∈ Traced.touched st m offset t uses ↔ ∃ i, i < t.size ∧ uses i = true ∧ a = (m, start + i) := by
  simp only [Traced.touched, h, List.mem_map, List.mem_filter, List.mem_range, and_assoc, eq_comm]

theorem touched_congr {st st' : Store} (h : st.SameShape st') (m : Nat) (offset : BitVec 64) (t : Ty)
    (uses : Nat → Bool) : Traced.touched st' m offset t uses = Traced.touched st m offset t uses := by
  simp only [Traced.touched, h.size_getD m]

theorem load (m : Nat) (offset : BitVec 64) (t : Ty) :
    Tracks (.load m offset t) (.load m offset t) := by
  refine ⟨fun _ => rfl, fun st => .refl st, fun _ _ _ => rfl, fun st st' hagree => ?_,
    fun _ _ _ _ a ha => by cases ha⟩
  have hsize := hagree.shape.size_getD m
  have hbytes : ∀ a ∈ Traced.touched st m offset t t.covers, st.byte? a = st'.byte? a := hagree.bytes
  show st'.load m offset t = st.load m offset t ∧
    ({ reads := Traced.touched st' m offset t t.covers } : Trace) =
      { reads := Traced.touched st m offset t t.covers }
  refine ⟨?_, by rw [touched_congr hagree.shape]⟩
  simp only [Store.load, ← hsize]
  cases haccess : Store.access (st.getD m #[]).size offset t.size with
  | inside start =>
    have hdecode : Value.decode t (Bytes.slice (st'.getD m #[]) start t.size) =
        Value.decode t (Bytes.slice (st.getD m #[]) start t.size) := by
      refine Value.decodeAt_congr fun i hi => ?_
      have hlt := Ty.lt_size_of_covers hi
      rw [Bytes.getElem?_slice, Bytes.getElem?_slice, if_pos hlt, if_pos hlt]
      exact (hbytes (m, start + i) ((mem_touched haccess).mpr ⟨i, hlt, hi, rfl⟩)).symm
    simp only [hdecode]
  | outside => rfl
  | wrapped => rfl

theorem store (m : Nat) (offset : BitVec 64) (t : Ty) (v : Value) :
    Tracks (.store m offset t v) (.store m offset t v) := by
  -- Outside of the bounds nothing is touched and nothing changes.
  have hout : ∀ st : Store, (∀ start, Store.access (st.getD m #[]).size offset t.size ≠ .inside start) →
      (Exec.store m offset t v st).2 = st ∧ ∀ a, (Exec.store m offset t v st).1 ≠ .ok a := by
    intro st hno
    simp only [Exec.store, Store.store]
    cases haccess : Store.access (st.getD m #[]).size offset t.size with
    | inside start => exact absurd haccess (hno start)
    | outside => exact ⟨rfl, by simp⟩
    | wrapped => exact ⟨rfl, by simp⟩
  have hin : ∀ {st : Store} {start : Nat},
      Store.access (st.getD m #[]).size offset t.size = .inside start → Exec.store m offset t v st =
        ((Value.encodeAt t v (st.getD m #[]) start).2,
          st.setIfInBounds m (Value.encodeAt t v (st.getD m #[]) start).1) :=
    fun h => by simp only [Exec.store, Store.store_inside v h]
  refine ⟨fun _ => rfl, fun st => ?_, fun st a ha => ?_, fun st st' hagree => ?_,
    fun st st' hagree hok a ha => ?_⟩
  · by_cases haccess : ∃ start, Store.access (st.getD m #[]).size offset t.size = .inside start
    · obtain ⟨start, haccess⟩ := haccess
      rw [hin haccess]
      exact Store.sameShape_set (Value.sameWrite t v rfl start).size_eq
    · rw [(hout st fun start h => haccess ⟨start, h⟩).1]
      exact .refl st
  · by_cases haccess : ∃ start, Store.access (st.getD m #[]).size offset t.size = .inside start
    · obtain ⟨start, haccess⟩ := haccess
      have hwrite := Value.sameWrite t v (rfl : (st.getD m #[]).size = _) start
      rw [hin haccess]
      show Store.byte? (st.setIfInBounds m _) a = _
      rw [Store.byte?_set hwrite.size_eq]
      by_cases hm : a.1 = m
      · have hkept := hwrite.kept a.2 (by
          rintro ⟨hle, hspans⟩
          exact ha ((mem_touched haccess).mpr
            ⟨a.2 - start, Value.lt_size_of_spans hspans, hspans, Prod.ext hm (by simp; omega)⟩))
        rw [if_pos hm, hkept.1, ← hm]
        rfl
      · rw [if_neg hm]
    · rw [(hout st fun start h => haccess ⟨start, h⟩).1]
  · have hsize := hagree.shape.size_getD m
    refine ⟨?_, congrArg (Trace.mk []) (touched_congr hagree.shape m offset t _)⟩
    cases haccess : Store.access (st.getD m #[]).size offset t.size with
    | inside start =>
      rw [hin haccess, hin (hsize ▸ haccess)]
      exact (Value.sameWrite t v hsize.symm start).outcome_eq
    | _ => simp only [Exec.store, Store.store, ← hsize, haccess]
  · have hsize := hagree.shape.size_getD m
    by_cases haccess : ∃ start, Store.access (st.getD m #[]).size offset t.size = .inside start
    · obtain ⟨start, haccess⟩ := haccess
      obtain ⟨i, -, hspans, rfl⟩ := (mem_touched haccess).mp ha
      have hwrite := Value.sameWrite t v hsize.symm start
      rw [hin haccess] at hok ⊢
      rw [hin (hsize ▸ haccess)]
      show Store.byte? (st'.setIfInBounds m _) _ = Store.byte? (st.setIfInBounds m _) _
      rw [Store.byte?_set (hwrite.size_eq'.trans hsize), Store.byte?_set hwrite.size_eq, if_pos rfl,
        if_pos rfl]
      exact hwrite.same (hok.elim fun _ h => h) i hspans
    · obtain ⟨u, hu⟩ := hok
      exact absurd hu ((hout st fun start h => haccess ⟨start, h⟩).2 u)

end Tracks

/-! ### Running with a log -/

/-- Runs a function of the program on arguments, with a log. -/
abbrev TracedCaller := String → List Value → Traced Value

namespace Traced

/-- The value at a location. -/
def loadAt (vars : Vars) : Loc → Traced Value
  | .var slot => pure (vars.getD slot .nothing)
  | .mem memory offset elem => load memory offset elem
  | .field parent i => do
    match ← loadAt vars parent with
    | .record vs =>
      match vs[i]? with
      | some v => pure v
      | none => ofExec .crash
    | _ => ofExec .crash
  | .lanes parent is => do
    match ← loadAt vars parent with
    | .lanes e x => return .lanes e (← ofExec (.ofLanes (Value.selectLanes x is)))
    | _ => ofExec .crash

/-- Replaces the value at a location; the result is the variables afterwards. -/
def storeAt (vars : Vars) (v : Value) : Loc → Traced Vars
  | .var slot => pure (vars.setIfInBounds slot v)
  | .mem memory offset elem => do
    store memory offset elem v
    return vars
  | .field parent i => do
    match ← loadAt vars parent with
    | .record vs =>
      if i < vs.length then storeAt vars (.record (vs.set i v)) parent else ofExec .crash
    | _ => ofExec .crash
  | .lanes parent is => do
    match ← loadAt vars parent, v with
    | .lanes e x, .lanes f y =>
      if h : f = e then
        let z ← ofExec (Exec.ofLanes (Value.setLanes x is (h ▸ y)))
        storeAt vars (.lanes e z) parent
      else ofExec .crash
    | _, _ => ofExec .crash

/-- Changes an integer in memory and gives the old one. -/
def atomic (fn : AtomicFn) (s : Scalar) (p : Pointer) (args : List Value) : Traced Value :=
  match p.memory? with
  | none => ofExec (.fail .nullPointer)
  | some m => do
    let old ← load m p.offset (.scalar s)
    let next ← ofExec (Value.atomicNext fn s old args)
    store m p.offset (.scalar s) next
    return old

mutual

/-- The value of a term. -/
def eval (call : TracedCaller) (f : Frame) (t : Term) : Traced Value :=
  match t with
  | .const e x => pure (.lanes e x)
  | .var slot => pure (f.vars.getD slot .nothing)
  | .current =>
    match f.current? with
    | some l => loadAt f.vars l
    | none => ofExec .crash
  | .cast s x => do
    let v ← eval call f x
    ofExec (v.cast s)
  | .concat s n xs => do
    let vs ← evalAll call f xs
    ofExec (Value.concat s n vs)
  | .unary op t x => do
    let v ← eval call f x
    ofExec (v.unary op t)
  | .binary op t x y => do
    let v ← eval call f x
    let w ← eval call f y
    ofExec (v.binary op t w)
  | .and x y => do
    let v ← eval call f x
    if ← ofExec v.toBool then
      let w ← eval call f y
      return .ofBool (← ofExec w.toBool)
    else return .ofBool false
  | .or x y => do
    let v ← eval call f x
    if ← ofExec v.toBool then return .ofBool true
    else
      let w ← eval call f y
      return .ofBool (← ofExec w.toBool)
  | .cond test x y => do
    let v ← eval call f test
    if ← ofExec v.toBool then eval call f x else eval call f y
  | .advance stride ptr n => do
    let p ← eval call f ptr
    let v ← eval call f n
    let i ← ofExec (v.toWord .w64 true)
    let p ← ofExec p.toPointer
    return .pointer { p with offset := p.offset + i * BitVec.ofInt 64 stride }
  | .record xs => do
    let vs ← evalAll call f xs
    return .record vs
  | .load p => do
    let l ← locate call f p
    loadAt f.vars l
  | .address p => do
    match ← locate call f p with
    | .mem memory offset _ => return .pointer ⟨some memory, offset⟩
    | _ => ofExec .crash
  | .field i x => do
    let v ← eval call f x
    ofExec (v.field i)
  | .lanes is x => do
    let v ← eval call f x
    ofExec (v.select is)
  | .discard x => do
    let _ ← eval call f x
    return .nothing
  | .workItem fn dim => do
    let v ← eval call f dim
    let d ← ofExec (v.toWord .w32 false)
    return .lanes .uint64 (.atom (f.item.ask fn d))
  | .atomic fn s ptr args => do
    let p ← eval call f ptr
    let vs ← evalAll call f args
    atomic fn s (← ofExec p.toPointer) vs
  | .math fn t args => do
    let vs ← evalAll call f args
    ofExec (Value.math fn t vs)
  | .call fn args => do
    let vs ← evalAll call f args
    call fn vs

/-- The values of some terms, from left to right. -/
def evalAll (call : TracedCaller) (f : Frame) (ts : List Term) : Traced (List Value) :=
  match ts with
  | [] => pure []
  | t :: ts => do
    let v ← eval call f t
    let vs ← evalAll call f ts
    return v :: vs

/-- The location of a place. -/
def locate (call : TracedCaller) (f : Frame) (p : Place) : Traced Loc :=
  match p with
  | .var slot => pure (.var slot)
  | .deref elem ptr index => do
    let p ← eval call f ptr
    let v ← eval call f index
    let i ← ofExec (v.toWord .w64 true)
    let p ← ofExec p.toPointer
    match p.memory? with
    | none => ofExec (.fail .nullPointer)
    | some m => return .mem m (p.offset + i * BitVec.ofNat 64 elem.size) elem
  | .field p fields i => do
    let l ← locate call f p
    return l.fieldOf fields i
  | .lanes p is => do
    let l ← locate call f p
    return .lanes l is

end

/-- Runs a loop on a budget of rounds. -/
def iterate (test : Vars → Traced Bool) (body post : Vars → Traced (Flow × Vars)) :
    Nat → Vars → Traced (Flow × Vars)
  | 0, _ => ofExec fun st => (.exhausted, st)
  | rounds + 1, vars => do
    if ← test vars then
      match ← body vars with
      | (.brk, vars) => return (.next, vars)
      | (.ret v, vars) => return (.ret v, vars)
      | (_, vars) =>
        let (_, vars) ← post vars
        iterate test body post rounds vars
    else return (.next, vars)

/-- Runs an action. -/
def run (call : TracedCaller) (item : WorkItem) (rounds : Nat) (a : Action) (vars : Vars) :
    Traced (Flow × Vars) :=
  match a with
  | .skip => pure (.next, vars)
  | .eval x => do
    let _ ← eval call { item, vars } x
    return (.next, vars)
  | .declare slot t init => do
    let v ← match init with
      | some x => eval call { item, vars } x
      | none => ofExec (.ofExcept (Value.zero t))
    return (.next, vars.setIfInBounds slot v)
  | .assign p x => do
    let v ← eval call { item, vars } x
    let l ← locate call { item, vars } p
    return (.next, ← storeAt vars v l)
  | .update p next => do
    let l ← locate call { item, vars } p
    let v ← eval call { item, vars, current? := some l } next
    return (.next, ← storeAt vars v l)
  | .seq first second => do
    match ← run call item rounds first vars with
    | (.next, vars) => run call item rounds second vars
    | (flow, vars) => return (flow, vars)
  | .branch test yes no => do
    let v ← eval call { item, vars } test
    if ← ofExec v.toBool then run call item rounds yes vars else run call item rounds no vars
  | .loop test post body =>
    iterate
      (fun vars => do
        match test with
        | some x =>
          let v ← eval call { item, vars } x
          ofExec v.toBool
        | none => return true)
      (fun vars => run call item rounds body vars)
      (fun vars => run call item rounds post vars)
      rounds vars
  | .ret none => pure (.ret .nothing, vars)
  | .ret (some x) => do
    let v ← eval call { item, vars } x
    return (.ret v, vars)
  | .brk => pure (.brk, vars)
  | .cont => pure (.cont, vars)

/-- Runs functions with a number of calls to spare. -/
def call (p : Program) (item : WorkItem) (rounds : Nat) : Nat → TracedCaller
  | 0, name, _ => ofExec (.fail (.stackOverflow name maxCallDepth))
  | depth + 1, name, args =>
    match p.func? name with
    | none => ofExec .crash
    | some fn => do
      let (flow, _) ← run (call p item rounds depth) item rounds fn.body (fn.frame args)
      ofExec (fn.result? flow)

end Traced

/-- Runs one work item with a log of the bytes that it reads and writes. -/
def Program.traceItem (p : Program) (rounds : Nat) (fn : CheckedFn) (args : List Value)
    (item : WorkItem) : Traced Unit := do
  let _ ← Traced.run (Traced.call p item rounds maxCallDepth) item rounds fn.body (fn.frame args)

end KernelForge
