/-
Which accesses the bounds check lets through.

Offsets are machine integers.  A pointer that is moved, and then indexed, has an *exact*
offset, an integer without bounds; the machine knows it only modulo `2 ^ 64`.  The check
compares what the machine knows, and it adds the size of the element before it compares.  So
the check is right about every access but two kinds: one whose exact offset is so far outside
that it wraps into the memory, and one whose end wraps.  The first is let through, the second
stops the machine.  The theorem at the end says that these are all the exceptions.
-/
import KernelForge.Program.Run
import KernelForge.Proofs.Program.Operations

namespace KernelForge

/-! ### Types that memory holds -/

mutual

/-- Memory holds values of this type: no pointers and nothing void in it. -/
def Ty.isStored : Ty → Bool
  | .void | .pointer _ _ _ => false
  | .scalar _ | .vector _ _ => true
  | .tuple ts => Ty.areStored ts

def Ty.areStored : List Ty → Bool
  | [] => true
  | t :: ts => t.isStored && Ty.areStored ts

end

/-- The complaint of the bounds check. -/
def ExecError.isOutOfBounds : ExecError → Bool
  | .outOfBounds _ _ _ => true
  | _ => false

/-- The outcome within bounds: a result, if the type is stored, or else a complaint about it. -/
def Outcome.Answers {α : Type} : Bool → Outcome ExecError α → Prop
  | true, r => ∃ a, r = .ok a
  | false, r => ∃ c, r = .failed c ∧ c.isOutOfBounds = false

namespace Value

mutual

theorem decodeAt_ok : ∀ {t : Ty}, t.isStored = true → ∀ bs, ∃ v, decodeAt t bs = .ok v
  | .void, h, bs => by simp [Ty.isStored] at h
  | .scalar s, h, bs => ⟨_, rfl⟩
  | .vector s w, h, bs => ⟨_, rfl⟩
  | .tuple ts, h, bs => by
    simp only [Ty.isStored] at h
    obtain ⟨vs, hvs⟩ := decodeFields_ok h bs 0
    exact ⟨.record vs, by rw [decodeAt, hvs]⟩
  | .pointer t space readOnly, h, bs => by simp [Ty.isStored] at h

theorem decodeFields_ok : ∀ {ts : List Ty}, Ty.areStored ts = true → ∀ bs used,
    ∃ vs, decodeFields ts bs used = .ok vs
  | [], h, bs, used => ⟨_, rfl⟩
  | t :: ts, h, bs, used => by
    simp only [Ty.areStored, Bool.and_eq_true] at h
    obtain ⟨v, hv⟩ := decodeAt_ok h.1 ((bs.drop (alignUp used t.align)).take t.size)
    obtain ⟨vs, hvs⟩ := decodeFields_ok h.2 bs (alignUp used t.align + t.size)
    exact ⟨v :: vs, by simp only [decodeFields, hv, hvs]⟩

end

mutual

theorem decodeAt_error : ∀ {t : Ty}, t.isStored = false → ∀ bs,
    ∃ c, decodeAt t bs = .error c ∧ c.isOutOfBounds = false
  | .void, h, bs => ⟨_, rfl, rfl⟩
  | .scalar s, h, bs => by simp [Ty.isStored] at h
  | .vector s w, h, bs => by simp [Ty.isStored] at h
  | .tuple ts, h, bs => by
    simp only [Ty.isStored] at h
    obtain ⟨c, hc, hcause⟩ := decodeFields_error h bs 0
    exact ⟨c, by rw [decodeAt, hc], hcause⟩
  | .pointer t space readOnly, h, bs => ⟨_, rfl, rfl⟩

theorem decodeFields_error : ∀ {ts : List Ty}, Ty.areStored ts = false → ∀ bs used,
    ∃ c, decodeFields ts bs used = .error c ∧ c.isOutOfBounds = false
  | [], h, bs, used => by simp [Ty.areStored] at h
  | t :: ts, h, bs, used => by
    simp only [Ty.areStored, Bool.and_eq_false_iff] at h
    simp only [decodeFields]
    cases ht : t.isStored with
    | true =>
      obtain ⟨v, hv⟩ := decodeAt_ok ht ((bs.drop (alignUp used t.align)).take t.size)
      rcases h with h | h
      · rw [ht] at h
        cases h
      · obtain ⟨c, hc, hcause⟩ := decodeFields_error h bs (alignUp used t.align + t.size)
        exact ⟨c, by rw [hv, hc], hcause⟩
    | false =>
      obtain ⟨c, hc, hcause⟩ := decodeAt_error ht ((bs.drop (alignUp used t.align)).take t.size)
      exact ⟨c, by rw [hc], hcause⟩

end

mutual

theorem encodeAt_answers : ∀ {t : Ty} {v : Value}, Fits t v → ∀ (dst : Bytes) (offset : Nat),
    (encodeAt t v dst offset).2.Answers t.isStored
  | .void, v, h, dst, offset => by
    simp only [Fits] at h
    subst h
    exact ⟨_, rfl, rfl⟩
  | .scalar s, v, h, dst, offset => by
    simp only [Fits] at h
    obtain ⟨x, rfl, -⟩ := h
    exact ⟨_, rfl⟩
  | .vector s w, v, h, dst, offset => by
    simp only [Fits] at h
    obtain ⟨x, rfl, -⟩ := h
    exact ⟨_, rfl⟩
  | .tuple ts, v, h, dst, offset => by
    simp only [Fits] at h
    obtain ⟨vs, rfl, hvs⟩ := h
    simp only [encodeAt, Ty.isStored]
    exact encodeFields_answers hvs dst offset 0
  | .pointer t space readOnly, v, h, dst, offset => by
    simp only [Fits] at h
    obtain ⟨p, rfl⟩ := h
    exact ⟨_, rfl, rfl⟩

theorem encodeFields_answers : ∀ {ts : List Ty} {vs : List Value}, FitsAll ts vs →
    ∀ (dst : Bytes) (base used : Nat),
      (encodeFields ts vs dst base used).2.Answers (Ty.areStored ts)
  | [], vs, _, dst, base, used => by
    simp only [encodeFields]
    exact ⟨_, rfl⟩
  | t :: ts, [], h, dst, base, used => by simp [FitsAll] at h
  | t :: ts, v :: vs, h, dst, base, used => by
    simp only [FitsAll] at h
    have hv := encodeAt_answers h.1 dst (base + alignUp used t.align)
    simp only [encodeFields, Ty.areStored]
    cases ht : t.isStored with
    | true =>
      rw [ht] at hv
      obtain ⟨u, hu⟩ := hv
      rw [Bool.true_and]
      split
      · exact encodeFields_answers h.2 _ base _
      · rename_i hno
        exact (hno _ (Prod.ext rfl hu)).elim
    | false =>
      rw [ht] at hv
      obtain ⟨c, hc, hcause⟩ := hv
      rw [Bool.false_and]
      split
      · rename_i hok
        rw [hok] at hc
        cases hc
      · exact ⟨c, hc, hcause⟩

end

end Value

/-! ### The check on machine integers -/

namespace Store

/-- An access to `s` bytes at an exact offset lies in a memory of `n` bytes. -/
def InBounds (n s : Nat) (a : Int) : Prop := 0 ≤ a ∧ a + s ≤ n

/-- What the check makes of an access. -/
inductive Verdict where
  | granted
  | refused
  | overrun
deriving DecidableEq

/-- The verdict on an access at the offset `w`, as the machine knows it. -/
def verdict (n s : Nat) (w : Int) : Verdict :=
  if w < 0 then .refused
  else if 2 ^ 63 ≤ w + s then .overrun
  else if w + s ≤ n then .granted
  else .refused

/-- What becomes of an access with a verdict, `before` being the memories when it happens. -/
def Verdict.Gives {α : Type} (stored : Bool) (before : Store)
    (r : Outcome ExecError α × Store) : Verdict → Prop
  | .granted => r.1.Answers stored
  | .refused => (∃ c, r.1 = .failed c ∧ c.isOutOfBounds = true) ∧ r.2 = before
  | .overrun => r.1 = .crashed .overrun ∧ r.2 = before

/-- The end of an access, which wraps when it is too far. -/
theorem toInt_finish {o : BitVec 64} {s : Nat} (hs : s < 2 ^ 63) (ho : 0 ≤ o.toInt) :
    (o + BitVec.ofNat 64 s).toInt =
      if 2 ^ 63 ≤ o.toInt + s then o.toInt + s - 2 ^ 64 else o.toInt + s := by
  have hlt : o.toInt < 2 ^ 63 := BitVec.toInt_lt
  have hsize : (s : Int).bmod (2 ^ 64) = s := by
    rw [Int.bmod_def]
    split <;> omega
  rw [BitVec.toInt_add, BitVec.toInt_ofNat', hsize, Int.bmod_def]
  split <;> split <;> omega

theorem access_eq {n s : Nat} {o : BitVec 64} (hn : n < 2 ^ 63) (hs : s < 2 ^ 63) :
    access n o s =
      match verdict n s o.toInt with
      | .granted => .inside o.toNat
      | .refused => .outside
      | .overrun => .wrapped := by
  unfold access verdict
  by_cases ho : o.toInt < 0
  · rw [if_pos ho]
    exact if_pos (Or.inl ho)
  · have hfinish := toInt_finish hs (Int.not_lt.mp ho)
    have hlt : o.toInt < 2 ^ 63 := BitVec.toInt_lt
    rw [if_neg ho]
    by_cases hend : 2 ^ 63 ≤ o.toInt + s
    · rw [if_pos hend] at hfinish ⊢
      rw [if_neg (by omega), if_pos (by omega)]
    · rw [if_neg hend] at hfinish ⊢
      by_cases hfit : o.toInt + s ≤ n
      · rw [if_pos hfit, if_neg (by omega), if_neg (by omega)]
      · rw [if_neg hfit, if_pos (by omega)]

variable {m : Nat} {o : BitVec 64} {t : Ty} {st : Store}

theorem load_gives (hn : (st.getD m #[]).size < 2 ^ 63) (ht : t.size < 2 ^ 63) :
    (verdict (st.getD m #[]).size t.size o.toInt).Gives t.isStored st (st.load m o t, st) := by
  simp only [load, access_eq hn ht]
  cases verdict (st.getD m #[]).size t.size o.toInt with
  | granted =>
    show Outcome.Answers _ _
    cases hstored : t.isStored with
    | true =>
      obtain ⟨v, hv⟩ := Value.decodeAt_ok hstored (Bytes.slice (st.getD m #[]) o.toNat t.size)
      exact ⟨v, by simp only [Value.decode, hv]⟩
    | false =>
      obtain ⟨c, hc, hcause⟩ :=
        Value.decodeAt_error hstored (Bytes.slice (st.getD m #[]) o.toNat t.size)
      exact ⟨c, by simp only [Value.decode, hc], hcause⟩
  | refused => exact ⟨⟨_, rfl, rfl⟩, rfl⟩
  | overrun => exact ⟨rfl, rfl⟩

theorem store_gives (hn : (st.getD m #[]).size < 2 ^ 63) (ht : t.size < 2 ^ 63) {v : Value}
    (hv : v.Fits t) :
    (verdict (st.getD m #[]).size t.size o.toInt).Gives t.isStored st
      (Exec.store m o t v st) := by
  simp only [Exec.store, store, access_eq hn ht]
  cases verdict (st.getD m #[]).size t.size o.toInt with
  | granted => exact Value.encodeAt_answers hv _ _
  | refused => exact ⟨⟨_, rfl, rfl⟩, rfl⟩
  | overrun => exact ⟨rfl, rfl⟩

/-- An access overruns a memory when its end is too far for an integer of the machine. -/
def Overruns (s : Nat) (w : Int) : Prop := 0 ≤ w ∧ 2 ^ 63 ≤ w + s

theorem verdict_eq_overrun {n s : Nat} {w : Int} : verdict n s w = .overrun ↔ Overruns s w := by
  unfold verdict Overruns
  split
  · simp
    omega
  · split
    · simp
      omega
    · split <;> simp <;> omega

theorem Verdict.Gives.overrun_iff {α : Type} {v : Verdict} {stored : Bool} {before : Store}
    {r : Outcome ExecError α × Store} (h : v.Gives stored before r) :
    r.1 = .crashed .overrun ↔ v = .overrun := by
  obtain ⟨r, st'⟩ := r
  cases v with
  | granted =>
    cases stored with
    | true =>
      obtain ⟨a, rfl⟩ := h
      simp
    | false =>
      obtain ⟨c, rfl, -⟩ := h
      simp
  | refused =>
    obtain ⟨⟨c, rfl, -⟩, -⟩ := h
    simp
  | overrun =>
    obtain ⟨rfl, -⟩ := h
    simp

/-- What comes after a granted access decides its outcome; any other outcome stays. -/
theorem Verdict.Gives.bind {α β : Type} {v : Verdict} {stored : Bool} {x : Exec α}
    {f : α → Exec β} (h : v.Gives stored st (x st))
    (hok : ∀ a st', x st = (.ok a, st') → v = .granted → stored = true →
      (f a st').1.Answers stored) : v.Gives stored st ((x >>= f) st) := by
  generalize hr : x st = r at h
  obtain ⟨r, st'⟩ := r
  cases v with
  | granted =>
    cases stored with
    | true =>
      obtain ⟨a, rfl⟩ := h
      rw [Exec.bind_ok hr]
      exact hok a st' hr rfl rfl
    | false =>
      obtain ⟨c, rfl, hcause⟩ := h
      rw [Exec.bind_failed hr]
      exact ⟨c, rfl, hcause⟩
  | refused =>
    obtain ⟨⟨c, rfl, hcause⟩, hst⟩ := h
    rw [Exec.bind_failed hr]
    exact ⟨⟨c, rfl, hcause⟩, hst⟩
  | overrun =>
    obtain ⟨rfl, hst⟩ := h
    rw [Exec.bind_crashed hr]
    exact ⟨rfl, hst⟩

/-! ### The check against exact offsets -/

/-- The outcome that an access with an exact offset should have. -/
def Exact {α : Type} (n s : Nat) (a : Int) (before : Store)
    (r : Outcome ExecError α × Store) : Prop :=
  (InBounds n s a → ∃ v, r.1 = .ok v) ∧
    (¬ InBounds n s a → (∃ c, r.1 = .failed c ∧ c.isOutOfBounds = true) ∧ r.2 = before)

/-- The accesses that the check gets wrong: the offset wraps into the memory, or the end wraps. -/
def Escapes (n s : Nat) (a : Int) : Prop :=
  0 ≤ a.bmod (2 ^ 64) ∧
    ((a.bmod (2 ^ 64) ≠ a ∧ a.bmod (2 ^ 64) + s ≤ n) ∨ 2 ^ 63 ≤ a.bmod (2 ^ 64) + s)

instance (n s : Nat) (a : Int) : Decidable (InBounds n s a) :=
  inferInstanceAs (Decidable (_ ∧ _))

instance (n s : Nat) (a : Int) : Decidable (Escapes n s a) :=
  inferInstanceAs (Decidable (_ ∧ _))

/-- How the verdict on what the machine knows compares with the exact offset. -/
theorem verdict_cases {n : Nat} (hn : n < 2 ^ 63) (s : Nat) (a : Int) :
    (InBounds n s a ∧ ¬ Escapes n s a ∧ verdict n s (a.bmod (2 ^ 64)) = .granted) ∨
    (¬ InBounds n s a ∧ ¬ Escapes n s a ∧ verdict n s (a.bmod (2 ^ 64)) = .refused) ∨
    (¬ InBounds n s a ∧ Escapes n s a ∧ verdict n s (a.bmod (2 ^ 64)) ≠ .refused) := by
  -- An offset within bounds is one that the machine knows exactly.
  have hknown : InBounds n s a → a.bmod (2 ^ 64) = a := by
    rintro ⟨hlo, hhi⟩
    rw [Int.bmod_def]
    split <;> omega
  unfold verdict Escapes
  unfold InBounds at hknown ⊢
  generalize a.bmod (2 ^ 64) = w at hknown ⊢
  by_cases hneg : w < 0
  · rw [if_pos hneg]
    exact Or.inr (Or.inl ⟨by omega, by omega, rfl⟩)
  · rw [if_neg hneg]
    by_cases hend : 2 ^ 63 ≤ w + s
    · rw [if_pos hend]
      exact Or.inr (Or.inr ⟨by omega, by omega, by decide⟩)
    · rw [if_neg hend]
      by_cases hfit : w + s ≤ n
      · rw [if_pos hfit]
        by_cases hwrap : w = a
        · exact Or.inl ⟨by omega, by omega, rfl⟩
        · exact Or.inr (Or.inr ⟨by omega, by omega, by decide⟩)
      · rw [if_neg hfit]
        exact Or.inr (Or.inl ⟨by omega, by omega, rfl⟩)

theorem Verdict.Gives.refused {α : Type} {stored : Bool} {before : Store}
    {r : Outcome ExecError α × Store} {v : Verdict} (h : v.Gives stored before r)
    {c : ExecError} (hc : r.1 = .failed c) (hcause : c.isOutOfBounds = true) : v = .refused := by
  cases v with
  | granted =>
    have hans : r.1.Answers stored := h
    rw [hc] at hans
    cases stored with
    | true =>
      obtain ⟨a, ha⟩ := hans
      cases ha
    | false =>
      obtain ⟨c', hc', hcause'⟩ := hans
      cases hc'
      rw [hcause] at hcause'
      cases hcause'
  | refused => rfl
  | overrun =>
    rw [h.1] at hc
    cases hc

/-- The check is exact except for accesses that escape it, and for values that are not stored,
which fail within bounds. -/
theorem Verdict.Gives.exact_iff {α : Type} {n s : Nat} {a : Int} {stored : Bool} {before : Store}
    {r : Outcome ExecError α × Store} (hn : n < 2 ^ 63)
    (h : (verdict n s (a.bmod (2 ^ 64))).Gives stored before r) :
    Exact n s a before r ↔ ¬ Escapes n s a ∧ (InBounds n s a → stored = true) := by
  rcases verdict_cases hn s a with ⟨hin, hesc, hv⟩ | ⟨hout, hesc, hv⟩ | ⟨hout, hesc, hv⟩
  · rw [hv] at h
    constructor
    · intro hexact
      obtain ⟨v, hok⟩ := hexact.1 hin
      refine ⟨hesc, fun _ => ?_⟩
      cases stored with
      | true => rfl
      | false =>
        obtain ⟨c, hc, -⟩ := h
        rw [hok] at hc
        cases hc
    · rintro ⟨-, hstored⟩
      rw [hstored hin] at h
      exact ⟨fun _ => h, fun hout => absurd hin hout⟩
  · rw [hv] at h
    exact ⟨fun _ => ⟨hesc, fun hin => absurd hin hout⟩,
      fun _ => ⟨fun hin => absurd hin hout, fun _ => h⟩⟩
  · constructor
    · intro hexact
      obtain ⟨⟨c, hc, hcause⟩, -⟩ := hexact.2 hout
      exact absurd (h.refused hc hcause) hv
    · rintro ⟨hno, -⟩
      exact absurd hesc hno

end Store

/-! ### Pointers that come from an argument -/

/-- A pointer made from the argument that is the memory `m`, by moves, with its exact offset. -/
inductive Pointer.From (m : Nat) : Pointer → Int → Prop
  | argument : Pointer.From m ⟨some m, 0⟩ 0
  | moved {p : Pointer} {a : Int} (h : Pointer.From m p a) (i : BitVec 64) (stride : Int) :
      Pointer.From m { p with offset := p.offset + i * BitVec.ofInt 64 stride }
        (a + i.toInt * stride)

theorem Pointer.From.known {m : Nat} {p : Pointer} {a : Int} (h : p.From m a) :
    p.memory? = some m ∧ p.offset = BitVec.ofInt 64 a := by
  induction h with
  | argument => exact ⟨rfl, rfl⟩
  | @moved p a h i stride ih =>
    refine ⟨ih.1, ?_⟩
    show p.offset + i * BitVec.ofInt 64 stride = _
    rw [ih.2, BitVec.ofInt_add, BitVec.ofInt_mul, BitVec.ofInt_toInt]

section Access

variable {call : Caller} {f : Frame} {ptr index : Term} {p : Pointer} {i : BitVec 64}

/-- A pointer and an index have been evaluated, in this order. -/
def Subscript (call : Caller) (f : Frame) (ptr index : Term) (p : Pointer) (i : BitVec 64)
    (st st' : Store) : Prop :=
  ∃ mid, ptr.eval call f st = (.ok (.pointer p), mid) ∧
    index.eval call f mid = (.ok (.lanes .int64 (.atom i)), st')

theorem locate_deref {m : Nat} (hm : p.memory? = some m) {st st' : Store}
    (h : Subscript call f ptr index p i st st') (elem : Ty) :
    (Place.deref elem ptr index).locate call f st =
      (.ok (.mem m (p.offset + i * BitVec.ofNat 64 elem.size) elem), st') := by
  obtain ⟨mid, hptr, hindex⟩ := h
  have hword : (Value.lanes .int64 (.atom i)).toWord .w64 true st' = (.ok i, st') := rfl
  have hpointer : (Value.pointer p).toPointer st' = (.ok p, st') := rfl
  rw [Place.locate, Exec.bind_ok hptr, Exec.bind_ok hindex, Exec.bind_ok hword,
    Exec.bind_ok hpointer, hm]
  rfl

/-- An access to the element of a pointer at an index: `before` are the memories when all that
it needs has been evaluated, and `r` is its outcome. -/
inductive Access (call : Caller) (f : Frame) (elem : Ty) (p : Pointer) (i : BitVec 64) :
    {α : Type} → (before : Store) → (r : Outcome ExecError α × Store) → Prop
  | load {ptr index : Term} {st st' : Store} (h : Subscript call f ptr index p i st st') :
      Access call f elem p i st' ((Term.load (.deref elem ptr index)).eval call f st)
  | store {ptr index x : Term} {rounds : Nat} {v : Value} {st mid st' : Store}
      (hcurrent : f.current? = none) (hx : x.eval call f st = (.ok v, mid)) (hv : v.Fits elem)
      (h : Subscript call f ptr index p i mid st') :
      Access call f elem p i st'
        ((Action.assign (.deref elem ptr index) x).run call f.item rounds f.vars st)
  | atomic {ptr index : Term} {fn : AtomicFn} {s : Scalar} {args : List Term} {vs : List Value}
      {st mid st' : Store} (helem : elem = .scalar s) (hs : Value.IsWord s)
      (hcount : vs.length + 1 = fn.arity) (h : Subscript call f ptr index p i st mid)
      (hargs : Term.evalAll call f args mid = (.ok vs, st')) (hvs : ∀ v ∈ vs, v.Fits (.scalar s)) :
      Access call f elem p i st'
        ((Term.atomic fn s (.address (.deref elem ptr index)) args).eval call f st)

/-- A load or a store through a location does what the verdict says. -/
theorem Access.gives {m : Nat} (hm : p.memory? = some m) {elem : Ty} {α : Type} {before : Store}
    {r : Outcome ExecError α × Store} (h : Access call f elem p i before r)
    (hn : (before.getD m #[]).size < 2 ^ 63) (ht : elem.size < 2 ^ 63) :
    (Store.verdict (before.getD m #[]).size elem.size
      (p.offset + i * BitVec.ofNat 64 elem.size).toInt).Gives elem.isStored before r := by
  generalize hoff : p.offset + i * BitVec.ofNat 64 elem.size = o
  cases h with
  | load h =>
    rw [Term.eval, Exec.bind_ok (locate_deref hm h elem), hoff]
    exact Store.load_gives hn ht
  | @store ptr index x rounds v st mid st' hcurrent hx hv h =>
    have hf : f = { item := f.item, vars := f.vars } := by
      cases f
      cases hcurrent
      rfl
    rw [hf] at hx h
    have hstore := Store.store_gives (o := o) hn ht hv
    rw [Action.run, Exec.bind_ok hx, Exec.bind_ok (locate_deref hm h elem), hoff]
    refine Store.Verdict.Gives.bind (Store.Verdict.Gives.bind hstore ?_) ?_
    · intro u st'' _ _ hstored
      rw [hstored]
      exact ⟨f.vars, rfl⟩
    · intro vars st'' _ _ hstored
      rw [hstored]
      exact ⟨(.next, vars), rfl⟩
  | @atomic ptr index fn s args vs st mid st' helem hs hcount h hargs hvs =>
    subst helem
    have hptr : (Term.address (.deref (.scalar s) ptr index)).eval call f st =
        (.ok (.pointer ⟨some m, o⟩), mid) := by
      rw [Term.eval, Exec.bind_ok (locate_deref hm h _), hoff]
      rfl
    have hpointer : (Value.pointer ⟨some m, o⟩).toPointer before = (.ok ⟨some m, o⟩, before) := rfl
    rw [Term.eval, Exec.bind_ok hptr, Exec.bind_ok hargs, Exec.bind_ok hpointer]
    refine Store.Verdict.Gives.bind (Store.load_gives hn ht) ?_
    intro old st'' hload hv _
    -- The memories are as before, so the store gets the verdict that the load got.
    obtain ⟨hok, rfl⟩ := Prod.mk.inj hload
    have hold : old.Fits (.scalar s) := by
      have hsound := Exec.safe_load m o (.scalar s) before
      rw [show (Exec.load m o (.scalar s) before).1 = .ok old from hok] at hsound
      exact hsound
    obtain ⟨next, hnext, hfits⟩ := Value.atomicNext_ok hs hold hcount hvs
    have hstore := Store.store_gives (o := o) hn ht hfits
    rw [hv] at hstore
    obtain ⟨u, hu⟩ := hstore
    have hpure : Exec.pure next before = (.ok next, before) := rfl
    rw [hnext, Exec.bind_ok hpure, Exec.bind_ok (Prod.ext hu rfl)]
    exact ⟨old, rfl⟩

/-- **The bounds check is exact but for the accesses that escape it.**  An access through a
pointer that comes from an argument is decided by what is left of its exact offset modulo
`2 ^ 64`.  It is granted within bounds, and refused outside with the memories untouched, if
and only if it does not escape; within bounds, values of types that are not stored fail. -/
theorem access_exact_iff {m : Nat} {a : Int} (hp : p.From m a) {elem : Ty} {α : Type}
    {before : Store} {r : Outcome ExecError α × Store} (h : Access call f elem p i before r)
    (hn : (before.getD m #[]).size < 2 ^ 63) (ht : elem.size < 2 ^ 63) :
    let n := (before.getD m #[]).size
    let s := elem.size
    let exact := a + i.toInt * s
    (Store.verdict n s (exact.bmod (2 ^ 64))).Gives elem.isStored before r ∧
      (Store.Exact n s exact before r ↔
        ¬ Store.Escapes n s exact ∧ (Store.InBounds n s exact → elem.isStored = true)) := by
  intro n s exact
  obtain ⟨hm, hoff⟩ := hp.known
  have hmachine : (p.offset + i * BitVec.ofNat 64 s).toInt = exact.bmod (2 ^ 64) := by
    rw [hoff, ← BitVec.toInt_ofInt, BitVec.ofInt_add, BitVec.ofInt_mul, BitVec.ofInt_toInt,
      BitVec.ofInt_natCast]
  have hgives := h.gives hm hn ht
  rw [hmachine] at hgives
  exact ⟨hgives, hgives.exact_iff hn⟩

end Access

/-- A memory of two integers. -/
def twoInts : Store := #[Array.replicate 8 0]

/-- The variable `0` points to the first memory. -/
def pointerFrame : Frame := { item := default, vars := #[.pointer ⟨some 0, 0⟩] }

/-- Stores `7` at the index `2 ^ 62` of what the variable `0` points to. -/
def farStore : Action :=
  .assign (.deref (.scalar .int) (.var 0) (.const .int64 (.atom 0x4000000000000000#64)))
    (.const .int32 (.atom (7 : BitVec 32)))

/-- The index `2 ^ 62` is out of bounds by far, but its exact offset is `2 ^ 64`, which wraps to
zero: the store is let through. -/
theorem farStore_not_exact :
    ¬ Store.Exact 8 4 (2 ^ 64) twoInts
      (farStore.run (fun _ _ => .crash) pointerFrame.item 0 pointerFrame.vars twoInts) := by
  have haccess : Access (fun _ _ => .crash) pointerFrame (.scalar .int) ⟨some 0, 0⟩
      0x4000000000000000#64 twoInts
      (farStore.run (fun _ _ => .crash) pointerFrame.item 0 pointerFrame.vars twoInts) :=
    .store rfl rfl (Value.fits_scalar .int _) ⟨twoInts, rfl, rfl⟩
  have hiff := (access_exact_iff .argument haccess (by decide) (by decide)).2
  have hoffset : 0 + (0x4000000000000000#64).toInt * ((Ty.scalar .int).size : Int) = 2 ^ 64 := by
    decide
  rw [hoffset] at hiff
  exact fun hexact => (hiff.mp hexact).1 (by decide)

end KernelForge
