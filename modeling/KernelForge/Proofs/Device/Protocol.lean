/-
The protocol of a queue that fails.

Commands run in the order in which they were enqueued, each once.  From the failure of a command
until a client reports it no command runs: each fails in its place and names that failure.  Every
failure is on the queue or has been reported by one client, the first that looked for it; after
that commands run as before.
-/
import KernelForge.Proofs.Device.Queues
import Mathlib.Data.List.Induction

namespace KernelForge.SharedQueue

open Queue (Taken)
open History

variable {st : Store} {h : List Moment} {s s' : SharedQueue} {m : Moment}

/-! ### Faults between moments -/

/-- Without a failure no fault comes up. -/
theorem outstanding_foldl {mid : List Moment} {a : FaultAccount} (ha : a.outstanding? = none)
    (hmid : ∀ m ∈ mid, m.failure? = none) : (mid.foldl FaultAccount.add a).outstanding? = none := by
  induction mid generalizing a with
  | nil => exact ha
  | cons m mid ih =>
    refine ih ?_ fun x hx => hmid x (List.mem_cons_of_mem _ hx)
    have hm := hmid m List.mem_cons_self
    rcases m with _ | _ | _ | _ | ⟨t, _ | f⟩ | _ | _ | _ | _
    case noted.some => cases hm
    all_goals simp [ha]

theorem reports_foldl (mid : List Moment) (a : FaultAccount) :
    a.reports ⊆ (mid.foldl FaultAccount.add a).reports := by
  induction mid generalizing a with
  | nil => exact List.Subset.refl _
  | cons m mid ih =>
    refine List.Subset.trans ?_ (ih (a.add m))
    rcases m with _ | _ | _ | _ | ⟨t, _ | f⟩ | _ | _ | _ | _ <;> simp

theorem account_append (h h' : List Moment) :
    account (h ++ h') = h'.foldl FaultAccount.add (account h) := List.foldl_append

/-- A command that leaves a fault ran when there was none, and there is none still. -/
theorem Story.alone {before after : List Moment} {t : Taken} {f : Fault}
    (hs : Story st (before ++ .noted t (some f) :: after) s) :
    t.earlier? = none ∧ (∃ st₁ st₂, .executed t st₁ (.error f) st₂ ∈ before) ∧
      (account before).outstanding? = none := by
  obtain ⟨s₁, s₂, hs₁, hm, -⟩ := hs.split
  generalize hf : some f = f? at hm
  cases hm with
  | @note _ r hworker =>
    have hc := hs₁.coherent
    obtain ⟨hearlier, rfl⟩ := Queue.Taken.fault?_eq_some.mp hf.symm
    have hwork := hc.work
    rw [hworker] at hwork
    have hnone := hc.faults.room t (by rw [hworker]; rfl) hearlier
    rw [hc.faults.fault, FaultAccount.fault?, Option.map_eq_none_iff] at hnone
    exact ⟨hearlier, hwork.2, hnone⟩

/-- A fault stays until a client reports. -/
theorem Story.outstanding {before mid after : List Moment} {t : Taken} {f : Fault}
    (hs : Story st (before ++ .noted t (some f) :: (mid ++ after)) s)
    (hmid : ∀ m ∈ mid, m.isReport = false) :
    (account (before ++ .noted t (some f) :: mid)).outstanding? = some (t.event, f) := by
  induction mid using List.reverseRecOn generalizing after with
  | nil => simp
  | append_singleton mid m ih =>
    have hsplit : Story st (before ++ .noted t (some f) :: (mid ++ m :: after)) s := by simpa using hs
    have hprev := ih hsplit fun x hx => hmid x (by simp [hx])
    have hm := hmid m (by simp)
    have hassoc : before ++ .noted t (some f) :: (mid ++ [m]) =
        (before ++ .noted t (some f) :: mid) ++ [m] := by simp
    rw [hassoc, account_snoc]
    rcases m with _ | _ | _ | _ | ⟨t', _ | f'⟩ | _ | _ | _ | _
    case noted.some =>
      have hlater : Story st ((before ++ .noted t (some f) :: mid) ++ .noted t' (some f') :: after) s := by
        simpa using hs
      have halone := hlater.alone.2.2
      rw [hprev] at halone
      cases halone
    case reported => cases hm
    all_goals simpa using hprev

/-! ### What single moments show -/

section

variable {before mid after : List Moment} {t : Taken} {event : Nat} {r : Completion}
  {fault? : Option Fault}

/-- A command is taken with the fault that has not been reported. -/
theorem Story.earlier (hs : Story st (before ++ .taken t :: after) s) :
    t.earlier? = (account before).fault? := by
  obtain ⟨s₁, s₂, hs₁, hm, -⟩ := hs.split
  cases hm with
  | take _ hq => rw [(Queue.take_eq_some.mp hq).2.1, hs₁.coherent.faults.fault]

/-- A command is executed as it was taken. -/
theorem Story.run {st₁ st₂ : Store} (hs : Story st (before ++ .executed t st₁ r st₂ :: after) s) :
    .taken t ∈ before ∧ (r, st₂) = t.run st₁ := by
  obtain ⟨s₁, s₂, hs₁, hm, -⟩ := hs.split
  cases hm with
  | execute hworker =>
    have hwork := hs₁.coherent.work
    rw [hworker] at hwork
    exact ⟨hwork, rfl⟩

theorem Story.over (hs : Story st (before ++ .told event r :: after) s) :
    ∃ t st₁ st₂, t.event = event ∧ .executed t st₁ r st₂ ∈ before ∧ .noted t (t.fault? r) ∈ before := by
  obtain ⟨s₁, s₂, hs₁, hm, -⟩ := hs.split
  cases hm with
  | @tell t _ hworker =>
    have hwork := hs₁.coherent.work
    rw [hworker] at hwork
    obtain ⟨hnoted, st₁, st₂, hexecuted⟩ := hwork
    exact ⟨t, st₁, st₂, rfl, hexecuted, hnoted⟩

theorem Story.report (hs : Story st (before ++ .reported event fault? :: after) s) :
    fault? = (account before).fault? := by
  obtain ⟨s₁, s₂, hs₁, hm, -⟩ := hs.split
  cases hm with
  | report _ _ _ => exact hs₁.coherent.faults.fault

theorem Story.firstReport {f : Fault}
    (hs : Story st (before ++ .noted t (some f) :: (mid ++ .reported event fault? :: after)) s)
    (hmid : ∀ m ∈ mid, m.isReport = false) :
    fault? = some f ∧ (event, t.event) ∈
      (account (before ++ .noted t (some f) :: (mid ++ .reported event fault? :: after))).reports := by
  have hout := hs.outstanding hmid
  have hassoc : before ++ .noted t (some f) :: (mid ++ .reported event fault? :: after) =
      (before ++ .noted t (some f) :: mid) ++ .reported event fault? :: after := by simp
  rw [hassoc] at hs ⊢
  refine ⟨?_, ?_⟩
  · rw [hs.report, FaultAccount.fault?, hout]
    rfl
  · rw [account_append, List.foldl_cons]
    refine reports_foldl after _ ?_
    simp [hout]

theorem Story.clear
    (hs : Story st (before ++ .reported event fault? :: (mid ++ .taken t :: after)) s)
    (hmid : ∀ m ∈ mid, m.failure? = none) : t.earlier? = none := by
  have hs' : Story st ((before ++ .reported event fault? :: mid) ++ .taken t :: after) s := by
    simpa using hs
  rw [hs'.earlier, FaultAccount.fault?, account_append, List.foldl_cons, outstanding_foldl rfl hmid]
  rfl

end

/-! ### The worker gets on -/

/-- The moments that the worker needs until nothing waits. -/
def left (s : SharedQueue) : Nat :=
  4 * s.queue.pending.length +
    match s.worker with
    | .idle => 0
    | .noted _ _ => 1
    | .ran _ _ => 2
    | .holding _ => 3

theorem exists_work (s : SharedQueue) (hleft : 0 < s.left) :
    ∃ m s', Step s m s' ∧ m.isWork = true ∧ s'.left < s.left := by
  cases hworker : s.worker with
  | idle =>
    cases htake : s.queue.take with
    | none =>
      cases hpending : s.queue.pending with
      | nil => simp [left, hworker, hpending] at hleft
      | cons p ps => simp [Queue.take, hpending] at htake
    | some r =>
      refine ⟨_, _, .take hworker htake, rfl, ?_⟩
      simp only [left, hworker, (Queue.take_eq_some.mp htake).1, List.length_cons]
      omega
  | holding t => exact ⟨_, _, .execute hworker, rfl, by simp [left, hworker]⟩
  | ran t r => exact ⟨_, _, .note hworker, rfl, by simp [left, hworker]⟩
  | noted t r => exact ⟨_, _, .tell hworker, rfl, by simp [left, hworker]⟩

/-- **The worker alone brings every command to its end.** -/
theorem Story.exists_rest (hs : Story st h s) :
    ∃ rest s', Story st (h ++ rest) s' ∧ (∀ m ∈ rest, m.isWork = true) ∧ s'.left = 0 := by
  induction hn : s.left using Nat.strongRecOn generalizing h s with
  | ind n ih =>
    rcases Nat.eq_zero_or_pos s.left with hzero | hpos
    · exact ⟨[], s, by simpa using hs, List.forall_mem_nil _, hzero⟩
    · obtain ⟨m, s₁, hm, hwork, hlt⟩ := exists_work s hpos
      obtain ⟨rest, s', hs', hrest, hdone⟩ := ih _ (hn ▸ hlt) (hs.next hm) rfl
      refine ⟨m :: rest, s', by simpa using hs', ?_, hdone⟩
      simpa using And.intro hwork hrest

theorem enqueued_work {rest : List Moment} (hrest : ∀ m ∈ rest, m.isWork = true) :
    enqueued (h ++ rest) = enqueued h := by
  have hnil : rest.filterMap Moment.enqueued? = [] := by
    refine List.filterMap_eq_nil_iff.mpr fun m hm => ?_
    have hwork := hrest m hm
    cases m <;> first | rfl | cases hwork
  rw [enqueued, List.filterMap_append, hnil, List.append_nil, enqueued]

/-- A queue with nothing left to do has executed every command and told every event. -/
theorem Coherent.done (hc : Coherent h s) (hleft : s.left = 0) :
    executed h = enqueued h ∧ History.told h = (enqueued h).map Prod.fst := by
  have hpending : s.queue.pending = [] := by
    rw [← List.length_eq_zero_iff]
    unfold left at hleft
    omega
  have hidle : s.worker = .idle := by
    unfold left at hleft
    split at hleft <;> first | assumption | omega
  have horder : executed h = enqueued h := by
    simp [hc.order.order, hidle, hpending, Worker.held]
  refine ⟨horder, ?_⟩
  rw [← horder, hc.order.events, hc.order.told, hidle]
  simp [Worker.untold]

/-! ### The protocol -/

/-- The protocol of a queue, as its histories show it. -/
structure Protocol (h : List Moment) : Prop where
  /-- Commands are executed in their order, -/
  inOrder : executed h <+: enqueued h
  /-- and each of them once. -/
  once : ((enqueued h).map Prod.fst).Nodup
  /-- A command is taken together with the fault that has not been reported then. -/
  taken : ∀ {before after : List Moment} {t : Taken}, h = before ++ .taken t :: after →
    t.earlier? = (account before).fault?
  executed : ∀ {t : Taken} {st₁ st₂ : Store} {r : Completion}, .executed t st₁ r st₂ ∈ h →
    .taken t ∈ h ∧
      -- with an earlier fault it does not run, and names that fault;
      (∀ f, t.earlier? = some f → st₂ = st₁ ∧
        r = .error (.execution t.command.name (.within "a previous command failed" f))) ∧
      -- without one it runs
      (t.earlier? = none → st₂ = (t.command.execute st₁).2 ∧ r = t.command.completion st₁)
  /-- The event of a command carries how it ended, and by then its fault is on the queue. -/
  told : ∀ {before after : List Moment} {event : Nat} {r : Completion},
    h = before ++ .told event r :: after →
      ∃ t st₁ st₂, t.event = event ∧ .executed t st₁ r st₂ ∈ before ∧ .noted t (t.fault? r) ∈ before
  /-- Only a command that ran and failed leaves a fault, and it finds none in its place. -/
  noted : ∀ {before after : List Moment} {t : Taken} {f : Fault},
    h = before ++ .noted t (some f) :: after →
      t.earlier? = none ∧ (∃ st₁ st₂, .executed t st₁ (.error f) st₂ ∈ before) ∧
        (account before).outstanding? = none
  /-- A client reports the fault that has not been reported yet. -/
  reported : ∀ {before after : List Moment} {event : Nat} {fault? : Option Fault},
    h = before ++ .reported event fault? :: after → fault? = (account before).fault?
  /-- The first client that reports after a failure reports that failure. -/
  first : ∀ {before mid after : List Moment} {t : Taken} {f : Fault} {event : Nat}
    {fault? : Option Fault},
    h = before ++ .noted t (some f) :: (mid ++ .reported event fault? :: after) →
      (∀ m ∈ mid, m.isReport = false) →
        fault? = some f ∧ (event, t.event) ∈ (account h).reports
  /-- Every failure has been reported or is the outstanding one; -/
  settled : failures h =
    (account h).reports.map Prod.snd ++ (account h).outstanding?.toList.map Prod.fst
  /-- it is reported once, -/
  reportedOnce : ((account h).reports.map Prod.snd).Nodup
  /-- and a client reports no more than one. -/
  oneEach : ((account h).reports.map Prod.fst).Nodup
  /-- After a report commands run again until the next failure. -/
  cleared : ∀ {before mid after : List Moment} {t : Taken} {event : Nat} {fault? : Option Fault},
    h = before ++ .reported event fault? :: (mid ++ .taken t :: after) →
      (∀ m ∈ mid, m.failure? = none) → t.earlier? = none

/-- **Every queue keeps the protocol**, however its clients and its worker act between each
other, and the worker alone brings every command that has been enqueued to its end. -/
theorem queue_keeps_protocol (hs : Story st h s) :
    Protocol h ∧
      ∃ rest s', Story st (h ++ rest) s' ∧ (∀ m ∈ rest, m.isWork = true) ∧
        executed (h ++ rest) = enqueued h ∧ History.told (h ++ rest) = (enqueued h).map Prod.fst := by
  have hc := hs.coherent
  constructor
  · refine
      { inOrder := ⟨_, hc.order.order.symm⟩
        once := hc.order.nodup
        taken := ?taken
        executed := ?executed
        told := fun heq => Story.over (heq ▸ hs)
        noted := fun heq => Story.alone (heq ▸ hs)
        reported := fun heq => Story.report (heq ▸ hs)
        first := ?first
        settled := hc.reports.failures
        reportedOnce := (hc.reports.failures ▸ hc.reports.once).of_append_left
        oneEach := hc.reports.clients.of_append_right
        cleared := fun heq hmid => Story.clear (heq ▸ hs) hmid }
    case taken => exact fun heq => Story.earlier (heq ▸ hs)
    case first =>
      rintro before mid after t f event fault? rfl hmid
      exact hs.firstReport hmid
    case executed =>
      intro t st₁ st₂ r hmem
      obtain ⟨before, after, rfl⟩ := List.append_of_mem hmem
      obtain ⟨htaken, hrun⟩ := hs.run
      refine ⟨List.mem_append_left _ htaken, fun f hf => ?_, fun hnone => ?_⟩
      · rw [Taken.run_of_some hf] at hrun
        exact ⟨congrArg Prod.snd hrun, congrArg Prod.fst hrun⟩
      · rw [Taken.run_of_none hnone] at hrun
        exact ⟨congrArg Prod.snd hrun, congrArg Prod.fst hrun⟩
  · obtain ⟨rest, s', hs', hrest, hdone⟩ := hs.exists_rest
    obtain ⟨hexecuted, htold⟩ := hs'.coherent.done hdone
    rw [enqueued_work hrest] at hexecuted htold
    exact ⟨rest, s', hs', hrest, hexecuted, htold⟩

/-- Stores `7` behind the end of a memory of eight bytes. -/
def strayKernel : CheckedFn where
  name := "stray"
  isKernel := true
  result := .void
  params := [("a", .pointer (.scalar .int) .global false)]
  slots := 1
  body := .assign (.deref (.scalar .int) (.var 0) (.const .int64 (.atom 2#64)))
    (.const .int32 (.atom (7 : BitVec 32)))

/-- Runs that kernel on the first memory. -/
def strayRun : Command :=
  .run { source := [], fp64 := false, funcs := [strayKernel] } strayKernel [{ memory? := some 0 }] 0 1 .alone

/-- The worker's moments for the first command that waits. -/
theorem Story.round {q : Queue} {t : Taken} (hs : Story st h s) (hidle : s.worker = .idle)
    (hq : s.queue.take = some (t, q)) :
    let r := t.run s.memories
    Story st (h ++ [Moment.taken t, .executed t s.memories r.1 r.2, .noted t (t.fault? r.1),
        .told t.event r.1])
      { s with
        queue := q.note (t.fault? r.1)
        memories := r.2
        worker := .idle
        told := s.told ++ [t.event] } := by
  have hround := (((hs.next (.take hidle hq)).next (.execute rfl)).next (.note rfl)).next (.tell rfl)
  simpa [hidle] using hround

/-- A kernel fails, so the write behind it is passed over; one client reports the failure, another
one finds none, and the write after that is done. -/
theorem write_after_failure :
    ∃ h s, Story #[Array.replicate 8 0] h s ∧ failures h = [0] ∧ (account h).reports = [(2, 0)] ∧
      s.memories = #[#[0, 0, 0, 0, 9, 0, 0, 0]] ∧ Protocol h := by
  have h₀ : Story #[Array.replicate 8 0] [] { memories := #[Array.replicate 8 0] } := .start
  have h₁ := (((h₀.next (.enqueue strayRun rfl)).next (.enqueue (.write 0 0 [5]) rfl)).next
    (.enqueue .finish rfl)).next (.enqueue .finish rfl)
  have h₂ := (((h₁.round rfl rfl).round rfl rfl).round rfl rfl).round rfl rfl
  have h₃ := (h₂.next (.report 2 (by decide) (by decide))).next (.report 3 (by decide) (by decide))
  have h₄ := (h₃.next (.enqueue (.write 0 4 [9]) rfl)).round rfl rfl
  exact ⟨_, _, h₄, by decide, by decide, by decide, (queue_keeps_protocol h₄).1⟩

end KernelForge.SharedQueue
