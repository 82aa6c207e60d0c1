/-
Queues that several clients share.

Clients enqueue commands and finish the queue, and one worker takes the commands and runs them.
The lock of the queue is held for a moment at a time, so between two moments of one of them all
the others may act.  A history lists the moments in their order; what is proved of a queue is
proved of every history that it can have.

The protocol rests on the worker being the only one that leaves faults on the queue.  A command
that runs was taken while there was no fault, and until it has left its own one the clients can
only take faults away; so a fault never meets another one, and none is lost.
-/
import KernelForge.Device.Queue
import Mathlib.Data.List.Basic
import Mathlib.Data.List.Nodup

namespace KernelForge

/-! ### Single commands -/

/-- How a command ends that runs. -/
def Command.completion (c : Command) (st : Store) : Completion :=
  match (c.execute st).1 with
  | .ok bytes => .ok bytes
  | .error f => .error (.execution c.name f)

namespace Queue

variable {q : Queue} {t : Taken} {st : Store} {r : Completion} {f : Fault}

theorem Taken.run_of_none (h : t.earlier? = none) :
    t.run st = (t.command.completion st, (t.command.execute st).2) := by
  unfold run Command.completion
  rw [h]
  rcases t.command.execute st with ⟨_ | _, _⟩ <;> rfl

theorem Taken.run_of_some (h : t.earlier? = some f) :
    t.run st = (.error (poisoned t.command f), st) := by
  rw [run, h]

/-- Only a command that ran and failed leaves a fault. -/
theorem Taken.fault?_eq_some : t.fault? r = some f ↔ t.earlier? = none ∧ r = .error f := by
  cases r with
  | ok bytes => simp [fault?]
  | error g => cases h : t.earlier? <;> simp [fault?, h]

theorem take_eq_some {q' : Queue} :
    q.take = some (t, q') ↔
      q.pending = (t.event, t.command) :: q'.pending ∧ t.earlier? = q.failed? ∧
        q'.failed? = q.failed? ∧ q'.released = q.released := by
  rcases q with ⟨_ | ⟨⟨event, command⟩, rest⟩, failed?, released⟩
  · simp [take]
  · rcases t with ⟨event', command', earlier?⟩
    rcases q' with ⟨pending', failed?', released'⟩
    simp only [take, Option.some.injEq, Prod.mk.injEq, Taken.mk.injEq, mk.injEq, List.cons.injEq]
    grind

@[simp] theorem pending_note (fault? : Option Fault) : (q.note fault?).pending = q.pending := rfl

@[simp] theorem pending_takeFault : q.takeFault.2.pending = q.pending := rfl

theorem enqueue_eq_ok {q' : Queue} {event : Nat} {c : Command} :
    q.enqueue event c = .ok q' ↔
      q.released = false ∧ q' = { q with pending := q.pending ++ [(event, c)] } := by
  unfold enqueue
  split
  · simp [*]
  · simp [*, eq_comm]

end Queue

namespace SharedQueue

/-! ### Histories -/

/-- Where the worker of a queue is. -/
inductive Worker where
  | idle
  | holding (t : Queue.Taken)
  /-- The fault that the command may have left is not on the queue yet. -/
  | ran (t : Queue.Taken) (r : Completion)
  /-- The event of the command has not been told yet. -/
  | noted (t : Queue.Taken) (r : Completion)

namespace Worker

/-- The command that has been taken and not yet run. -/
def held : Worker → List (Nat × Command)
  | holding t => [(t.event, t.command)]
  | _ => []

/-- The event of the command that has been run, when it has not been told. -/
def untold : Worker → List Nat
  | ran t _ | noted t _ => [t.event]
  | _ => []

/-- The command that may still leave a fault on the queue. -/
def open? : Worker → Option Queue.Taken
  | holding t | ran t _ => some t
  | _ => none

end Worker

/-- What happens to a queue at a moment. -/
inductive Moment where
  | enqueued (event : Nat) (c : Command)
  | refused (c : Command) (f : Fault)
  | taken (t : Queue.Taken)
  | executed (t : Queue.Taken) (before : Store) (r : Completion) (after : Store)
  | noted (t : Queue.Taken) (fault? : Option Fault)
  | told (event : Nat) (r : Completion)
  /-- The client whose finishing has the event takes the fault away and reports it. -/
  | reported (event : Nat) (fault? : Option Fault)
  | released
  /-- Others change the memories. -/
  | disturbed (st : Store)

end SharedQueue

open SharedQueue in
/-- A queue with its worker, its clients and the memories. -/
structure SharedQueue where
  queue : Queue := {}
  memories : Store := #[]
  worker : Worker := .idle
  nextEvent : Nat := 0
  /-- The events that have been told. -/
  told : List Nat := []
  /-- The events of the clients that finish the queue and have not reported yet. -/
  finishing : List Nat := []

namespace SharedQueue

open Queue (Taken)

/-- The clients that finish the queue when a command has been enqueued. -/
def finishingWith (s : SharedQueue) : Command → List Nat
  | .finish => s.nextEvent :: s.finishing
  | _ => s.finishing

theorem finishingWith_cases (s : SharedQueue) (c : Command) :
    s.finishingWith c = s.nextEvent :: s.finishing ∨ s.finishingWith c = s.finishing := by
  cases c with
  | finish => exact .inl rfl
  | _ => exact .inr rfl

/-- The moments of a queue. -/
inductive Step (s : SharedQueue) : Moment → SharedQueue → Prop
  | enqueue (c : Command) {q : Queue} (h : s.queue.enqueue s.nextEvent c = .ok q) :
      Step s (.enqueued s.nextEvent c)
        { s with queue := q, nextEvent := s.nextEvent + 1, finishing := s.finishingWith c }
  | refuse {c : Command} {f : Fault} (h : s.queue.enqueue s.nextEvent c = .error f) :
      Step s (.refused c f) s
  | report (event : Nat) (hclient : event ∈ s.finishing) (htold : event ∈ s.told) :
      Step s (.reported event s.queue.takeFault.1)
        { s with queue := s.queue.takeFault.2, finishing := s.finishing.erase event }
  | release : Step s .released { s with queue := { s.queue with released := true } }
  | disturb (st : Store) : Step s (.disturbed st) { s with memories := st }
  | take {t : Taken} {q : Queue} (hworker : s.worker = .idle) (h : s.queue.take = some (t, q)) :
      Step s (.taken t) { s with queue := q, worker := .holding t }
  | execute {t : Taken} (hworker : s.worker = .holding t) :
      Step s (.executed t s.memories (t.run s.memories).1 (t.run s.memories).2)
        { s with memories := (t.run s.memories).2, worker := .ran t (t.run s.memories).1 }
  | note {t : Taken} {r : Completion} (hworker : s.worker = .ran t r) :
      Step s (.noted t (t.fault? r))
        { s with queue := s.queue.note (t.fault? r), worker := .noted t r }
  | tell {t : Taken} {r : Completion} (hworker : s.worker = .noted t r) :
      Step s (.told t.event r) { s with worker := .idle, told := s.told ++ [t.event] }

/-- The histories of a new queue over some memories, and what they lead to. -/
inductive Story (st : Store) : List Moment → SharedQueue → Prop
  | start : Story st [] { memories := st }
  | next {h : List Moment} {s s' : SharedQueue} {m : Moment} (hs : Story st h s)
      (hm : Step s m s') : Story st (h ++ [m]) s'

namespace Moment

@[simp] def enqueued? : Moment → Option (Nat × Command)
  | enqueued event c => some (event, c)
  | _ => none

@[simp] def executed? : Moment → Option (Nat × Command)
  | executed t _ _ _ => some (t.event, t.command)
  | _ => none

@[simp] def told? : Moment → Option Nat
  | told event _ => some event
  | _ => none

/-- The event of a command that has left a fault. -/
@[simp] def failure? : Moment → Option Nat
  | noted t (some _) => some t.event
  | _ => none

def isReport : Moment → Bool
  | reported _ _ => true
  | _ => false

/-- Tests whether it is the worker that acts. -/
def isWork : Moment → Bool
  | taken _ | executed _ _ _ _ | noted _ _ | told _ _ => true
  | _ => false

end Moment

/-- The faults of a history: the one that has not been reported, with the event of its command,
and for each report of a fault the event of the client and that of the command. -/
structure FaultAccount where
  outstanding? : Option (Nat × Fault) := none
  reports : List (Nat × Nat) := []

namespace FaultAccount

def fault? (a : FaultAccount) : Option Fault := a.outstanding?.map Prod.snd

@[simp] def add (a : FaultAccount) : Moment → FaultAccount
  | .noted t (some f) => { a with outstanding? := some (t.event, f) }
  | .reported event _ =>
    { outstanding? := none
      reports := a.reports ++ (a.outstanding?.map fun o => (event, o.1)).toList }
  | _ => a

end FaultAccount

namespace History

variable (h : List Moment)

/-- The commands that have been enqueued, with their events. -/
def enqueued : List (Nat × Command) := h.filterMap Moment.enqueued?

/-- The commands that the worker has run or passed over. -/
def executed : List (Nat × Command) := h.filterMap Moment.executed?

/-- The events that have been told. -/
def told : List Nat := h.filterMap Moment.told?

/-- The events of the commands that ran and failed. -/
def failures : List Nat := h.filterMap Moment.failure?

def account : FaultAccount := h.foldl FaultAccount.add {}

variable {h}

@[simp] theorem enqueued_snoc {m : Moment} :
    enqueued (h ++ [m]) = enqueued h ++ m.enqueued?.toList := by
  rw [enqueued, List.filterMap_append]
  cases m <;> rfl

@[simp] theorem executed_snoc {m : Moment} :
    executed (h ++ [m]) = executed h ++ m.executed?.toList := by
  rw [executed, List.filterMap_append]
  cases m <;> rfl

@[simp] theorem told_snoc {m : Moment} : told (h ++ [m]) = told h ++ m.told?.toList := by
  rw [told, List.filterMap_append]
  cases m <;> rfl

@[simp] theorem failures_snoc {m : Moment} :
    failures (h ++ [m]) = failures h ++ m.failure?.toList := by
  rw [failures, List.filterMap_append]
  rcases m with _ | _ | _ | _ | ⟨t, _ | f⟩ | _ | _ | _ | _ <;> rfl

@[simp] theorem account_snoc {m : Moment} : account (h ++ [m]) = (account h).add m := by
  simp [account]

end History

open History

variable {st : Store} {h : List Moment} {s s' : SharedQueue} {m : Moment}

/-! ### What every history keeps -/

/-- The fault on the queue is the one that has not been reported, and a command that may still
leave one finds none in its place. -/
structure FaultsKept (h : List Moment) (s : SharedQueue) : Prop where
  fault : s.queue.failed? = (account h).fault?
  room : ∀ t, s.worker.open? = some t → t.earlier? = none → s.queue.failed? = none

/-- The commands are executed in their order, and their events are numbered. -/
structure OrderKept (h : List Moment) (s : SharedQueue) : Prop where
  order : enqueued h = executed h ++ (s.worker.held ++ s.queue.pending)
  told : History.told h = s.told
  events : (executed h).map Prod.fst = s.told ++ s.worker.untold
  numbers : (enqueued h).map Prod.fst = List.range s.nextEvent

/-- A failure is reported by one client or is on the queue, and a client reports one. -/
structure ReportsKept (h : List Moment) (s : SharedQueue) : Prop where
  failures : failures h = (account h).reports.map Prod.snd ++ (account h).outstanding?.toList.map Prod.fst
  failed : ∀ e ∈ History.failures h, e ∈ s.told ++ s.worker.untold
  fresh : ∀ t r, s.worker = .ran t r → t.event ∉ History.failures h
  once : (History.failures h).Nodup
  clients : (s.finishing ++ (account h).reports.map Prod.fst).Nodup
  numbered : ∀ e ∈ s.finishing ++ (account h).reports.map Prod.fst, e < s.nextEvent

theorem FaultsKept.step (hk : FaultsKept h s) (hm : Step s m s') : FaultsKept (h ++ [m]) s' := by
  obtain ⟨hfault, hroom⟩ := hk
  cases hm with
  | enqueue _ hq =>
    obtain ⟨-, rfl⟩ := Queue.enqueue_eq_ok.mp hq
    exact ⟨by simpa using hfault, hroom⟩
  | refuse _ | release | disturb _ => exact ⟨by simpa using hfault, hroom⟩
  | report _ _ _ => exact ⟨by simp [FaultAccount.fault?, Queue.takeFault], fun _ _ _ => rfl⟩
  | take hworker hq =>
    obtain ⟨-, hearlier, hfailed, -⟩ := Queue.take_eq_some.mp hq
    refine ⟨by simpa [hfailed] using hfault, fun t' ht' hnone => ?_⟩
    cases ht'
    rw [hfailed, ← hearlier, hnone]
  | execute hworker =>
    exact ⟨by simpa using hfault, fun t' ht' => hroom t' (by rw [hworker]; exact ht')⟩
  | @note t r hworker =>
    refine ⟨?_, fun _ => nofun⟩
    cases hleft : t.fault? r with
    | none => simpa [Queue.note] using hfault
    | some f =>
      have hempty := hroom t (by rw [hworker]; rfl) (Queue.Taken.fault?_eq_some.mp hleft).1
      simp [FaultAccount.fault?, Queue.note, hempty]
  | tell hworker => exact ⟨by simpa using hfault, fun _ => nofun⟩

theorem OrderKept.step (hk : OrderKept h s) (hm : Step s m s') : OrderKept (h ++ [m]) s' := by
  obtain ⟨horder, htold, hevents, hnumbers⟩ := hk
  cases hm with
  | enqueue _ hq =>
    obtain ⟨-, rfl⟩ := Queue.enqueue_eq_ok.mp hq
    exact ⟨by simp [horder], by simpa using htold, by simpa using hevents,
      by simp [hnumbers, List.range_succ]⟩
  | refuse _ | report _ _ _ | release | disturb _ =>
    exact ⟨by simpa using horder, by simpa using htold, by simpa using hevents, by simpa using hnumbers⟩
  | take hworker hq =>
    obtain ⟨hpending, -⟩ := Queue.take_eq_some.mp hq
    rw [hworker] at horder hevents
    exact ⟨by simpa [Worker.held, hpending] using horder, by simpa using htold,
      by simpa [Worker.untold] using hevents, by simpa using hnumbers⟩
  | execute hworker | note hworker =>
    rw [hworker] at horder hevents
    exact ⟨by simpa [Worker.held] using horder, by simpa using htold,
      by simpa [Worker.untold] using hevents, by simpa using hnumbers⟩
  | tell hworker =>
    rw [hworker] at horder hevents
    exact ⟨by simpa [Worker.held] using horder, by simp [htold],
      by simpa [Worker.untold] using hevents, by simpa using hnumbers⟩

theorem OrderKept.nodup (hk : OrderKept h s) : ((enqueued h).map Prod.fst).Nodup :=
  hk.numbers ▸ List.nodup_range

/-- The event of the worker's command is not among those of the commands that are over. -/
theorem OrderKept.fresh (hk : OrderKept h s) {t : Taken} (ht : s.worker = .holding t) :
    t.event ∉ s.told := by
  have hnodup := hk.nodup
  rw [hk.order, List.map_append, hk.events, ht] at hnodup
  simp only [Worker.untold, Worker.held, List.append_nil] at hnodup
  intro hmem
  exact List.disjoint_of_nodup_append hnodup hmem (by simp)

/-- At a moment at which no command leaves a fault and no client reports one, the account of the faults
stays as it is. -/
theorem account_quiet (hfailure : m.failure? = none) (hreport : m.isReport = false) :
    account (h ++ [m]) = account h := by
  rw [account_snoc]
  rcases m with _ | _ | _ | _ | ⟨t, _ | f⟩ | _ | _ | _ | _
  case noted.some => cases hfailure
  case reported => cases hreport
  all_goals rfl

theorem ReportsKept.quiet (hk : ReportsKept h s) (hfailure : m.failure? = none)
    (hreport : m.isReport = false)
    (hover : s.told ++ s.worker.untold ⊆ s'.told ++ s'.worker.untold)
    (hfresh : ∀ t r, s'.worker = .ran t r → t.event ∉ History.failures h)
    (hclients : (s'.finishing ++ (account h).reports.map Prod.fst).Nodup)
    (hnumbered : ∀ e ∈ s'.finishing ++ (account h).reports.map Prod.fst, e < s'.nextEvent) :
    ReportsKept (h ++ [m]) s' := by
  have hfailures : History.failures (h ++ [m]) = History.failures h := by
    rw [failures_snoc, hfailure, Option.toList_none, List.append_nil]
  have haccount := @account_quiet h m hfailure hreport
  constructor
  case failures => rw [hfailures, haccount, hk.failures]
  case failed =>
    rw [hfailures]
    exact fun e he => hover (hk.failed e he)
  case fresh => rwa [hfailures]
  case once => rw [hfailures]; exact hk.once
  case clients => rwa [haccount]
  case numbered => rwa [haccount]

theorem ReportsKept.step (ho : OrderKept h s) (hf : FaultsKept h s) (hk : ReportsKept h s)
    (hm : Step s m s') : ReportsKept (h ++ [m]) s' := by
  have hkept := hk
  obtain ⟨hfailures, hfailed, hfresh, honce, hclients, hnumbered⟩ := hk
  cases hm with
  | @enqueue c q hq =>
    have hnew : s.nextEvent ∉ s.finishing ++ (account h).reports.map Prod.fst := fun he =>
      Nat.lt_irrefl _ (hnumbered _ he)
    have hsucc : ∀ e ∈ s.finishing ++ (account h).reports.map Prod.fst, e < s.nextEvent + 1 :=
      fun e he => Nat.lt_succ_of_lt (hnumbered e he)
    refine hkept.quiet rfl rfl (List.Subset.refl _) hfresh ?_ ?_
    · rcases finishingWith_cases s c with heq | heq
      · simpa [heq] using And.intro hnew hclients
      · simpa [heq] using hclients
    · rcases finishingWith_cases s c with heq | heq
      · simpa [heq] using hsucc
      · simpa [heq] using hsucc
  | refuse _ | release | disturb _ =>
    exact hkept.quiet rfl rfl (List.Subset.refl _) hfresh hclients hnumbered
  | report e hclient _ =>
    -- the client is no longer among those that finish the queue, and may be among the reporters
    have hperm : (s.finishing.erase e ++ ((account h).reports.map Prod.fst ++ [e])).Perm
        (s.finishing ++ (account h).reports.map Prod.fst) := by
      rw [← List.append_assoc]
      exact (List.perm_append_singleton _ _).trans
        ((List.perm_cons_erase hclient).symm.append_right ((account h).reports.map Prod.fst))
    have hsub : ((account (h ++ [.reported e s.queue.takeFault.1])).reports.map Prod.fst).Sublist
        ((account h).reports.map Prod.fst ++ [e]) := by
      cases hout : (account h).outstanding? <;> simp [hout]
    have hincluded := hsub.append_left (s.finishing.erase e)
    refine ⟨?_, by simpa using hfailed, by simpa using hfresh, by simpa using honce,
      hincluded.nodup (hperm.nodup_iff.mpr hclients),
      fun e' he' => hnumbered e' (hperm.mem_iff.mp (hincluded.subset he'))⟩
    cases hout : (account h).outstanding? <;> simp [hfailures, hout]
  | @take t q hworker hq =>
    exact hkept.quiet rfl rfl (by simp [hworker, Worker.untold]) (fun _ _ => nofun) hclients hnumbered
  | @execute t hworker =>
    refine hkept.quiet rfl rfl (by simp [hworker, Worker.untold]) ?_ hclients hnumbered
    -- the events of the failures have been told, and that of the command has not
    rintro _ _ ⟨rfl, -⟩ he
    exact ho.fresh hworker (by simpa [hworker, Worker.untold] using hfailed _ he)
  | @note t r hworker =>
    cases hleft : t.fault? r with
    | none => exact hkept.quiet rfl rfl (by simp [hworker, Worker.untold]) (fun _ _ => nofun) hclients hnumbered
    | some f =>
      have hempty : (account h).outstanding? = none := by
        have hnone := hf.room t (by rw [hworker]; rfl) (Queue.Taken.fault?_eq_some.mp hleft).1
        rw [hf.fault, FaultAccount.fault?, Option.map_eq_none_iff] at hnone
        exact hnone
      rw [hworker] at hfailed
      refine ⟨by simpa [hempty] using hfailures, fun e he => ?_, fun _ _ => nofun, ?_, by simpa using hclients,
        by simpa using hnumbered⟩
      · rcases List.mem_append.mp (failures_snoc ▸ he) with he | he
        · exact hfailed e he
        · exact List.mem_append_right _ (by simpa [Worker.untold] using he)
      · have hnot := hfresh t r hworker
        simpa [List.nodup_append] using ⟨honce, fun a ha => fun heq => hnot (heq ▸ ha)⟩
  | @tell t r hworker =>
    exact hkept.quiet rfl rfl (by simp [hworker, Worker.untold]) (fun _ _ => nofun) hclients hnumbered

/-- What the worker does next has been prepared by what it did before. -/
def WorkKept (h : List Moment) : Worker → Prop
  | .idle => True
  | .holding t => .taken t ∈ h
  | .ran t r => .taken t ∈ h ∧ ∃ before after, .executed t before r after ∈ h
  | .noted t r => .noted t (t.fault? r) ∈ h ∧ ∃ before after, .executed t before r after ∈ h

theorem WorkKept.snoc {w : Worker} (hk : WorkKept h w) : WorkKept (h ++ [m]) w := by
  have hmono : ∀ x, x ∈ h → x ∈ h ++ [m] := fun x => List.mem_append_left _
  cases w with
  | idle => trivial
  | holding t => exact hmono _ hk
  | ran t r | noted t r =>
    obtain ⟨hmem, before, after, hexecuted⟩ := hk
    exact ⟨hmono _ hmem, before, after, hmono _ hexecuted⟩

theorem WorkKept.step (hk : WorkKept h s.worker) (hm : Step s m s') : WorkKept (h ++ [m]) s'.worker := by
  have hlast : m ∈ h ++ [m] := by simp
  cases hm with
  | enqueue _ _ | refuse _ | report _ _ _ | release | disturb _ => exact hk.snoc
  | take hworker _ => exact hlast
  | execute hworker =>
    rw [hworker] at hk
    exact ⟨List.mem_append_left _ hk, _, _, hlast⟩
  | note hworker =>
    rw [hworker] at hk
    obtain ⟨-, before, after, hexecuted⟩ := hk
    exact ⟨hlast, before, after, List.mem_append_left _ hexecuted⟩
  | tell hworker => trivial

/-- All that a history keeps. -/
structure Coherent (h : List Moment) (s : SharedQueue) : Prop where
  faults : FaultsKept h s
  order : OrderKept h s
  reports : ReportsKept h s
  work : WorkKept h s.worker

theorem coherent_start (st : Store) : Coherent [] { memories := st } where
  faults := ⟨rfl, fun _ => nofun⟩
  order := ⟨rfl, rfl, rfl, rfl⟩
  reports := ⟨rfl, List.forall_mem_nil _, fun _ _ => nofun, .nil, .nil, List.forall_mem_nil _⟩
  work := trivial

theorem Story.coherent (hs : Story st h s) : Coherent h s := by
  induction hs with
  | start => exact coherent_start st
  | next hs hm ih =>
    exact ⟨ih.faults.step hm, ih.order.step hm, ih.reports.step ih.order ih.faults hm, ih.work.step hm⟩

/-- Each moment of a history is one of the queue that the history before it leads to. -/
theorem Story.split {before after : List Moment} (hs : Story st (before ++ m :: after) s) :
    ∃ s₁ s₂, Story st before s₁ ∧ Step s₁ m s₂ ∧ Story st (before ++ [m]) s₂ := by
  generalize heq : before ++ m :: after = h at hs
  induction hs generalizing after with
  | start => simp at heq
  | @next h s s' m' hs hm ih =>
    rcases List.eq_nil_or_concat after with rfl | ⟨after, last, rfl⟩
    · obtain ⟨rfl, rfl⟩ : before = h ∧ m = m' := by simpa using List.append_inj' heq rfl
      exact ⟨s, s', hs, hm, hs.next hm⟩
    · have h' : (before ++ m :: after) ++ [last] = h ++ [m'] := by simpa using heq
      exact ih (List.append_inj' h' rfl).1

end SharedQueue
end KernelForge
