/-
Calls for programs that race each other.

A cache is locked while it is asked for a program and while it gets one, but not in between, when
the program is made.  Any number of calls may be between the two, also for the same key, and the
cache may be emptied at any time.  The first program that comes in for a key is the one that all
calls return, as long as the key stays: each later one finds it when it asks or when it comes with
its own.
-/
import KernelForge.Proofs.Device.Stores

namespace KernelForge

open Machine ProgramCache

/-! ### Steps -/

/-- How far a call for a program has come. -/
inductive Call where
  | idle
  /-- The cache does not have the program. -/
  | missed (k : ProgramKey)
  /-- The program has been made. -/
  | made (k : ProgramKey) (prog : Nat)
  | returned

/-- A machine and the calls for programs of one of its caches. -/
structure Race where
  machine : Machine
  calls : Nat → Call

namespace Race

/-- What happens in a step. -/
inductive Event where
  | missed (call : Nat) (k : ProgramKey)
  | made (call : Nat) (k : ProgramKey)
  | returned (call : Nat) (k : ProgramKey) (answer : Except Fault Nat)
  | cleared

/-- A step of a call, or that the cache is emptied. -/
inductive Step (cache : Nat) : Race → Event → Race → Prop
  | found {s : Race} {i : Nat} {k : ProgramKey} {prog : Nat} {m : Machine} (hcall : s.calls i = .idle)
      (h : lookup cache k.source k.options s.machine = (.ok (some prog), m)) :
      Step cache s (.returned i k (.ok prog)) ⟨m, Function.update s.calls i .returned⟩
  | missed {s : Race} {i : Nat} {k : ProgramKey} {m : Machine} (hcall : s.calls i = .idle)
      (h : lookup cache k.source k.options s.machine = (.ok none, m)) :
      Step cache s (.missed i k) ⟨m, Function.update s.calls i (.missed k)⟩
  | made {s : Race} {i : Nat} {k : ProgramKey} {prog : Nat} {m : Machine} (hcall : s.calls i = .missed k)
      (h : make cache k.source k.options s.machine = (.ok prog, m)) :
      Step cache s (.made i k) ⟨m, Function.update s.calls i (.made k prog)⟩
  | failed {s : Race} {i : Nat} {k : ProgramKey} {f : Fault} {m : Machine} (hcall : s.calls i = .missed k)
      (h : make cache k.source k.options s.machine = (.error f, m)) :
      Step cache s (.returned i k (.error f)) ⟨m, Function.update s.calls i .returned⟩
  | inserted {s : Race} {i : Nat} {k : ProgramKey} {prog kept : Nat} {m : Machine}
      (hcall : s.calls i = .made k prog)
      (h : insert cache k.source k.options prog s.machine = (.ok kept, m)) :
      Step cache s (.returned i k (.ok kept)) ⟨m, Function.update s.calls i .returned⟩
  | cleared {s : Race} {m : Machine} (h : clearCache cache s.machine = (.ok (), m)) :
      Step cache s .cleared ⟨m, s.calls⟩

/-! ### What holds in every state -/

/-- The cache provides, and all programs on the way to it are what their keys ask for. -/
structure Sound (ctx cache capacity : Nat) (keys : Set ProgramKey) (s : Race) : Prop where
  provides : Provides ctx cache capacity keys s.machine
  asked : ∀ i k, s.calls i = .missed k → k ∈ keys
  made : ∀ i k prog, s.calls i = .made k prog → s.machine.Holds ctx k prog

variable {ctx cache capacity : Nat} {keys : Set ProgramKey} {s s' : Race} {k : ProgramKey} {prog : Nat}

/-- The machine has gone on. -/
theorem Sound.mono (hs : Sound ctx cache capacity keys s) {m : Machine}
    (hm : Provides ctx cache capacity keys m) (he : s.machine.Extends m) :
    Sound ctx cache capacity keys ⟨m, s.calls⟩ :=
  ⟨hm, hs.asked, fun i k prog hi => (hs.made i k prog hi).mono he⟩

/-- A call has gone on. -/
theorem Sound.call (hs : Sound ctx cache capacity keys s) (i : Nat) {x : Call}
    (hasked : ∀ k, x = .missed k → k ∈ keys)
    (hmade : ∀ k prog, x = .made k prog → s.machine.Holds ctx k prog) :
    Sound ctx cache capacity keys ⟨s.machine, Function.update s.calls i x⟩ := by
  refine ⟨hs.provides, fun j k hj => ?_, fun j k prog hj => ?_⟩
  · dsimp only at hj
    rw [Function.update_apply] at hj
    split at hj
    · exact hasked k hj
    · exact hs.asked j k hj
  · dsimp only at hj
    rw [Function.update_apply] at hj
    split at hj
    · exact hmade k prog hj
    · exact hs.made j k prog hj

/-- A call that has returned is of no more concern. -/
theorem Sound.returned (hs : Sound ctx cache capacity keys s) (i : Nat) :
    Sound ctx cache capacity keys ⟨s.machine, Function.update s.calls i .returned⟩ :=
  hs.call i nofun nofun

theorem Sound.missed (hs : Sound ctx cache capacity keys s) (i : Nat) (hk : k ∈ keys) :
    Sound ctx cache capacity keys ⟨s.machine, Function.update s.calls i (.missed k)⟩ :=
  hs.call i (fun _ hx => Call.missed.inj hx ▸ hk) nofun

/-- What a step does to the programs of a cache. -/
structure Moves (cache : Nat) (s : Race) (e : Event) (s' : Race) : Prop where
  keeps : s.machine.Extends s'.machine
  agree : Agree (s.machine.programsAt cache) (s'.machine.programsAt cache)
  /-- What a call returns is there. -/
  there : ∀ i k prog, e = .returned i k (.ok prog) →
    (s'.machine.programsAt cache).lookup k = some prog

/-- **A step keeps a cache sound, and the program of every key that stays.** -/
theorem Sound.step (hs : Sound ctx cache capacity keys s) {e : Event} (hstep : Step cache s e s')
    (hkeys : ∀ i k, e = .missed i k → k ∈ keys) :
    Sound ctx cache capacity keys s' ∧ Moves cache s e s' := by
  have hroom := hs.provides.room
  cases hstep with
  | @found i k prog m hcall h =>
    obtain ⟨hafter, hprograms⟩ := hs.provides.afterLookup k
    obtain ⟨hl, rfl⟩ := Prod.mk.inj ((hs.provides.lookup k).symm.trans h)
    rw [Except.ok.injEq] at hl
    have hkeeps : s.machine.Extends (s.machine.afterLookup cache k.source k.options) :=
      extends_putCache _ _ _
    simp only [RecencyList.find, hl] at hprograms
    refine ⟨(hs.mono hafter hkeeps).returned i, hkeeps, ?_, ?_⟩
    · rw [hprograms]
      exact agree_use hroom fun first h => Option.some.inj (hl.symm.trans h)
    · rintro j k' prog' ⟨⟩
      rw [hprograms]
      exact RecencyList.lookup_use_self _ hroom k prog
  | @missed i k m hcall h =>
    obtain ⟨hafter, hprograms⟩ := hs.provides.afterLookup k
    obtain ⟨hl, rfl⟩ := Prod.mk.inj ((hs.provides.lookup k).symm.trans h)
    rw [Except.ok.injEq] at hl
    have hkeeps : s.machine.Extends (s.machine.afterLookup cache k.source k.options) :=
      extends_putCache _ _ _
    simp only [RecencyList.find, hl] at hprograms
    exact ⟨(hs.mono hafter hkeeps).missed i (hkeys i k rfl), hkeeps, hprograms ▸ agree_self _, by simp⟩
  | @made i k prog m hcall h =>
    have hk := hs.asked i k hcall
    have hr : Makes s.machine cache k.source k.options (.ok prog, m) := h ▸ makes _ _ _ _
    obtain ⟨hafter, hprograms⟩ := hs.provides.make hk hr
    have hprog : m.Holds ctx k prog := hs.provides.context ▸ hr.agrees hs.provides.backed hk
    refine ⟨(hs.mono hafter hr.extends).call i (by simp) ?_, hr.extends, hprograms ▸ agree_self _,
      by simp⟩
    rintro k' prog' ⟨⟩
    exact hprog
  | @failed i k f m hcall h =>
    have hk := hs.asked i k hcall
    have hr : Makes s.machine cache k.source k.options (.error f, m) := h ▸ makes _ _ _ _
    obtain ⟨hafter, hprograms⟩ := hs.provides.make hk hr
    exact ⟨(hs.mono hafter hr.extends).returned i, hr.extends, hprograms ▸ agree_self _, by simp⟩
  | @inserted i k prog kept m hcall h =>
    obtain ⟨c, hinsert, hmirrors, hafter⟩ := hs.provides.insert (hs.made i k prog hcall)
    obtain ⟨hkept, rfl⟩ := Prod.mk.inj (hinsert.symm.trans h)
    rw [Except.ok.injEq] at hkept
    have hkeeps := extends_putCache s.machine cache c
    have hprograms := programsAt_putCache hs.provides.inside hmirrors
    rw [hkept] at hprograms
    refine ⟨(hs.mono hafter hkeeps).returned i, hkeeps, ?_, ?_⟩
    · rw [hprograms]
      refine agree_use hroom fun first hl => ?_
      rw [← hkept, firstAt, hl]
      rfl
    · rintro j k' prog' ⟨⟩
      rw [hprograms]
      exact RecencyList.lookup_use_self _ hroom k kept
  | @cleared m h =>
    have hclear : clearCache cache s.machine =
        (.ok (), s.machine.putCache cache (s.machine.cacheAt cache).clear) := rfl
    obtain ⟨-, rfl⟩ := Prod.mk.inj (hclear.symm.trans h)
    have hempty := hs.provides.mirrors.clear
    have hkeeps := extends_putCache s.machine cache (s.machine.cacheAt cache).clear
    refine ⟨hs.mono (hs.provides.put hempty (by simp)) hkeeps, hkeeps, ?_, by simp⟩
    rw [programsAt_putCache hs.provides.inside hempty]
    intro k first later _ hl
    cases hl

/-- In an empty cache a call finds nothing. -/
theorem Sound.misses (hs : Sound ctx cache capacity keys s) (hempty : s.machine.programsAt cache = [])
    {i : Nat} (hcall : s.calls i = .idle) :
    ∃ s', Step cache s (.missed i k) s' ∧ s'.machine.programsAt cache = [] ∧
      s'.calls = Function.update s.calls i (.missed k) := by
  have hlookup := hs.provides.lookup k
  have hprograms := (hs.provides.afterLookup k).2
  rw [hempty] at hlookup hprograms
  exact ⟨_, .missed hcall hlookup, hprograms, rfl⟩

/-- What is to be had for a key is made. -/
theorem Sound.makes (hs : Sound ctx cache capacity keys s) {i : Nat} (hcall : s.calls i = .missed k)
    {p : Program} (hp : k.compiled = .ok p) :
    ∃ s' prog, Step cache s (.made i k) s' ∧ s'.calls = Function.update s.calls i (.made k prog) := by
  have hagrees := (Machine.makes s.machine cache k.source k.options).agrees hs.provides.backed
    (hs.asked i k hcall)
  rcases hmake : make cache k.source k.options s.machine with ⟨r, m⟩
  rw [hmake] at hagrees
  cases r with
  | ok prog => exact ⟨_, prog, .made hcall hmake, rfl⟩
  | error f => cases hp.symm.trans hagrees

theorem inserts (cache : Nat) {i : Nat} (hcall : s.calls i = .made k prog) :
    ∃ s' kept, Step cache s (.returned i k (.ok kept)) s' ∧
      s'.calls = Function.update s.calls i .returned :=
  ⟨_, _, .inserted hcall rfl, rfl⟩

/-! ### Executions -/

/-- Steps from a machine on which nobody has called yet. -/
structure Execution (start : Machine) (cache : Nat) where
  length : Nat
  state : Nat → Race
  event : Nat → Event
  start : state 0 = ⟨start, fun _ => .idle⟩
  step : ∀ t < length, Step cache (state t) (event t) (state (t + 1))

namespace Execution

variable {start : Machine}

/-- The keys that had to be made. -/
def asked (x : Execution start cache) : Set ProgramKey :=
  {k | ∃ t < x.length, ∃ i, x.event t = .missed i k}

theorem moves (x : Execution start cache) (hs : Sound ctx cache capacity x.asked (x.state 0))
    {t : Nat} (ht : t ≤ x.length) :
    Sound ctx cache capacity x.asked (x.state t) ∧
      (t < x.length → Moves cache (x.state t) (x.event t) (x.state (t + 1))) := by
  have hstep : ∀ t, Sound ctx cache capacity x.asked (x.state t) → t < x.length →
      Sound ctx cache capacity x.asked (x.state (t + 1)) ∧
        Moves cache (x.state t) (x.event t) (x.state (t + 1)) := fun t hs ht =>
    hs.step (x.step t ht) fun i _ hk => ⟨t, ht, i, hk⟩
  have hsound : Sound ctx cache capacity x.asked (x.state t) := by
    induction t with
    | zero => exact hs
    | succ t ih => exact (hstep t (ih (by omega)) ht).1
  exact ⟨hsound, fun hlt => (hstep t hsound hlt).2⟩

/-- What a call has returned is there. -/
theorem there (x : Execution start cache) (hs : Sound ctx cache capacity x.asked (x.state 0))
    {t i : Nat} (ht : t < x.length) (h : x.event t = .returned i k (.ok prog)) :
    ((x.state (t + 1)).machine.programsAt cache).lookup k = some prog :=
  ((x.moves hs (Nat.le_of_lt ht)).2 ht).there i k prog h

/-- Programs stay. -/
theorem keeps (x : Execution start cache) (hs : Sound ctx cache capacity x.asked (x.state 0))
    {t t' : Nat} (ht : t ≤ t') (ht' : t' ≤ x.length) :
    (x.state t).machine.Extends (x.state t').machine := by
  induction t', ht using Nat.le_induction with
  | base => exact ⟨rfl, fun _ => rfl, fun _ => rfl, id⟩
  | succ t' _ ih => exact (ih (by omega)).trans ((x.moves hs (by omega)).2 ht').keeps

/-- While a key stays, its program does. -/
theorem agree (x : Execution start cache) (hs : Sound ctx cache capacity x.asked (x.state 0))
    {a b : Nat} (hb : b ≤ x.length)
    (hstays : ∀ t, a ≤ t → t ≤ b → ∃ prog, ((x.state t).machine.programsAt cache).lookup k = some prog)
    {t : Nat} (hat : a ≤ t) (htb : t ≤ b) :
    ((x.state t).machine.programsAt cache).lookup k = ((x.state a).machine.programsAt cache).lookup k := by
  induction t, hat using Nat.le_induction with
  | base => rfl
  | succ t hat ih =>
    obtain ⟨prog, hprog⟩ := hstays t hat (by omega)
    obtain ⟨prog', hprog'⟩ := hstays (t + 1) (by omega) htb
    have hsame := ((x.moves hs (by omega)).2 (by omega)).agree k prog prog' hprog hprog'
    rw [← ih (by omega), hprog, hprog', hsame]

end Execution

theorem sound_newCache (m : Machine) (ctx : Nat) (capacity? : Option Int) (store? : Option Nat)
    (hstore : ∀ store, store? = some store →
      Set.InjOn ProgramKey.address keys ∧ (m.stores.getD store default).Faithful keys) :
    Sound ctx m.caches.size (max (capacity?.getD 64) 1).toNat keys
      ⟨(newCache ctx capacity? store? m).2, fun _ => .idle⟩ :=
  ⟨provides_new (by rw [caches_newCache, Array.getElem?_push_size]) hstore, nofun, nofun⟩

theorem Execution.sound {m : Machine} {capacity? : Option Int} {store? : Option Nat}
    (x : Execution (newCache ctx capacity? store? m).2 m.caches.size)
    (hstore : ∀ store, store? = some store →
      Set.InjOn ProgramKey.address x.asked ∧ (m.stores.getD store default).Faithful x.asked) :
    Sound ctx m.caches.size (max (capacity?.getD 64) 1).toNat x.asked (x.state 0) :=
  x.start ▸ sound_newCache m ctx capacity? store? hstore

/-- Two calls for a key can both miss it, both make it and both return. -/
theorem exists_race (m : Machine) (ctx : Nat) (capacity? : Option Int) (store? : Option Nat) {p : Program}
    (hp : k.compiled = .ok p)
    (hstore : ∀ store, store? = some store → (m.stores.getD store default).Faithful {k}) :
    ∃ x : Execution (newCache ctx capacity? store? m).2 m.caches.size,
      x.length = 6 ∧ x.asked ⊆ {k} ∧ (∃ prog, x.event 4 = .returned 0 k (.ok prog)) ∧
        ∃ prog, x.event 5 = .returned 1 k (.ok prog) := by
  have hsound : Sound ctx m.caches.size _ {k} ⟨(newCache ctx capacity? store? m).2, fun _ => .idle⟩ :=
    sound_newCache m ctx capacity? store? fun store hs => ⟨Set.injOn_singleton _ _, hstore store hs⟩
  have hempty : (newCache ctx capacity? store? m).2.programsAt m.caches.size = [] := by
    rw [programsAt, cacheAt_newCache]
    rfl
  have hkey : ∀ i j k', Event.missed i k = .missed j k' → k' ∈ ({k} : Set ProgramKey) := by
    rintro i j _ ⟨⟩
    rfl
  -- both calls ask, then both make the program, and then it comes in twice
  obtain ⟨s₁, h₁, hempty₁, hcalls₁⟩ := hsound.misses hempty (k := k) (i := 0) rfl
  have hs₁ := (hsound.step h₁ (hkey 0)).1
  obtain ⟨s₂, h₂, -, hcalls₂⟩ := hs₁.misses hempty₁ (k := k) (i := 1) (by simp [hcalls₁])
  have hs₂ := (hs₁.step h₂ (hkey 1)).1
  obtain ⟨s₃, prog₀, h₃, hcalls₃⟩ := hs₂.makes (k := k) (i := 0) (by simp [hcalls₂, hcalls₁]) hp
  have hs₃ := (hs₂.step h₃ (by simp)).1
  obtain ⟨s₄, prog₁, h₄, hcalls₄⟩ := hs₃.makes (k := k) (i := 1) (by simp [hcalls₃, hcalls₂]) hp
  have hmade₀ : s₄.calls 0 = .made k prog₀ := by simp [hcalls₄, hcalls₃]
  obtain ⟨s₅, kept₀, h₅, hcalls₅⟩ := inserts m.caches.size hmade₀
  have hmade₁ : s₅.calls 1 = .made k prog₁ := by simp [hcalls₅, hcalls₄]
  obtain ⟨s₆, kept₁, h₆, -⟩ := inserts m.caches.size hmade₁
  let states := [⟨(newCache ctx capacity? store? m).2, fun _ => .idle⟩, s₁, s₂, s₃, s₄, s₅, s₆]
  let events : List Event := [.missed 0 k, .missed 1 k, .made 0 k, .made 1 k,
    .returned 0 k (.ok kept₀), .returned 1 k (.ok kept₁)]
  refine ⟨⟨6, fun t => states.getD t s₆, fun t => events.getD t .cleared, rfl, fun t ht => ?_⟩, rfl, ?_,
    ⟨kept₀, rfl⟩, kept₁, rfl⟩
  · obtain rfl | rfl | rfl | rfl | rfl | rfl : t = 0 ∨ t = 1 ∨ t = 2 ∨ t = 3 ∨ t = 4 ∨ t = 5 := by omega
    · exact h₁
    · exact h₂
    · exact h₃
    · exact h₄
    · exact h₅
    · exact h₆
  · rintro k' ⟨t, ht, i, hasked⟩
    have hlt : t < 6 := ht
    obtain rfl | rfl | rfl | rfl | rfl | rfl : t = 0 ∨ t = 1 ∨ t = 2 ∨ t = 3 ∨ t = 4 ∨ t = 5 := by omega
    · exact hkey _ _ _ hasked
    · exact hkey _ _ _ hasked
    all_goals cases hasked

end Race

open Race

/-- **Calls that race agree**: at every moment a cache has one program at most for a key; every call
that succeeds returns a program that has been built from the source and the options of its key, in
the context of the cache; and as long as a key stays, all calls for it return the same program.  If
the cache has a store, it is one that has told the keys apart so far and will do so. -/
theorem concurrent_calls_agree (m : Machine) (ctx : Nat) (capacity? : Option Int) (store? : Option Nat)
    (x : Execution (newCache ctx capacity? store? m).2 m.caches.size)
    (hstore : ∀ store, store? = some store →
      Set.InjOn ProgramKey.address x.asked ∧ (m.stores.getD store default).Faithful x.asked) :
    let keysAt := fun t => ((x.state t).machine.cacheAt m.caches.size).order.map CacheEntry.key
    (∀ t ≤ x.length, (keysAt t).Nodup) ∧
      (∀ t < x.length, ∀ i k prog, x.event t = .returned i k (.ok prog) →
        ∀ t', t < t' → t' ≤ x.length →
          ∃ p, (x.state t').machine.programs[prog]? = some { ctx, program := p, options := k.options } ∧
            p.source = .ofString k.source ∧ k.compiled = .ok p) ∧
      ∀ a b k, b ≤ x.length → (∀ t, a ≤ t → t ≤ b → k ∈ keysAt t) →
        ∀ t t' i i' prog prog', a ≤ t + 1 → t + 1 ≤ b → a ≤ t' + 1 → t' + 1 ≤ b →
          x.event t = .returned i k (.ok prog) → x.event t' = .returned i' k (.ok prog') →
            prog = prog' := by
  intro keysAt
  have hs := x.sound hstore
  refine ⟨fun t ht => (x.moves hs ht).1.provides.mirrors.consistent.keys, ?_, ?_⟩
  · intro t ht i k prog hreturned t' htt' ht'
    have hheld := (x.moves hs (by omega : t + 1 ≤ x.length)).1.provides.held k prog
      (x.there hs ht hreturned)
    obtain ⟨p, hp, hprog⟩ := hheld.mono (x.keeps hs htt' ht')
    exact ⟨p, hprog, Device.source_of_compile hp, hp⟩
  · intro a b k hb hstays t t' i i' prog prog' hat htb hat' htb' hreturned hreturned'
    have hfound := fun t hat htb => mem_keys_iff_lookup.mp (hstays t hat htb)
    have hsame := (x.agree hs hb hfound hat htb).trans (x.agree hs hb hfound hat' htb').symm
    rw [x.there hs (by omega) hreturned, x.there hs (by omega) hreturned'] at hsame
    exact Option.some.inj hsame

/-- The empty source can be had. -/
theorem compiled_empty : ∃ p, ProgramKey.compiled ⟨"", ""⟩ = .ok p := by
  have hok : (ProgramKey.compiled ⟨"", ""⟩).isOk = true := by decide +kernel
  cases hcompiled : ProgramKey.compiled ⟨"", ""⟩ with
  | ok p => exact ⟨p, rfl⟩
  | error f =>
    rw [hcompiled] at hok
    cases hok

theorem two_calls_one_program :
    let m : Machine := { stores := #[{}] }
    ∃ (x : Execution (newCache 0 none (some 0) m).2 m.caches.size) (prog prog' : Nat),
      x.event 4 = .returned 0 ⟨"", ""⟩ (.ok prog) ∧ x.event 5 = .returned 1 ⟨"", ""⟩ (.ok prog') ∧
        prog = prog' := by
  intro m
  obtain ⟨p, hp⟩ := compiled_empty
  have hempty : ∀ keys store, some 0 = some store → (m.stores.getD store default).Faithful keys := by
    rintro keys _ ⟨⟩
    exact BinaryStore.faithful_of_empty rfl
  obtain ⟨x, hlength, hasked, ⟨prog, h₄⟩, prog', h₅⟩ := exists_race m 0 none (some 0) hp (hempty _)
  have hinj : Set.InjOn ProgramKey.address x.asked := (Set.injOn_singleton _ _).mono hasked
  have hstore := fun store hs => And.intro hinj (hempty x.asked store hs)
  obtain ⟨-, -, hagree⟩ := concurrent_calls_agree m 0 none (some 0) x hstore
  refine ⟨x, prog, prog', h₄, h₅, hagree 5 6 _ (by omega) (fun t ht ht' => ?_) 4 5 0 1 _ _ (by omega)
    (by omega) (by omega) (by omega) h₄ h₅⟩
  obtain rfl | rfl : t = 5 ∨ t = 6 := by omega
  · exact mem_keys_iff_lookup.mpr ⟨prog, x.there (x.sound hstore) (by omega) h₄⟩
  · exact mem_keys_iff_lookup.mpr ⟨prog', x.there (x.sound hstore) (by omega) h₅⟩

end KernelForge
