/-
Compiling through caches.

The program for a source may come from a cache, from a store of binaries or from the builder.
A cache that is *honest* holds for each source what the builder gives for it, and its store
holds binaries of their own sources; then it makes no difference where the program comes from.
What compiling changes are caches, programs, kernels and the trace: buffers, their memories and
queues stay as they are.
-/
import KernelForge.Device.Compile
import KernelForge.Proofs.Device.Acts
import KernelForge.Proofs.Device.Buckets

namespace KernelForge

open Act

namespace Machine

variable {m m' : Machine} {ctx cache : Nat} {source options : String}

/-! ### What compiling keeps -/

/-- The second machine has the buffers, memories and queues of the first, and its programs. -/
structure Keeps (m m' : Machine) : Prop where
  memories : m'.memories = m.memories
  buffers : m'.buffers = m.buffers
  queues : m'.queues = m.queues
  events : m'.events = m.events
  closed : ∀ c, (m'.contexts.getD c default).closed = (m.contexts.getD c default).closed
  programs : ∀ {i : Nat} {p : BuiltProgram}, m.programs[i]? = some p → m'.programs[i]? = some p

theorem keeps_refl (m : Machine) : Keeps m m := ⟨rfl, rfl, rfl, rfl, fun _ => rfl, id⟩

theorem Keeps.trans {m'' : Machine} (h : Keeps m m') (h' : Keeps m' m'') : Keeps m m'' :=
  ⟨h'.memories.trans h.memories, h'.buffers.trans h.buffers, h'.queues.trans h.queues,
    h'.events.trans h.events, fun c => (h'.closed c).trans (h.closed c),
    fun hp => h'.programs (h.programs hp)⟩

/-- A program of a context is what the builder gives for a source. -/
def Made (ctx : Nat) (source : String) (prog : Nat) (m : Machine) : Prop :=
  ∃ p, m.programs[prog]? = some p ∧ p.ctx = ctx ∧
    Program.build (.ofString source) = .built p.program

theorem Made.mono {prog : Nat} (h : Made ctx source prog m) (hk : Keeps m m') :
    Made ctx source prog m' := by
  obtain ⟨p, hp, hctx, hbuild⟩ := h
  exact ⟨p, hk.programs hp, hctx, hbuild⟩

/-- A cache of a context whose entries are what the builder gives for their sources. -/
structure Honest (ctx cache : Nat) (m : Machine) : Prop where
  inside : cache < m.caches.size
  context : (m.caches.getD cache default).ctx = ctx
  entries : ∀ e ∈ (m.caches.getD cache default).cache.order, Made ctx e.key.source e.program m

/-- The store of a cache has binaries of their own sources only. -/
def Genuine (cache : Nat) (m : Machine) : Prop :=
  ∀ {s : Nat}, (m.caches.getD cache default).store? = some s → ∀ {source options : String} {bytes},
    (m.stores.getD s default).load (keyOf source options) = .ok (some bytes) →
    sourceOfBinary? bytes = some (.ofString source)

/-! ### Caches of the machine -/

/-- The machine with another content of a cache. -/
def putCache (m : Machine) (cache : Nat) (inner : ProgramCache) : Machine :=
  let c := m.caches.getD cache default
  { m with caches := m.caches.setIfInBounds cache { c with cache := inner } }

theorem gives_withCache {α : Type} {f : ProgramCache → α × ProgramCache} {Q : α → Machine → Prop}
    (h : Q (f (m.caches.getD cache default).cache).1
      (m.putCache cache (f (m.caches.getD cache default).cache).2)) :
    Gives (withCache cache f) m Q :=
  gives_modifyGet h

theorem keeps_putCache (m : Machine) (cache : Nat) (inner : ProgramCache) :
    Keeps m (m.putCache cache inner) := ⟨rfl, rfl, rfl, rfl, fun _ => rfl, id⟩

theorem getD_putCache (h : cache < m.caches.size) (inner : ProgramCache) :
    (m.putCache cache inner).caches.getD cache default =
      { m.caches.getD cache default with cache := inner } := by
  simp [putCache, Array.getD_eq_getD_getElem?, h]

/-- An honest cache stays so while no entry comes in. -/
theorem Honest.putCache (h : Honest ctx cache m) {inner : ProgramCache}
    (hinner : ∀ e ∈ inner.order, e ∈ (m.caches.getD cache default).cache.order) :
    Honest ctx cache (m.putCache cache inner) := by
  have hget := getD_putCache h.inside inner
  refine ⟨by simpa [Machine.putCache] using h.inside, ?_, fun e he => ?_⟩
  · rw [hget]
    exact h.context
  · rw [hget] at he
    exact (h.entries e (hinner e he)).mono (keeps_putCache m cache inner)

theorem Honest.mono (h : Honest ctx cache m) (hk : Keeps m m') (hcaches : m'.caches = m.caches) :
    Honest ctx cache m' :=
  ⟨by rw [hcaches]; exact h.inside, by rw [hcaches]; exact h.context,
    fun e he => (h.entries e (by rw [← hcaches]; exact he)).mono hk⟩

/-! ### Programs -/

theorem keeps_push (m : Machine) (p : BuiltProgram) : Keeps m { m with programs := m.programs.push p } := by
  refine ⟨rfl, rfl, rfl, rfl, fun _ => rfl, fun {i q} hq => ?_⟩
  obtain ⟨hlt, -⟩ := Array.getElem?_eq_some_iff.mp hq
  rw [Array.getElem?_push, if_neg (by omega)]
  exact hq

theorem gives_build (hoptions : Device.optionLog? options = none) {p : Program}
    (hbuild : Program.build (.ofString source) = .built p) :
    Gives (build ctx (.ofString source) options) m fun prog m' =>
      Keeps m m' ∧ m'.caches = m.caches ∧ m'.stores = m.stores ∧ Made ctx source prog m' := by
  unfold build
  rw [hoptions, hbuild]
  refine gives_modifyGet ⟨keeps_push m _, rfl, rfl, { ctx, program := p, options }, ?_, rfl, hbuild⟩
  simp

variable {p : Program}

theorem gives_buildCounted (hm : Honest ctx cache m) (hoptions : Device.optionLog? options = none)
    (hbuild : Program.build (.ofString source) = .built p) :
    Gives (buildCounted cache ctx source options) m fun prog m' =>
      Keeps m m' ∧ Honest ctx cache m' ∧ Made ctx source prog m' := by
  unfold buildCounted
  have hbuilt : Gives ((Except.ok : Nat → Except Fault Nat) <$> build ctx (.ofString source) options) m
      fun r m' => ∃ prog, r = .ok prog ∧ Keeps m m' ∧ m'.caches = m.caches ∧ Made ctx source prog m' := by
    obtain ⟨prog, m', hrun, hk, hcaches, -, hmade⟩ := @gives_build m ctx source options hoptions p hbuild
    refine ⟨.ok prog, m', ?_, prog, rfl, hk, hcaches, hmade⟩
    show (build ctx (.ofString source) options >>= fun a => pure (Except.ok a)) m = _
    rw [bind_ok hrun]
    rfl
  refine (hbuilt.guarded _).bind ?_
  rintro _ m₁ ⟨prog, rfl, hk, hcaches, hmade⟩
  refine (gives_withCache (Q := fun _ m₂ => Keeps m₁ m₂ ∧ Honest ctx cache m₂)
    ⟨keeps_putCache _ _ _, (hm.mono hk hcaches).putCache fun e he => he⟩).bind ?_
  rintro - m₂ ⟨hk₂, hm₂⟩
  exact gives_ofExcept rfl ⟨hk.trans hk₂, hm₂, hmade.mono hk₂⟩

theorem gives_insert {prog : Nat} (hm : Honest ctx cache m) (hprog : Made ctx source prog m) :
    Gives (insert cache source options prog) m fun prog' m' =>
      Keeps m m' ∧ Made ctx source prog' m' := by
  refine gives_withCache ⟨keeps_putCache _ _ _, ?_⟩
  rcases ProgramCache.insert_cases ProgramKey.hash (m.caches.getD cache default).cache
    ⟨source, options⟩ prog with h | ⟨e, he, hkey, h⟩
  · rw [h]
    exact hprog.mono (keeps_putCache _ _ _)
  · have hmade := hm.entries e he
    rw [hkey] at hmade
    rw [h]
    exact hmade.mono (keeps_putCache _ _ _)

/-- A program from a genuine store is one of its source; nothing is found otherwise. -/
theorem gives_loadStored {store : Nat} (hm : Honest ctx cache m)
    (hoptions : Device.optionLog? options = none)
    (hbuild : Program.build (.ofString source) = .built p)
    (hstore : ∀ {bytes}, (m.stores.getD store default).load (keyOf source options) = .ok (some bytes) →
      sourceOfBinary? bytes = some (.ofString source)) :
    Gives (loadStored cache ctx store source options) m fun prog? m' =>
      Keeps m m' ∧ Honest ctx cache m' ∧ ∀ prog, prog? = some prog → Made ctx source prog m' := by
  unfold loadStored
  have hload : Gives (tryCatch (loadBinary store source options) fun _ => return none) m
      fun bytes? m' => m = m' ∧ ∀ bytes, bytes? = some bytes →
        sourceOfBinary? bytes = some (.ofString source) := by
    cases hl : (m.stores.getD store default).load (keyOf source options) with
    | ok bytes? =>
      refine Gives.guarded ?_ _
      refine gives_get_bind (gives_ofExcept hl ⟨rfl, fun bytes hb => ?_⟩)
      subst hb
      exact hstore hl
    | error f =>
      have hfails : Throws (loadBinary store source options) m fun _ m' => m' = m := by
        refine ⟨f, m, ?_, rfl⟩
        show (Act.ofExcept ((m.stores.getD store default).load (keyOf source options)) : Act _) m = _
        rw [hl]
        rfl
      exact hfails.caught fun _ m' hm' => gives_pure ⟨hm'.symm, nofun⟩
  refine hload.bind ?_
  rintro bytes? _ ⟨rfl, hbytes⟩
  cases bytes? with
  | none => exact gives_pure ⟨keeps_refl _, hm, nofun⟩
  | some bytes =>
    have hbinary : buildBinary ctx bytes options = build ctx (.ofString source) options := by
      rw [buildBinary, hbytes bytes rfl]
    obtain ⟨prog, m₁, hrun, hk, hcaches, -, hmade⟩ := @gives_build m ctx source options hoptions p hbuild
    have hprog : Gives (some <$> buildBinary ctx bytes options) m fun prog? m' =>
        some prog = prog? ∧ m₁ = m' := by
      refine ⟨some prog, m₁, ?_, rfl, rfl⟩
      rw [hbinary]
      show (build ctx (.ofString source) options >>= fun a => pure (some a)) m = _
      rw [bind_ok hrun]
      rfl
    refine (hprog.guarded _).bind ?_
    rintro _ _ ⟨rfl, rfl⟩
    refine (gives_withCache (Q := fun _ m₂ => Keeps m₁ m₂ ∧ Honest ctx cache m₂)
      ⟨keeps_putCache _ _ _, (hm.mono hk hcaches).putCache fun e he => he⟩).bind ?_
    rintro - m₂ ⟨hk₂, hm₂⟩
    refine gives_pure ⟨hk.trans hk₂, hm₂, ?_⟩
    rintro _ ⟨rfl⟩
    exact hmade.mono hk₂

/-- A store takes a binary or not; nothing else is touched. -/
theorem gives_keepStored {store prog : Nat} (hm : Honest ctx cache m) :
    Gives (keepStored store source options prog) m fun _ m' => Keeps m m' ∧ Honest ctx cache m' := by
  unfold keepStored
  refine (gives_get_bind (gives_pure rfl) : Gives (binary prog) m fun _ m' => m = m').bind ?_
  rintro bytes _ rfl
  cases hs : (m.stores.getD store default).store (keyOf source options) bytes with
  | ok s =>
    refine Gives.guarded ?_ _
    refine gives_get_bind (gives_ofExcept_bind hs (gives_modify ?_))
    have hk : Keeps m { m with stores := m.stores.setIfInBounds store s } :=
      ⟨rfl, rfl, rfl, rfl, fun _ => rfl, id⟩
    exact ⟨hk, hm.mono hk rfl⟩
  | error f =>
    have hfails : Throws (storeBinary store source options bytes) m fun _ m' => m' = m := by
      refine ⟨f, m, ?_, rfl⟩
      show (Act.ofExcept ((m.stores.getD store default).store (keyOf source options) bytes) >>= _ : Act _) m = _
      rw [hs]
      rfl
    exact hfails.caught fun _ m' hm' => gives_pure (by subst hm'; exact ⟨keeps_refl _, hm⟩)

theorem gives_make (hm : Honest ctx cache m) (hgenuine : Genuine cache m)
    (hoptions : Device.optionLog? options = none)
    (hbuild : Program.build (.ofString source) = .built p) :
    Gives (make cache source options) m fun prog m' =>
      Keeps m m' ∧ Honest ctx cache m' ∧ Made ctx source prog m' := by
  unfold make
  refine gives_get_bind ?_
  dsimp only
  rw [hm.context]
  cases hs : (m.caches.getD cache default).store? with
  | none => exact gives_buildCounted hm hoptions hbuild
  | some store =>
    refine (gives_loadStored hm hoptions hbuild (hgenuine hs)).bind ?_
    rintro prog? m₂ ⟨hk₂, hm₂, hprog⟩
    cases prog? with
    | some prog => exact gives_pure ⟨hk₂, hm₂, hprog prog rfl⟩
    | none =>
      refine (gives_buildCounted hm₂ hoptions hbuild).bind ?_
      rintro prog m₃ ⟨hk₃, hm₃, hprog⟩
      refine (gives_keepStored hm₃).bind ?_
      rintro - m₄ ⟨hk₄, hm₄⟩
      exact gives_pure ⟨(hk₂.trans hk₃).trans hk₄, hm₄, hprog.mono hk₄⟩

/-- **An honest cache gives for a source what the builder gives for it**, wherever it takes the
program from. -/
theorem gives_getOrBuild (hm : Honest ctx cache m) (hgenuine : Genuine cache m)
    (hoptions : Device.optionLog? options = none)
    (hbuild : Program.build (.ofString source) = .built p) :
    Gives (getOrBuild cache source options) m fun prog m' =>
      Keeps m m' ∧ Made ctx source prog m' := by
  unfold getOrBuild
  obtain ⟨hkept, hfound⟩ := ProgramCache.lookup_cases ProgramKey.hash
    (m.caches.getD cache default).cache ⟨source, options⟩
  have hlookup : Gives (lookup cache source options) m fun prog? m' =>
      Keeps m m' ∧ Honest ctx cache m' ∧ Genuine cache m' ∧
        ∀ prog, prog? = some prog → Made ctx source prog m' := by
    refine gives_withCache ⟨keeps_putCache _ _ _, hm.putCache hkept, fun hs => ?_, fun prog hprog => ?_⟩
    · rw [getD_putCache hm.inside] at hs
      exact hgenuine hs
    · rcases hfound with hnone | ⟨e, he, hkey, hsome⟩
      · rw [hnone] at hprog
        cases hprog
      · rw [hsome] at hprog
        cases hprog
        have hmade := hm.entries e he
        rw [hkey] at hmade
        exact hmade.mono (keeps_putCache _ _ _)
  refine hlookup.bind ?_
  rintro prog? m₁ ⟨hk₁, hm₁, hgenuine₁, hmade⟩
  cases prog? with
  | some prog => exact gives_pure ⟨hk₁, hmade prog rfl⟩
  | none =>
    refine (gives_make hm₁ hgenuine₁ hoptions hbuild).bind ?_
    rintro prog m₂ ⟨hk₂, hm₂, hprog⟩
    exact (gives_insert hm₂ hprog).mono fun _ _ h => ⟨(hk₁.trans hk₂).trans h.1, h.2⟩

/-- The cache that a draft is compiled through, if it has been made. -/
def cacheFor? (ctx : Nat) (o : CompileOptions) (m : Machine) : Option Nat :=
  match o.cache? with
  | some c => some c
  | none => m.registry.get? ctx

/-- The cache for a context and some options is honest, and its store is genuine. -/
def Trusted (ctx : Nat) (o : CompileOptions) (m : Machine) : Prop :=
  ∀ cache, cacheFor? ctx o m = some cache → Honest ctx cache m ∧ Genuine cache m

/-- The registered cache of a context is made when there is none, and then it is empty. -/
theorem gives_cacheOf (h : ∀ cache, m.registry.get? ctx = some cache →
      Honest ctx cache m ∧ Genuine cache m) :
    Gives (cacheOf ctx none none) m fun cache m' =>
      Keeps m m' ∧ Honest ctx cache m' ∧ Genuine cache m' := by
  unfold cacheOf
  refine gives_get_bind ?_
  cases hr : m.registry.get? ctx with
  | some cache => exact gives_pure ⟨keeps_refl m, h cache hr⟩
  | none =>
    refine gives_modifyGet_bind (gives_modify_bind (gives_modify_bind (gives_pure ?_)))
    dsimp only
    have hget : (m.caches.push { ctx, store? := none, cache := {} }).getD m.caches.size default =
        { ctx, store? := none, cache := {} } := by
      simp [Array.getD_eq_getD_getElem?]
    refine ⟨⟨rfl, rfl, rfl, rfl, fun c => ?_, id⟩, ⟨by simp, ?_, ?_⟩, ?_⟩
    · simp only [Array.getD_eq_getD_getElem?, Array.getElem?_modify]
      split
      · cases m.contexts[c]? <;> rfl
      · rfl
    · simp only [hget]
    · simp only [hget]
      nofun
    · intro s hs
      simp only [hget] at hs
      cases hs

/-! ### Arguments -/

end Machine

/-- What an argument of a draft is bound to when the draft is compiled. -/
def DraftArg.preset? (a : DraftArg) : Option KernelArg :=
  match a.buffer?, a.value? with
  | some b, _ => some { memory? := some b }
  | none, some v => some { bytes := v.toList }
  | none, none => none

/-- An argument that can be bound in a context: a buffer of the context that has not been
released, or the bytes of a value. -/
inductive DraftArg.Bindable (ctx : Nat) (m : Machine) (a : DraftArg) : Prop
  | buffer {b size : Nat} {t : Ty} {space : Space} {readOnly : Bool}
      (htype : a.type = .pointer t space readOnly) (hbuffer : a.buffer? = some b)
      (halive : m.buffers[b]? = some { origin := .context ctx, size })
  | value {v : Bytes} (htype : a.isBuffer = false) (hbuffer : a.buffer? = none)
      (hvalue : a.value? = some v) (hsize : v.size = a.type.size)

theorem DraftArg.Bindable.mono {a : DraftArg} {ctx : Nat} {m m' : Machine} (ha : a.Bindable ctx m)
    (hbuffers : m'.buffers = m.buffers) : a.Bindable ctx m' := by
  cases ha with
  | buffer htype hbuffer halive => exact .buffer htype hbuffer (hbuffers ▸ halive)
  | value htype hbuffer hvalue hsize => exact .value htype hbuffer hvalue hsize

namespace Machine

variable {prog kernel : Nat}

/-- A kernel that is there, with a program of a context. -/
structure HasKernel (ctx kernel : Nat) (k : Kernel) (m : Machine) : Prop where
  found : m.kernels[kernel]? = some (.ok k)
  context : (m.programs.getD k.program default).ctx = ctx

theorem gives_memoryOf {buf size : Nat} {Q : Nat → Machine → Prop}
    (h : m.buffers[buf]? = some { origin := .context ctx, size }) (hQ : Q buf m) :
    Gives (memoryOf ctx buf) m Q := by
  have hget : m.buffers.getD buf default = { origin := .context ctx, size } := by
    simp [Array.getD_eq_getD_getElem?, h]
  unfold memoryOf
  refine gives_get_bind ?_
  simp only [hget, Bool.false_eq_true, if_false, ne_eq, not_true_eq_false]
  exact gives_pure hQ

theorem gives_putArg {index : Nat} {arg : KernelArg} {k : Kernel} (hk : HasKernel ctx kernel k m) :
    Gives (putArg kernel index arg) m fun _ m' => Keeps m m' ∧
      HasKernel ctx kernel { k with args := k.args.set index (some arg) } m' := by
  refine gives_modify ⟨⟨rfl, rfl, rfl, rfl, fun _ => rfl, id⟩, ?_, hk.context⟩
  simp only [Array.getElem?_modify, if_true, hk.found, Option.map_some]
  rfl

theorem kernels_getD {k : Kernel} (hk : HasKernel ctx kernel k m) :
    m.kernels.getD kernel (.error "") = .ok k := by
  simp [Array.getD_eq_getD_getElem?, hk.found]

/-- An argument is bound to what it is preset to. -/
theorem gives_bindPreset {a : DraftArg} {slot : Nat} {k : Kernel} (hk : HasKernel ctx kernel k m)
    (ha : a.Bindable ctx m) (hparam : k.fn.params[slot]? = some (a.name, a.type)) :
    ∃ arg, a.preset? = some arg ∧
      Gives (match a.buffer?, a.value? with
        | some b, _ => setArgBuffer kernel slot b
        | none, some v => setArg kernel slot v.toList
        | none, none => return) m fun _ m' => Keeps m m' ∧
          HasKernel ctx kernel { k with args := k.args.set slot (some arg) } m' := by
  have hget := kernels_getD hk
  have hparam' : param k (slot : Int) = pure (a.name, a.type) := by
    have hnat : ¬ ((slot : Int) < 0) := by omega
    rw [param, if_neg hnat, Int.toNat_natCast, hparam]
  cases ha with
  | buffer htype hbuffer halive =>
    refine ⟨_, by rw [DraftArg.preset?, hbuffer], ?_⟩
    simp only [hbuffer]
    unfold setArgBuffer
    refine gives_get_bind ?_
    simp only [hget, hparam', htype]
    refine gives_pure_bind (gives_get_bind ?_)
    simp only [hk.context]
    refine (Gives.within (gives_memoryOf (Q := fun b m' => _ = b ∧ m = m') halive ⟨rfl, rfl⟩) _).bind ?_
    rintro _ _ ⟨rfl, rfl⟩
    exact gives_putArg hk
  | value htype hbuffer hvalue hsize =>
    rename_i v
    refine ⟨_, by rw [DraftArg.preset?, hbuffer, hvalue], ?_⟩
    simp only [hbuffer, hvalue]
    unfold setArg
    refine gives_get_bind ?_
    simp only [hget, hparam']
    refine gives_pure_bind ?_
    dsimp only
    have hlen : v.toList.length = a.type.size := by rw [Array.length_toList, hsize]
    cases hty : a.type with
    | pointer t space readOnly =>
      rw [DraftArg.isBuffer, hty] at htype
      cases htype
    | _ =>
      rw [hty] at hlen
      simp only [hlen, ne_eq, not_true_eq_false, if_false]
      exact gives_putArg hk

/-- The arguments are bound one after another; those before are bound already. -/
theorem gives_bindPresets (name : String) : ∀ {as before : List DraftArg} {m : Machine} {k : Kernel},
    HasKernel ctx kernel k m → (∀ a ∈ as, a.Bindable ctx m) →
    k.fn.params = (before ++ as).map (fun a => (a.name, a.type)) →
    k.args = before.map DraftArg.preset? ++ as.map (fun _ => none) →
    Gives (bindPresets kernel name before.length as) m fun _ m' => Keeps m m' ∧
      HasKernel ctx kernel { k with args := (before ++ as).map DraftArg.preset? } m'
  | [], before, m, k, hk, _, _, hargs => by
    refine gives_pure ⟨keeps_refl m, ?_⟩
    rw [List.append_nil, ← List.append_nil (before.map _)]
    rw [List.map_nil] at hargs
    rw [← hargs]
    exact hk
  | a :: as, before, m, k, hk, has, hparams, hargs => by
    unfold bindPresets
    have hparam : k.fn.params[before.length]? = some (a.name, a.type) := by
      rw [hparams]
      simp
    obtain ⟨arg, harg, hbind⟩ := gives_bindPreset hk (has a List.mem_cons_self) hparam
    refine (hbind.within _).bind ?_
    rintro - m₁ ⟨hkeeps, hk₁⟩
    have hset : k.args.set before.length (some arg) =
        (before ++ [a]).map DraftArg.preset? ++ as.map (fun _ => none) := by
      rw [hargs, ← harg]
      have hlen : before.length = (before.map DraftArg.preset?).length := by simp
      rw [hlen, List.set_append_right _ _ (Nat.le_refl _), Nat.sub_self]
      simp
    have hlen : before.length + 1 = (before ++ [a]).length := by simp
    have hshape : before ++ a :: as = before ++ [a] ++ as := by simp
    rw [hshape] at hparams ⊢
    rw [hlen]
    refine (gives_bindPresets name hk₁ (fun b hb => (has b (List.mem_cons_of_mem _ hb)).mono hkeeps.buffers)
      hparams hset).mono fun _ m₂ h => ⟨hkeeps.trans h.1, h.2⟩

/-! ### Drafts -/

theorem gives_newKernel {bp : BuiltProgram} {name : String} {fn : CheckedFn}
    (hprog : m.programs[prog]? = some bp) (hctx : bp.ctx = ctx)
    (hkernel : bp.program.kernel? name = some fn) :
    Gives (newKernel prog name) m fun kernel m' => Keeps m m' ∧
      HasKernel ctx kernel { program := prog, fn, args := fn.params.map fun _ => none } m' := by
  have hget : m.programs.getD prog default = bp := by simp [Array.getD_eq_getD_getElem?, hprog]
  unfold newKernel
  refine gives_get_bind ?_
  simp only [hget, Program.kernel, hkernel]
  refine gives_ofExcept_bind rfl (gives_modifyGet ⟨⟨rfl, rfl, rfl, rfl, fun _ => rfl, id⟩, ?_, ?_⟩)
  · simp
  · simp only [hget]
    exact hctx

/-- **A draft whose source is built becomes a kernel of the built program with its arguments
bound.** -/
theorem gives_compile {d : Draft} {o : CompileOptions} {p : Program} {fn : CheckedFn}
    (htrusted : Trusted ctx o m) (hoptions : Device.optionLog? (" ".intercalate o.options) = none)
    (hbuild : Program.build (.ofString d.source.1) = .built p)
    (hkernel : p.kernel? d.name = some fn)
    (hparams : fn.params = d.part.args.map fun a => (a.name, a.type))
    (hargs : ∀ a ∈ d.part.args, a.Bindable ctx m) :
    Gives (compile ctx d o) m fun c m' => Keeps m m' ∧ c.name = d.name ∧
      ∃ k, HasKernel ctx c.kernel k m' ∧ k.fn = fn ∧ k.args = d.part.args.map DraftArg.preset? ∧
        (m'.programs.getD k.program default).program = p := by
  have hname : d.source.2.name = d.name := by
    show d.settle.name = d.name
    unfold Draft.settle
    split <;> rfl
  have hpart : d.source.2.part = d.part := by
    show d.settle.part = d.part
    unfold Draft.settle
    split <;> rfl
  unfold compile
  refine gives_modify_bind ?_
  unfold compileSource
  have hk₁ : Keeps m { m with
      trace := m.trace ++ traceText d.source.2.name (" ".intercalate o.options) d.source.1 } :=
    ⟨rfl, rfl, rfl, rfl, fun _ => rfl, id⟩
  extract_lets args jp
  have hjp : ∀ cache m₂, Keeps m m₂ → Honest ctx cache m₂ → Genuine cache m₂ →
      Gives (jp cache) m₂ fun c m' => Keeps m m' ∧ c.name = d.name ∧
        ∃ k, HasKernel ctx c.kernel k m' ∧ k.fn = fn ∧ k.args = d.part.args.map DraftArg.preset? ∧
          (m'.programs.getD k.program default).program = p := by
    intro cache m₂ hk₂ hhonest hgenuine
    refine (gives_getOrBuild hhonest hgenuine hoptions hbuild).bind ?_
    rintro prog m₃ ⟨hk₃, bp, hbp, hctx, hmade⟩
    obtain rfl : bp.program = p := by
      rw [hbuild] at hmade
      cases hmade
      rfl
    rw [← hname] at hkernel
    refine (gives_newKernel hbp hctx hkernel).bind ?_
    rintro kernel m₄ ⟨hk₄, hhas⟩
    refine gives_get_bind ?_
    have hget : m₄.programs.getD prog default = bp := by
      simp [Array.getD_eq_getD_getElem?, hk₄.programs hbp]
    have hcount : ((m₄.programs.getD prog default).program.kernel? d.source.2.name).map
        (fun f => f.params.length) = some args.length := by
      rw [hget, hkernel, Option.map_some, hparams, List.length_map]
      show some d.part.args.length = some d.source.2.part.args.length
      rw [hpart]
    have hk := (hk₂.trans hk₃).trans hk₄
    have hbound := @gives_bindPresets _ _ d.source.2.name _ [] _ _ hhas
      (fun a ha => (hargs a ha).mono hk.buffers) hparams (by simp [hparams, Function.comp_def])
    extract_lets params bindAll
    rw [if_neg fun h => h hcount]
    have hargs' : args = d.part.args := congrArg DraftPart.args hpart
    show Gives (bindPresets kernel d.source.2.name 0 args >>= fun _ => _) m₄ _
    rw [hargs']
    refine hbound.bind ?_
    rintro - m₅ ⟨hk₅, hhas₅⟩
    refine gives_pure ⟨hk.trans hk₅, hname, _, hhas₅, rfl, rfl, ?_⟩
    simp [Array.getD_eq_getD_getElem?, hk₅.programs (hk₄.programs hbp)]
  cases ho : o.cache? with
  | some cache =>
    obtain ⟨hhonest, hgenuine⟩ := htrusted cache (by rw [cacheFor?, ho])
    exact gives_pure_bind (hjp cache _ hk₁ (hhonest.mono hk₁ rfl) hgenuine)
  | none =>
    have htrusted' : ∀ cache, m.registry.get? ctx = some cache →
        Honest ctx cache m ∧ Genuine cache m := by
      intro cache hcache
      exact htrusted cache (by rw [cacheFor?, ho, hcache])
    refine (gives_cacheOf fun cache hcache => ?_).bind fun cache m₂ h => ?_
    · exact ⟨(htrusted' cache hcache).1.mono hk₁ rfl, (htrusted' cache hcache).2⟩
    · exact hjp cache m₂ (hk₁.trans h.1) h.2.1 h.2.2

end Machine
end KernelForge
