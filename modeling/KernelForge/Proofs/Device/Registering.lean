/-
The registered caches of contexts.

The registry has a cache for each context that has been asked for one.  Closing a context empties
this cache and takes it out, once: what closing does is consumed by the first time.  Nothing looks
whether a context is open when its cache is asked for, nor when a program is built into a cache.
So the registry has a cache for a closed context exactly if one was asked for since, and the cache
that closing has emptied stays empty exactly as long as no program is built into it.

Little of what is done to a program looks at the registry, the contexts or the caches: making a
kernel and setting its arguments leave all three alone, whether they succeed or not.  Asking a cache
for a program changes the content of this cache only, and leaves it empty exactly if it was empty
and there is no program.
-/
import KernelForge.Device.Compile
import KernelForge.Proofs.Device.Caching
import KernelForge.Proofs.Device.Stores

namespace KernelForge

/-! ### Programs that are put into a cache -/

namespace ProgramCache

variable {hash : ProgramKey → UInt64} {c : ProgramCache}

@[simp] theorem order_count (c : ProgramCache) (making : Making) : (making.count c).order = c.order := by
  cases making <;> rfl

@[simp] theorem capacity_count (c : ProgramCache) (making : Making) :
    (making.count c).capacity = c.capacity := by
  cases making <;> rfl

theorem order_insert_ne_nil (hpos : 0 < c.capacity) (k : ProgramKey) (program : Nat) :
    (c.insert hash k program).2.order ≠ [] := by
  cases hfind : c.find? k (hash k) with
  | some e =>
    rw [insert_of_some hfind]
    exact List.cons_ne_nil _ _
  | none =>
    obtain ⟨n, hn⟩ := Nat.exists_eq_add_one.mpr hpos
    rw [insert_of_none hfind, order_evictMany_excess, hn]
    exact List.cons_ne_nil _ _

theorem capacity_insert (k : ProgramKey) (program : Nat) :
    (c.insert hash k program).2.capacity = c.capacity := by
  cases hfind : c.find? k (hash k) with
  | some e => rw [insert_of_some hfind]; rfl
  | none => rw [insert_of_none hfind, capacity_evictMany]; rfl

/-- A cache is empty after it has been asked for a program exactly if it was empty and there is no
program. -/
theorem order_perform_getOrBuild (hash : ProgramKey → UInt64) (hpos : 0 < c.capacity) (k : ProgramKey)
    (making : Making) :
    (((CacheOp.getOrBuild k making).perform hash c).2.order = [] ↔
      c.order = [] ∧ ((CacheOp.getOrBuild k making).perform hash c).1.isOk = false) ∧
    ((CacheOp.getOrBuild k making).perform hash c).2.capacity = c.capacity := by
  cases hfind : c.find? k (hash k) with
  | some e =>
    rw [perform_getOrBuild_of_some hfind]
    exact ⟨iff_of_false (List.cons_ne_nil _ _) (by simp [Except.isOk, Except.toBool]), rfl⟩
  | none =>
    rw [perform_getOrBuild_of_none hfind]
    have hcapacity : (c.made making).capacity = c.capacity := capacity_count _ _
    cases making.result with
    | ok program =>
      exact ⟨iff_of_false (order_insert_ne_nil (hcapacity ▸ hpos) k program)
        (by simp [Except.isOk, Except.toBool]), (capacity_insert k program).trans hcapacity⟩
    | error f => simp [made, Except.isOk, Except.toBool]

end ProgramCache

/-! ### What an action leaves alone -/

namespace Machine

variable {m m' m'' : Machine} {α β : Type}

/-- The second machine has the contexts, the registry and the caches of the first. -/
structure SameBooks (m m' : Machine) : Prop where
  contexts : m'.contexts = m.contexts
  registry : m'.registry = m.registry
  caches : m'.caches = m.caches

theorem sameBooks_refl (m : Machine) : SameBooks m m := ⟨rfl, rfl, rfl⟩

theorem SameBooks.trans (h : SameBooks m m') (h' : SameBooks m' m'') : SameBooks m m'' :=
  ⟨h'.contexts.trans h.contexts, h'.registry.trans h.registry, h'.caches.trans h.caches⟩

/-- Of the second machine only the content of one cache differs. -/
structure SameBut (cache : Nat) (m m' : Machine) : Prop where
  contexts : m'.contexts = m.contexts
  registry : m'.registry = m.registry
  size : m'.caches.size = m.caches.size
  owner : ∀ c, (m'.caches.getD c default).ctx = (m.caches.getD c default).ctx
  others : ∀ c, c ≠ cache → m'.cacheAt c = m.cacheAt c

theorem SameBooks.sameBut (h : SameBooks m m') (cache : Nat) : SameBut cache m m' :=
  ⟨h.contexts, h.registry, by rw [h.caches], fun c => by rw [h.caches],
    fun c _ => by rw [cacheAt, cacheAt, h.caches]⟩

theorem SameBut.trans {cache : Nat} (h : SameBut cache m m') (h' : SameBut cache m' m'') :
    SameBut cache m m'' :=
  ⟨h'.contexts.trans h.contexts, h'.registry.trans h.registry, h'.size.trans h.size,
    fun c => (h'.owner c).trans (h.owner c), fun c hc => (h'.others c hc).trans (h.others c hc)⟩

theorem sameBut_putCache (m : Machine) (cache : Nat) (inner : ProgramCache) :
    SameBut cache m (m.putCache cache inner) :=
  ⟨rfl, rfl, size_putCache m cache inner, ctx_putCache m cache inner,
    fun _ hc => cacheAt_putCache_of_ne m hc inner⟩

end Machine

/-- The action leaves contexts, registry and caches alone, however it ends. -/
def Act.Discreet {α : Type} (x : Act α) : Prop := ∀ m, Machine.SameBooks m (x m).2

namespace Act

open Machine

variable {α β : Type} {x : Act α}

theorem discreet_pure (a : α) : Discreet (pure a) := sameBooks_refl

theorem discreet_throw (f : Fault) : Discreet (throw f : Act α) := sameBooks_refl

theorem discreet_fail_bind (text : String) (f : α → Act β) : Discreet (fail text >>= f) := fun m => by
  have hfail : (fail text : Act α) m = (.error (.plain text), m) := rfl
  rw [bind_error hfail]
  exact sameBooks_refl m

theorem discreet_get : Discreet get := sameBooks_refl

theorem discreet_modify {f : Machine → Machine} (h : ∀ m, SameBooks m (f m)) : Discreet (modify f) := h

theorem discreet_modifyGet {f : Machine → α × Machine} (h : ∀ m, SameBooks m (f m).2) :
    Discreet (modifyGet f) := h

theorem discreet_ofExcept (r : Except Fault α) : Discreet (ofExcept r) := by
  cases r with
  | ok a => exact discreet_pure a
  | error f => exact discreet_throw f

theorem Discreet.bind (hx : Discreet x) {f : α → Act β} (hf : ∀ a, Discreet (f a)) :
    Discreet (x >>= f) := by
  intro m
  have hfirst := hx m
  rcases h : x m with ⟨r, m'⟩
  rw [h] at hfirst
  cases r with
  | ok a =>
    rw [bind_ok h]
    exact hfirst.trans (hf a m')
  | error c =>
    rw [bind_error h]
    exact hfirst

theorem Discreet.tryCatch (hx : Discreet x) {handle : Fault → Act α} (hhandle : ∀ f, Discreet (handle f)) :
    Discreet (tryCatch x handle) := by
  intro m
  have hfirst := hx m
  rw [tryCatch_eq]
  rcases h : x m with ⟨r, m'⟩
  rw [h] at hfirst
  cases r with
  | ok a => exact hfirst
  | error c => exact hfirst.trans (hhandle c m')

end Act

namespace Machine

open Act

variable {m m' m'' : Machine}

/-! ### Arguments of kernels -/

theorem discreet_contextId (ctx : Nat) : Discreet (contextId ctx) :=
  discreet_get.bind fun _ => discreet_pure _

theorem discreet_memoryOf (ctx buf : Nat) : Discreet (memoryOf ctx buf) := by
  refine discreet_get.bind fun m => ?_
  dsimp only
  split
  · exact discreet_throw _
  · split
    · exact discreet_fail_bind _ _
    · split
      · exact (discreet_contextId _).bind fun _ => (discreet_contextId _).bind fun _ =>
          discreet_fail_bind _ _
      · exact discreet_pure _

theorem discreet_param (k : Kernel) (index : Int) : Discreet (param k index) := by
  unfold param
  split
  · exact discreet_pure _
  · exact discreet_throw _

theorem discreet_putArg (kernel : Nat) (index : Int) (arg : KernelArg) :
    Discreet (putArg kernel index arg) :=
  discreet_modify fun _ => ⟨rfl, rfl, rfl⟩

theorem discreet_setArg (kernel : Nat) (index : Int) (bytes : List UInt8) :
    Discreet (setArg kernel index bytes) := by
  refine discreet_get.bind fun m => ?_
  dsimp only
  split
  · exact discreet_pure _
  · refine (discreet_param _ _).bind fun p => ?_
    split
    · exact discreet_throw _
    · split
      · exact discreet_fail_bind _ _
      · exact discreet_putArg _ _ _

theorem discreet_setArgBuffer (kernel : Nat) (index : Int) (buf : Nat) :
    Discreet (setArgBuffer kernel index buf) := by
  refine discreet_get.bind fun m => ?_
  dsimp only
  split
  · exact discreet_pure _
  · refine (discreet_param _ _).bind fun p => ?_
    split
    · exact discreet_get.bind fun m => ((discreet_memoryOf _ _).tryCatch fun _ => discreet_throw _).bind
        fun _ => discreet_putArg _ _ _
    · exact discreet_throw _

theorem discreet_bindPresets (kernel : Nat) (name : String) :
    ∀ (as : List DraftArg) (slot : Nat), Discreet (bindPresets kernel name slot as)
  | [], _ => discreet_pure _
  | a :: as, slot => by
    refine Discreet.bind ?_ fun _ => discreet_bindPresets kernel name as (slot + 1)
    refine Discreet.tryCatch ?_ fun _ => discreet_throw _
    split
    · exact discreet_setArgBuffer _ _ _
    · exact discreet_setArg _ _ _
    · exact discreet_pure _

theorem discreet_newKernel (prog : Nat) (name : String) : Discreet (newKernel prog name) :=
  discreet_get.bind fun _ => (discreet_ofExcept _).bind fun _ => discreet_modifyGet fun _ => ⟨rfl, rfl, rfl⟩

/-! ### Programs -/

variable {cache : Nat} {source options : String}

theorem sameBooks_keepFor (m : Machine) (cache : Nat) (source options : String) (bytes : List UInt8) :
    SameBooks m (m.keepFor cache source options bytes) := by
  unfold keepFor keepBinary
  split
  · exact sameBooks_refl m
  · split
    · exact ⟨rfl, rfl, rfl⟩
    · exact sameBooks_refl m

theorem sameBooks_addProgram (m : Machine) (p : BuiltProgram) : SameBooks m (m.addProgram p) :=
  ⟨rfl, rfl, rfl⟩

theorem Makes.sameBut {r : Except Fault Nat × Machine} (hr : Makes m cache source options r) :
    SameBut cache m r.2 := by
  cases hr with
  | load _ => exact ((sameBooks_addProgram m _).sameBut cache).trans (sameBut_putCache _ _ _)
  | build _ _ =>
    exact (((sameBooks_addProgram m _).sameBut cache).trans (sameBut_putCache _ _ _)).trans
      ((sameBooks_keepFor _ _ _ _ _).sameBut cache)
  | fail _ _ => exact sameBut_putCache _ _ _

theorem sameBut_getOrBuild (m : Machine) (cache : Nat) (source options : String) :
    SameBut cache m (getOrBuild cache source options m).2 := by
  have hlookup : SameBut cache m (m.afterLookup cache source options) := sameBut_putCache _ _ _
  cases hfound : ((m.cacheAt cache).lookup ProgramKey.hash ⟨source, options⟩).1 with
  | some prog =>
    rw [getOrBuild_of_found hfound]
    exact hlookup
  | none =>
    have hmakes := makes (m.afterLookup cache source options) cache source options
    rcases hmake : make cache source options (m.afterLookup cache source options) with ⟨r, m'⟩
    rw [hmake] at hmakes
    cases r with
    | ok prog =>
      rw [getOrBuild_of_made hfound hmake]
      exact (hlookup.trans hmakes.sameBut).trans (sameBut_putCache _ _ _)
    | error f =>
      rw [getOrBuild_of_failed hfound hmake]
      exact hlookup.trans hmakes.sameBut

/-- A cache that has been asked for a program is empty exactly if it was and there is none. -/
theorem order_getOrBuild (h : cache < m.caches.size) (hpos : 0 < (m.cacheAt cache).capacity)
    (source options : String) :
    (((getOrBuild cache source options m).2.cacheAt cache).order = [] ↔
      (m.cacheAt cache).order = [] ∧ (getOrBuild cache source options m).1.isOk = false) ∧
    ((getOrBuild cache source options m).2.cacheAt cache).capacity = (m.cacheAt cache).capacity := by
  obtain ⟨making, -, hanswer, hafter⟩ := performs_getOrBuild h source options
  have horder := ProgramCache.order_perform_getOrBuild ProgramKey.hash hpos ⟨source, options⟩ making
  rw [← hanswer, ← hafter] at horder
  rcases hr : getOrBuild cache source options m with ⟨r, m'⟩
  cases r with
  | ok prog =>
    rw [map_ok hr] at horder
    exact horder
  | error f =>
    rw [map_error hr] at horder
    exact horder

end Machine

/-! ### Registries -/

namespace Registry

variable {α β : Type} [DecidableEq α] (r : Registry α β)

theorem get?_getOrInsert {k : α} (h : r.get? k = none) (v : β) (k' : α) :
    (r.getOrInsert k v).2.2.get? k' = if k' = k then some v else r.get? k' := by
  rw [getOrInsert, h, get?, List.lookup_cons]
  by_cases hk : k' = k
  · simp [hk]
  · simp [hk, beq_eq_false_iff_ne.mpr hk, get?]

theorem get?_remove (k k' : α) : (r.remove k).2.get? k' = if k' = k then none else r.get? k' :=
  lookup_filter_ne r.entries k k'

end Registry

namespace Machine

open Act

variable {m m' m'' : Machine}

/-! ### Contexts -/

/-- A context has been closed. -/
def Closed (m : Machine) (ctx : Nat) : Prop := (m.contexts.getD ctx default).closed = true

/-- What the registry and the contexts of a machine say of each other. -/
structure Ordered (m : Machine) : Prop where
  /-- The registry has for a context a cache of this context. -/
  registered : ∀ {ctx c : Nat}, m.registry.get? ctx = some c →
    ctx < m.contexts.size ∧ c < m.caches.size ∧ (m.caches.getD c default).ctx = ctx
  /-- Closing an open context drops its registered cache, and does nothing else. -/
  hooks : ∀ ctx, ¬ m.Closed ctx → (m.contexts.getD ctx default).hooks =
    if (m.registry.get? ctx).isSome then [.dropCache] else []
  queues : ∀ ctx, (m.contexts.getD ctx default).queues = []
  roomy : ∀ c, 0 < (m.cacheAt c).capacity

theorem ordered_start (stores : Array BinaryStore) : Ordered { stores } where
  registered := nofun
  hooks := fun ctx _ => by simp [Registry.get?, Array.getD_eq_getD_getElem?]; rfl
  queues := fun ctx => by simp [Array.getD_eq_getD_getElem?]; rfl
  roomy := fun c => by simp [cacheAt, Array.getD_eq_getD_getElem?]; decide

theorem SameBut.closed {cache : Nat} (h : SameBut cache m m') (ctx : Nat) : m'.Closed ctx ↔ m.Closed ctx := by
  rw [Closed, Closed, h.contexts]

theorem Ordered.sameBut {cache : Nat} (hm : Ordered m) (h : SameBut cache m m')
    (hcapacity : (m'.cacheAt cache).capacity = (m.cacheAt cache).capacity) : Ordered m' where
  registered := fun {ctx c} hc => by
    rw [h.registry] at hc
    rw [h.contexts, h.size, h.owner]
    exact hm.registered hc
  hooks := fun ctx hopen => by
    rw [h.closed] at hopen
    rw [h.contexts, h.registry]
    exact hm.hooks ctx hopen
  queues := fun ctx => by
    rw [h.contexts]
    exact hm.queues ctx
  roomy := fun c => by
    by_cases hc : c = cache
    · rw [hc, hcapacity]
      exact hm.roomy cache
    · rw [h.others c hc]
      exact hm.roomy c

end Machine

/-! ### Errands -/

/-- What contexts and their caches are asked for. -/
inductive Errand where
  | newContext (id : String)
  /-- Asks for the registered cache of a context. -/
  | cacheOf (ctx : Nat) (capacity? : Option Int) (store? : Option Nat)
  /-- Compiles a draft through the registered cache of a context. -/
  | compile (ctx : Nat) (draft : Draft) (options : List String)
  | getOrBuild (cache : Nat) (source options : String)
  | close (ctx : Nat)

namespace Errand

open Machine

/-- What is done. -/
def act : Errand → Act Unit
  | newContext id => discard (Machine.newContext id)
  | cacheOf ctx capacity? store? => discard (Machine.cacheOf ctx capacity? store?)
  | compile ctx draft options => discard (Machine.compile ctx draft { options })
  | getOrBuild cache source options => discard (Machine.getOrBuild cache source options)
  | close ctx => closeContext ctx

/-- The context or the cache that is asked has been made. -/
def Known (m : Machine) : Errand → Prop
  | newContext _ => True
  | cacheOf ctx _ _ | compile ctx _ _ | close ctx => ctx < m.contexts.size
  | getOrBuild cache _ _ => cache < m.caches.size

/-- The registered cache of a context is asked for. -/
def AsksFor (ctx : Nat) : Errand → Prop
  | cacheOf ctx' _ _ | compile ctx' _ _ => ctx' = ctx
  | _ => False

/-- A cache is asked for a program. -/
def BuildsInto (cache : Nat) : Errand → Prop
  | getOrBuild cache' _ _ => cache' = cache
  | _ => False

end Errand

namespace Machine

open Act

variable {m m' m'' : Machine}

/-- The machines that errands lead to, with the errands and whether each of them succeeded. -/
inductive Leads (m : Machine) : List (Errand × Bool) → Machine → Prop
  | nil : Leads m [] m
  | snoc {h : List (Errand × Bool)} {m' : Machine} {e : Errand} (hm : Leads m h m') (hknown : e.Known m') :
      Leads m (h ++ [(e, (e.act m').1.isOk)]) (e.act m').2

/-! ### What an errand does -/

/-- What one errand does to the registry and to the caches that are not registered. -/
structure Attends (e : Errand) (ok : Bool) (m m' : Machine) : Prop where
  ordered : Ordered m'
  closed : ∀ ctx, m'.Closed ctx ↔ m.Closed ctx ∨ e = .close ctx
  registered : ∀ ctx, m.Closed ctx →
    ((m'.registry.get? ctx).isSome ↔ (m.registry.get? ctx).isSome ∨ e.AsksFor ctx)
  size : m.caches.size ≤ m'.caches.size
  /-- Only new caches are put into the registry. -/
  fresh : ∀ ctx c, c < m.caches.size → m'.registry.get? ctx = some c → m.registry.get? ctx = some c
  content : ∀ c, c < m.caches.size → (∀ ctx, m.registry.get? ctx ≠ some c) →
    ((m'.cacheAt c).order = [] ↔ (m.cacheAt c).order = [] ∧ ¬ (e.BuildsInto c ∧ ok = true))

variable {ctx : Nat}

theorem getD_modify_contexts (cs : Array Context) (ctx ctx' : Nat) (f : Context → Context) :
    (cs.modify ctx f).getD ctx' default =
      if ctx' = ctx ∧ ctx < cs.size then f (cs.getD ctx default) else cs.getD ctx' default := by
  rw [Array.getD_eq_getD_getElem?, Array.getD_eq_getD_getElem?, Array.getD_eq_getD_getElem?,
    Array.getElem?_modify]
  by_cases hctx : ctx = ctx'
  · subst hctx
    by_cases hlt : ctx < cs.size
    · simp [hlt]
    · simp [hlt]
  · simp [hctx, Ne.symm hctx]

theorem attends_newContext (hm : Ordered m) (id : String) (ok : Bool) :
    Attends (.newContext id) ok m { m with contexts := m.contexts.push { id } } := by
  have hget : ∀ ctx, ctx ≠ m.contexts.size →
      (m.contexts.push { id }).getD ctx default = m.contexts.getD ctx default := by
    intro ctx hne
    rw [Array.getD_eq_getD_getElem?, Array.getElem?_push, if_neg hne, ← Array.getD_eq_getD_getElem?]
  have hnew : (m.contexts.push { id }).getD m.contexts.size default = { id } := by
    simp [Array.getD_eq_getD_getElem?]
  have hnone : m.registry.get? m.contexts.size = none := by
    cases hc : m.registry.get? m.contexts.size with
    | none => rfl
    | some c => exact absurd (hm.registered hc).1 (Nat.lt_irrefl _)
  have hout : m.contexts.getD m.contexts.size default = default := by
    simp [Array.getD_eq_getD_getElem?]
  have hclosed : ∀ ctx, Closed { m with contexts := m.contexts.push { id } } ctx ↔ m.Closed ctx := by
    intro ctx
    by_cases hctx : ctx = m.contexts.size
    · rw [Closed, Closed, hctx, hnew, hout]
      rfl
    · rw [Closed, Closed, hget ctx hctx]
  refine ⟨⟨fun {ctx c} hc => ?_, fun ctx hopen => ?_, fun ctx => ?_, hm.roomy⟩, fun ctx => ?_, fun ctx _ => ?_,
    Nat.le_refl _, fun _ _ _ h => h, fun c _ _ => ?_⟩
  · obtain ⟨hknown, hrest⟩ := hm.registered hc
    exact ⟨Nat.lt_of_lt_of_le hknown (by simp), hrest⟩
  · by_cases hctx : ctx = m.contexts.size
    · rw [hctx, hnew, hnone]
      rfl
    · rw [hclosed] at hopen
      rw [hget ctx hctx]
      exact hm.hooks ctx hopen
  · by_cases hctx : ctx = m.contexts.size
    · rw [hctx, hnew]
    · rw [hget ctx hctx]
      exact hm.queues ctx
  · simp [hclosed]
  · simp [Errand.AsksFor]
  · simp [Errand.BuildsInto, cacheAt]

theorem attends_idle {e : Errand} {ok : Bool} (hm : Ordered m) (hclose : ∀ ctx, e = .close ctx → m.Closed ctx)
    (hasks : ∀ ctx, e.AsksFor ctx → (m.registry.get? ctx).isSome) (hbuilds : ∀ c, ¬ e.BuildsInto c) :
    Attends e ok m m where
  ordered := hm
  closed := fun ctx => ⟨.inl, fun h => h.elim id (hclose ctx)⟩
  registered := fun ctx _ => ⟨.inl, fun h => h.elim id (hasks ctx)⟩
  size := Nat.le_refl _
  fresh := fun _ _ _ h => h
  content := fun c _ _ => by simp [hbuilds c]

/-- The machine after a context has got its registered cache. -/
def withRegistered (m : Machine) (ctx : Nat) (capacity? : Option Int) (store? : Option Nat) : Machine :=
  { m with
    contexts := m.contexts.modify ctx fun c => { c with hooks := c.hooks ++ [.dropCache] }
    caches := m.caches.push { ctx, store?, cache := .withCapacity (capacity?.getD 64) }
    registry := (m.registry.getOrInsert ctx m.caches.size).2.2 }

theorem cacheOf_of_some {c : Nat} (h : m.registry.get? ctx = some c) (capacity? : Option Int)
    (store? : Option Nat) : cacheOf ctx capacity? store? m = (.ok c, m) := by
  unfold cacheOf
  have hget : (get : Act Machine) m = (.ok m, m) := rfl
  rw [bind_ok hget, h]
  rfl

theorem cacheOf_of_none (h : m.registry.get? ctx = none) (capacity? : Option Int) (store? : Option Nat) :
    cacheOf ctx capacity? store? m =
      (.ok m.caches.size, m.withRegistered ctx capacity? store?) := by
  unfold cacheOf
  have hget : (get : Act Machine) m = (.ok m, m) := rfl
  rw [bind_ok hget, h]
  cases capacity? <;> rfl

section

variable {capacity? : Option Int} {store? : Option Nat}

theorem closed_withRegistered (ctx' : Nat) :
    (m.withRegistered ctx capacity? store?).Closed ctx' ↔ m.Closed ctx' := by
  rw [Closed, Closed, withRegistered, getD_modify_contexts]
  split
  · rename_i h
    rw [h.1]
  · rfl

theorem get?_withRegistered (h : m.registry.get? ctx = none) (ctx' : Nat) :
    (m.withRegistered ctx capacity? store?).registry.get? ctx' =
      if ctx' = ctx then some m.caches.size else m.registry.get? ctx' :=
  Registry.get?_getOrInsert m.registry h _ ctx'

theorem getD_caches_withRegistered {c : Nat} (hc : c < m.caches.size) :
    (m.withRegistered ctx capacity? store?).caches.getD c default = m.caches.getD c default := by
  simp [withRegistered, Array.getD_eq_getD_getElem?, Array.getElem?_push, Nat.ne_of_lt hc]

theorem getD_caches_withRegistered_self :
    (m.withRegistered ctx capacity? store?).caches.getD m.caches.size default =
      { ctx, store?, cache := .withCapacity (capacity?.getD 64) } := by
  simp [withRegistered, Array.getD_eq_getD_getElem?]

theorem ordered_withRegistered (hm : Ordered m) (hknown : ctx < m.contexts.size)
    (h : m.registry.get? ctx = none) : Ordered (m.withRegistered ctx capacity? store?) where
  registered := fun {ctx' c} hc => by
    rw [get?_withRegistered h] at hc
    split at hc
    · rename_i heq
      cases hc
      rw [getD_caches_withRegistered_self, heq]
      exact ⟨by simpa [withRegistered] using hknown, by simp [withRegistered], rfl⟩
    · obtain ⟨hctx, hcache, howner⟩ := hm.registered hc
      rw [getD_caches_withRegistered hcache]
      exact ⟨by simpa [withRegistered] using hctx, by simp [withRegistered]; omega, howner⟩
  hooks := fun ctx' hopen => by
    rw [closed_withRegistered] at hopen
    have hhooks := hm.hooks ctx' hopen
    rw [get?_withRegistered h, withRegistered, getD_modify_contexts]
    by_cases heq : ctx' = ctx
    · subst heq
      rw [h] at hhooks
      rw [if_pos ⟨rfl, hknown⟩, if_pos rfl]
      simp only [hhooks]
      rfl
    · rw [if_neg fun h => heq h.1, if_neg heq]
      exact hhooks
  queues := fun ctx' => by
    rw [withRegistered, getD_modify_contexts]
    by_cases heq : ctx' = ctx ∧ ctx < m.contexts.size
    · rw [if_pos heq]
      exact hm.queues ctx
    · rw [if_neg heq]
      exact hm.queues ctx'
  roomy := fun c => by
    rw [cacheAt]
    rcases Nat.lt_trichotomy c m.caches.size with hlt | rfl | hgt
    · rw [getD_caches_withRegistered hlt]
      exact hm.roomy c
    · rw [getD_caches_withRegistered_self]
      simp [ProgramCache.withCapacity]
    · have hout : (m.withRegistered ctx capacity? store?).caches.size ≤ c := by
        simp [withRegistered]
        omega
      rw [Array.getD_eq_getD_getElem?, Array.getElem?_eq_none hout]
      decide

/-- What is asked for is in the registry afterwards. -/
theorem attends_cacheOf (hm : Ordered m) (hknown : ctx < m.contexts.size) (capacity? : Option Int)
    (store? : Option Nat) (ok : Bool) :
    ∃ c m', cacheOf ctx capacity? store? m = (.ok c, m') ∧ m'.registry.get? ctx = some c ∧
      Attends (.cacheOf ctx capacity? store?) ok m m' := by
  cases hc : m.registry.get? ctx with
  | some c =>
    refine ⟨c, m, cacheOf_of_some hc capacity? store?, hc, attends_idle hm nofun ?_ fun _ => id⟩
    rintro _ rfl
    rw [hc]
    rfl
  | none =>
    have hget := @get?_withRegistered m ctx capacity? store? hc
    refine ⟨_, _, cacheOf_of_none hc capacity? store?, by rw [hget, if_pos rfl],
      ordered_withRegistered hm hknown hc, fun ctx' => by simp [closed_withRegistered], fun ctx' _ => ?_,
      by simp [withRegistered], fun ctx' c hlt hin => ?_, fun c hlt _ => ?_⟩
    · rw [hget]
      by_cases heq : ctx' = ctx
      · simp [heq, Errand.AsksFor]
      · simp [heq, Errand.AsksFor, Ne.symm heq]
    · rw [hget] at hin
      split at hin
      · cases hin
        exact absurd hlt (Nat.lt_irrefl _)
      · exact hin
    · rw [cacheAt, cacheAt, getD_caches_withRegistered hlt]
      simp [Errand.BuildsInto]

end

theorem Attends.compiled {c : Nat} {ok ok' : Bool} {capacity? : Option Int} {store? : Option Nat}
    (h : Attends (.cacheOf ctx capacity? store?) ok m m') (hc : m'.registry.get? ctx = some c)
    (hbut : SameBut c m' m'') (hcapacity : (m''.cacheAt c).capacity = (m'.cacheAt c).capacity)
    (d : Draft) (options : List String) : Attends (.compile ctx d options) ok' m m'' where
  ordered := h.ordered.sameBut hbut hcapacity
  closed := fun ctx' => by
    rw [hbut.closed, h.closed]
    simp
  registered := fun ctx' hclosed => by
    rw [hbut.registry]
    exact h.registered ctx' hclosed
  size := by
    rw [hbut.size]
    exact h.size
  fresh := fun ctx' c' hlt hin => by
    rw [hbut.registry] at hin
    exact h.fresh ctx' c' hlt hin
  content := fun c' hlt hnone => by
    -- The cache of the context is new, or it was registered before.
    have hne : c' ≠ c := fun heq => hnone ctx (h.fresh ctx c' hlt (heq ▸ hc))
    rw [hbut.others c' hne, h.content c' hlt hnone]
    simp [Errand.BuildsInto]

theorem Discreet.sameBut {α : Type} {x : Act α} (hx : Discreet x) {c n : Nat} (h : SameBut c m m')
    (hcapacity : (m'.cacheAt c).capacity = n) :
    SameBut c m (x m').2 ∧ ((x m').2.cacheAt c).capacity = n :=
  ⟨h.trans ((hx m').sameBut c), by rw [cacheAt, (hx m').caches]; exact hcapacity⟩

/-- Compiling changes the content of the registered cache only. -/
theorem compileSource_sameBut {c : Nat} (hm : Ordered m') (hc : c < m'.caches.size)
    (hcacheOf : cacheOf ctx none none m = (.ok c, m')) (d : Draft) (source : String) {o : CompileOptions}
    (hcache : o.cache? = none) :
    SameBut c m' (compileSource ctx d source o m).2 ∧
      ((compileSource ctx d source o m).2.cacheAt c).capacity = (m'.cacheAt c).capacity := by
  unfold compileSource
  rw [hcache]
  simp only []
  rw [bind_ok hcacheOf]
  have hbut := sameBut_getOrBuild m' c source (" ".intercalate o.options)
  have hcapacity := (order_getOrBuild hc (hm.roomy c) source (" ".intercalate o.options)).2
  rcases hbuild : getOrBuild c source (" ".intercalate o.options) m' with ⟨r, m₁⟩
  rw [hbuild] at hbut hcapacity
  cases r with
  | error f =>
    rw [bind_error hbuild]
    exact ⟨hbut, hcapacity⟩
  | ok prog =>
    rw [bind_ok hbuild]
    refine Discreet.sameBut ?_ hbut hcapacity
    refine (discreet_newKernel _ _).bind fun kernel => discreet_get.bind fun m => ?_
    split
    · exact discreet_fail_bind _ _
    · exact (discreet_bindPresets _ _ _ _).bind fun _ => discreet_pure _

theorem Ordered.traced (hm : Ordered m) (text : String) : Ordered { m with trace := m.trace ++ text } :=
  ⟨hm.registered, hm.hooks, hm.queues, hm.roomy⟩

theorem attends_compile (hm : Ordered m) (hknown : ctx < m.contexts.size) (d : Draft)
    (options : List String) (ok : Bool) :
    Attends (.compile ctx d options) ok m (Machine.compile ctx d { options } m).2 := by
  rcases hd : d.source with ⟨source, d'⟩
  have hcompile : Machine.compile ctx d { options } m =
      compileSource ctx d' source { options }
        { m with trace := m.trace ++ traceText d'.name (" ".intercalate options) source } := by
    unfold compile
    rw [hd]
    rfl
  obtain ⟨c, m', hcacheOf, hc, hattends⟩ := attends_cacheOf (hm.traced
    (traceText d'.name (" ".intercalate options) source)) hknown none none ok
  obtain ⟨hbut, hcapacity⟩ := compileSource_sameBut hattends.ordered
    (hattends.ordered.registered hc).2.1 hcacheOf d' source (show (CompileOptions.mk options none).cache? = none from rfl)
  rw [hcompile]
  -- The trace is not looked at.
  obtain ⟨hordered, hclosed, hregistered, hsize, hfresh, hcontent⟩ : Attends (.compile ctx d options) ok _ _ :=
    hattends.compiled hc hbut hcapacity d options
  exact ⟨hordered, hclosed, hregistered, hsize, hfresh, hcontent⟩

theorem attends_getOrBuild (hm : Ordered m) {c : Nat} (hknown : c < m.caches.size) (source options : String) :
    Attends (.getOrBuild c source options) (getOrBuild c source options m).1.isOk m
      (getOrBuild c source options m).2 := by
  have hbut := sameBut_getOrBuild m c source options
  obtain ⟨horder, hcapacity⟩ := order_getOrBuild hknown (hm.roomy c) source options
  refine ⟨hm.sameBut hbut hcapacity, fun ctx => ?_, fun ctx _ => ?_, hbut.size.symm.le, fun ctx c' _ hin => ?_,
    fun c' _ _ => ?_⟩
  · rw [hbut.closed]
    simp
  · rw [hbut.registry]
    simp [Errand.AsksFor]
  · rwa [hbut.registry] at hin
  · by_cases hc : c' = c
    · rw [hc, horder]
      simp [Errand.BuildsInto]
    · rw [hbut.others c' hc]
      simp [Errand.BuildsInto, Ne.symm hc]

/-! ### Closing -/

/-- The machine with a context marked as closed. -/
def marked (m : Machine) (ctx : Nat) : Machine :=
  { m with contexts := m.contexts.modify ctx fun c => { c with closed := true, hooks := [], queues := [] } }

/-- The machine without the registered cache of a context, which has been emptied. -/
def dropped (m : Machine) (ctx : Nat) : Machine :=
  match m.registry.get? ctx with
  | none => m
  | some c =>
    { m with
      registry := (m.registry.remove ctx).2
      caches := m.caches.modify c fun c => { c with cache := c.cache.clear } }

theorem closeContext_of_closed (h : m.Closed ctx) : closeContext ctx m = (.ok (), m) := by
  have hget : (get : Act Machine) m = (.ok m, m) := rfl
  have hclosed : (m.contexts.getD ctx default).closed = true := h
  unfold closeContext
  rw [bind_ok hget, if_pos hclosed]
  rfl

theorem closeContext_of_open (hm : Ordered m) (hopen : ¬ m.Closed ctx) :
    closeContext ctx m = (.ok (), (m.marked ctx).dropped ctx) := by
  have hget : (get : Act Machine) m = (.ok m, m) := rfl
  have hclosed : ¬ (m.contexts.getD ctx default).closed = true := hopen
  have hhooks := hm.hooks ctx hopen
  unfold closeContext
  rw [bind_ok hget, if_neg hclosed, hhooks, hm.queues ctx]
  cases hc : m.registry.get? ctx with
  | none =>
    have hnone : (m.marked ctx).registry.get? ctx = none := hc
    rw [dropped, hnone]
    rfl
  | some c => rfl

theorem contexts_dropped (m : Machine) (ctx : Nat) : (m.dropped ctx).contexts = m.contexts := by
  unfold dropped
  split <;> rfl

theorem get?_dropped (m : Machine) (ctx ctx' : Nat) :
    (m.dropped ctx).registry.get? ctx' = if ctx' = ctx then none else m.registry.get? ctx' := by
  unfold dropped
  split
  · rename_i h
    split
    · rename_i heq
      rw [heq, h]
    · rfl
  · exact Registry.get?_remove m.registry ctx ctx'

theorem size_dropped (m : Machine) (ctx : Nat) : (m.dropped ctx).caches.size = m.caches.size := by
  unfold dropped
  split <;> simp

theorem owner_dropped (m : Machine) (ctx c : Nat) :
    ((m.dropped ctx).caches.getD c default).ctx = (m.caches.getD c default).ctx := by
  unfold dropped
  split
  · rfl
  · simp only [Array.getD_eq_getD_getElem?, Array.getElem?_modify]
    split
    · cases m.caches[c]? <;> rfl
    · rfl

theorem cacheAt_dropped (m : Machine) (ctx : Nat) {c : Nat} (hc : c < m.caches.size) :
    (m.dropped ctx).cacheAt c = if m.registry.get? ctx = some c then (m.cacheAt c).clear else m.cacheAt c := by
  unfold dropped cacheAt
  split
  · rename_i h
    simp [h]
  · rename_i c' h
    by_cases heq : c' = c
    · subst heq
      simp only [h, if_true, Array.getD_eq_getD_getElem?, Array.getElem?_modify,
        Array.getElem?_eq_getElem hc, Option.map_some, Option.getD_some]
    · simp [h, heq, Array.getD_eq_getD_getElem?, Array.getElem?_modify]

theorem capacity_dropped (m : Machine) (ctx c : Nat) :
    ((m.dropped ctx).cacheAt c).capacity = (m.cacheAt c).capacity := by
  by_cases hc : c < m.caches.size
  · rw [cacheAt_dropped m ctx hc]
    split <;> rfl
  · have hout : (m.dropped ctx).caches.size ≤ c := by rw [size_dropped]; omega
    rw [cacheAt, cacheAt, Array.getD_eq_getD_getElem?, Array.getD_eq_getD_getElem?,
      Array.getElem?_eq_none hout, Array.getElem?_eq_none (by omega)]

theorem closed_marked (hknown : ctx < m.contexts.size) (ctx' : Nat) :
    (m.marked ctx).Closed ctx' ↔ m.Closed ctx' ∨ ctx' = ctx := by
  rw [Closed, Closed, marked, getD_modify_contexts]
  by_cases heq : ctx' = ctx
  · simp [heq, hknown]
  · simp [heq]

/-- Closing a context that has a registered cache empties this cache. -/
theorem attends_close (hm : Ordered m) (hknown : ctx < m.contexts.size) (ok : Bool) :
    Attends (.close ctx) ok m (closeContext ctx m).2 := by
  by_cases hclosed : m.Closed ctx
  · rw [closeContext_of_closed hclosed]
    refine attends_idle hm (fun ctx' h => ?_) nofun nofun
    cases h
    exact hclosed
  rw [closeContext_of_open hm hclosed]
  have hcontexts := contexts_dropped (m.marked ctx) ctx
  have hclosed' : ∀ ctx', ((m.marked ctx).dropped ctx).Closed ctx' ↔ m.Closed ctx' ∨ ctx' = ctx := by
    intro ctx'
    rw [← closed_marked hknown, Closed, hcontexts, Closed]
  have hget := get?_dropped (m.marked ctx) ctx
  have hsize := size_dropped (m.marked ctx) ctx
  refine ⟨⟨fun {ctx' c} hc => ?_, fun ctx' hopen => ?_, fun ctx' => ?_, fun c => ?_⟩, fun ctx' => ?_,
    fun ctx' h => ?_, hsize.symm.le, fun ctx' c _ hin => ?_, fun c hlt hnone => ?_⟩
  · rw [hget] at hc
    split at hc
    · cases hc
    · rw [hcontexts, hsize, owner_dropped]
      obtain ⟨hctx, hrest⟩ := hm.registered hc
      exact ⟨by simpa [marked] using hctx, hrest⟩
  · rw [hclosed', not_or] at hopen
    rw [hget, if_neg hopen.2, hcontexts, marked, getD_modify_contexts, if_neg fun h => hopen.2 h.1]
    exact hm.hooks ctx' hopen.1
  · rw [hcontexts, marked, getD_modify_contexts]
    by_cases heq : ctx' = ctx ∧ ctx < m.contexts.size
    · rw [if_pos heq]
    · rw [if_neg heq]
      exact hm.queues ctx'
  · rw [capacity_dropped]
    exact hm.roomy c
  · rw [hclosed']
    simp [eq_comm]
  · rw [hget]
    have hne : ctx' ≠ ctx := by
      rintro rfl
      exact hclosed h
    simp [hne, Errand.AsksFor, marked]
  · rw [hget] at hin
    split at hin
    · cases hin
    · exact hin
  · have hlt' : c < (m.marked ctx).caches.size := hlt
    have hkeep : ((m.marked ctx).dropped ctx).cacheAt c = m.cacheAt c := by
      rw [cacheAt_dropped _ _ hlt', if_neg]
      · rfl
      · exact hnone ctx
    rw [hkeep]
    simp [Errand.BuildsInto]

/-! ### Errands one after the other -/

theorem discard_eq {α : Type} (x : Act α) (m : Machine) :
    (discard x m).2 = (x m).2 ∧ (discard x m).1.isOk = (x m).1.isOk := by
  rcases hx : x m with ⟨r, m'⟩
  cases r with
  | ok a =>
    have hdiscard : (discard x : Act Unit) m = (.ok (), m') := map_ok hx _
    rw [hdiscard]
    exact ⟨rfl, rfl⟩
  | error f =>
    have hdiscard : (discard x : Act Unit) m = (.error f, m') := map_error hx _
    rw [hdiscard]
    exact ⟨rfl, rfl⟩

theorem attends (hm : Ordered m) {e : Errand} (hknown : e.Known m) :
    Attends e (e.act m).1.isOk m (e.act m).2 := by
  cases e with
  | newContext id => exact attends_newContext hm id _
  | cacheOf ctx capacity? store? =>
    obtain ⟨c, m', hact, -, hattends⟩ := attends_cacheOf hm hknown capacity? store? true
    rw [Errand.act, (discard_eq _ m).1, (discard_eq _ m).2, hact]
    exact hattends
  | compile ctx d options =>
    rw [Errand.act, (discard_eq _ m).1]
    exact attends_compile hm hknown d options _
  | getOrBuild c source options =>
    rw [Errand.act, (discard_eq _ m).1, (discard_eq _ m).2]
    exact attends_getOrBuild hm hknown source options
  | close ctx => exact attends_close hm hknown _

variable {h h' : List (Errand × Bool)}

theorem Leads.ordered (hm : Ordered m) (hl : Leads m h m') : Ordered m' := by
  induction hl with
  | nil => exact hm
  | snoc _ hknown ih => exact (attends ih hknown).ordered

/-- A context that has been closed was closed at some time, and other errands came before and after. -/
theorem Leads.closed (hm : Ordered m) (hopen : ¬ m.Closed ctx) (hl : Leads m h m') (hclosed : m'.Closed ctx) :
    ∃ before m₁ after, Leads m before m₁ ∧ ¬ m₁.Closed ctx ∧ ctx < m₁.contexts.size ∧
      Leads (closeContext ctx m₁).2 after m' ∧ h = before ++ (.close ctx, true) :: after := by
  induction hl with
  | nil => exact absurd hclosed hopen
  | @snoc h m₁ e hl hknown ih =>
    by_cases hbefore : m₁.Closed ctx
    · obtain ⟨before, m₂, after, hl₂, hopen₂, hknown₂, hafter, rfl⟩ := ih hbefore
      exact ⟨before, m₂, _, hl₂, hopen₂, hknown₂, hafter.snoc hknown, by simp⟩
    · have hordered := hl.ordered hm
      rcases ((attends hordered hknown).closed ctx).mp hclosed with h | rfl
      · exact absurd h hbefore
      · refine ⟨h, m₁, [], hl, hbefore, hknown, .nil, ?_⟩
        have hok : (Errand.act (.close ctx) m₁).1 = .ok () :=
          congrArg Prod.fst (closeContext_of_open hordered hbefore)
        rw [hok]
        rfl

/-- The registry has a cache for a context that has been closed once it has been asked for one. -/
theorem Leads.asked (hm : Ordered m) (hl : Leads m h m') (hclosed : m.Closed ctx) :
    m'.Closed ctx ∧
      ((m'.registry.get? ctx).isSome ↔ (m.registry.get? ctx).isSome ∨ ∃ e ∈ h, e.1.AsksFor ctx) := by
  induction hl with
  | nil => simp [hclosed]
  | snoc hl hknown ih =>
    obtain ⟨hclosed', hasked⟩ := ih
    have hstep := attends (hl.ordered hm) hknown
    refine ⟨(hstep.closed ctx).mpr (.inl hclosed'), ?_⟩
    rw [hstep.registered ctx hclosed', hasked]
    simp [or_and_right, exists_or, or_assoc]

/-- A cache that is not in the registry stays empty until a program is built into it. -/
theorem Leads.built (hm : Ordered m) (hl : Leads m h m') {c : Nat} (hc : c < m.caches.size)
    (hout : ∀ ctx, m.registry.get? ctx ≠ some c) :
    c < m'.caches.size ∧ (∀ ctx, m'.registry.get? ctx ≠ some c) ∧
      ((m'.cacheAt c).order = [] ↔
        (m.cacheAt c).order = [] ∧ ∀ e ∈ h, ¬ (e.1.BuildsInto c ∧ e.2 = true)) := by
  induction hl with
  | nil => simp [hc, hout]
  | snoc hl hknown ih =>
    obtain ⟨hc', hout', hempty⟩ := ih
    have hstep := attends (hl.ordered hm) hknown
    refine ⟨Nat.lt_of_lt_of_le hc' hstep.size, fun ctx hin => hout' ctx (hstep.fresh ctx c hc' hin), ?_⟩
    rw [hstep.content c hc' hout', hempty]
    simp [or_imp, forall_and, and_assoc]

theorem closeContext_emptied (hm : Ordered m) (hopen : ¬ m.Closed ctx) :
    (closeContext ctx m).2.registry.get? ctx = none ∧
      ∀ c, m.registry.get? ctx = some c → c < (closeContext ctx m).2.caches.size ∧
        ((closeContext ctx m).2.cacheAt c).order = [] ∧
        ∀ ctx', (closeContext ctx m).2.registry.get? ctx' ≠ some c := by
  rw [closeContext_of_open hm hopen]
  have hget := get?_dropped (m.marked ctx) ctx
  refine ⟨by rw [hget, if_pos rfl], fun c hc => ?_⟩
  obtain ⟨-, hlt, howner⟩ := hm.registered hc
  have hlt' : c < (m.marked ctx).caches.size := hlt
  have hc' : (m.marked ctx).registry.get? ctx = some c := hc
  refine ⟨by rw [size_dropped]; exact hlt, by rw [cacheAt_dropped _ _ hlt', if_pos hc']; rfl, fun ctx' hin => ?_⟩
  rw [hget] at hin
  split at hin
  · cases hin
  · rename_i hne
    exact hne ((hm.registered hin).2.2.symm.trans howner)

/-- What a machine has of the caches of a context that was closed on another machine, with errands
since. -/
structure Afterwards (ctx : Nat) (m : Machine) (since : List (Errand × Bool)) (m' : Machine) : Prop where
  /-- There is a registered cache exactly if one has been asked for since. -/
  registered : (∃ c, m'.registry.get? ctx = some c) ↔ ∃ e ∈ since, e.1.AsksFor ctx
  /-- The cache of then is empty exactly if no program has been built into it since. -/
  emptied : ∀ c, m.registry.get? ctx = some c →
    ((m'.cacheAt c).order = [] ↔ ∀ e ∈ since, ¬ (e.1.BuildsInto c ∧ e.2 = true))

/-- **The registry has a cache for a closed context exactly if one was asked for after the context
was closed, and the cache that it had before is empty exactly as long as no program has been built
into it since.** -/
theorem closed_context_cache (stores : Array BinaryStore) {h : List (Errand × Bool)} {m : Machine} {ctx : Nat}
    (hl : Leads { stores } h m) (hclosed : m.Closed ctx) :
    ∃ before m₁ since, h = before ++ (.close ctx, true) :: since ∧ Leads { stores } before m₁ ∧
      ¬ m₁.Closed ctx ∧ Afterwards ctx m₁ since m := by
  have hstart := ordered_start stores
  have hopen : ¬ Closed { stores } ctx := by simp [Closed, Array.getD_eq_getD_getElem?]; rfl
  obtain ⟨before, m₁, since, hbefore, hopen₁, hknown, hsince, rfl⟩ := hl.closed hstart hopen hclosed
  have hordered := hbefore.ordered hstart
  have hclose := attends_close hordered hknown true
  obtain ⟨hnone, hemptied⟩ := closeContext_emptied hordered hopen₁
  refine ⟨before, m₁, since, rfl, hbefore, hopen₁, ?_, fun c hc => ?_⟩
  · have hasked := (hsince.asked hclose.ordered ((hclose.closed ctx).mpr (.inr rfl))).2
    rw [← Option.isSome_iff_exists, hasked, hnone]
    simp
  · obtain ⟨hlt, hempty, hout⟩ := hemptied c hc
    rw [(hsince.built hclose.ordered hlt hout).2.2]
    simp [hempty]

/-- A machine whose only context has been closed and then asked for its cache. -/
def askedLate : Machine :=
  ((Errand.cacheOf 0 none none).act
    ((Errand.close 0).act ((Errand.cacheOf 0 none none).act
      ((Errand.newContext "a").act { stores := #[] }).2).2).2).2

theorem leads_askedLate :
    Leads { stores := #[] } [(.newContext "a", true), (.cacheOf 0 none none, true), (.close 0, true),
      (.cacheOf 0 none none, true)] askedLate := by
  have h₁ : Leads { stores := #[] } [(.newContext "a", true)] _ := Leads.nil.snoc trivial
  have h₂ : Leads { stores := #[] } [(.newContext "a", true), (.cacheOf 0 none none, true)] _ :=
    h₁.snoc Nat.zero_lt_one
  have h₃ : Leads { stores := #[] } [(.newContext "a", true), (.cacheOf 0 none none, true), (.close 0, true)] _ :=
    h₂.snoc Nat.zero_lt_one
  exact h₃.snoc Nat.zero_lt_one

/-- A context that is asked for its cache after it was closed has a registered cache. -/
theorem closed_context_registered :
    Leads { stores := #[] } [(.newContext "a", true), (.cacheOf 0 none none, true), (.close 0, true),
      (.cacheOf 0 none none, true)] askedLate ∧ askedLate.Closed 0 ∧ askedLate.registry.get? 0 = some 1 :=
  ⟨leads_askedLate, rfl, rfl⟩

theorem closed_context_cache_askedLate :
    Leads { stores := #[] } [(.newContext "a", true), (.cacheOf 0 none none, true), (.close 0, true),
      (.cacheOf 0 none none, true)] askedLate ∧ askedLate.Closed 0 ∧
    ∃ before m₁ since, [(.newContext "a", true), (.cacheOf 0 none none, true), (.close 0, true),
        (.cacheOf 0 none none, true)] = before ++ (Errand.close 0, true) :: since ∧
      Leads { stores := #[] } before m₁ ∧ ¬ m₁.Closed 0 ∧ Afterwards 0 m₁ since askedLate :=
  ⟨leads_askedLate, rfl, closed_context_cache #[] leads_askedLate rfl⟩

end Machine
end KernelForge
