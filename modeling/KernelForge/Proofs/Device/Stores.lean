/-
Binaries, the stores that keep them, and the caches that use these stores.

A binary is the source of a program behind a mark, so it can be built again wherever the source
can.  A store has it under the digest of a message that tells the device, the options and the
source apart, each field being preceded by its length.  As long as the digests of the messages
differ, a store that has been filled by caches has for a request nothing but the binary of what the
request asks for; then it makes no difference whether a program is loaded or built.

A cache provides for some keys when it is in order, every program in it is what its key asks for, and
its store, if there is one, is faithful.  Nothing that is done with caches changes this, and the programs
that a cache gives are then what they are asked for, wherever they come from.
-/
import KernelForge.Proofs.Device.Caching
import KernelForge.Proofs.Device.Making
import KernelForge.Proofs.Source.Encoding
import Mathlib.Algebra.Order.Ring.Nat
import Mathlib.Data.Set.Function

namespace KernelForge

/-! ### Keys -/

theorem toList_loop (bs : ByteArray) (i : Nat) (r : List UInt8) :
    ByteArray.toList.loop bs i r = r.reverse ++ bs.data.toList.drop i := by
  fun_induction ByteArray.toList.loop bs i r with
  | case1 i r hi ih =>
    have hlt : i < bs.data.toList.length := hi
    have hget : bs.get! i = bs.data.toList[i] := by
      show bs.data[i]! = _
      rw [getElem!_pos bs.data i hi, Array.getElem_toList]
    rw [ih, List.drop_eq_getElem_cons hlt, hget, List.reverse_cons, List.append_assoc, List.singleton_append]
  | case2 i r hi =>
    rw [List.drop_eq_nil_of_le (Nat.le_of_not_lt hi), List.append_nil]

theorem toList_toUTF8 (s : String) : s.toUTF8.toList = s.toByteArray.data.toList := by
  rw [String.toUTF8, ByteArray.toList, toList_loop, List.reverse_nil, List.nil_append, List.drop_zero]

/-- A field can be told from what follows it. -/
theorem measured_append_inj {a b : String} {rest rest' : List UInt8} (ha : a.utf8ByteSize < 2 ^ 64)
    (hb : b.utf8ByteSize < 2 ^ 64) (h : measured a ++ rest = measured b ++ rest') :
    a = b ∧ rest = rest' := by
  have hcount : ∀ s : String, s.toUTF8.toList.length = s.utf8ByteSize := fun s => by
    rw [toList_toUTF8]
    rfl
  unfold measured at h
  rw [List.append_assoc, List.append_assoc] at h
  obtain ⟨hlength, h⟩ := List.append_inj h (by rw [Bytes.length_ofNat, Bytes.length_ofNat])
  have hread : ∀ n < 2 ^ 64, Bytes.toNat (Bytes.ofNat 8 n) = n := fun n hn => by
    rw [Bytes.toNat_ofNat]
    exact Nat.mod_eq_of_lt hn
  have hsize : a.utf8ByteSize = b.utf8ByteSize := by
    rw [← hread _ ha, ← hread _ hb, hlength]
  obtain ⟨hbytes, hrest⟩ := List.append_inj h (by rw [hcount, hcount, hsize])
  rw [toList_toUTF8, toList_toUTF8, Array.toList_inj] at hbytes
  exact ⟨String.toByteArray_inj.mp (ByteArray.ext hbytes), hrest⟩

/-- **The message under whose digest a program is kept tells all its fields.** -/
theorem keyMessage_inj {device version source options device' version' source' options' : String}
    (hfits : ∀ s ∈ [device, version, source, options, device', version', source', options'],
      s.utf8ByteSize < 2 ^ 64)
    (h : keyMessage device version source options = keyMessage device' version' source' options') :
    device = device' ∧ version = version' ∧ options = options' ∧ source = source' := by
  simp only [keyMessage, List.flatMap_cons, List.flatMap_nil] at h
  obtain ⟨hdevice, h⟩ := measured_append_inj (hfits _ (by simp)) (hfits _ (by simp)) h
  obtain ⟨hversion, h⟩ := measured_append_inj (hfits _ (by simp)) (hfits _ (by simp)) h
  obtain ⟨hoptions, h⟩ := measured_append_inj (hfits _ (by simp)) (hfits _ (by simp)) h
  exact ⟨hdevice, hversion, hoptions, (measured_append_inj (hfits _ (by simp)) (hfits _ (by simp)) h).1⟩

/-! ### Binaries -/

/-- A program knows what it has been built from. -/
theorem Program.source_of_build {text : SourceText} {p : Program} (h : Program.build text = .built p) :
    p.source = text := by
  unfold Program.build at h
  dsimp only at h
  split at h
  · cases h
  · split at h
    · cases h
    · split at h
      · cases h
        rfl
      · cases h

theorem Device.source_of_compile {text : SourceText} {options : String} {p : Program}
    (h : Device.compile text options = .ok p) : p.source = text := by
  unfold Device.compile at h
  split at h
  · cases h
  · split at h
    · cases h
    · cases h
    · rename_i hbuild
      cases h
      exact Program.source_of_build hbuild

namespace Machine

theorem sourceOfBinary?_binaryOf (p : Program) :
    sourceOfBinary? (binaryOf p) = some (.ofBytes p.source.bytes) := by
  unfold sourceOfBinary? binaryOf
  rw [if_pos (List.isPrefixOf_iff_prefix.mpr (List.prefix_append _ _)), List.drop_left]

/-- **A binary is built again to what it is the binary of.** -/
theorem buildBinary_binaryOf {bs : List UInt8} {options : String} {p : Program}
    (h : Device.compile (.ofBytes bs) options = .ok p) (ctx : Nat) (m : Machine) :
    buildBinary ctx (binaryOf p) options m =
      (.ok m.programs.size, m.addProgram { ctx, program := p, options }) := by
  have hsource := Device.source_of_compile h
  have hread : SourceText.ofBytes p.source.bytes = .ofBytes bs := by
    rw [hsource, SourceText.bytes_ofBytes]
  rw [buildBinary, sourceOfBinary?_binaryOf, hread]
  exact build_of_ok h

theorem programOf?_binaryOf {source options : String} {p : Program}
    (h : Device.compile (.ofString source) options = .ok p) :
    programOf? (binaryOf p) options = some p := by
  have hread : SourceText.ofBytes p.source.bytes = .ofString source := by
    rw [Device.source_of_compile h]
    exact SourceText.ofBytes_ofChars _
  rw [programOf?, sourceOfBinary?_binaryOf, hread, Option.bind_some, h]
  rfl

end Machine

/-! ### Requests -/

/-- What is to be had for a key. -/
def ProgramKey.compiled (k : ProgramKey) : Except Fault Program :=
  Device.compile (.ofString k.source) k.options

/-- The message under whose digest a store has the program of a key. -/
def ProgramKey.message (k : ProgramKey) : List UInt8 :=
  keyMessage Device.name Device.version k.source k.options

/-- Where a store has the program of a key. -/
def ProgramKey.address (k : ProgramKey) : List UInt8 := Blake2b.digest k.message

/-- What a store has for some keys are the binaries of what is to be had for them. -/
def BinaryStore.Faithful (keys : Set ProgramKey) (s : BinaryStore) : Prop :=
  ∀ k ∈ keys, ∀ bytes, s.load k.address = .ok (some bytes) →
    ∃ p, k.compiled = .ok p ∧ bytes = Machine.binaryOf p

section

variable {keys : Set ProgramKey} {s s' : BinaryStore} {k : ProgramKey} {p : Program}

theorem BinaryStore.faithful_of_empty (h : s.entries = []) : s.Faithful keys := by
  intro k _ bytes hload
  unfold BinaryStore.load at hload
  split at hload
  · cases hload
  · rw [h] at hload
    cases hload

/-- A store has been filled with binaries of what is to be had for some keys. -/
def BinaryStore.Filled (keys : Set ProgramKey) (s : BinaryStore) : Prop :=
  ∀ e ∈ s.entries, ∃ k ∈ keys, ∃ p, k.compiled = .ok p ∧ e = (k.address, Machine.binaryOf p)

theorem BinaryStore.Filled.store (hs : s.Filled keys) (hk : k ∈ keys) (hp : k.compiled = .ok p)
    (hstore : s.store k.address (Machine.binaryOf p) = .ok s') : s'.Filled keys := by
  unfold BinaryStore.store at hstore
  split at hstore
  · cases hstore
  · cases hstore
    intro e he
    rcases List.mem_cons.mp he with rfl | he
    · exact ⟨k, hk, p, hp, rfl⟩
    · exact hs e (List.mem_filter.mp he).1

/-- Where digests differ, what has been filled in for a key is found under it. -/
theorem BinaryStore.Filled.faithful (hs : s.Filled keys) (hinj : Set.InjOn ProgramKey.address keys) :
    s.Faithful keys := by
  intro k hk bytes hload
  unfold BinaryStore.load at hload
  split at hload
  · cases hload
  · obtain ⟨k', hk', p, hp, heq⟩ := hs _ (mem_of_lookup (Except.ok.inj hload))
    obtain ⟨haddress, rfl⟩ := Prod.mk.inj heq
    obtain rfl := hinj hk hk' haddress
    exact ⟨p, hp, rfl⟩

/-- A store stays so when it gets the binary of what is to be had for a key. -/
theorem BinaryStore.Faithful.store (hs : s.Faithful keys) (hinj : Set.InjOn ProgramKey.address keys)
    (hk : k ∈ keys) (hp : k.compiled = .ok p)
    (hstore : s.store k.address (Machine.binaryOf p) = .ok s') : s'.Faithful keys := by
  intro k' hk' bytes hload
  unfold BinaryStore.store at hstore
  split at hstore
  · cases hstore
  · rename_i hopen
    cases hstore
    have hold := hs k' hk' bytes
    simp only [BinaryStore.load, hopen, Bool.false_eq_true, if_false, Except.ok.injEq] at hload hold
    rw [List.lookup_cons, lookup_filter_ne] at hload
    by_cases haddress : k'.address = k.address
    · obtain rfl := hinj hk' hk haddress
      rw [beq_self_eq_true] at hload
      cases hload
      exact ⟨p, hp, rfl⟩
    · rw [beq_eq_false_iff_ne.mpr haddress, if_neg haddress] at hload
      exact hold hload

end

namespace Machine

variable {m m' : Machine} {cache : Nat} {keys : Set ProgramKey} {k : ProgramKey} {prog : Nat}

/-- A program of a context is what is to be had for a key. -/
def Holds (m : Machine) (ctx : Nat) (k : ProgramKey) (prog : Nat) : Prop :=
  ∃ p, k.compiled = .ok p ∧ m.programs[prog]? = some { ctx, program := p, options := k.options }

/-- The store of a cache, if there is one, is faithful, and can tell some keys apart. -/
def Backed (m : Machine) (keys : Set ProgramKey) (cache : Nat) : Prop :=
  ∀ store, (m.caches.getD cache default).store? = some store →
    Set.InjOn ProgramKey.address keys ∧ (m.stores.getD store default).Faithful keys

/-- A program that is found in a faithful store is what is to be had for the key. -/
theorem Backed.stored (hb : m.Backed keys cache) (hk : k ∈ keys) {p : Program}
    (h : m.stored? cache k.source k.options = some p) : k.compiled = .ok p := by
  simp only [stored?, Option.bind_eq_bind, Option.bind_eq_some_iff] at h
  obtain ⟨store, hstore, bytes, hbytes, hp⟩ := h
  have hload : (m.stores.getD store default).load k.address = .ok (some bytes) := by
    unfold binaryIn? at hbytes
    split at hbytes
    · rename_i hload
      rw [hbytes] at hload
      exact hload
    · cases hbytes
  obtain ⟨p', hp', rfl⟩ := (hb store hstore).2 k hk bytes hload
  rw [programOf?_binaryOf hp'] at hp
  cases hp
  exact hp'

/-! ### What making keeps -/

/-- The second machine has the caches of the first, with any content, and its programs. -/
structure Extends (m m' : Machine) : Prop where
  size : m'.caches.size = m.caches.size
  ctx : ∀ c, (m'.caches.getD c default).ctx = (m.caches.getD c default).ctx
  store? : ∀ c, (m'.caches.getD c default).store? = (m.caches.getD c default).store?
  programs : ∀ {i : Nat} {p : BuiltProgram}, m.programs[i]? = some p → m'.programs[i]? = some p

theorem Extends.trans {m'' : Machine} (h : m.Extends m') (h' : m'.Extends m'') : m.Extends m'' :=
  ⟨h'.size.trans h.size, fun c => (h'.ctx c).trans (h.ctx c), fun c => (h'.store? c).trans (h.store? c),
    fun hp => h'.programs (h.programs hp)⟩

theorem extends_putCache (m : Machine) (cache : Nat) (inner : ProgramCache) :
    m.Extends (m.putCache cache inner) :=
  ⟨size_putCache m cache inner, ctx_putCache m cache inner, store?_putCache m cache inner, id⟩

theorem extends_addProgram (m : Machine) (p : BuiltProgram) : m.Extends (m.addProgram p) :=
  ⟨rfl, fun _ => rfl, fun _ => rfl, (keeps_push m p).programs⟩

theorem extends_keepFor (m : Machine) (cache : Nat) (source options : String) (bytes : List UInt8) :
    m.Extends (m.keepFor cache source options bytes) := by
  have hcaches := caches_keepFor m cache source options bytes
  refine ⟨by rw [hcaches], fun c => by rw [hcaches], fun c => by rw [hcaches], fun hp => ?_⟩
  unfold keepFor keepBinary
  split
  · exact hp
  · split <;> exact hp

theorem Makes.extends {source options : String} {r : Except Fault Nat × Machine}
    (hr : Makes m cache source options r) : m.Extends r.2 := by
  cases hr with
  | load _ => exact (extends_addProgram m _).trans (extends_putCache _ _ _)
  | build _ _ =>
    exact ((extends_addProgram m _).trans (extends_putCache _ _ _)).trans (extends_keepFor _ _ _ _ _)
  | fail _ _ => exact extends_putCache _ _ _

theorem Holds.mono {ctx : Nat} (h : m.Holds ctx k prog) (he : m.Extends m') : m'.Holds ctx k prog := by
  obtain ⟨p, hp, hprog⟩ := h
  exact ⟨p, hp, he.programs hprog⟩

theorem Extends.backed (he : m.Extends m') (hstores : m'.stores = m.stores) (hb : m.Backed keys cache) :
    m'.Backed keys cache := by
  intro store hs
  rw [he.store?] at hs
  rw [hstores]
  exact hb store hs

theorem stores_keepFor {P : BinaryStore → Prop} {source options : String} {bytes : List UInt8}
    (hP : ∀ s s', P s → s.store (keyOf source options) bytes = .ok s' → P s') {store : Nat}
    (h : P (m.stores.getD store default)) :
    P ((m.keepFor cache source options bytes).stores.getD store default) := by
  unfold keepFor keepBinary
  split
  · exact h
  · rename_i store' _
    split
    · rename_i s hstore
      by_cases hsame : store' = store ∧ store' < m.stores.size
      · obtain ⟨rfl, hlt⟩ := hsame
        have hget : (m.stores.setIfInBounds store' s).getD store' default = s := by
          simp [Array.getD_eq_getD_getElem?, hlt]
        rw [hget]
        exact hP _ _ h hstore
      · have hget : (m.stores.setIfInBounds store' s).getD store default = m.stores.getD store default := by
          rw [Array.getD_eq_getD_getElem?, Array.getD_eq_getD_getElem?, Array.getElem?_setIfInBounds]
          split
          · rename_i heq
            have hout : ¬ store' < m.stores.size := fun hlt => hsame ⟨heq, hlt⟩
            rw [if_neg hout, Array.getElem?_eq_none (heq ▸ Nat.le_of_not_lt hout)]
          · rfl
        rw [hget]
        exact h
    · exact h

/-- What stores keep when they take the binary of what is to be had for a key is kept by making. -/
theorem Makes.stores {P : BinaryStore → Prop} {r : Except Fault Nat × Machine}
    (hr : Makes m cache k.source k.options r)
    (hP : ∀ s s' p, P s → k.compiled = .ok p → s.store k.address (binaryOf p) = .ok s' → P s')
    {store : Nat} (h : P (m.stores.getD store default)) : P (r.2.stores.getD store default) := by
  cases hr with
  | load _ => exact h
  | fail _ _ => exact h
  | @build p _ hp =>
    have hbuilt : P ((m.afterBuild cache p k.options).stores.getD store default) := h
    exact stores_keepFor (fun s s' hs hstore => hP s s' p hs hp hstore) hbuilt

theorem Makes.backed {cache' : Nat} {r : Except Fault Nat × Machine}
    (hr : Makes m cache k.source k.options r) (hb : m.Backed keys cache') (hk : k ∈ keys) :
    r.2.Backed keys cache' := by
  intro store hs
  rw [hr.extends.store?] at hs
  obtain ⟨hinj, hfaithful⟩ := hb store hs
  exact ⟨hinj, hr.stores (fun _ _ _ hs hp hstore => hs.store hinj hk hp hstore) hfaithful⟩

/-- **What a cache makes for a key is what is to be had for it.** -/
theorem Makes.agrees {r : Except Fault Nat × Machine} (hr : Makes m cache k.source k.options r)
    (hb : m.Backed keys cache) (hk : k ∈ keys) :
    match r.1 with
    | .ok prog => r.2.Holds (m.caches.getD cache default).ctx k prog
    | .error f => k.compiled = .error f := by
  have hnew : ∀ p, (m.addProgram p).programs[m.programs.size]? = some p := fun p => by simp [addProgram]
  cases hr with
  | load h => exact ⟨_, hb.stored hk h, (extends_putCache _ _ _).programs (hnew _)⟩
  | build _ hp =>
    exact ⟨_, hp, (extends_keepFor _ _ _ _ _).programs ((extends_putCache _ _ _).programs (hnew _))⟩
  | fail _ hf => exact hf

end Machine
end KernelForge

namespace KernelForge

open Act ProgramCache

variable {capacity prog : Nat} {k : ProgramKey}

/-! ### Lists that follow each other -/

/-- Two lists have the same program for every key that both have. -/
def Agree (l l' : RecencyList) : Prop :=
  ∀ k first later, l.lookup k = some first → l'.lookup k = some later → later = first

theorem agree_self (l : RecencyList) : Agree l l := fun _ _ _ h h' => Option.some.inj (h'.symm.trans h)

theorem agree_use (hpos : 0 < capacity) {l : RecencyList}
    (h : ∀ first, l.lookup k = some first → prog = first) : Agree l (l.use capacity k prog) := by
  intro k' first later hl hl'
  by_cases hk : k' = k
  · subst hk
    rw [RecencyList.lookup_use_self l hpos] at hl'
    cases hl'
    exact h first hl
  · exact agree_self l k' first later hl (RecencyList.lookup_of_use hk hl')

/-- What holds of all programs of a list and of one more holds after its use. -/
theorem held_use (hpos : 0 < capacity) {l : RecencyList} {P : ProgramKey → Nat → Prop}
    (hl : ∀ k prog, l.lookup k = some prog → P k prog) (hP : P k prog) (k' : ProgramKey) (prog' : Nat)
    (h : (l.use capacity k prog).lookup k' = some prog') : P k' prog' := by
  by_cases hk : k' = k
  · subst hk
    rw [RecencyList.lookup_use_self l hpos] at h
    cases h
    exact hP
  · exact hl k' prog' (RecencyList.lookup_of_use hk h)

namespace Machine

variable {m m' : Machine} {ctx cache : Nat} {keys : Set ProgramKey}

/-- The programs of a cache, by their keys. -/
def programsAt (m : Machine) (cache : Nat) : RecencyList := (m.cacheAt cache).entries

/-- A cache of a context is in order, and what it has are what its keys ask for. -/
structure Provides (ctx cache capacity : Nat) (keys : Set ProgramKey) (m : Machine) : Prop where
  inside : cache < m.caches.size
  context : (m.caches.getD cache default).ctx = ctx
  room : 0 < capacity
  mirrors : Mirrors ProgramKey.hash capacity (m.cacheAt cache) (m.programsAt cache)
  held : ∀ k prog, (m.programsAt cache).lookup k = some prog → m.Holds ctx k prog
  backed : m.Backed keys cache

/-- What an action on a cache does to the programs, the caches and the stores. -/
structure Turns (cache : Nat) (keys : Set ProgramKey) (m m' : Machine) : Prop where
  keeps : m.Extends m'
  others : ∀ c, c ≠ cache → m'.cacheAt c = m.cacheAt c
  backed : ∀ c, m.Backed keys c → m'.Backed keys c
  filled : ∀ store, (m.stores.getD store default).Filled keys → (m'.stores.getD store default).Filled keys

theorem Turns.trans {m'' : Machine} (h : Turns cache keys m m') (h' : Turns cache keys m' m'') :
    Turns cache keys m m'' :=
  ⟨h.keeps.trans h'.keeps, fun c hc => (h'.others c hc).trans (h.others c hc),
    fun c hb => h'.backed c (h.backed c hb), fun store hf => h'.filled store (h.filled store hf)⟩

theorem turns_putCache (m : Machine) (cache : Nat) (keys : Set ProgramKey) (inner : ProgramCache) :
    Turns cache keys m (m.putCache cache inner) :=
  ⟨extends_putCache m cache inner, fun _ hc => cacheAt_putCache_of_ne m hc inner,
    fun _ hb => (extends_putCache m cache inner).backed rfl hb, fun _ hf => hf⟩

theorem Makes.turns {r : Except Fault Nat × Machine} (hr : Makes m cache k.source k.options r)
    (hk : k ∈ keys) : Turns cache keys m r.2 := by
  refine ⟨hr.extends, fun c hc => ?_, fun c hb => hr.backed hb hk,
    fun store hf => hr.stores (fun _ _ _ hs hp hstore => hs.store hk hp hstore) hf⟩
  cases hr with
  | load _ => exact cacheAt_putCache_of_ne _ hc _
  | build _ _ => exact (cacheAt_keepFor _ _ _ _ _ _).trans (cacheAt_putCache_of_ne _ hc _)
  | fail _ _ => exact cacheAt_putCache_of_ne _ hc _

/-- A cache still provides when nothing happens to it. -/
theorem Provides.mono (hs : Provides ctx cache capacity keys m) (he : m.Extends m')
    (hcache : m'.cacheAt cache = m.cacheAt cache) (hb : m'.Backed keys cache) :
    Provides ctx cache capacity keys m' := by
  have hprograms : m'.programsAt cache = m.programsAt cache := congrArg ProgramCache.entries hcache
  refine ⟨he.size.symm ▸ hs.inside, (he.ctx _).trans hs.context, hs.room, ?_, ?_, hb⟩
  · rw [hprograms, hcache]
    exact hs.mirrors
  · rw [hprograms]
    exact fun k prog hl => (hs.held k prog hl).mono he

theorem provides_new {store? : Option Nat} {n : Int}
    (hnew : m.caches[cache]? = some { ctx, store?, cache := withCapacity n })
    (hstore : ∀ store, store? = some store →
      Set.InjOn ProgramKey.address keys ∧ (m.stores.getD store default).Faithful keys) :
    Provides ctx cache (max n 1).toNat keys m := by
  have hget : m.caches.getD cache default = { ctx, store?, cache := withCapacity n } := by
    rw [Array.getD_eq_getD_getElem?, hnew, Option.getD_some]
  have hprograms : m.programsAt cache = [] := by
    rw [programsAt, cacheAt, hget]
    rfl
  refine ⟨(Array.getElem?_eq_some_iff.mp hnew).1, by rw [hget], by omega, ?_, ?_, fun store hs => ?_⟩
  · rw [hprograms, cacheAt, hget]
    exact withCapacity_mirrors _ _
  · rw [hprograms]
    intro k prog hl
    cases hl
  · rw [hget] at hs
    exact hstore store hs

/-! ### Actions on a cache -/

theorem programsAt_putCache (h : cache < m.caches.size) {c : ProgramCache} {l : RecencyList}
    (hm : Mirrors ProgramKey.hash capacity c l) : (m.putCache cache c).programsAt cache = l := by
  rw [programsAt, cacheAt_putCache h, hm.entries]

/-- A cache with another content still provides. -/
theorem Provides.put (hs : Provides ctx cache capacity keys m) {c : ProgramCache} {l : RecencyList}
    (hm : Mirrors ProgramKey.hash capacity c l)
    (hheld : ∀ k prog, l.lookup k = some prog → m.Holds ctx k prog) :
    Provides ctx cache capacity keys (m.putCache cache c) := by
  have he := extends_putCache m cache c
  have hprograms := programsAt_putCache hs.inside hm
  refine ⟨he.size.symm ▸ hs.inside, (he.ctx _).trans hs.context, hs.room, ?_, ?_, he.backed rfl hs.backed⟩
  · rw [hprograms, cacheAt_putCache hs.inside]
    exact hm
  · rw [hprograms]
    exact fun k prog hl => (hheld k prog hl).mono he

/-- What a cache gives when it is asked for a key. -/
theorem Provides.lookup (hs : Provides ctx cache capacity keys m) (k : ProgramKey) :
    Machine.lookup cache k.source k.options m =
      (.ok ((m.programsAt cache).lookup k), m.afterLookup cache k.source k.options) := by
  have hanswer := (hs.mirrors.lookup k).1
  rw [RecencyList.fst_find] at hanswer
  exact Prod.ext (congrArg Except.ok hanswer) rfl

theorem Provides.afterLookup (hs : Provides ctx cache capacity keys m) (k : ProgramKey) :
    Provides ctx cache capacity keys (m.afterLookup cache k.source k.options) ∧
      (m.afterLookup cache k.source k.options).programsAt cache =
        ((m.programsAt cache).find capacity k).2 := by
  have hmirrors := (hs.mirrors.lookup k).2
  refine ⟨hs.put hmirrors ?_, programsAt_putCache hs.inside hmirrors⟩
  cases hl : (m.programsAt cache).lookup k with
  | none =>
    simp only [RecencyList.find, hl]
    exact hs.held
  | some prog =>
    simp only [RecencyList.find, hl]
    exact held_use hs.room hs.held (hs.held k prog hl)

theorem Provides.make (hs : Provides ctx cache capacity keys m) (hk : k ∈ keys)
    {r : Except Fault Nat × Machine} (hr : Makes m cache k.source k.options r) :
    Provides ctx cache capacity keys r.2 ∧ r.2.programsAt cache = m.programsAt cache := by
  have he := hr.extends
  obtain ⟨making, -, hc, -⟩ := hr.counted hs.inside
  have hprograms : r.2.programsAt cache = m.programsAt cache := by
    rw [programsAt, hc]
    cases making <;> rfl
  refine ⟨⟨he.size.symm ▸ hs.inside, (he.ctx _).trans hs.context, hs.room, ?_, ?_, hr.backed hs.backed hk⟩,
    hprograms⟩
  · rw [hprograms, hc]
    exact hs.mirrors.count making
  · rw [hprograms]
    exact fun k prog hl => (hs.held k prog hl).mono he

/-- The program that is kept for a key when one more comes in: the first. -/
def firstAt (m : Machine) (cache : Nat) (k : ProgramKey) (prog : Nat) : Nat :=
  ((m.programsAt cache).lookup k).getD prog

theorem Provides.holds_first (hs : Provides ctx cache capacity keys m) (hprog : m.Holds ctx k prog) :
    m.Holds ctx k (m.firstAt cache k prog) := by
  unfold firstAt
  cases hl : (m.programsAt cache).lookup k with
  | none => exact hprog
  | some first => exact hs.held k first hl

theorem Provides.insert (hs : Provides ctx cache capacity keys m) (hprog : m.Holds ctx k prog) :
    ∃ c, Machine.insert cache k.source k.options prog m =
        (.ok (m.firstAt cache k prog), m.putCache cache c) ∧
      Mirrors ProgramKey.hash capacity c
        ((m.programsAt cache).use capacity k (m.firstAt cache k prog)) ∧
      Provides ctx cache capacity keys (m.putCache cache c) := by
  obtain ⟨hanswer, hmirrors⟩ := hs.mirrors.insert k prog
  exact ⟨_, Prod.ext (congrArg Except.ok hanswer) rfl, hmirrors,
    hs.put hmirrors (held_use hs.room hs.held (hs.holds_first hprog))⟩

end Machine
end KernelForge
