/-
Caches that share a store.

A store keeps the programs that caches have built for other caches, and for later times.  What it
costs or saves is not the concern here: a call for a program gives the same program, or the same
fault, as without a store, in whatever order any caches have filled it.
-/
import KernelForge.Proofs.Device.Stores

namespace KernelForge

open Act ProgramCache

namespace Machine

variable {m : Machine} {ctx cache capacity : Nat} {keys : Set ProgramKey} {k : ProgramKey}

/-! ### Calls -/

/-- What a call for a program gives: the program itself, or a fault. -/
def fetch (cache : Nat) (k : ProgramKey) (m : Machine) : Except Fault BuiltProgram × Machine :=
  let r := getOrBuild cache k.source k.options m
  (r.1.map fun prog => r.2.programs.getD prog default, r.2)

/-- What calls for programs give one after the other. -/
def fetchAll : List (Nat × ProgramKey) → Machine → List (Except Fault BuiltProgram) × Machine
  | [], m => ([], m)
  | (cache, k) :: calls, m =>
    let (a, m) := fetch cache k m
    let (as, m) := fetchAll calls m
    (a :: as, m)

/-- What is to be had for a key in a context. -/
def answerFor (ctx : Nat) (k : ProgramKey) : Except Fault BuiltProgram :=
  k.compiled.map fun p => { ctx, program := p, options := k.options }

/-- **A cache that provides gives for a key what is to be had for it**, and still provides. -/
theorem Provides.getOrBuild (hs : Provides ctx cache capacity keys m) (hk : k ∈ keys) :
    let r := Machine.getOrBuild cache k.source k.options m
    Provides ctx cache capacity keys r.2 ∧ Turns cache keys m r.2 ∧
      match r.1 with
      | .ok prog => r.2.Holds ctx k prog
      | .error f => k.compiled = .error f := by
  obtain ⟨hafter, hprograms⟩ := hs.afterLookup k
  have hturns := turns_putCache m cache keys ((m.cacheAt cache).lookup ProgramKey.hash k).2
  have hfirst : ((m.cacheAt cache).lookup ProgramKey.hash k).1 = (m.programsAt cache).lookup k := by
    rw [(hs.mirrors.lookup k).1, RecencyList.fst_find]
  cases hl : (m.programsAt cache).lookup k with
  | some prog =>
    rw [hl] at hfirst
    rw [getOrBuild_of_found hfirst]
    exact ⟨hafter, hturns, (hs.held k prog hl).mono hturns.keeps⟩
  | none =>
    rw [hl] at hfirst
    have hr := makes (m.afterLookup cache k.source k.options) cache k.source k.options
    rcases hmake : Machine.make cache k.source k.options (m.afterLookup cache k.source k.options) with ⟨r, m'⟩
    rw [hmake] at hr
    have hmade := (hafter.make hk hr).1
    have hturns' := hturns.trans (hr.turns hk)
    have hagrees := hr.agrees hafter.backed hk
    rw [hafter.context] at hagrees
    cases r with
    | error f =>
      rw [getOrBuild_of_failed hfirst hmake]
      exact ⟨hmade, hturns', hagrees⟩
    | ok prog =>
      obtain ⟨c, hinsert, -, hprovides⟩ := hmade.insert hagrees
      have hin := turns_putCache m' cache keys c
      rw [getOrBuild_of_missing hfirst, bind_ok hmake, hinsert]
      exact ⟨hprovides, hturns'.trans hin, (hmade.holds_first hagrees).mono hin.keeps⟩

theorem Provides.fetch (hs : Provides ctx cache capacity keys m) (hk : k ∈ keys) :
    (Machine.fetch cache k m).1 = answerFor ctx k := by
  obtain ⟨-, -, hagrees⟩ := hs.getOrBuild hk
  unfold Machine.fetch answerFor
  dsimp only
  cases hr : (Machine.getOrBuild cache k.source k.options m).1 with
  | error f =>
    rw [hr] at hagrees
    rw [hagrees]
    rfl
  | ok prog =>
    rw [hr] at hagrees
    obtain ⟨p, hp, hprog⟩ := hagrees
    have hget : (Machine.getOrBuild cache k.source k.options m).2.programs.getD prog default =
        { ctx, program := p, options := k.options } := by
      rw [Array.getD_eq_getD_getElem?, hprog, Option.getD_some]
    rw [hp]
    exact congrArg Except.ok hget

/-! ### Several caches -/

/-- New caches for some contexts, each with its capacity, before one store or none. -/
def openCaches (store? : Option Nat) (specs : List (Nat × Option Int)) (m : Machine) : Machine :=
  specs.foldl (fun m spec => (newCache spec.1 spec.2 store? m).2) m

variable {store? : Option Nat} {specs : List (Nat × Option Int)}

theorem caches_openCaches (store? : Option Nat) (specs : List (Nat × Option Int)) (m : Machine) :
    (openCaches store? specs m).caches = m.caches ++ (specs.map fun spec =>
      { ctx := spec.1, store?, cache := withCapacity (spec.2.getD 64) : ContextCache }).toArray := by
  induction specs generalizing m with
  | nil => simp [openCaches]
  | cons spec specs ih =>
    have hcons : openCaches store? (spec :: specs) m =
        openCaches store? specs (newCache spec.1 spec.2 store? m).2 := rfl
    rw [hcons, ih, caches_newCache]
    simp

theorem stores_openCaches (store? : Option Nat) (specs : List (Nat × Option Int)) (m : Machine) :
    (openCaches store? specs m).stores = m.stores := by
  induction specs generalizing m with
  | nil => rfl
  | cons spec specs ih => exact ih _

/-- Some caches of a machine, the first of which has the number `base`, all provide for some keys. -/
def AllProvide (base : Nat) (specs : List (Nat × Option Int)) (keys : Set ProgramKey) (m : Machine) :
    Prop :=
  ∀ i : Fin specs.length, ∃ capacity, Provides specs[i].1 (base + i) capacity keys m

theorem allProvide_openCaches
    (hstore : ∀ store, store? = some store →
      Set.InjOn ProgramKey.address keys ∧ (m.stores.getD store default).Faithful keys) :
    AllProvide m.caches.size specs keys (openCaches store? specs m) := by
  intro i
  have hnew : (openCaches store? specs m).caches[m.caches.size + i.val]? =
      some { ctx := specs[i].1, store?, cache := withCapacity (specs[i].2.getD 64) } := by
    rw [caches_openCaches, Array.getElem?_append_right (Nat.le_add_right _ _), Nat.add_sub_cancel_left]
    simp
  exact ⟨_, provides_new hnew (by rw [stores_openCaches]; exact hstore)⟩

/-- A call to one of several caches. -/
theorem AllProvide.step {base : Nat} (hs : AllProvide base specs keys m) (i : Fin specs.length)
    (hk : k ∈ keys) :
    (fetch (base + i) k m).1 = answerFor specs[i].1 k ∧
      AllProvide base specs keys (fetch (base + i) k m).2 ∧
      ∀ store, (m.stores.getD store default).Filled keys →
        ((fetch (base + i) k m).2.stores.getD store default).Filled keys := by
  obtain ⟨capacity, hprovides⟩ := hs i
  obtain ⟨hafter, hturns, -⟩ := hprovides.getOrBuild hk
  refine ⟨hprovides.fetch hk, fun j => ?_, hturns.filled⟩
  by_cases hj : j = i
  · subst hj
    exact ⟨capacity, hafter⟩
  · obtain ⟨capacity', hother⟩ := hs j
    have hne : base + j.val ≠ base + i.val := fun h => hj (Fin.ext (by omega))
    exact ⟨capacity', hother.mono hturns.keeps (hturns.others _ hne) (hturns.backed _ hother.backed)⟩

/-- The calls for some keys to several caches, the first of which has the number `base`. -/
def callsFrom (base : Nat) (requests : List (Fin specs.length × ProgramKey)) : List (Nat × ProgramKey) :=
  requests.map fun r => (base + r.1, r.2)

/-- **Calls to caches that provide give what is to be had.** -/
theorem AllProvide.fetchAll {base : Nat} (hs : AllProvide base specs keys m)
    {requests : List (Fin specs.length × ProgramKey)} (hkeys : ∀ r ∈ requests, r.2 ∈ keys) :
    (Machine.fetchAll (callsFrom base requests) m).1 =
        requests.map (fun r => answerFor specs[r.1].1 r.2) ∧
      ∀ store, (m.stores.getD store default).Filled keys →
        ((Machine.fetchAll (callsFrom base requests) m).2.stores.getD store default).Filled keys := by
  induction requests generalizing m with
  | nil => exact ⟨rfl, fun _ => id⟩
  | cons r requests ih =>
    obtain ⟨hanswer, hafter, hfilled⟩ := hs.step r.1 (hkeys r List.mem_cons_self)
    obtain ⟨hanswers, hfilled'⟩ := ih hafter fun r' hr' => hkeys r' (List.mem_cons_of_mem _ hr')
    refine ⟨?_, fun store h => hfilled' store (hfilled store h)⟩
    rw [List.map_cons, ← hanswer, ← hanswers]
    rfl

end Machine

open Machine

/-- The keys that some requests are about. -/
def requested {n : Nat} (requests : List (Fin n × ProgramKey)) : Set ProgramKey :=
  {k | ∃ r ∈ requests, r.2 = k}

/-- Where the digests of their messages differ, the programs of some keys are kept apart. -/
theorem injOn_address {keys : Set ProgramKey}
    (hfits : ∀ k ∈ keys, k.source.utf8ByteSize < 2 ^ 64 ∧ k.options.utf8ByteSize < 2 ^ 64)
    (hinj : Set.InjOn Blake2b.digest (ProgramKey.message '' keys)) :
    Set.InjOn ProgramKey.address keys := by
  intro k hk k' hk' haddress
  have hmessage := hinj (Set.mem_image_of_mem _ hk) (Set.mem_image_of_mem _ hk') haddress
  have hdevice : Device.name.utf8ByteSize < 2 ^ 64 ∧ Device.version.utf8ByteSize < 2 ^ 64 := by decide
  obtain ⟨-, -, hoptions, hsource⟩ := keyMessage_inj (by
    simp only [List.mem_cons, List.not_mem_nil, or_false, forall_eq_or_imp, forall_eq]
    exact ⟨hdevice.1, hdevice.2, (hfits k hk).1, (hfits k hk).2, hdevice.1, hdevice.2, (hfits k' hk').1,
      (hfits k' hk').2⟩) hmessage
  cases k
  cases k'
  simp_all

theorem getD_newStore (m : Machine) : (newStore m).2.stores.getD m.stores.size default = {} := by
  have hstores : (newStore m).2.stores = m.stores.push {} := rfl
  simp [hstores, Array.getD_eq_getD_getElem?]

theorem build_again {m m' : Machine} {ctx prog : Nat} {bs : List UInt8} {options : String}
    (h : build ctx (.ofBytes bs) options m = (.ok prog, m')) (ctx' : Nat) :
    ∃ bytes, binary prog m' = (.ok bytes, m') ∧
      buildBinary ctx' bytes options m' =
        (.ok m'.programs.size, m'.addProgram { m'.programs.getD prog default with ctx := ctx' }) := by
  cases hcompiled : Device.compile (.ofBytes bs) options with
  | error f => cases (build_of_error hcompiled).symm.trans h
  | ok p =>
    obtain ⟨hprog, rfl⟩ := Prod.mk.inj ((build_of_ok hcompiled).symm.trans h)
    cases hprog
    refine ⟨binaryOf p, ?_, ?_⟩
    · have hbinary : binary m.programs.size (m.addProgram { ctx, program := p, options }) =
          (.ok (binaryOf ((m.addProgram { ctx, program := p, options }).programs.getD m.programs.size
            default).program), m.addProgram { ctx, program := p, options }) := rfl
      rw [hbinary, getD_addProgram]
    · rw [buildBinary_binaryOf hcompiled, getD_addProgram]

/-- **A store makes no difference**: however many caches share a store that starts empty, and
whatever they are asked for one after the other, every call gives the same program, or the same
fault, as without a store.  For the fields of a key can be read off the message whose digest it is;
the binary of a program is built again to the same program; and all that is ever stored are the
binaries of programs that have been built for their keys.

The digests of the messages are taken to differ.  The length of a field has eight bytes in a message,
which is enough for any text that a memory can hold. -/
theorem store_transparent (m : Machine) (specs : List (Nat × Option Int))
    (requests : List (Fin specs.length × ProgramKey))
    (hfits : ∀ k ∈ requested requests, k.source.utf8ByteSize < 2 ^ 64 ∧ k.options.utf8ByteSize < 2 ^ 64)
    (hinj : Set.InjOn Blake2b.digest (ProgramKey.message '' requested requests)) :
    let calls := callsFrom m.caches.size requests
    let shared := fetchAll calls (openCaches (some m.stores.size) specs (newStore m).2)
    let plain := fetchAll calls (openCaches none specs m)
    let store := shared.2.stores.getD m.stores.size default
    shared.1 = plain.1 ∧
      (∀ device version source options device' version' source' options',
        (∀ s ∈ [device, version, source, options, device', version', source', options'],
          s.utf8ByteSize < 2 ^ 64) →
        keyMessage device version source options = keyMessage device' version' source' options' →
          device = device' ∧ version = version' ∧ options = options' ∧ source = source') ∧
      (∀ (m m' : Machine) (ctx ctx' : Nat) (source : List UInt8) (options : String) (prog : Nat),
        build ctx (.ofBytes source) options m = (.ok prog, m') →
          ∃ bytes, binary prog m' = (.ok bytes, m') ∧
            buildBinary ctx' bytes options m' =
              (.ok m'.programs.size, m'.addProgram { m'.programs.getD prog default with ctx := ctx' })) ∧
      (∀ e ∈ store.entries, ∃ k ∈ requested requests, ∃ p, k.compiled = .ok p ∧
        e = (k.address, binaryOf p)) ∧
      ∀ k ∈ requested requests, ∀ f bytes, k.compiled = .error f →
        store.load k.address ≠ .ok (some bytes) := by
  intro calls shared plain store
  have hkeys : ∀ r ∈ requests, r.2 ∈ requested requests := fun r hr => ⟨r, hr, rfl⟩
  have haddress := injOn_address hfits hinj
  -- nothing is in the store at first, so all that is in it will have been filled in
  have hempty : (newStore m).2.stores.getD m.stores.size default = {} := getD_newStore m
  have hshared : AllProvide m.caches.size specs (requested requests)
      (openCaches (some m.stores.size) specs (newStore m).2) :=
    @allProvide_openCaches (newStore m).2 _ (some m.stores.size) specs fun store hs => by
      cases hs
      exact ⟨haddress, BinaryStore.faithful_of_empty (by rw [hempty])⟩
  obtain ⟨hanswers, hfilled⟩ := hshared.fetchAll hkeys
  have hplain : AllProvide m.caches.size specs (requested requests) (openCaches none specs m) :=
    allProvide_openCaches nofun
  have hstore : store.Filled (requested requests) := by
    refine hfilled m.stores.size ?_
    rw [stores_openCaches, hempty]
    exact nofun
  refine ⟨hanswers.trans (hplain.fetchAll hkeys).1.symm, fun _ _ _ _ _ _ _ _ => keyMessage_inj,
    fun _ _ _ ctx' _ _ _ h => build_again h ctx', hstore, ?_⟩
  intro k hk f bytes hf hload
  obtain ⟨p, hp, -⟩ := hstore.faithful haddress k hk bytes hload
  cases hp.symm.trans hf

/-- Two caches ask for the same program; then one asks for what cannot be had. -/
theorem two_caches_one_store :
    let specs := [(0, none), (1, some 1)]
    let requests : List (Fin specs.length × ProgramKey) :=
      [(0, ⟨"", ""⟩), (1, ⟨"", ""⟩), (1, ⟨"", "-x"⟩)]
    let m : Machine := {}
    let calls := callsFrom m.caches.size requests
    let shared := fetchAll calls (openCaches (some m.stores.size) specs (newStore m).2)
    let store := shared.2.stores.getD m.stores.size default
    shared.1 = (fetchAll calls (openCaches none specs m)).1 ∧
      ∀ bytes, store.load (ProgramKey.address ⟨"", "-x"⟩) ≠ .ok (some bytes) := by
  intro specs requests m calls shared store
  have hkeys : requested requests = {⟨"", ""⟩, ⟨"", "-x"⟩} := by
    ext k
    simp only [requested, requests, List.mem_cons, List.not_mem_nil, or_false, exists_eq_or_imp,
      exists_eq_left, Set.mem_ofPred_eq, Set.mem_insert_iff, Set.mem_singleton_iff]
    grind
  have hdigest : Blake2b.digest (ProgramKey.message ⟨"", ""⟩) ≠
      Blake2b.digest (ProgramKey.message ⟨"", "-x"⟩) := by decide +kernel
  obtain ⟨f, hf⟩ : ∃ f, ProgramKey.compiled ⟨"", "-x"⟩ = .error f := by
    have hnot : (ProgramKey.compiled ⟨"", "-x"⟩).isOk = false := by decide +kernel
    cases hcompiled : ProgramKey.compiled ⟨"", "-x"⟩ with
    | error f => exact ⟨f, rfl⟩
    | ok p =>
      rw [hcompiled] at hnot
      cases hnot
  obtain ⟨hanswers, -, -, -, hnever⟩ := store_transparent m specs requests (by
    rw [hkeys]
    simp only [Set.mem_insert_iff, Set.mem_singleton_iff, forall_eq_or_imp, forall_eq]
    decide) (by
    rw [hkeys, Set.image_pair]
    exact Set.injOn_pair.mpr fun h => absurd h hdigest)
  exact ⟨hanswers, fun bytes => hnever ⟨"", "-x"⟩ (by simp [hkeys]) f bytes hf⟩

end KernelForge
