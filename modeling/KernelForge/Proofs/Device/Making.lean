/-
What making a program comes to.

A cache makes a program that it does not have from a binary of its store, or has it built.  What
goes wrong with the store is passed over, so there are three ends only: the program of a stored
binary, a program that has been built, or the fault of the builder.
-/
import KernelForge.Proofs.Device.Compiling

namespace KernelForge

open Act

/-- What the device compiler makes of a source. -/
def Device.compile (source : SourceText) (options : String) : Except Fault Program :=
  match Device.optionLog? options with
  | some log => .error (.build log)
  | none =>
    match Program.build source with
    | .rejected log => .error (.build (Diagnostic.log log))
    | .crashed => .error (.plain "the device compiler has crashed")
    | .built program => .ok program

namespace Machine

variable {m : Machine} {ctx cache : Nat} {source options : String}

/-- The machine with one more program. -/
def addProgram (m : Machine) (p : BuiltProgram) : Machine := { m with programs := m.programs.push p }

theorem build_eq (ctx : Nat) (text : SourceText) (options : String) (m : Machine) :
    build ctx text options m =
      match Device.compile text options with
      | .ok p => (.ok m.programs.size, m.addProgram { ctx, program := p, options })
      | .error f => (.error f, m) := by
  unfold build Device.compile
  cases Device.optionLog? options with
  | some log => rfl
  | none => cases Program.build text <;> rfl

theorem build_of_ok {text : SourceText} {p : Program} (h : Device.compile text options = .ok p) :
    build ctx text options m = (.ok m.programs.size, m.addProgram { ctx, program := p, options }) := by
  rw [build_eq, h]

theorem build_of_error {text : SourceText} {f : Fault} (h : Device.compile text options = .error f) :
    build ctx text options m = (.error f, m) := by
  rw [build_eq, h]

/-- The machine after a cache has loaded a program from its store. -/
def afterLoad (m : Machine) (cache : Nat) (p : Program) (options : String) : Machine :=
  (m.addProgram { ctx := (m.caches.getD cache default).ctx, program := p, options }).putCache cache
    (m.caches.getD cache default).cache.countLoad

/-- The machine after a cache has had a program built, before its store gets the binary. -/
def afterBuild (m : Machine) (cache : Nat) (p : Program) (options : String) : Machine :=
  (m.addProgram { ctx := (m.caches.getD cache default).ctx, program := p, options }).putCache cache
    (m.caches.getD cache default).cache.countBuild

/-! ### Stored binaries -/

/-- The program of a binary. -/
def programOf? (bytes : List UInt8) (options : String) : Option Program :=
  (sourceOfBinary? bytes).bind fun text => (Device.compile text options).toOption

/-- The binary that a store has for a source. -/
def binaryIn? (m : Machine) (store : Nat) (source options : String) : Option (List UInt8) :=
  match (m.stores.getD store default).load (keyOf source options) with
  | .ok bytes? => bytes?
  | .error _ => none

/-- The program that a cache finds in its store. -/
def stored? (m : Machine) (cache : Nat) (source options : String) : Option Program := do
  let store ← (m.caches.getD cache default).store?
  let bytes ← m.binaryIn? store source options
  programOf? bytes options

/-- The machine after a store has been given a binary, if the store takes it. -/
def keepBinary (m : Machine) (store : Nat) (source options : String) (bytes : List UInt8) : Machine :=
  match (m.stores.getD store default).store (keyOf source options) bytes with
  | .ok s => { m with stores := m.stores.setIfInBounds store s }
  | .error _ => m

theorem guarded_loadBinary (store : Nat) :
    (tryCatch (loadBinary store source options) fun _ => return none) m =
      (.ok (m.binaryIn? store source options), m) := by
  rw [tryCatch_eq, binaryIn?]
  have hload : loadBinary store source options m =
      (Act.ofExcept ((m.stores.getD store default).load (keyOf source options)) : Act _) m := rfl
  rw [hload]
  cases (m.stores.getD store default).load (keyOf source options) <;> rfl

theorem guarded_buildBinary (bytes : List UInt8) :
    (tryCatch (some <$> buildBinary ctx bytes options) fun _ => return none) m =
      match programOf? bytes options with
      | some p => (.ok (some m.programs.size), m.addProgram { ctx, program := p, options })
      | none => (.ok none, m) := by
  rw [tryCatch_eq, buildBinary, programOf?]
  cases sourceOfBinary? bytes with
  | none => rfl
  | some text =>
    cases hcompile : Device.compile text options with
    | ok p =>
      rw [map_ok (build_of_ok hcompile)]
      simp only [Option.bind_some, hcompile, Except.toOption]
    | error f =>
      rw [map_error (build_of_error hcompile)]
      simp only [Option.bind_some, hcompile, Except.toOption]
      rfl

theorem loadStored_of_some {store : Nat} {p : Program}
    (h : (m.binaryIn? store source options).bind (programOf? · options) = some p) :
    loadStored cache (m.caches.getD cache default).ctx store source options m =
      (.ok (some m.programs.size), m.afterLoad cache p options) := by
  obtain ⟨bytes, hbytes, hp⟩ := Option.bind_eq_some_iff.mp h
  have hbuild := @guarded_buildBinary m (m.caches.getD cache default).ctx options bytes
  rw [hp] at hbuild
  unfold loadStored
  rw [bind_ok (guarded_loadBinary store), hbytes]
  simp only [bind_ok hbuild]
  rfl

theorem loadStored_of_none {store : Nat}
    (h : (m.binaryIn? store source options).bind (programOf? · options) = none) :
    loadStored cache ctx store source options m = (.ok none, m) := by
  unfold loadStored
  rw [bind_ok (guarded_loadBinary store)]
  cases hbytes : m.binaryIn? store source options with
  | none => rfl
  | some bytes =>
    have hbuild := @guarded_buildBinary m ctx options bytes
    rw [hbytes, Option.bind_some] at h
    rw [h] at hbuild
    simp only [bind_ok hbuild]
    rfl

/-! ### Builds -/

theorem buildCounted_of_ok {p : Program} (h : Device.compile (.ofString source) options = .ok p) :
    buildCounted cache (m.caches.getD cache default).ctx source options m =
      (.ok m.programs.size, m.afterBuild cache p options) := by
  have hbuilt : (tryCatch (Except.ok <$> build (m.caches.getD cache default).ctx (.ofString source) options)
      fun f => return .error f) m = (.ok (.ok m.programs.size),
        m.addProgram { ctx := (m.caches.getD cache default).ctx, program := p, options }) := by
    rw [tryCatch_eq, map_ok (build_of_ok h)]
  unfold buildCounted
  rw [bind_ok hbuilt]
  rfl

theorem buildCounted_of_error {f : Fault} (h : Device.compile (.ofString source) options = .error f) :
    buildCounted cache ctx source options m =
      (.error f, m.putCache cache (m.caches.getD cache default).cache.countBuild) := by
  have hbuilt : (tryCatch (Except.ok <$> build ctx (.ofString source) options)
      fun f => return .error f) m = (.ok (.error f), m) := by
    rw [tryCatch_eq, map_error (build_of_error h)]
    rfl
  unfold buildCounted
  rw [bind_ok hbuilt]
  rfl

/-- The binary of a program. -/
def binaryOf (p : Program) : List UInt8 := binaryMark ++ p.source.bytes

theorem keepStored_eq (store prog : Nat) :
    keepStored store source options prog m =
      (.ok (), m.keepBinary store source options (binaryOf (m.programs.getD prog default).program)) := by
  unfold keepStored keepBinary
  have hbinary : binary prog m = (.ok (binaryOf (m.programs.getD prog default).program), m) := rfl
  rw [bind_ok hbinary, tryCatch_eq]
  generalize binaryOf (m.programs.getD prog default).program = bytes
  have hstore : storeBinary store source options bytes m =
      ((Act.ofExcept ((m.stores.getD store default).store (keyOf source options) bytes) : Act _) >>=
        fun s => modify fun m => { m with stores := m.stores.setIfInBounds store s }) m := rfl
  rw [hstore]
  cases (m.stores.getD store default).store (keyOf source options) bytes <;> rfl

/-! ### Making -/

/-- The machine after the store of a cache, if there is one, has been given a binary. -/
def keepFor (m : Machine) (cache : Nat) (source options : String) (bytes : List UInt8) : Machine :=
  match (m.caches.getD cache default).store? with
  | none => m
  | some store => m.keepBinary store source options bytes

/-- How making a program ends: with the program of a stored binary, with one that has been built,
or with the fault of the builder. -/
inductive Makes (m : Machine) (cache : Nat) (source options : String) :
    Except Fault Nat × Machine → Prop
  | load {p : Program} (h : m.stored? cache source options = some p) :
      Makes m cache source options (.ok m.programs.size, m.afterLoad cache p options)
  | build {p : Program} (h : m.stored? cache source options = none)
      (hbuild : Device.compile (.ofString source) options = .ok p) :
      Makes m cache source options
        (.ok m.programs.size, (m.afterBuild cache p options).keepFor cache source options (binaryOf p))
  | fail {f : Fault} (h : m.stored? cache source options = none)
      (hbuild : Device.compile (.ofString source) options = .error f) :
      Makes m cache source options
        (.error f, m.putCache cache (m.caches.getD cache default).cache.countBuild)

/-- The caches keep their contexts and their stores when the content of one changes. -/
theorem getD_putCache_of_ne (m : Machine) {cache c : Nat} (h : c ≠ cache) (inner : ProgramCache) :
    (m.putCache cache inner).caches.getD c default = m.caches.getD c default := by
  simp [putCache, Array.getD_eq_getD_getElem?, Ne.symm h]

theorem store?_putCache (m : Machine) (cache : Nat) (inner : ProgramCache) (c : Nat) :
    ((m.putCache cache inner).caches.getD c default).store? = (m.caches.getD c default).store? := by
  by_cases hc : c = cache
  · subst hc
    rcases Nat.lt_or_ge c m.caches.size with hlt | hge
    · rw [getD_putCache hlt]
    · simp [putCache, Array.getD_eq_getD_getElem?, hge]
  · rw [getD_putCache_of_ne m hc]

theorem ctx_putCache (m : Machine) (cache : Nat) (inner : ProgramCache) (c : Nat) :
    ((m.putCache cache inner).caches.getD c default).ctx = (m.caches.getD c default).ctx := by
  by_cases hc : c = cache
  · subst hc
    rcases Nat.lt_or_ge c m.caches.size with hlt | hge
    · rw [getD_putCache hlt]
    · simp [putCache, Array.getD_eq_getD_getElem?, hge]
  · rw [getD_putCache_of_ne m hc]

/-- The program that has just been added. -/
theorem getD_addProgram (m : Machine) (p : BuiltProgram) :
    (m.addProgram p).programs.getD m.programs.size default = p := by
  simp [addProgram, Array.getD_eq_getD_getElem?]

theorem make_eq (m : Machine) (cache : Nat) (source options : String) :
    make cache source options m =
      (match (m.caches.getD cache default).store? with
      | none => buildCounted cache (m.caches.getD cache default).ctx source options
      | some store => do
        match ← loadStored cache (m.caches.getD cache default).ctx store source options with
        | some prog => return prog
        | none =>
          let prog ← buildCounted cache (m.caches.getD cache default).ctx source options
          keepStored store source options prog
          return prog) m := rfl

theorem keepFor_afterBuild (m : Machine) (cache : Nat) (source options : String) (p : Program) :
    (m.afterBuild cache p options).keepFor cache source options (binaryOf p) =
      match (m.caches.getD cache default).store? with
      | none => m.afterBuild cache p options
      | some store => (m.afterBuild cache p options).keepBinary store source options (binaryOf p) := by
  rw [keepFor, afterBuild, store?_putCache]
  rfl

theorem makes (m : Machine) (cache : Nat) (source options : String) :
    Makes m cache source options (make cache source options m) := by
  have hstored : m.stored? cache source options =
      (m.caches.getD cache default).store?.bind fun store =>
        (m.binaryIn? store source options).bind (programOf? · options) := rfl
  rw [make_eq]
  cases hs : (m.caches.getD cache default).store? with
  | none =>
    rw [hs] at hstored
    cases hcompile : Device.compile (.ofString source) options with
    | ok p =>
      have hend := Makes.build hstored hcompile
      rw [keepFor_afterBuild, hs] at hend
      simp only [buildCounted_of_ok hcompile]
      exact hend
    | error f =>
      simp only [buildCounted_of_error hcompile]
      exact .fail hstored hcompile
  | some store =>
    rw [hs, Option.bind_some] at hstored
    cases hp : m.stored? cache source options with
    | some p =>
      simp only [bind_ok (loadStored_of_some (hstored ▸ hp))]
      exact .load hp
    | none =>
      simp only [bind_ok (loadStored_of_none (hstored ▸ hp))]
      cases hcompile : Device.compile (.ofString source) options with
      | ok p =>
        have hend := Makes.build hp hcompile
        rw [keepFor_afterBuild, hs] at hend
        have hprogram : (m.afterBuild cache p options).programs.getD m.programs.size default =
            { ctx := (m.caches.getD cache default).ctx, program := p, options } := getD_addProgram m _
        rw [bind_ok (buildCounted_of_ok hcompile), bind_ok (keepStored_eq store _), hprogram]
        exact hend
      | error f =>
        rw [bind_error (buildCounted_of_error hcompile)]
        exact .fail hp hcompile

/-! ### What a cache gives -/

@[simp] theorem caches_keepBinary (m : Machine) (store : Nat) (source options : String) (bytes : List UInt8) :
    (m.keepBinary store source options bytes).caches = m.caches := by
  unfold keepBinary
  split <;> rfl

@[simp] theorem caches_keepFor (m : Machine) (cache : Nat) (source options : String) (bytes : List UInt8) :
    (m.keepFor cache source options bytes).caches = m.caches := by
  unfold keepFor
  split
  · rfl
  · exact caches_keepBinary _ _ _ _ _

/-- The programs of a cache. -/
def cacheAt (m : Machine) (cache : Nat) : ProgramCache := (m.caches.getD cache default).cache

@[simp] theorem size_putCache (m : Machine) (cache : Nat) (inner : ProgramCache) :
    (m.putCache cache inner).caches.size = m.caches.size := by
  simp [putCache]

theorem cacheAt_putCache (h : cache < m.caches.size) (inner : ProgramCache) :
    (m.putCache cache inner).cacheAt cache = inner := by
  rw [cacheAt, getD_putCache h]

theorem cacheAt_putCache_of_ne (m : Machine) {c : Nat} (h : c ≠ cache) (inner : ProgramCache) :
    (m.putCache cache inner).cacheAt c = m.cacheAt c := by
  rw [cacheAt, getD_putCache_of_ne m h, cacheAt]

theorem cacheAt_keepFor (m : Machine) (cache c : Nat) (source options : String) (bytes : List UInt8) :
    (m.keepFor cache source options bytes).cacheAt c = m.cacheAt c := by
  rw [cacheAt, caches_keepFor, cacheAt]

/-- The machine after a cache has been asked for a program. -/
def afterLookup (m : Machine) (cache : Nat) (source options : String) : Machine :=
  m.putCache cache ((m.cacheAt cache).lookup ProgramKey.hash ⟨source, options⟩).2

theorem cacheAt_afterLookup (h : cache < m.caches.size) :
    (m.afterLookup cache source options).cacheAt cache =
      ((m.cacheAt cache).lookup ProgramKey.hash ⟨source, options⟩).2 := cacheAt_putCache h _

section

variable {prog : Nat} {m' : Machine}

theorem getOrBuild_of_found
    (h : ((m.cacheAt cache).lookup ProgramKey.hash ⟨source, options⟩).1 = some prog) :
    getOrBuild cache source options m = (.ok prog, m.afterLookup cache source options) := by
  have hlookup : lookup cache source options m = (.ok (some prog), m.afterLookup cache source options) :=
    Prod.ext (congrArg Except.ok h) rfl
  rw [getOrBuild, bind_ok hlookup]
  rfl

theorem getOrBuild_of_missing
    (h : ((m.cacheAt cache).lookup ProgramKey.hash ⟨source, options⟩).1 = none) :
    getOrBuild cache source options m =
      (make cache source options >>= insert cache source options) (m.afterLookup cache source options) := by
  have hlookup : lookup cache source options m = (.ok none, m.afterLookup cache source options) :=
    Prod.ext (congrArg Except.ok h) rfl
  rw [getOrBuild, bind_ok hlookup]

theorem getOrBuild_of_made
    (h : ((m.cacheAt cache).lookup ProgramKey.hash ⟨source, options⟩).1 = none)
    (hmake : make cache source options (m.afterLookup cache source options) = (.ok prog, m')) :
    getOrBuild cache source options m =
      (.ok ((m'.cacheAt cache).insert ProgramKey.hash ⟨source, options⟩ prog).1,
        m'.putCache cache ((m'.cacheAt cache).insert ProgramKey.hash ⟨source, options⟩ prog).2) := by
  rw [getOrBuild_of_missing h, bind_ok hmake]
  rfl

theorem getOrBuild_of_failed {f : Fault}
    (h : ((m.cacheAt cache).lookup ProgramKey.hash ⟨source, options⟩).1 = none)
    (hmake : make cache source options (m.afterLookup cache source options) = (.error f, m')) :
    getOrBuild cache source options m = (.error f, m') := by
  rw [getOrBuild_of_missing h, bind_error hmake]

end

end Machine
end KernelForge
