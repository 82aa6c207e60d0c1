/-
A cache is a plain list of programs, the most recently used first.

The buckets of a cache, the numbers of its entries and the way it makes room are all about speed.
Operation by operation a cache answers what a list of its keys and programs answers that is cut
off at the capacity, and it ends with the same keys and programs in the same order, whatever the
hash function is.  Its counters can be read off the history of the operations.
-/
import KernelForge.Proofs.Device.Buckets
import KernelForge.Proofs.Device.Making
import KernelForge.Proofs.Device.Recency

namespace KernelForge

open Act

/-! ### Operations -/

/-- Counts how a program has been made. -/
def Making.count (c : ProgramCache) : Making → ProgramCache
  | loaded _ => c.countLoad
  | built _ => c.countBuild

/-- An operation on a cache. -/
def CacheOp.perform (hash : ProgramKey → UInt64) (c : ProgramCache) : CacheOp → CacheAnswer × ProgramCache
  | lookup k => (.ok (c.lookup hash k).1, (c.lookup hash k).2)
  | insert k program => (.ok (some (c.insert hash k program).1), (c.insert hash k program).2)
  | getOrBuild k making =>
    match c.lookup hash k with
    | (some program, c) => (.ok (some program), c)
    | (none, c) =>
      match making.result with
      | .ok program =>
        (.ok (some ((making.count c).insert hash k program).1), ((making.count c).insert hash k program).2)
      | .error f => (.error f, making.count c)
  | clear => (.ok none, c.clear)

namespace ProgramCache

variable {hash : ProgramKey → UInt64} {capacity : Nat} {c : ProgramCache} {l : RecencyList}
  {k : ProgramKey} {e : CacheEntry} {program : Nat}

/-- The keys of a cache with their programs, the most recently used first. -/
def entries (c : ProgramCache) : RecencyList := c.order.map fun e => (e.key, e.program)

theorem lookup_of_some (h : c.find? k (hash k) = some e) :
    c.lookup hash k =
      (some e.program, { c.touch e with stats := { c.stats with hits := c.stats.hits + 1 } }) := by
  rw [lookup, h]

theorem lookup_of_none (h : c.find? k (hash k) = none) :
    c.lookup hash k = (none, { c with stats := { c.stats with misses := c.stats.misses + 1 } }) := by
  rw [lookup, h]

theorem insert_of_some (h : c.find? k (hash k) = some e) :
    c.insert hash k program = (e.program, c.touch e) := by
  rw [insert, h]

theorem insert_of_none (h : c.find? k (hash k) = none) :
    c.insert hash k program =
      (program, evictMany ((c.added hash k program).size - c.capacity) (c.added hash k program)) := by
  rw [insert, h]
  rfl

theorem perform_getOrBuild_of_some {making : Making} (h : c.find? k (hash k) = some e) :
    (CacheOp.getOrBuild k making).perform hash c =
      (.ok (some e.program), { c.touch e with stats := { c.stats with hits := c.stats.hits + 1 } }) := by
  rw [CacheOp.perform, lookup_of_some h]

/-- The cache after it has made a program that it did not have. -/
def made (c : ProgramCache) (making : Making) : ProgramCache :=
  making.count { c with stats := { c.stats with misses := c.stats.misses + 1 } }

theorem perform_getOrBuild_of_none {making : Making} (h : c.find? k (hash k) = none) :
    (CacheOp.getOrBuild k making).perform hash c =
      match making.result with
      | .ok program =>
        (.ok (some ((c.made making).insert hash k program).1), ((c.made making).insert hash k program).2)
      | .error f => (.error f, c.made making) := by
  rw [CacheOp.perform, lookup_of_none h]
  rfl

/-! ### Entries -/

theorem map_fst_entries (c : ProgramCache) : c.entries.map Prod.fst = c.order.map CacheEntry.key := by
  rw [entries, List.map_map]
  rfl

theorem length_entries (c : ProgramCache) : c.entries.length = c.size := List.length_map _

theorem lookup_entries (c : ProgramCache) (k : ProgramKey) :
    c.entries.lookup k = (c.order.find? fun e => e.key = k).map CacheEntry.program := by
  unfold entries
  induction c.order with
  | nil => rfl
  | cons e order ih =>
    rw [List.map_cons, List.lookup_cons, List.find?_cons, ih]
    by_cases hk : k = e.key
    · simp [hk]
    · simp [beq_eq_false_iff_ne.mpr hk, Ne.symm hk]

theorem mem_keys_iff_lookup :
    k ∈ c.order.map CacheEntry.key ↔ ∃ program, c.entries.lookup k = some program := by
  rw [← map_fst_entries, ← Option.ne_none_iff_exists', Ne, lookup_eq_none, not_not]

theorem Consistent.lookup_of_some (hc : Consistent hash c) (h : c.find? k (hash k) = some e) :
    c.entries.lookup k = some e.program := by
  rw [lookup_entries, ← hc.find?_eq, h]
  rfl

theorem Consistent.lookup_of_none (hc : Consistent hash c) (h : c.find? k (hash k) = none) :
    c.entries.lookup k = none := by
  rw [lookup_entries, ← hc.find?_eq, h]
  rfl

theorem Consistent.entries_touch (hc : Consistent hash c) (he : e ∈ c.order) :
    (c.touch e).entries = (e.key, e.program) :: c.entries.filter fun x => x.1 != e.key := by
  have hsame : (c.order.filter fun x => x.id != e.id) = c.order.filter fun x => x.key != e.key := by
    refine List.filter_congr fun x hx => ?_
    by_cases hid : x.id = e.id
    · simp [hc.eq_of_id hx he hid]
    · have hkey : x.key ≠ e.key := fun hkey => hid (congrArg CacheEntry.id (hc.eq_of_key hx he hkey))
      rw [bne_iff_ne.mpr hid, bne_iff_ne.mpr hkey]
  have hentries : (c.touch e).entries =
      (e.key, e.program) :: (c.order.filter fun x => x.id != e.id).map fun x => (x.key, x.program) := rfl
  rw [hentries, hsame, entries, List.filter_map]
  rfl

theorem Consistent.size_touch (hc : Consistent hash c) (he : e ∈ c.order) : (c.touch e).size = c.size :=
  (perm_cons_filter_id hc.ids he).length_eq

/-! ### A cache and a list -/

/-- A cache has the keys and the programs of a list, and room for them. -/
structure Mirrors (hash : ProgramKey → UInt64) (capacity : Nat) (c : ProgramCache) (l : RecencyList) :
    Prop where
  consistent : Consistent hash c
  room : c.capacity = capacity
  entries : c.entries = l
  fits : l.length ≤ capacity

theorem Mirrors.stats (hm : Mirrors hash capacity c l) (stats : CacheStats) :
    Mirrors hash capacity { c with stats } l :=
  ⟨hm.consistent.stats stats, hm.room, hm.entries, hm.fits⟩

theorem Mirrors.count (hm : Mirrors hash capacity c l) (making : Making) :
    Mirrors hash capacity (making.count c) l := by
  cases making <;> exact hm.stats _

theorem Mirrors.touch (hm : Mirrors hash capacity c l) (he : e ∈ c.order) :
    Mirrors hash capacity (c.touch e) (l.use capacity e.key e.program) := by
  have huse : (c.touch e).entries = l.use capacity e.key e.program := by
    have hsize : (c.touch e).entries.length ≤ capacity := by
      rw [length_entries, hm.consistent.size_touch he, ← length_entries, hm.entries]
      exact hm.fits
    rw [RecencyList.use, ← hm.entries, ← hm.consistent.entries_touch he, List.take_of_length_le hsize]
  exact ⟨hm.consistent.touch he, hm.room, huse, List.length_take_le _ _⟩

theorem Mirrors.lookup (hm : Mirrors hash capacity c l) (k : ProgramKey) :
    (c.lookup hash k).1 = (l.find capacity k).1 ∧
      Mirrors hash capacity (c.lookup hash k).2 (l.find capacity k).2 := by
  cases hfind : c.find? k (hash k) with
  | none =>
    have hl : l.lookup k = none := hm.entries ▸ hm.consistent.lookup_of_none hfind
    rw [lookup_of_none hfind, RecencyList.find, hl]
    exact ⟨rfl, hm.stats _⟩
  | some e =>
    have hl : l.lookup k = some e.program := hm.entries ▸ hm.consistent.lookup_of_some hfind
    obtain ⟨he, rfl⟩ := mem_of_find? hfind
    rw [lookup_of_some hfind, RecencyList.find, hl]
    exact ⟨rfl, (hm.touch he).stats _⟩

theorem Mirrors.insert (hm : Mirrors hash capacity c l) (k : ProgramKey) (program : Nat) :
    (c.insert hash k program).1 = (l.put capacity k program).1 ∧
      Mirrors hash capacity (c.insert hash k program).2 (l.put capacity k program).2 := by
  have hconsistent := hm.consistent.insert k program
  cases hfind : c.find? k (hash k) with
  | some e =>
    have hl : l.lookup k = some e.program := hm.entries ▸ hm.consistent.lookup_of_some hfind
    obtain ⟨he, rfl⟩ := mem_of_find? hfind
    simp only [insert_of_some hfind, RecencyList.put, hl]
    exact ⟨rfl, hm.touch he⟩
  | none =>
    have hl : l.lookup k = none := hm.entries ▸ hm.consistent.lookup_of_none hfind
    rw [insert_of_none hfind] at hconsistent ⊢
    simp only [RecencyList.put, hl]
    refine ⟨rfl, hconsistent, (capacity_evictMany _ _).trans hm.room, ?_, List.length_take_le _ _⟩
    -- what is dropped is what the list is cut off by
    have hkeep : (l.filter fun x => x.1 != k) = l := by
      refine List.filter_eq_self.mpr fun x hx => bne_iff_ne.mpr fun hx' => ?_
      exact lookup_eq_none.mp hl (hx' ▸ List.mem_map_of_mem hx)
    have horder : (c.added hash k program).order.map (fun e => (e.key, e.program)) = (k, program) :: l := by
      rw [← hm.entries]
      rfl
    rw [ProgramCache.entries, order_evictMany_excess, List.map_take, horder, hm.room, RecencyList.use,
      hkeep]
    rfl

theorem Mirrors.clear (hm : Mirrors hash capacity c l) : Mirrors hash capacity c.clear [] :=
  ⟨consistent_clear hash c, hm.room, rfl, Nat.zero_le _⟩

/-- **One operation on a cache and on a list gives the same answer, and leaves the same programs.** -/
theorem Mirrors.perform (hm : Mirrors hash capacity c l) (op : CacheOp) :
    (op.perform hash c).1 = (op.onList capacity l).1 ∧
      Mirrors hash capacity (op.perform hash c).2 (op.onList capacity l).2 := by
  cases op with
  | clear => exact ⟨rfl, hm.clear⟩
  | lookup k => exact ⟨congrArg Except.ok (hm.lookup k).1, (hm.lookup k).2⟩
  | insert k program =>
    exact ⟨congrArg (fun p => Except.ok (some p)) (hm.insert k program).1, (hm.insert k program).2⟩
  | getOrBuild k making =>
    obtain ⟨hanswer, hafter⟩ := hm.lookup k
    rcases hlook : c.lookup hash k with ⟨found, c'⟩
    rcases hfind : l.find capacity k with ⟨found', l'⟩
    rw [hlook, hfind] at hanswer hafter
    obtain rfl : found = found' := hanswer
    cases found with
    | some program =>
      simp only [CacheOp.perform, CacheOp.onList, hlook, hfind, true_and]
      exact hafter
    | none =>
      cases hmade : making.result with
      | error f =>
        simp only [CacheOp.perform, CacheOp.onList, hlook, hfind, hmade, true_and]
        exact hafter.count making
      | ok program =>
        obtain ⟨hfirst, hin⟩ := (hafter.count making).insert k program
        simp only [CacheOp.perform, CacheOp.onList, hlook, hfind, hmade]
        exact ⟨congrArg (fun p => Except.ok (some p)) hfirst, hin⟩

/-! ### Counters -/

/-- The number of lookups that a cache has counted. -/
def looked (c : ProgramCache) : Nat := c.stats.hits + c.stats.misses

/-- The number of programs that a cache still has or has evicted. -/
def taken (c : ProgramCache) : Nat := c.stats.evictions + c.size

@[simp] theorem looked_count (c : ProgramCache) (making : Making) : (making.count c).looked = c.looked := by
  cases making <;> rfl

@[simp] theorem taken_count (c : ProgramCache) (making : Making) : (making.count c).taken = c.taken := by
  cases making <;> rfl

theorem looked_evictMany (n : Nat) (c : ProgramCache) : (evictMany n c).looked = c.looked := by
  induction n generalizing c with
  | zero => rfl
  | succ n ih =>
    have hevict : c.evict.looked = c.looked := by
      unfold evict
      split <;> rfl
    rw [evictMany, ih, hevict]

/-- What is evicted is counted. -/
theorem taken_evictMany (n : Nat) (c : ProgramCache) : (evictMany n c).taken = c.taken := by
  induction n generalizing c with
  | zero => rfl
  | succ n ih =>
    have hevict : c.evict.taken = c.taken := by
      unfold evict
      split
      · rfl
      · rename_i e he
        have hpos : 0 < c.order.length := List.length_pos_of_mem (List.mem_of_getLast? he)
        show c.stats.evictions + 1 + c.order.dropLast.length = c.stats.evictions + c.order.length
        rw [List.length_dropLast]
        omega
    rw [evictMany, ih, hevict]

theorem looked_lookup (hash : ProgramKey → UInt64) (c : ProgramCache) (k : ProgramKey) :
    (c.lookup hash k).2.looked = c.looked + 1 := by
  cases hfind : c.find? k (hash k) with
  | some e =>
    rw [lookup_of_some hfind]
    exact Nat.add_right_comm _ _ _
  | none =>
    rw [lookup_of_none hfind]
    exact (Nat.add_assoc _ _ _).symm

theorem Consistent.taken_lookup (hc : Consistent hash c) (k : ProgramKey) :
    (c.lookup hash k).2.taken = c.taken := by
  cases hfind : c.find? k (hash k) with
  | some e =>
    rw [ProgramCache.lookup_of_some hfind]
    exact congrArg (c.stats.evictions + ·) (hc.size_touch (mem_of_find? hfind).1)
  | none =>
    rw [ProgramCache.lookup_of_none hfind]
    rfl

theorem looked_insert (hash : ProgramKey → UInt64) (c : ProgramCache) (k : ProgramKey) (program : Nat) :
    (c.insert hash k program).2.looked = c.looked := by
  cases hfind : c.find? k (hash k) with
  | some e =>
    rw [insert_of_some hfind]
    rfl
  | none =>
    rw [insert_of_none hfind, looked_evictMany]
    rfl

/-- A key that a search finds is one of those of the entries. -/
theorem Consistent.mem_keys_of_some (hc : Consistent hash c) (h : c.find? k (hash k) = some e) :
    k ∈ c.entries.map Prod.fst := by
  rw [← not_not (a := k ∈ _), ← lookup_eq_none, hc.lookup_of_some h]
  exact Option.some_ne_none _

theorem Consistent.taken_insert (hc : Consistent hash c) (k : ProgramKey) (program : Nat) :
    (c.insert hash k program).2.taken =
      c.taken + if decide (k ∉ c.entries.map Prod.fst) then 1 else 0 := by
  cases hfind : c.find? k (hash k) with
  | some e =>
    rw [insert_of_some hfind, if_neg (by simpa using hc.mem_keys_of_some hfind)]
    exact congrArg (c.stats.evictions + ·) (hc.size_touch (mem_of_find? hfind).1)
  | none =>
    have hout : k ∉ c.entries.map Prod.fst := lookup_eq_none.mp (hc.lookup_of_none hfind)
    rw [insert_of_none hfind, if_pos (decide_eq_true hout), taken_evictMany]
    rfl

theorem looked_perform (hash : ProgramKey → UInt64) (c : ProgramCache) (op : CacheOp) :
    (op.perform hash c).2.looked = c.looked + if op.looksUp then 1 else 0 := by
  cases op with
  | lookup k => exact looked_lookup hash c k
  | insert k program => exact looked_insert hash c k program
  | clear => rfl
  | getOrBuild k making =>
    have hlooked := looked_lookup hash c k
    cases hfind : c.find? k (hash k) with
    | some e =>
      rw [lookup_of_some hfind] at hlooked
      rw [perform_getOrBuild_of_some hfind]
      exact hlooked
    | none =>
      rw [lookup_of_none hfind] at hlooked
      have hmade : (c.made making).looked = c.looked + 1 := (looked_count _ _).trans hlooked
      rw [perform_getOrBuild_of_none hfind]
      cases making.result with
      | error f => exact hmade
      | ok program => exact (looked_insert _ _ _ _).trans hmade

theorem Consistent.taken_perform (hc : Consistent hash c) {op : CacheOp} (hop : op ≠ .clear) :
    (op.perform hash c).2.taken =
      c.taken + if op.bringsIn (c.entries.map Prod.fst) then 1 else 0 := by
  cases op with
  | clear => exact absurd rfl hop
  | lookup k => exact hc.taken_lookup k
  | insert k program => exact hc.taken_insert k program
  | getOrBuild k making =>
    cases hfind : c.find? k (hash k) with
    | some e =>
      have hin := hc.mem_keys_of_some hfind
      have hnone : (CacheOp.getOrBuild k making).bringsIn (c.entries.map Prod.fst) = false := by
        simp only [CacheOp.bringsIn, CacheOp.key?, Option.any_some, hin, not_true, decide_false,
          Bool.and_false]
      rw [perform_getOrBuild_of_some hfind, hnone]
      exact congrArg (c.stats.evictions + ·) (hc.size_touch (mem_of_find? hfind).1)
    | none =>
      have hmade : (c.made making).taken = c.taken := taken_count _ _
      have hconsistent : Consistent hash (c.made making) := by cases making <;> exact hc.stats _
      have hentries : (c.made making).entries = c.entries := by cases making <;> rfl
      rw [perform_getOrBuild_of_none hfind, CacheOp.bringsIn, CacheOp.program?]
      cases making.result with
      | error f => exact hmade
      | ok program =>
        rw [← hmade, ← hentries]
        exact hconsistent.taken_insert k program

/-- The counters tell what has been asked of a cache. -/
structure Accounts (capacity : Nat) (h : CacheHistory) (c : ProgramCache) : Prop where
  lookups : c.looked = h.lookups
  insertions : c.taken + h.cleared capacity = h.insertions capacity

theorem accounts_withCapacity (capacity : Nat) (n : Int) : Accounts capacity [] (withCapacity n) := ⟨rfl, rfl⟩

theorem Accounts.step {h : CacheHistory} (ha : Accounts capacity h c) (hm : Mirrors hash capacity c l)
    (hr : Recalls capacity h l) (op : CacheOp) (a : CacheAnswer) :
    Accounts capacity ((op, a) :: h) (op.perform hash c).2 := by
  have hkeys : CacheHistory.recent capacity h = c.entries.map Prod.fst := by rw [← hr.keys, hm.entries]
  have hlookups : CacheHistory.lookups ((op, a) :: h) = h.lookups + if op.looksUp then 1 else 0 :=
    List.countP_cons
  refine ⟨by rw [looked_perform, ha.lookups, hlookups], ?_⟩
  have hinsertions := ha.insertions
  have hmore := @Consistent.taken_perform hash c hm.consistent op
  cases op with
  | clear =>
    have hempty : (CacheOp.clear.perform hash c).2.taken = c.stats.evictions := rfl
    have hsize : (CacheHistory.recent capacity h).length = c.size := by
      rw [hkeys, List.length_map, length_entries]
    have hnone : CacheOp.clear.bringsIn (CacheHistory.recent capacity h) = false := rfl
    rw [taken] at hinsertions
    rw [hempty, CacheHistory.cleared, CacheHistory.insertions, hnone, hsize, ← hinsertions]
    simp only [Bool.false_eq_true, if_false]
    omega
  | lookup k | insert k program | getOrBuild k making =>
    rw [hmore nofun, CacheHistory.insertions, hkeys, ← hinsertions]
    exact Nat.add_right_comm _ _ _

end ProgramCache

/-! ### The caches of a machine -/

namespace Machine

variable {m : Machine} {cache : Nat} {source options : String}

/-- An action answers and changes a cache as an operation does. -/
def Performs (act : Act (Option Nat)) (m : Machine) (cache : Nat) (op : CacheOp) : Prop :=
  (act m).1 = (op.perform ProgramKey.hash (m.cacheAt cache)).1 ∧
    (act m).2.cacheAt cache = (op.perform ProgramKey.hash (m.cacheAt cache)).2

theorem performs_lookup (h : cache < m.caches.size) :
    Performs (lookup cache source options) m cache (.lookup ⟨source, options⟩) :=
  ⟨rfl, cacheAt_putCache h _⟩

theorem performs_insert (h : cache < m.caches.size) (prog : Nat) :
    Performs (some <$> insert cache source options prog) m cache (.insert ⟨source, options⟩ prog) :=
  ⟨rfl, cacheAt_putCache h _⟩

theorem performs_clear (h : cache < m.caches.size) :
    Performs ((fun _ => none) <$> clearCache cache) m cache .clear :=
  ⟨rfl, cacheAt_putCache h _⟩

theorem Makes.counted {r : Except Fault Nat × Machine} (hr : Makes m cache source options r)
    (h : cache < m.caches.size) :
    ∃ making : Making, making.result = r.1 ∧ r.2.cacheAt cache = making.count (m.cacheAt cache) ∧
      r.2.caches.size = m.caches.size := by
  cases hr with
  | load _ =>
    exact ⟨.loaded m.programs.size, rfl, cacheAt_putCache h _, by simp [afterLoad, putCache, addProgram]⟩
  | build _ _ =>
    refine ⟨.built (.ok m.programs.size), rfl, ?_, by simp [afterBuild, putCache, addProgram]⟩
    rw [cacheAt_keepFor]
    exact cacheAt_putCache h _
  | @fail f _ _ => exact ⟨.built (.error f), rfl, cacheAt_putCache h _, by simp [putCache]⟩

/-- A program comes from the cache, or is made for it. -/
theorem performs_getOrBuild (h : cache < m.caches.size) (source options : String) :
    ∃ making : Making, making.result = (make cache source options (m.afterLookup cache source options)).1 ∧
      Performs (some <$> getOrBuild cache source options) m cache (.getOrBuild ⟨source, options⟩ making) := by
  have hinside : cache < (m.afterLookup cache source options).caches.size :=
    (size_putCache _ _ _).symm ▸ h
  obtain ⟨making, hresult, hcounted, hsize⟩ :=
    (makes (m.afterLookup cache source options) cache source options).counted hinside
  refine ⟨making, hresult, ?_⟩
  rw [cacheAt_afterLookup h] at hcounted
  rcases hlook : (m.cacheAt cache).lookup ProgramKey.hash ⟨source, options⟩ with ⟨prog?, c⟩
  have hprog : ((m.cacheAt cache).lookup ProgramKey.hash ⟨source, options⟩).1 = prog? :=
    congrArg Prod.fst hlook
  rw [hlook] at hcounted
  unfold Performs
  cases prog? with
  | some prog =>
    rw [map_ok (getOrBuild_of_found hprog), cacheAt_afterLookup h]
    simp only [CacheOp.perform, hlook, and_self]
  | none =>
    rcases hmake : make cache source options (m.afterLookup cache source options) with ⟨r, m'⟩
    rw [hmake] at hresult hcounted hsize
    cases r with
    | error f =>
      rw [map_error (getOrBuild_of_failed hprog hmake)]
      simp only [CacheOp.perform, hlook, hresult, true_and]
      exact hcounted
    | ok prog =>
      rw [map_ok (getOrBuild_of_made hprog hmake), hcounted]
      simp only [CacheOp.perform, hlook, hresult, true_and]
      exact cacheAt_putCache (hsize.symm ▸ hinside) _

theorem caches_newCache (m : Machine) (ctx : Nat) (capacity? : Option Int) (store? : Option Nat) :
    (newCache ctx capacity? store? m).2.caches =
      m.caches.push { ctx, store?, cache := .withCapacity (capacity?.getD 64) } := by
  cases capacity? <;> rfl

/-- A cache starts empty. -/
theorem cacheAt_newCache (m : Machine) (ctx : Nat) (capacity? : Option Int) (store? : Option Nat) :
    (newCache ctx capacity? store? m).2.cacheAt m.caches.size = .withCapacity (capacity?.getD 64) := by
  simp [cacheAt, caches_newCache, Array.getD_eq_getD_getElem?]

/-- What the actions of a machine do to one of its caches. -/
structure Performing (m : Machine) (cache : Nat) : Prop where
  lookup : ∀ source options, Performs (lookup cache source options) m cache (.lookup ⟨source, options⟩)
  insert : ∀ source options prog,
    Performs (some <$> insert cache source options prog) m cache (.insert ⟨source, options⟩ prog)
  getOrBuild : ∀ source options, ∃ making : Making,
    making.result = (make cache source options (m.afterLookup cache source options)).1 ∧
      Performs (some <$> getOrBuild cache source options) m cache (.getOrBuild ⟨source, options⟩ making)
  clear : Performs ((fun _ => none) <$> clearCache cache) m cache .clear

end Machine

/-! ### Any run -/

open CacheHistory ProgramCache

/-- What can be said of a cache after a history, whatever its hash function is. -/
structure LikeList (hash : ProgramKey → UInt64) (capacity : Nat) (h : CacheHistory) (c : ProgramCache) :
    Prop where
  /-- Every answer was the first program of a key that had been used lately, if there was one. -/
  answered : h.Answered capacity
  /-- The keys that have been used last are there, in this order. -/
  keys : c.entries.map Prod.fst = recent capacity h
  /-- A lookup finds the first program of a key. -/
  finds : ∀ k, (c.lookup hash k).1 = kept capacity k h
  /-- A lookup finds something just for the keys that have been used last. -/
  found : ∀ k, (c.lookup hash k).1.isSome ↔ k ∈ recent capacity h
  /-- An operation that ends with a fault leaves what is there. -/
  fault : ∀ (op : CacheOp) (f : Fault), (op.perform hash c).1 = .error f →
    (op.perform hash c).2.order = c.order ∧ (op.perform hash c).2.buckets = c.buckets
  size : c.size ≤ capacity
  lookups : c.stats.hits + c.stats.misses = h.lookups
  evictions : c.stats.evictions + c.size + h.cleared capacity = h.insertions capacity
  /-- The buckets and the list hold the same entries, each once. -/
  linked : (c.buckets.flatMap Prod.snd).Perm (c.order.map CacheEntry.id)
  once : (c.order.map CacheEntry.id).Nodup ∧ (c.order.map CacheEntry.key).Nodup
  bucket : ∀ e ∈ c.order, e.id ∈ c.bucket (hash e.key)

section

variable {hash : ProgramKey → UInt64} {capacity : Nat} {h : CacheHistory} {c : ProgramCache} {l : RecencyList}

/-- Only a build can end with a fault, and then nothing has come in. -/
theorem perform_of_error {op : CacheOp} {f : Fault} (hf : (op.perform hash c).1 = .error f) :
    (op.perform hash c).2.order = c.order ∧ (op.perform hash c).2.buckets = c.buckets := by
  cases op with
  | lookup k | insert k program | clear => cases hf
  | getOrBuild k making =>
    cases hfind : c.find? k (hash k) with
    | some e =>
      rw [perform_getOrBuild_of_some hfind] at hf
      cases hf
    | none =>
      rw [perform_getOrBuild_of_none hfind] at hf ⊢
      cases hresult : making.result with
      | ok program =>
        rw [hresult] at hf
        cases hf
      | error g => cases making <;> exact ⟨rfl, rfl⟩

theorem fst_lookup (hm : Mirrors hash capacity c l) (hr : Recalls capacity h l) (k : ProgramKey) :
    (c.lookup hash k).1 = kept capacity k h := by
  rw [(hm.lookup k).1, RecencyList.fst_find, hr.programs]

theorem likeList (hm : Mirrors hash capacity c l) (hr : Recalls capacity h l)
    (hanswered : h.Answered capacity) (ha : Accounts capacity h c) : LikeList hash capacity h c where
  answered := hanswered
  keys := by rw [hm.entries, hr.keys]
  finds := fst_lookup hm hr
  found k := by rw [fst_lookup hm hr, hr.isSome_kept]
  fault _ _ := perform_of_error
  size := by
    rw [← length_entries, hm.entries]
    exact hm.fits
  lookups := ha.lookups
  evictions := ha.insertions
  linked := hm.consistent.perm
  once := ⟨hm.consistent.ids, hm.consistent.keys⟩
  bucket e he := by
    rw [(hm.consistent.linked _).mem_iff]
    exact List.mem_map_of_mem (List.mem_filter.mpr ⟨he, by simpa using hm.consistent.hashed e he⟩)

end

theorem withCapacity_mirrors (hash : ProgramKey → UInt64) (n : Int) :
    Mirrors hash (max n 1).toNat (withCapacity n) [] :=
  ⟨consistent_nil hash _ _ _, rfl, rfl, Nat.zero_le _⟩

/-- A cache and a list go through the same history. -/
theorem run_mirrors (hash : ProgramKey → UInt64) (n : Int) (ops : List CacheOp) :
    let capacity := (max n 1).toNat
    let cache := run (fun c op => op.perform hash c) (withCapacity n) ops
    let list := run (fun l op => op.onList capacity l) [] ops
    cache.1 = list.1 ∧ Mirrors hash capacity cache.2 list.2 ∧ Accounts capacity cache.1 cache.2 := by
  induction ops using List.reverseRecOn with
  | nil => exact ⟨rfl, withCapacity_mirrors hash n, accounts_withCapacity _ n⟩
  | append_singleton ops op ih =>
    obtain ⟨hsame, hmirrors, haccounts⟩ := ih
    obtain ⟨hanswer, hafter⟩ := hmirrors.perform op
    have hrecalls := (run_onList (by omega : 0 < (max n 1).toNat) ops).1
    simp only [run_snoc]
    refine ⟨by rw [hanswer, hsame], hafter, haccounts.step hmirrors (hsame ▸ hrecalls) op _⟩

/-- **A cache is a list of programs, ordered by their last use and cut off at the capacity**, for any
hash function, any capacity and any operations; and the caches of a machine are such caches, on which
its actions are such operations. -/
theorem cache_like_list (hash : ProgramKey → UInt64) (n : Int) (ops : List CacheOp) :
    let capacity := (max n 1).toNat
    let cache := run (fun c op => op.perform hash c) (withCapacity n) ops
    let list := run (fun l op => op.onList capacity l) [] ops
    cache.1 = list.1 ∧ cache.2.entries = list.2 ∧ LikeList hash capacity cache.1 cache.2 ∧
      (∀ (m : Machine) (ctx : Nat) (capacity? : Option Int) (store? : Option Nat),
        (Machine.newCache ctx capacity? store? m).2.cacheAt m.caches.size =
          withCapacity (capacity?.getD 64)) ∧
      ∀ (m : Machine) (i : Fin m.caches.size), Machine.Performing m i := by
  intro capacity cache list
  obtain ⟨hsame, hmirrors, haccounts⟩ := run_mirrors hash n ops
  obtain ⟨hrecalls, hanswered⟩ := run_onList (by omega : 0 < (max n 1).toNat) ops
  refine ⟨hsame, hmirrors.entries, likeList hmirrors (hsame ▸ hrecalls) (hsame ▸ hanswered) haccounts,
    Machine.cacheAt_newCache, ?_⟩
  exact fun m i => ⟨fun _ _ => Machine.performs_lookup i.2, fun _ _ => Machine.performs_insert i.2,
    Machine.performs_getOrBuild i.2, Machine.performs_clear i.2⟩

end KernelForge
