/-
The two structures of a cache.

A cache keeps its entries in a list, ordered by their last use, and finds them through buckets of
their numbers.  The buckets are only a way to find entries quickly: as long as they hold the numbers
of the entries of the list, each once and under the hash of its key, a search through a bucket finds
what a search through the list finds, whatever the hash function is.
-/
import KernelForge.Device.ProgramCache
import KernelForge.Proofs.Basic
import Mathlib.Data.List.Nodup

namespace KernelForge.ProgramCache

variable {hash : ProgramKey → UInt64} {c : ProgramCache} {k : ProgramKey} {e : CacheEntry}

/-- The buckets hold the entries of the list, each once. -/
structure Consistent (hash : ProgramKey → UInt64) (c : ProgramCache) : Prop where
  keys : (c.order.map CacheEntry.key).Nodup
  ids : (c.order.map CacheEntry.id).Nodup
  hashed : ∀ e ∈ c.order, e.hash = hash e.key
  numbered : ∀ e ∈ c.order, e.id < c.nextId
  hashes : (c.buckets.map Prod.fst).Nodup
  linked : ∀ h, (c.bucket h).Perm ((c.order.filter fun e => e.hash = h).map CacheEntry.id)

theorem consistent_nil (hash : ProgramKey → UInt64) (capacity : Nat) (nextId : Nat) (stats : CacheStats) :
    Consistent hash { capacity, nextId, stats } where
  keys := .nil
  ids := .nil
  hashed := nofun
  numbered := nofun
  hashes := .nil
  linked _ := .nil

/-! ### Buckets -/

theorem bucket_setBucket (h h' : UInt64) (ids : List Nat) :
    (c.setBucket h ids).bucket h' = if h' = h then ids else c.bucket h' := by
  unfold setBucket bucket
  by_cases hids : ids = []
  · subst hids
    simp only [List.isEmpty_nil, if_true, lookup_filter_ne]
    by_cases hh : h' = h <;> simp [hh]
  · have hempty : ids.isEmpty = false := by simpa using hids
    simp only [hempty, Bool.false_eq_true, if_false, List.lookup_cons, lookup_filter_ne]
    by_cases hh : h' = h
    · simp [hh]
    · simp [hh, beq_eq_false_iff_ne.mpr hh]

theorem nodup_setBucket (hn : (c.buckets.map Prod.fst).Nodup) (h : UInt64) (ids : List Nat) :
    ((c.setBucket h ids).buckets.map Prod.fst).Nodup := by
  have hrest : ((c.buckets.filter fun b => b.1 != h).map Prod.fst).Nodup :=
    hn.sublist (List.filter_sublist.map _)
  unfold setBucket
  by_cases hids : ids.isEmpty
  · simpa [hids] using hrest
  · simp only [hids, Bool.false_eq_true, if_false, List.map_cons, List.nodup_cons]
    refine ⟨fun hmem => ?_, hrest⟩
    obtain ⟨b, hb, rfl⟩ := List.mem_map.mp hmem
    simpa using (List.mem_filter.mp hb).2

/-- The buckets together hold the numbers of the list. -/
theorem Consistent.perm (hc : Consistent hash c) :
    (c.buckets.flatMap Prod.snd).Perm (c.order.map CacheEntry.id) := by
  have hbucket : ∀ b ∈ c.buckets, c.bucket b.1 = b.2 := fun b hb => by
    rw [bucket, lookup_of_mem hc.hashes hb, Option.getD_some]
  have hnodup : ∀ h, (c.bucket h).Nodup := fun h =>
    (hc.linked h).nodup_iff.mpr (hc.ids.sublist (List.filter_sublist.map _))
  -- the hash of an entry tells its bucket
  have hmem : ∀ h id, id ∈ c.bucket h ↔ ∃ e ∈ c.order, e.hash = h ∧ e.id = id := fun h id => by
    rw [(hc.linked h).mem_iff]
    simp [and_assoc]
  refine (List.perm_ext_iff_of_nodup ?_ hc.ids).mpr fun id => ?_
  · refine List.nodup_flatMap.mpr ⟨fun b hb => hbucket b hb ▸ hnodup b.1, ?_⟩
    refine (List.pairwise_map.mp hc.hashes).imp_of_mem fun {a b} ha hb hne => ?_
    intro id hida hidb
    rw [← hbucket a ha, hmem] at hida
    rw [← hbucket b hb, hmem] at hidb
    obtain ⟨e, he, hha, hid⟩ := hida
    obtain ⟨e', he', hhb, hid'⟩ := hidb
    have heq := List.inj_on_of_nodup_map hc.ids he he' (hid.trans hid'.symm)
    exact hne (hha.symm.trans ((congrArg CacheEntry.hash heq).trans hhb))
  · rw [List.mem_flatMap, List.mem_map]
    constructor
    · rintro ⟨b, hb, hid⟩
      rw [← hbucket b hb, hmem] at hid
      obtain ⟨e, he, -, hid⟩ := hid
      exact ⟨e, he, hid⟩
    · rintro ⟨e, he, rfl⟩
      have hin : e.id ∈ c.bucket e.hash := (hmem _ _).mpr ⟨e, he, rfl, rfl⟩
      cases hl : c.buckets.lookup e.hash with
      | none => simp [bucket, hl] at hin
      | some ids => exact ⟨(e.hash, ids), mem_of_lookup hl, by simpa [bucket, hl] using hin⟩

/-! ### Searching -/

theorem mem_of_find? {h : UInt64} (he : c.find? k h = some e) : e ∈ c.order ∧ e.key = k := by
  obtain ⟨id, -, hid⟩ := List.exists_of_findSome?_eq_some he
  have hp := List.find?_some hid
  rw [Bool.and_eq_true, decide_eq_true_eq, decide_eq_true_eq] at hp
  exact ⟨List.mem_of_find?_eq_some hid, hp.2⟩

theorem mem_touch {x : CacheEntry} (he : e ∈ c.order) (hx : x ∈ (c.touch e).order) :
    x ∈ c.order := by
  rcases List.mem_cons.mp hx with rfl | hx
  · exact he
  · exact (List.mem_filter.mp hx).1

/-- A lookup finds an entry of its key, and leaves no entry that was not there. -/
theorem lookup_cases (hash : ProgramKey → UInt64) (c : ProgramCache) (k : ProgramKey) :
    (∀ x ∈ (c.lookup hash k).2.order, x ∈ c.order) ∧
      ((c.lookup hash k).1 = none ∨
        ∃ e ∈ c.order, e.key = k ∧ (c.lookup hash k).1 = some e.program) := by
  unfold lookup
  split
  · exact ⟨fun _ h => h, .inl rfl⟩
  · rename_i e he
    obtain ⟨hmem, hkey⟩ := mem_of_find? he
    exact ⟨fun x hx => mem_touch hmem hx, .inr ⟨e, hmem, hkey, rfl⟩⟩

/-- What is kept for a key is what was put in, or an entry of the key. -/
theorem insert_cases (hash : ProgramKey → UInt64) (c : ProgramCache) (k : ProgramKey) (prog : Nat) :
    (c.insert hash k prog).1 = prog ∨
      ∃ e ∈ c.order, e.key = k ∧ (c.insert hash k prog).1 = e.program := by
  unfold insert
  split
  · rename_i e he
    obtain ⟨hmem, hkey⟩ := mem_of_find? he
    exact .inr ⟨e, hmem, hkey, rfl⟩
  · exact .inl rfl

theorem Consistent.eq_of_key (hc : Consistent hash c) {e' : CacheEntry} (he : e ∈ c.order)
    (he' : e' ∈ c.order) (hkey : e.key = e'.key) : e = e' :=
  List.inj_on_of_nodup_map hc.keys he he' hkey

theorem Consistent.eq_of_id (hc : Consistent hash c) {e' : CacheEntry} (he : e ∈ c.order)
    (he' : e' ∈ c.order) (hid : e.id = e'.id) : e = e' :=
  List.inj_on_of_nodup_map hc.ids he he' hid

/-- **A search through the bucket of a key finds what a search through the list finds.** -/
theorem Consistent.find?_eq (hc : Consistent hash c) (k : ProgramKey) :
    c.find? k (hash k) = c.order.find? fun e => e.key = k := by
  cases hlist : c.order.find? fun e => e.key = k with
  | none =>
    rw [List.find?_eq_none] at hlist
    cases hfind : c.find? k (hash k) with
    | none => rfl
    | some e => exact absurd (by simpa using (mem_of_find? hfind).2) (hlist e (mem_of_find? hfind).1)
  | some e =>
    have he := List.mem_of_find?_eq_some hlist
    have hkey : e.key = k := by simpa using List.find?_some hlist
    cases hfind : c.find? k (hash k) with
    | some e' =>
      obtain ⟨he', hkey'⟩ := mem_of_find? hfind
      exact congrArg some (hc.eq_of_key he' he (hkey'.trans hkey.symm))
    | none =>
      -- the entry is in the bucket of its key, where it would have been found
      have hid : e.id ∈ c.bucket (hash k) := by
        rw [(hc.linked _).mem_iff, ← hkey, ← hc.hashed e he]
        exact List.mem_map_of_mem (List.mem_filter.mpr ⟨he, by simp⟩)
      have hnone := List.findSome?_eq_none_iff.mp hfind e.id hid
      exact absurd (by simp [hkey]) (List.find?_eq_none.mp hnone e he)

/-! ### The operations -/

theorem Consistent.reorder (hc : Consistent hash c) {order : List CacheEntry} (hp : order.Perm c.order) :
    Consistent hash { c with order } where
  keys := (hp.map _).nodup_iff.mpr hc.keys
  ids := (hp.map _).nodup_iff.mpr hc.ids
  hashed e he := hc.hashed e (hp.mem_iff.mp he)
  numbered e he := hc.numbered e (hp.mem_iff.mp he)
  hashes := hc.hashes
  linked h := (hc.linked h).trans ((hp.filter _).map _).symm

/-- Counting changes no entry. -/
theorem Consistent.stats (hc : Consistent hash c) (stats : CacheStats) :
    Consistent hash { c with stats } :=
  ⟨hc.keys, hc.ids, hc.hashed, hc.numbered, hc.hashes, hc.linked⟩

theorem perm_cons_filter_id {order : List CacheEntry} (hn : (order.map CacheEntry.id).Nodup)
    (he : e ∈ order) : (e :: order.filter fun x => x.id != e.id).Perm order := by
  induction order with
  | nil => cases he
  | cons a order ih =>
    rw [List.map_cons, List.nodup_cons] at hn
    rcases List.mem_cons.mp he with rfl | he
    · have hall : (order.filter fun x => x.id != e.id) = order :=
        List.filter_eq_self.mpr fun x hx => bne_iff_ne.mpr fun heq =>
          hn.1 (heq ▸ List.mem_map_of_mem hx)
      rw [List.filter_cons_of_neg (by simp), hall]
    · have hne : a.id ≠ e.id := fun heq => hn.1 (heq ▸ List.mem_map_of_mem he)
      rw [List.filter_cons_of_pos (by simpa using hne)]
      exact (List.Perm.swap _ _ _).trans ((ih hn.2 he).cons a)

theorem Consistent.touch (hc : Consistent hash c) (he : e ∈ c.order) :
    Consistent hash (c.touch e) :=
  hc.reorder (perm_cons_filter_id hc.ids he)

theorem consistent_clear (hash : ProgramKey → UInt64) (c : ProgramCache) : Consistent hash c.clear :=
  consistent_nil hash c.capacity c.nextId c.stats

@[simp] theorem order_evict (c : ProgramCache) : c.evict.order = c.order.dropLast := by
  unfold evict
  split
  · rename_i h
    rw [List.getLast?_eq_none_iff.mp h]
    rfl
  · rfl

theorem Consistent.evict (hc : Consistent hash c) : Consistent hash c.evict := by
  unfold ProgramCache.evict
  split
  · exact hc
  · rename_i e he
    have hlast : c.order = c.order.dropLast ++ [e] := (List.dropLast_append_getLast? e he).symm
    have hsub : c.order.dropLast.Sublist c.order := List.dropLast_sublist _
    have hmem : ∀ x ∈ c.order.dropLast, x ∈ c.order := fun x hx => hsub.subset hx
    refine ⟨hc.keys.sublist (hsub.map _), hc.ids.sublist (hsub.map _), fun x hx => hc.hashed x (hmem x hx),
      fun x hx => hc.numbered x (hmem x hx), nodup_setBucket hc.hashes _ _, fun h => ?_⟩
    have hlinked := hc.linked h
    rw [hlast, List.filter_append, List.map_append] at hlinked
    show ((c.setBucket e.hash ((c.bucket e.hash).erase e.id)).bucket h).Perm _
    rw [bucket_setBucket]
    by_cases hh : h = e.hash
    · subst hh
      rw [if_pos rfl]
      have hone : ([e].filter fun x => x.hash = e.hash).map CacheEntry.id = [e.id] := by simp
      rw [hone] at hlinked
      have herase := (hlinked.trans (List.perm_append_singleton _ _)).erase e.id
      rwa [List.erase_cons_head] at herase
    · rw [if_neg hh]
      have hnone : ([e].filter fun x => x.hash = h).map CacheEntry.id = [] := by simp [Ne.symm hh]
      rwa [hnone, List.append_nil] at hlinked

/-- The cache with a new entry, which it may not have room for. -/
def added (hash : ProgramKey → UInt64) (c : ProgramCache) (k : ProgramKey) (prog : Nat) : ProgramCache :=
  { c.setBucket (hash k) (c.bucket (hash k) ++ [c.nextId]) with
    order := { id := c.nextId, key := k, hash := hash k, program := prog } :: c.order
    nextId := c.nextId + 1 }

theorem Consistent.added (hc : Consistent hash c) {prog : Nat} (hnew : ∀ e ∈ c.order, e.key ≠ k) :
    Consistent hash (c.added hash k prog) where
  keys := by
    refine List.nodup_cons.mpr ⟨fun hmem => ?_, hc.keys⟩
    obtain ⟨e, he, hkey⟩ := List.mem_map.mp hmem
    exact hnew e he hkey
  ids := by
    refine List.nodup_cons.mpr ⟨fun hmem => ?_, hc.ids⟩
    obtain ⟨e, he, hid⟩ := List.mem_map.mp hmem
    have hlt := hc.numbered e he
    exact Nat.lt_irrefl _ (hid ▸ hlt)
  hashed e he := by
    rcases List.mem_cons.mp he with rfl | he
    · rfl
    · exact hc.hashed e he
  numbered e he := by
    rcases List.mem_cons.mp he with rfl | he
    · exact Nat.lt_succ_self _
    · exact Nat.lt_succ_of_lt (hc.numbered e he)
  hashes := nodup_setBucket hc.hashes _ _
  linked h := by
    show ((c.setBucket (hash k) (c.bucket (hash k) ++ [c.nextId])).bucket h).Perm
      (((_ :: c.order).filter fun e => e.hash = h).map CacheEntry.id)
    rw [bucket_setBucket]
    by_cases hh : h = hash k
    · subst hh
      rw [if_pos rfl, List.filter_cons_of_pos (by simp), List.map_cons]
      exact (List.perm_append_singleton _ _).trans ((hc.linked _).cons _)
    · rw [if_neg hh, List.filter_cons_of_neg (by simpa using Ne.symm hh)]
      exact hc.linked h

theorem Consistent.evictMany (hc : Consistent hash c) (n : Nat) : Consistent hash (evictMany n c) := by
  induction n generalizing c with
  | zero => exact hc
  | succ n ih => exact ih hc.evict

theorem Consistent.insert (hc : Consistent hash c) (k : ProgramKey) (prog : Nat) :
    Consistent hash (c.insert hash k prog).2 := by
  have hfind := hc.find?_eq k
  unfold ProgramCache.insert
  split
  · rename_i e he
    exact hc.touch (mem_of_find? he).1
  · rename_i hnone
    rw [hnone] at hfind
    have hnew : ∀ e ∈ c.order, e.key ≠ k := fun e he => by
      simpa using List.find?_eq_none.mp hfind.symm e he
    exact (hc.added hnew).evictMany _

/-! ### Room -/

theorem order_evictMany (n : Nat) (c : ProgramCache) :
    (evictMany n c).order = c.order.take (c.order.length - n) := by
  induction n generalizing c with
  | zero => simp [evictMany]
  | succ n ih =>
    rw [evictMany, ih, order_evict, List.dropLast_eq_take, List.take_take, List.length_take]
    congr 1
    omega

/-- A cache that drops what it has no room for keeps what has been used last. -/
theorem order_evictMany_excess (n : Nat) (c : ProgramCache) :
    (evictMany (c.size - n) c).order = c.order.take n := by
  rw [order_evictMany, size]
  rcases Nat.le_total c.order.length n with h | h
  · rw [List.take_of_length_le h, List.take_of_length_le (by omega)]
  · congr 1
    omega

@[simp] theorem capacity_evict (c : ProgramCache) : c.evict.capacity = c.capacity := by
  unfold evict
  split <;> rfl

@[simp] theorem capacity_evictMany (n : Nat) (c : ProgramCache) :
    (evictMany n c).capacity = c.capacity := by
  induction n generalizing c with
  | zero => rfl
  | succ n ih => rw [evictMany, ih, capacity_evict]

end KernelForge.ProgramCache
