/-
A plain list of programs, the most recently used first.

A use of a key brings it to the front, and the list is cut off at its capacity.  A history of the
operations, the latest first, tells all that the list can tell: which keys have been used since the
last time that everything was dropped, in which order, and which program a key was given when it
came in.  So the list holds the keys that have been used last, and each key its first program.
-/
import KernelForge.Device.Machine
import KernelForge.Proofs.Basic
import Mathlib.Data.List.Induction
import Mathlib.Data.List.Nodup

namespace KernelForge

/-! ### The list -/

/-- Programs by their keys, the most recently used first. -/
abbrev RecencyList := List (ProgramKey × Nat)

namespace RecencyList

/-- Brings a key to the front. -/
def use (capacity : Nat) (l : RecencyList) (k : ProgramKey) (program : Nat) : RecencyList :=
  ((k, program) :: l.filter fun e => e.1 != k).take capacity

/-- The program of a key, which is used if it is there. -/
def find (capacity : Nat) (l : RecencyList) (k : ProgramKey) : Option Nat × RecencyList :=
  match l.lookup k with
  | none => (none, l)
  | some program => (some program, l.use capacity k program)

theorem fst_find (capacity : Nat) (l : RecencyList) (k : ProgramKey) : (l.find capacity k).1 = l.lookup k := by
  unfold find
  cases l.lookup k <;> rfl

/-- Uses a key, which gets a program if it is not there. -/
def put (capacity : Nat) (l : RecencyList) (k : ProgramKey) (program : Nat) : Nat × RecencyList :=
  let program := (l.lookup k).getD program
  (program, l.use capacity k program)

end RecencyList

/-! ### Operations -/

/-- How a program has been made that a cache did not have. -/
inductive Making where
  | loaded (program : Nat)
  | built (result : Except Fault Nat)

namespace Making

def result : Making → Except Fault Nat
  | loaded program => .ok program
  | built result => result

end Making

/-- What is asked of a cache.  With a build comes how the program is made if it is not there. -/
inductive CacheOp where
  | lookup (k : ProgramKey)
  | insert (k : ProgramKey) (program : Nat)
  | getOrBuild (k : ProgramKey) (making : Making)
  | clear

/-- What a cache answers: a program, none, or a fault. -/
abbrev CacheAnswer := Except Fault (Option Nat)

namespace CacheOp

def key? : CacheOp → Option ProgramKey
  | lookup k | insert k _ | getOrBuild k _ => some k
  | clear => none

/-- The program that an operation brings. -/
def program? : CacheOp → Option Nat
  | insert _ program => some program
  | getOrBuild _ making => making.result.toOption
  | lookup _ | clear => none

/-- Tests whether an operation looks a key up. -/
def looksUp : CacheOp → Bool
  | lookup _ | getOrBuild _ _ => true
  | insert _ _ | clear => false

/-- Tests whether an operation brings a program for a key that is absent. -/
def bringsIn (keys : List ProgramKey) (op : CacheOp) : Bool :=
  op.program?.isSome && op.key?.any (· ∉ keys)

/-- An operation on a plain list. -/
def onList (capacity : Nat) (l : RecencyList) : CacheOp → CacheAnswer × RecencyList
  | lookup k => (.ok (l.find capacity k).1, (l.find capacity k).2)
  | insert k program => (.ok (some (l.put capacity k program).1), (l.put capacity k program).2)
  | getOrBuild k making =>
    match l.find capacity k with
    | (some program, l) => (.ok (some program), l)
    | (none, l) =>
      match making.result with
      | .ok program => (.ok (some (l.put capacity k program).1), (l.put capacity k program).2)
      | .error f => (.error f, l)
  | clear => (.ok none, [])

end CacheOp

/-! ### Histories -/

/-- Operations and their answers, the latest first. -/
abbrev CacheHistory := List (CacheOp × CacheAnswer)

namespace CacheHistory

/-- The keys that have been used since everything was dropped, the latest first. -/
def uses : CacheHistory → List ProgramKey
  | [] => []
  | (.clear, _) :: _ => []
  | (op, .ok (some _)) :: h => op.key?.toList ++ uses h
  | _ :: h => uses h

/-- Keeps of each key the first occurrence. -/
def distinct : List ProgramKey → List ProgramKey
  | [] => []
  | k :: ks => k :: (distinct ks).filter (· != k)

/-- The keys that have been used most recently. -/
def recent (capacity : Nat) (h : CacheHistory) : List ProgramKey := (distinct (uses h)).take capacity

/-- The program that came first for a key since the key was last absent. -/
def kept (capacity : Nat) (k : ProgramKey) : CacheHistory → Option Nat
  | [] => none
  | (op, answer) :: h =>
    if k ∈ recent capacity ((op, answer) :: h) then
      if k ∈ recent capacity h then kept capacity k h else op.program?
    else none

/-- The answer to an operation after a history. -/
def answer (capacity : Nat) (h : CacheHistory) : CacheOp → CacheAnswer
  | .lookup k => .ok (kept capacity k h)
  | .insert k program => .ok (some ((kept capacity k h).getD program))
  | .getOrBuild k making =>
    match kept capacity k h with
    | some program => .ok (some program)
    | none => making.result.map some
  | .clear => .ok none

/-- Every answer of a history is the one that the history before it asks for. -/
def Answered (capacity : Nat) : CacheHistory → Prop
  | [] => True
  | (op, a) :: h => a = answer capacity h op ∧ Answered capacity h

/-- The number of operations that looked a key up. -/
def lookups (h : CacheHistory) : Nat := h.countP fun e => e.1.looksUp

/-- The number of programs that came in for keys that were absent. -/
def insertions (capacity : Nat) : CacheHistory → Nat
  | [] => 0
  | (op, _) :: h =>
    insertions capacity h + if op.bringsIn (recent capacity h) then 1 else 0

/-- The number of programs that were dropped with everything else. -/
def cleared (capacity : Nat) : CacheHistory → Nat
  | [] => 0
  | (.clear, _) :: h => cleared capacity h + (recent capacity h).length
  | _ :: h => cleared capacity h

end CacheHistory

/-! ### What a list keeps -/

open CacheHistory

variable {capacity : Nat} {h : CacheHistory} {l : RecencyList} {k k' : ProgramKey} {program : Nat}

theorem nodup_distinct (ks : List ProgramKey) : (distinct ks).Nodup := by
  induction ks with
  | nil => exact .nil
  | cons k ks ih => exact List.nodup_cons.mpr ⟨by simp, ih.filter _⟩

/-- To cut off a list behind a key at the front, no more of it is needed than fits. -/
theorem take_filter_ne {ks : List ProgramKey} (hn : ks.Nodup) (k : ProgramKey) (n : Nat) :
    ((ks.take (n + 1)).filter (· != k)).take n = (ks.filter (· != k)).take n := by
  induction ks generalizing n with
  | nil => simp
  | cons a ks ih =>
    rw [List.nodup_cons] at hn
    rw [List.take_succ_cons]
    by_cases ha : a = k
    · subst ha
      have hall : ∀ ks' ⊆ ks, ks'.filter (· != a) = ks' := fun ks' hsub =>
        List.filter_eq_self.mpr fun x hx => bne_iff_ne.mpr fun heq => hn.1 (heq ▸ hsub hx)
      rw [List.filter_cons_of_neg (by simp), List.filter_cons_of_neg (by simp),
        hall _ (List.take_subset _ _), hall _ (List.Subset.refl _), List.take_take, Nat.min_self]
    · rw [List.filter_cons_of_pos (by simpa using ha), List.filter_cons_of_pos (by simpa using ha)]
      cases n with
      | zero => rfl
      | succ n => rw [List.take_succ_cons, List.take_succ_cons, ih hn.2]

theorem RecencyList.lookup_use_self (l : RecencyList) (hpos : 0 < capacity) (k : ProgramKey) (program : Nat) :
    (l.use capacity k program).lookup k = some program := by
  obtain ⟨n, rfl⟩ : ∃ n, capacity = n + 1 := ⟨capacity - 1, by omega⟩
  rw [use, List.take_succ_cons, List.lookup_cons_self]

/-- The use of a key brings in no other program. -/
theorem RecencyList.lookup_of_use (hk : k' ≠ k) {first : Nat}
    (h : (l.use capacity k program).lookup k' = some first) : l.lookup k' = some first := by
  have hmem : k' ∈ (l.use capacity k program).map Prod.fst := by
    rw [← not_not (a := k' ∈ _), ← lookup_eq_none, h]
    exact Option.some_ne_none _
  rw [use, lookup_take _ _ hmem, List.lookup_cons, beq_eq_false_iff_ne.mpr hk, lookup_filter_ne,
    if_neg hk] at h
  exact h

/-! ### What a history tells of a list -/

/-- The list that a history leaves: the keys that have been used last, each with its program. -/
structure Recalls (capacity : Nat) (h : CacheHistory) (l : RecencyList) : Prop where
  keys : l.map Prod.fst = recent capacity h
  programs : ∀ k, l.lookup k = kept capacity k h

theorem recalls_nil (capacity : Nat) : Recalls capacity [] [] where
  keys := by simp [recent, uses, distinct]
  programs _ := rfl

/-- A key has a program when it is one of those that have been used last. -/
theorem Recalls.isSome_kept (ht : Recalls capacity h l) (k : ProgramKey) :
    (kept capacity k h).isSome ↔ k ∈ recent capacity h := by
  rw [← ht.programs, ← ht.keys, ← not_iff_not, ← lookup_eq_none, Option.not_isSome_iff_eq_none]

/-- An operation that uses no key changes nothing. -/
theorem Recalls.idle (ht : Recalls capacity h l) {op : CacheOp} {a : CacheAnswer}
    (huses : uses ((op, a) :: h) = uses h) : Recalls capacity ((op, a) :: h) l := by
  have hrecent : recent capacity ((op, a) :: h) = recent capacity h := by rw [recent, huses, recent]
  refine ⟨ht.keys.trans hrecent.symm, fun k => ?_⟩
  rw [kept, hrecent, ht.programs]
  by_cases hk : k ∈ recent capacity h
  · rw [if_pos hk, if_pos hk]
  · rw [if_neg hk]
    rwa [← ht.isSome_kept, Option.not_isSome_iff_eq_none] at hk

theorem Recalls.use (ht : Recalls capacity h l) (hpos : 0 < capacity) {op : CacheOp} {k : ProgramKey}
    {program : Nat} (huses : uses ((op, .ok (some program)) :: h) = k :: uses h)
    (hprogram : if k ∈ recent capacity h then kept capacity k h = some program
      else op.program? = some program) :
    Recalls capacity ((op, .ok (some program)) :: h) (l.use capacity k program) := by
  obtain ⟨n, rfl⟩ : ∃ n, capacity = n + 1 := ⟨capacity - 1, by omega⟩
  have hkeys : (l.use (n + 1) k program).map Prod.fst =
      recent (n + 1) ((op, .ok (some program)) :: h) := by
    have hfilter : (l.filter fun e => e.1 != k).map Prod.fst =
        (recent (n + 1) h).filter (· != k) := by
      rw [← ht.keys, List.filter_map]
      rfl
    rw [RecencyList.use, List.map_take, List.map_cons, List.take_succ_cons, hfilter, recent,
      take_filter_ne (nodup_distinct _), recent, huses]
    rfl
  refine ⟨hkeys, fun k' => ?_⟩
  rw [kept, ← hkeys]
  by_cases hmem : k' ∈ (l.use (n + 1) k program).map Prod.fst
  · rw [if_pos hmem, RecencyList.use, lookup_take _ _ hmem, List.lookup_cons, lookup_filter_ne]
    by_cases hk : k' = k
    · subst hk
      split at hprogram
      · rename_i hin
        simp [hin, hprogram]
      · rename_i hin
        simp [hin, hprogram]
    · -- another key has been used before
      have hin : k' ∈ recent (n + 1) h := by
        rw [← ht.keys]
        obtain ⟨e, he, rfl⟩ := List.mem_map.mp hmem
        rcases List.mem_cons.mp (List.mem_of_mem_take he) with rfl | he
        · exact absurd rfl hk
        · exact List.mem_map_of_mem (List.mem_filter.mp he).1
      rw [beq_eq_false_iff_ne.mpr hk, if_neg hk, if_pos hin]
      exact ht.programs k'
  · rw [if_neg hmem]
    exact lookup_eq_none.mpr hmem

theorem recalls_clear (capacity : Nat) (h : CacheHistory) (a : CacheAnswer) :
    Recalls capacity ((.clear, a) :: h) [] where
  keys := by simp [recent, uses, distinct]
  programs k := by simp [kept, recent, uses, distinct]

/-- The program of a key that is there came with an earlier operation. -/
theorem Recalls.of_found (ht : Recalls capacity h l) (op : CacheOp) (hl : l.lookup k = some program) :
    if k ∈ recent capacity h then kept capacity k h = some program else op.program? = some program := by
  rw [ht.programs] at hl
  rw [if_pos ((ht.isSome_kept k).mp (by rw [hl]; rfl))]
  exact hl

/-- The program of a key that is not there comes with the operation. -/
theorem Recalls.of_absent (ht : Recalls capacity h l) {op : CacheOp} (hl : l.lookup k = none)
    (hop : op.program? = some program) :
    if k ∈ recent capacity h then kept capacity k h = some program else op.program? = some program := by
  rw [ht.programs] at hl
  rw [if_neg fun hin => by simpa [hl] using (ht.isSome_kept k).mpr hin]
  exact hop

/-- **One operation on a list answers what its history asks for.** -/
theorem Recalls.step (ht : Recalls capacity h l) (hpos : 0 < capacity) (op : CacheOp) :
    (op.onList capacity l).1 = answer capacity h op ∧
      Recalls capacity ((op, (op.onList capacity l).1) :: h) (op.onList capacity l).2 := by
  cases op with
  | clear => exact ⟨rfl, recalls_clear capacity h _⟩
  | lookup k =>
    rw [CacheOp.onList, answer, ← ht.programs]
    cases hl : l.lookup k with
    | none =>
      simp only [RecencyList.find, hl, true_and]
      exact ht.idle rfl
    | some program =>
      simp only [RecencyList.find, hl, true_and]
      exact ht.use hpos rfl (ht.of_found _ hl)
  | insert k program =>
    rw [CacheOp.onList, answer, ← ht.programs]
    cases hl : l.lookup k with
    | none =>
      simp only [RecencyList.put, hl, Option.getD, true_and]
      exact ht.use hpos rfl (ht.of_absent hl rfl)
    | some first =>
      simp only [RecencyList.put, hl, Option.getD, true_and]
      exact ht.use hpos rfl (ht.of_found _ hl)
  | getOrBuild k making =>
    simp only [CacheOp.onList, answer, ← ht.programs, RecencyList.find]
    cases hl : l.lookup k with
    | some program => exact ⟨rfl, ht.use hpos rfl (ht.of_found _ hl)⟩
    | none =>
      cases hmade : making.result with
      | error f => exact ⟨rfl, ht.idle rfl⟩
      | ok program =>
        simp only [RecencyList.put, hl]
        exact ⟨rfl, ht.use hpos rfl (ht.of_absent hl (by rw [CacheOp.program?, hmade]; rfl))⟩

/-! ### Runs -/

namespace CacheHistory

variable {σ : Type}

/-- The history of some operations on a state, and the state that they leave. -/
def run (step : σ → CacheOp → CacheAnswer × σ) (s : σ) (ops : List CacheOp) : CacheHistory × σ :=
  ops.foldl (fun r op => ((op, (step r.2 op).1) :: r.1, (step r.2 op).2)) ([], s)

theorem run_snoc (step : σ → CacheOp → CacheAnswer × σ) (s : σ) (ops : List CacheOp) (op : CacheOp) :
    run step s (ops ++ [op]) =
      ((op, (step (run step s ops).2 op).1) :: (run step s ops).1, (step (run step s ops).2 op).2) := by
  rw [run, List.foldl_append]
  rfl

end CacheHistory

/-- **A list keeps the keys that have been used last, and answers with the first program of each.** -/
theorem run_onList (hpos : 0 < capacity) (ops : List CacheOp) :
    let r := CacheHistory.run (fun l op => op.onList capacity l) [] ops
    Recalls capacity r.1 r.2 ∧ r.1.Answered capacity := by
  induction ops using List.reverseRecOn with
  | nil => exact ⟨recalls_nil capacity, trivial⟩
  | append_singleton ops op ih =>
    obtain ⟨hanswer, hrecalls⟩ := ih.1.step hpos op
    rw [run_snoc]
    exact ⟨hrecalls, hanswer, ih.2⟩

end KernelForge
