/-
The kinds of faults, asked for in two ways.

The kind of a fault is the first one that is met on a walk over all of its parts, each before what
caused it.  Whether a fault is of some kind is answered by a shorter walk, which goes from a fault to
its cause and ends where there are several.  So what the shorter walk meets is how the longer one
begins, and the two answers belong together unless the shorter walk meets nothing where the longer
one still finds a kind: in one of several faults that nothing around them gives a kind to.
-/
import KernelForge.Fault

namespace KernelForge.Fault

/-! ### What the two walks meet -/

/-- The kinds on the way down the single causes, from the outside in. -/
def chain : Fault → List FaultKind
  | plain _ => []
  | kinded kind cause => kind :: cause.chain
  | within _ cause => cause.chain
  | build _ => [.build]
  | execution _ cause => .execution :: cause.chain
  | several _ => []

mutual

/-- The kinds in all parts of a fault, each before those of its cause. -/
def kinds : Fault → List FaultKind
  | plain _ => []
  | kinded kind cause => kind :: cause.kinds
  | within _ cause => cause.kinds
  | build _ => [.build]
  | execution _ cause => .execution :: cause.kinds
  | several parts => allKinds parts

def allKinds : List Fault → List FaultKind
  | [] => []
  | f :: fs => f.kinds ++ allKinds fs

end

theorem mentions_iff (k : FaultKind) : ∀ f : Fault, f.mentions k = true ↔ k ∈ f.chain
  | plain _ => by simp [mentions, chain]
  | kinded kind cause => by
    rw [mentions, chain, Bool.or_eq_true, decide_eq_true_eq, List.mem_cons, mentions_iff k cause,
      @eq_comm _ kind k]
  | within _ cause => by simp [mentions, chain, mentions_iff k cause]
  | build _ => by simp [mentions, chain]
  | execution _ cause => by simp [mentions, chain, mentions_iff k cause]
  | several _ => by simp [mentions, chain]

mutual

theorem kind?_eq_head? : ∀ f : Fault, f.kind? = f.kinds.head?
  | plain _ => rfl
  | kinded _ _ => rfl
  | within _ cause => kind?_eq_head? cause
  | build _ => rfl
  | execution _ _ => rfl
  | several parts => firstKind?_eq_head? parts

theorem firstKind?_eq_head? : ∀ fs : List Fault, firstKind? fs = (allKinds fs).head?
  | [] => rfl
  | f :: fs => by
    rw [firstKind?, allKinds, List.head?_append, kind?_eq_head? f, firstKind?_eq_head? fs]
    cases f.kinds.head? <;> rfl

end

/-- The shorter walk is the beginning of the longer one. -/
theorem exists_kinds_eq : ∀ f : Fault, ∃ rest, f.kinds = f.chain ++ rest
  | plain _ => ⟨[], rfl⟩
  | kinded kind cause => by
    obtain ⟨rest, hrest⟩ := exists_kinds_eq cause
    exact ⟨rest, by rw [kinds, chain, hrest, List.cons_append]⟩
  | within _ cause => exists_kinds_eq cause
  | build _ => ⟨[], rfl⟩
  | execution _ cause => by
    obtain ⟨rest, hrest⟩ := exists_kinds_eq cause
    exact ⟨rest, by rw [kinds, chain, hrest, List.cons_append]⟩
  | several parts => ⟨allKinds parts, rfl⟩

/-! ### Faults with one answer -/

/-- A fault is of the kind that it has, and it has none exactly if it is of none. -/
structure Consistent (f : Fault) : Prop where
  is_kind : f.kind ≠ .invalid → f.mentions f.kind = true
  kind_invalid_iff : f.kind = .invalid ↔ ∀ k, k ≠ .invalid → f.mentions k = false

/-- The first kind on the shorter walk is the kind of the fault. -/
theorem kind_of_chain {f : Fault} {k : FaultKind} {ks : List FaultKind} (h : f.chain = k :: ks) :
    f.kind = k := by
  obtain ⟨rest, hrest⟩ := exists_kinds_eq f
  rw [kind, kind?_eq_head?, hrest, h]
  rfl

theorem mentions_of_chain_nil {f : Fault} (h : f.chain = []) (k : FaultKind) : f.mentions k = false := by
  rw [Bool.eq_false_iff]
  intro hk
  rw [mentions_iff, h] at hk
  exact absurd hk List.not_mem_nil

/-- **The two answers about a fault belong together exactly if** the shorter walk meets a kind where the
longer one does: no kind is found only behind several faults. -/
theorem consistent_iff {f : Fault} (hf : .invalid ∉ f.kinds) :
    f.Consistent ↔ (f.chain = [] → f.kinds = []) := by
  obtain ⟨rest, hrest⟩ := exists_kinds_eq f
  constructor
  · intro h hchain
    have hkind : f.kind = .invalid := h.kind_invalid_iff.mpr fun k _ => mentions_of_chain_nil hchain k
    rw [kind, kind?_eq_head?] at hkind
    cases hkinds : f.kinds with
    | nil => rfl
    | cons k ks =>
      rw [hkinds] at hkind hf
      exact absurd (show FaultKind.invalid ∈ k :: ks from hkind ▸ List.mem_cons_self) hf
  · intro h
    cases hchain : f.chain with
    | nil =>
      have hkind : f.kind = .invalid := by rw [kind, kind?_eq_head?, h hchain]; rfl
      exact ⟨fun hne => absurd hkind hne, fun _ k _ => mentions_of_chain_nil hchain k, fun _ => hkind⟩
    | cons k ks =>
      have hkind := kind_of_chain hchain
      have hk : f.mentions k = true := by
        rw [mentions_iff, hchain]
        exact List.mem_cons_self
      have hne : k ≠ .invalid := by
        rintro rfl
        exact hf (by rw [hrest, hchain]; exact List.mem_cons_self)
      refine ⟨fun _ => hkind ▸ hk, fun hinvalid => absurd (hkind.symm.trans hinvalid) hne, fun hall => ?_⟩
      rw [hall k hne] at hk
      cases hk

/-- A device that fails at the end is one fault, with several parts at its bottom. -/
theorem consistent_finish :
    .invalid ∉ (execution "finish" (several [build "log", plain "x"])).kinds ∧
      (execution "finish" (several [build "log", plain "x"])).Consistent :=
  ⟨by decide, (consistent_iff (by decide)).mpr fun h => by cases h⟩

/-- Two commands that fail, each in a queue of its own, make one fault that has a kind and is of none. -/
theorem joined_not_consistent :
    ∃ f, join? [execution "write" (plain "a"), execution "write" (plain "b")] = some f ∧
      .invalid ∉ f.kinds ∧ f.kind = .execution ∧ (∀ k, f.mentions k = false) ∧ ¬ f.Consistent :=
  ⟨_, rfl, by decide, rfl, fun _ => rfl, fun h => by cases h.is_kind (by decide)⟩

end KernelForge.Fault
