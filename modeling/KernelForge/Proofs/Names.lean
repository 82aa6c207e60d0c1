/-
A name that is handed out is new.

The search for a free index gives up after as many tries as there are taken names, and then takes
the next index unseen.  That is right all the same: the names tried are pairwise different, so
when all of them are taken they are all the taken names there are.
-/
import KernelForge.Names
import KernelForge.Proofs.Code.Grammar
import KernelForge.Proofs.Token.Scanning

namespace KernelForge.Names

variable {ns : Names} {root name : String}

theorem indexedName_inj {i j : Nat} (h : indexedName root i = indexedName root j) : i = j := by
  unfold indexedName at h
  rw [String.append_right_inj, Nat.toString_eq_repr, Nat.toString_eq_repr] at h
  have hlist := congrArg String.toList h
  rw [Nat.toList_repr, Nat.toList_repr] at hlist
  rw [← Nat.ofDigitChars_ten_toDigits (n := i), hlist, Nat.ofDigitChars_ten_toDigits]

theorem isTaken_iff : ns.isTaken name = true ↔ name ∈ ns.taken := by
  rw [isTaken, List.contains_iff_mem]

/-- The search passes over taken names only, and stops at a free one unless it gives up. -/
theorem exists_freeIndex (ns : Names) (root : String) (fuel index : Nat) :
    ∃ n, ns.freeIndex root fuel index = index + n ∧
      (∀ j < n, indexedName root (index + j) ∈ ns.taken) ∧
      (n = fuel ∨ indexedName root (index + n) ∉ ns.taken) := by
  induction fuel generalizing index with
  | zero => exact ⟨0, rfl, fun j hj => absurd hj (Nat.not_lt_zero j), .inl rfl⟩
  | succ fuel ih =>
    rw [freeIndex]
    split
    · rename_i htaken
      obtain ⟨n, heq, hskipped, hend⟩ := ih (index + 1)
      have hshift : ∀ j, index + 1 + j = index + (j + 1) := fun j => by omega
      refine ⟨n + 1, heq.trans (hshift n), fun j hj => ?_, ?_⟩
      · cases j with
        | zero => exact isTaken_iff.mp htaken
        | succ j => exact hshift j ▸ hskipped j (by omega)
      · exact hend.imp (congrArg (· + 1)) fun hfree => hshift n ▸ hfree
    · rename_i hfree
      exact ⟨0, rfl, fun j hj => absurd hj (Nat.not_lt_zero j), .inr fun h => hfree (isTaken_iff.mpr h)⟩

/-- Some names of one root, from an index on. -/
def trial (root : String) (index count : Nat) : List String :=
  (List.range count).map fun j => indexedName root (index + j)

theorem nodup_trial (root : String) (index count : Nat) : (trial root index count).Nodup := by
  refine List.pairwise_map.mpr (List.nodup_range.imp fun hne heq => hne ?_)
  exact Nat.add_left_cancel (indexedName_inj heq)

/-- The search for an index ends at the first name from that of the counter on that is free. -/
theorem exists_indexed (ns : Names) (root : String) :
    ∃ n, ns.freeIndex root ns.taken.length (ns.nextIndex root) = ns.nextIndex root + n ∧
      (∀ j < n, indexedName root (ns.nextIndex root + j) ∈ ns.taken) ∧
      indexedName root (ns.nextIndex root + n) ∉ ns.taken := by
  obtain ⟨n, heq, hskipped, hend⟩ := exists_freeIndex ns root ns.taken.length (ns.nextIndex root)
  refine ⟨n, heq, hskipped, fun hmem => ?_⟩
  rcases hend with rfl | hfree
  · -- with the name itself there are more taken names of this root than taken names
    have hsub : trial root (ns.nextIndex root) (ns.taken.length + 1) ⊆ ns.taken := by
      intro x hx
      obtain ⟨j, hj, rfl⟩ := List.mem_map.mp hx
      rcases Nat.lt_succ_iff_lt_or_eq.mp (List.mem_range.mp hj) with hlt | rfl
      · exact hskipped j hlt
      · exact hmem
    have hle := (nodup_trial root _ _).length_le_of_subset hsub
    rw [trial, List.length_map, List.length_range] at hle
    omega
  · exact hfree hmem

/-- **A name that is handed out was not taken.** -/
theorem indexed_notMem (ns : Names) (root : String) : (ns.indexed root).1 ∉ ns.taken := by
  obtain ⟨n, heq, -, hfree⟩ := exists_indexed ns root
  unfold indexed
  rwa [heq]

theorem taken_indexed (ns : Names) (root : String) :
    (ns.indexed root).2.taken = (ns.indexed root).1 :: ns.taken := rfl

/-- A wanted name is new as well, as it is or with an index. -/
theorem fresh_notMem (ns : Names) (root : String) : (ns.fresh root).1 ∉ ns.taken := by
  unfold fresh
  split
  · exact indexed_notMem ns root
  · rename_i hfree
    exact fun h => hfree (isTaken_iff.mpr h)

theorem taken_fresh (ns : Names) (root : String) :
    (ns.fresh root).2.taken = (ns.fresh root).1 :: ns.taken := by
  unfold fresh
  split <;> rfl

/-! ### Names as words -/

theorem isDigit_toString {i : Nat} : ∀ c ∈ (toString i).toList, c.isDigit = true := by
  intro c hc
  rw [Nat.toString_eq_repr, Nat.toList_repr] at hc
  exact Nat.isDigit_of_mem_toDigits (by decide) (by decide) hc

theorem isNameChar_of_isDigit {c : Char} (h : c.isDigit = true) : Text.isNameChar c = true := by
  have hascii : Text.isAscii c = true := by
    have hc := Token.isDigit_toNat h
    rw [Text.isAscii, decide_eq_true_eq]
    omega
  rw [Text.isNameChar, Text.isNameDigit, hascii, if_pos rfl, h, Bool.or_true]

theorem isWord_indexedName {root : String} (hroot : Token.isWord root.toList = true) (i : Nat) :
    Token.isWord (indexedName root i).toList = true := by
  obtain ⟨d, ds, hds, hd, hall⟩ := Token.exists_of_isWord hroot
  rw [indexedName, String.toList_append, hds, List.cons_append, Token.isWord, Bool.and_eq_true,
    List.all_eq_true]
  refine ⟨hd, fun c hc => ?_⟩
  rcases List.mem_append.mp hc with hc | hc
  · exact hall c hc
  · exact isNameChar_of_isDigit (isDigit_toString c hc)

theorem toString_ne_nil (i : Nat) : (toString i).toList ≠ [] := by
  rw [Nat.toString_eq_repr, Nat.toList_repr]
  exact Nat.toDigits_ne_nil

/-- A root and an index are no word that ends without a digit. -/
theorem indexedName_ne {root w : String} {i : Nat} (hw : w.toList.getLast?.any Char.isDigit = false) :
    indexedName root i ≠ w := by
  rintro rfl
  obtain ⟨c, hc⟩ := Option.isSome_iff_exists.mp (List.getLast?_isSome.mpr (toString_ne_nil i))
  rw [indexedName, String.toList_append, List.getLast?_append, hc, Option.some_or] at hw
  have hdigit := isDigit_toString c (List.mem_of_getLast? hc)
  rw [Option.any_some, hdigit] at hw
  cases hw

theorem word_indexedName (root : String) (i : Nat) :
    Token.word (indexedName root i) = .name (indexedName root i) := by
  have hnone : Keyword.ofSpelling? (indexedName root i) = none := by
    refine List.find?_eq_none.mpr fun k _ hk => ?_
    have hlast : k.spelling.toList.getLast?.any Char.isDigit = false := by cases k <;> rfl
    exact indexedName_ne hlast (of_decide_eq_true hk).symm
  rw [Token.word, hnone]

theorem isQualifier_indexedName (root : String) (i : Nat) :
    Code.Scope.isQualifier (.name (indexedName root i)) = false := by
  refine Code.Scope.isQualifier_of_notMem fun hmem => ?_
  have hlast : ∀ w ∈ Code.Scope.qualifierWords, w.toList.getLast?.any Char.isDigit = false := by
    decide
  exact indexedName_ne (hlast _ hmem) rfl

end KernelForge.Names
