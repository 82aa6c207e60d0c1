/-
Names of types.

A tuple is known in kernel source by the name of its structure alone, and a structure is declared
once for each name.  This is sound because a name can be read in one way only: the names of the
fields are divided by underscores, no name of a number has an underscore in it, and the end of a
tuple is a word that no field starts with.

Of all words those that name a type are told by the reader: the spellings of scalars, and the names of
vectors, where zeros before the number of lanes are read over.
-/
import KernelForge.Proofs.Basic
import KernelForge.Proofs.Token.Scanning
import KernelForge.Proofs.Code.Grammar
import Mathlib.Data.List.Induction

namespace KernelForge

namespace Ty

mutual

/-- The types of the values that memories hold: numbers, vectors of numbers, and tuples of such. -/
def isData : Ty → Bool
  | void => false
  | scalar _ => true
  | vector s _ => !s.isBool
  | tuple ts => areData ts
  | pointer _ _ _ => false

def areData : List Ty → Bool
  | [] => true
  | t :: ts => t.isData && areData ts

end

theorem areData_iff {ts : List Ty} : areData ts = true ↔ ∀ t ∈ ts, t.isData = true := by
  induction ts with
  | nil => simp [areData]
  | cons t ts ih => simp [areData, ih]

/-- Scalars and vectors of numbers. -/
def isPlain : Ty → Bool
  | scalar _ => true
  | vector s _ => !s.isBool
  | _ => false

theorem isData_of_isPlain {t : Ty} (h : t.isPlain = true) : t.isData = true := by
  cases t <;> simp_all [isPlain, isData]

theorem isPlain_vector {s : Scalar} {w : Width} (h : (vector s w).isData = true) :
    (vector s w).isPlain = true := by
  simpa only [isData, isPlain] using h

theorem isData_cases {t : Ty} (h : t.isData = true) :
    t.isPlain = true ∨ ∃ ts, t = .tuple ts ∧ areData ts = true := by
  cases t with
  | void => cases h
  | scalar s => exact .inl rfl
  | vector s w => exact .inl h
  | tuple ts => exact .inr ⟨ts, rfl, h⟩
  | pointer t space readOnly => cases h

/-! ### The words that name types -/

/-- The words that are read as a type: the spellings of a scalar, and the name of a vector of numbers.
Zeros may come before the number of its lanes. -/
inductive NamedBy : Ty → String → Prop where
  | scalar {s : Scalar} {word : String} (h : (word, s) ∈ Scalar.spellings) : NamedBy (.scalar s) word
  | vector {s : Scalar} (w : Width) (zeros : Nat) (hs : s.isBool = false) :
      NamedBy (.vector s w) (s.name ++ String.ofList (List.replicate zeros '0') ++ toString w.lanes)

/-- The digits of a number; zero has none. -/
def significant (n : Nat) : List Char := if n = 0 then [] else Nat.toDigits 10 n

theorem significant_lanes (w : Width) : significant w.lanes = (toString w.lanes).toList := by
  cases w <;> rfl

/-- The number that digits write. -/
def written (ds : List Char) : Nat := ds.foldl (fun n c => 10 * n + (c.toNat - '0'.toNat)) 0

theorem written_snoc (ds : List Char) (c : Char) :
    written (ds ++ [c]) = 10 * written ds + (c.toNat - '0'.toNat) := by
  simp [written, List.foldl_append]

/-- A digit is added to the digits of a number, unless it is a zero that comes before all others. -/
theorem significant_snoc {c : Char} (hc : c.isDigit = true) (n : Nat) :
    significant (10 * n + (c.toNat - '0'.toNat)) =
      if n = 0 ∧ c = '0' then [] else significant n ++ [c] := by
  obtain ⟨hlow, hhigh⟩ := Token.isDigit_toNat hc
  obtain ⟨d, hd, rfl⟩ : ∃ d < 10, c = Nat.digitChar d := by
    refine ⟨c.toNat - 48, by omega, Char.toNat_inj.mp ?_⟩
    have hdigits : ∀ d < 10, (Nat.digitChar d).toNat = d + 48 := by decide
    rw [hdigits _ (by omega)]
    omega
  have hvalue : ∀ d < 10, (Nat.digitChar d).toNat - '0'.toNat = d := by decide
  have hzero : ∀ d < 10, (Nat.digitChar d = '0' ↔ d = 0) := by decide
  rw [hvalue d hd, significant, significant]
  by_cases hn : n = 0
  · subst hn
    by_cases hd0 : d = 0
    · simp [hd0]
    · simp [hd0, hzero d hd, Nat.toDigits_of_lt_base hd]
  · rw [if_neg (by omega), if_neg (fun h => hn h.1), if_neg hn,
      ← Nat.toDigits_append_toDigits (by decide) (Nat.pos_of_ne_zero hn) hd, Nat.toDigits_of_lt_base hd]

/-- Digits are those of the number they write, after some zeros. -/
theorem exists_zeros {ds : List Char} (h : ∀ c ∈ ds, c.isDigit = true) :
    ∃ zeros, ds = List.replicate zeros '0' ++ significant (written ds) := by
  induction ds using List.reverseRecOn with
  | nil => exact ⟨0, rfl⟩
  | append_singleton ds c ih =>
    rw [List.forall_mem_append, List.forall_mem_singleton] at h
    obtain ⟨zeros, hds⟩ := ih h.1
    rw [written_snoc, significant_snoc h.2]
    split
    · rename_i hzero
      rw [hzero.1, significant, if_pos rfl, List.append_nil] at hds
      refine ⟨zeros + 1, ?_⟩
      rw [hds, hzero.2, List.append_nil, List.replicate_succ']
    · exact ⟨zeros, by rw [← List.append_assoc, ← hds]⟩

theorem written_zeros (zeros : Nat) (ds : List Char) :
    written (List.replicate zeros '0' ++ ds) = written ds := by
  induction zeros with
  | zero => rfl
  | succ n ih =>
    rw [List.replicate_succ, List.cons_append, ← ih]
    rfl

theorem decimalDigits?_eq_some {ds : List Char} {n : Nat} :
    decimalDigits? ds = some n ↔ ds ≠ [] ∧ (∀ c ∈ ds, c.isDigit = true) ∧ written ds = n := by
  unfold decimalDigits?
  split
  · rename_i hnil
    simp [List.isEmpty_iff.mp hnil]
  · rename_i hne
    rw [List.isEmpty_iff] at hne
    split
    · rename_i hall
      rw [List.all_eq_true] at hall
      exact ⟨fun h => ⟨hne, hall, Option.some.inj h⟩, fun h => congrArg some h.2.2⟩
    · rename_i hall
      rw [List.all_eq_true] at hall
      exact ⟨nofun, fun h => absurd h.2.1 hall⟩

theorem vectorOf?_eq_some {s : Scalar} {n : Nat} {t : Ty} :
    vectorOf? s n = some t ↔ s.isBool = false ∧ ∃ w : Width, w.lanes = n ∧ t = .vector s w := by
  unfold vectorOf?
  cases s.isBool with
  | true => simp
  | false =>
    simp only [Bool.false_eq_true, if_false, Option.map_eq_some_iff, true_and]
    constructor
    · rintro ⟨w, hw, rfl⟩
      exact ⟨w, Width.lanes_of_ofLanes? hw, rfl⟩
    · rintro ⟨w, rfl, rfl⟩
      exact ⟨w, Width.ofLanes?_lanes w, rfl⟩

/-- A word with a figure is the spelling of no scalar. -/
theorem scalar_parse?_of_digit {word : String} {c : Char} (hmem : c ∈ word.toList) (hc : c.isDigit = true) :
    Scalar.parse? word = none := by
  refine lookup_eq_none.mpr fun hword => ?_
  have hall : ∀ w ∈ Scalar.spellings.map Prod.fst, (w.toList.all fun c => decide (c.isDigit = false)) = true := by
    decide
  rw [forall_mem_of_all (hall word hword) c hmem] at hc
  cases hc

theorem scalar_parse?_eq_some {word : String} {s : Scalar} :
    Scalar.parse? word = some s ↔ (word, s) ∈ Scalar.spellings :=
  ⟨mem_of_lookup, lookup_of_mem (d := (word, s)) (by decide)⟩

theorem isDigit_name (s : Scalar) : ∀ c ∈ s.name.toList, c.isDigit = false := by
  cases s <;> exact forall_mem_of_all (by decide)

theorem parse?_vector {s : Scalar} (hs : s.isBool = false) (w : Width) (zeros : Nat) :
    parse? (s.name ++ String.ofList (List.replicate zeros '0') ++ toString w.lanes) = some (.vector s w) := by
  obtain ⟨digits, hdigits⟩ :
      ∃ ds, ds = List.replicate zeros '0' ++ (toString w.lanes).toList := ⟨_, rfl⟩
  have hlanes : ∀ c ∈ (toString w.lanes).toList, c.isDigit = true := by
    cases w <;> exact forall_mem_of_all (by decide)
  have hall : ∀ c ∈ digits, c.isDigit = true := by
    rw [hdigits]
    refine List.forall_mem_append.mpr ⟨fun c hc => ?_, hlanes⟩
    rw [List.eq_of_mem_replicate hc]
    rfl
  have hne : digits ≠ [] := by
    rw [hdigits]
    cases w <;> simp [Width.lanes]
  have hword : (s.name ++ String.ofList (List.replicate zeros '0') ++ toString w.lanes).toList =
      s.name.toList ++ digits := by
    simp [hdigits]
  have hcut : (s.name.toList ++ digits).takeWhile (fun c => !c.isDigit) = s.name.toList ∧
      (s.name.toList ++ digits).dropWhile (fun c => !c.isDigit) = digits := by
    obtain ⟨d, ds, hd⟩ := List.exists_cons_of_ne_nil hne
    have hname : ∀ c ∈ s.name.toList, (!c.isDigit) = true := fun c hc => by rw [isDigit_name s c hc]; rfl
    rw [List.takeWhile_append_of_pos hname, List.dropWhile_append_of_pos hname, hd]
    rw [hd] at hall
    simp [hall d List.mem_cons_self]
  have hnone :
      Scalar.parse? (s.name ++ String.ofList (List.replicate zeros '0') ++ toString w.lanes) = none := by
    obtain ⟨d, ds, hd⟩ := List.exists_cons_of_ne_nil hne
    refine scalar_parse?_of_digit (c := d) ?_ (hall d (by rw [hd]; exact List.mem_cons_self))
    rw [hword, hd]
    simp
  have hname : Scalar.parse? s.name = some s := by cases s <;> rfl
  have hnumber : decimalDigits? digits = some w.lanes := by
    refine decimalDigits?_eq_some.mpr ⟨hne, hall, ?_⟩
    rw [hdigits, written_zeros]
    cases w <;> rfl
  rw [parse?, hnone]
  dsimp only
  rw [hword, hcut.1, hcut.2, String.ofList_toList, hname]
  dsimp only
  rw [if_pos rfl, hnumber]
  exact vectorOf?_eq_some.mpr ⟨hs, w, rfl, rfl⟩

/-- **The words that name types** are the spellings of scalars and the names of vectors, and zeros may
come before the lanes.  A word starts a type when it is one of these, or `void`. -/
theorem named_types_iff (word : String) :
    (∀ t, parse? word = some t ↔ NamedBy t word) ∧
      (isTypeName word = true ↔ word = "void" ∨ ∃ t, NamedBy t word) := by
  have hparse : ∀ t, parse? word = some t ↔ NamedBy t word := by
    intro t
    constructor
    · intro h
      unfold parse? at h
      split at h
      · rename_i s hs
        cases h
        exact .scalar (scalar_parse?_eq_some.mp hs)
      · dsimp only at h
        split at h
        · rename_i s _
          split at h
          · rename_i hname
            obtain ⟨n, hn, hvector⟩ := Option.bind_eq_some_iff.mp h
            obtain ⟨-, hall, hwritten⟩ := decimalDigits?_eq_some.mp hn
            obtain ⟨hbool, w, rfl, rfl⟩ := vectorOf?_eq_some.mp hvector
            obtain ⟨zeros, hzeros⟩ := exists_zeros hall
            rw [hwritten, significant_lanes] at hzeros
            have hword : word = s.name ++ String.ofList (List.replicate zeros '0') ++ toString w.lanes := by
              rw [hname, ← String.toList_inj, String.toList_append, String.toList_append,
                String.toList_ofList, String.toList_ofList, List.append_assoc, ← hzeros,
                List.takeWhile_append_dropWhile]
            rw [hword]
            exact .vector w zeros hbool
          · cases h
        · cases h
    · rintro (h | ⟨w, zeros, hs⟩)
      · unfold parse?
        rw [scalar_parse?_eq_some.mpr h]
      · exact parse?_vector hs w zeros
  refine ⟨hparse, ?_⟩
  have hunsigned : word = "unsigned" → ∃ t, NamedBy t word := by
    rintro rfl
    exact ⟨.scalar .uint, .scalar (by decide)⟩
  simp only [isTypeName, Bool.or_eq_true, decide_eq_true_eq, Option.isSome_iff_exists, hparse]
  constructor
  · rintro ((h | h) | h)
    · exact .inl h
    · exact .inr (hunsigned h)
    · exact .inr h
  · rintro (h | h)
    · exact .inl (.inl h)
    · exact .inr h

/-- A zero before the lanes is read over. -/
example : parse? "float04" = some (.vector .float .four) := by rfl

/-! ### Names of numbers and vectors -/

/-- The name of a plain type is read back. -/
theorem parse?_name {t : Ty} (h : t.isPlain = true) : parse? t.name = some t := by
  cases t with
  | scalar s => cases s <;> rfl
  | vector s w => simpa [name] using parse?_vector (Bool.not_eq_true' _ ▸ h) w 0
  | _ => cases h

/-- The scalars, and the vectors of numbers. -/
def plainTys : List Ty :=
  Scalar.all.map scalar ++ (Scalar.all.filter (!·.isBool)).flatMap fun s =>
    [vector s .two, vector s .four, vector s .eight, vector s .sixteen]

theorem mem_plainTys {t : Ty} (h : t.isPlain = true) : t ∈ plainTys := by
  have hall : ∀ s : Scalar, s ∈ Scalar.all := fun s => by cases s <;> decide
  cases t with
  | scalar s => exact List.mem_append_left _ (List.mem_map_of_mem (hall s))
  | vector s w =>
    refine List.mem_append_right _ (List.mem_flatMap.mpr ⟨s, List.mem_filter.mpr ⟨hall s, h⟩, ?_⟩)
    cases w <;> simp
  | _ => cases h

/-- What holds of the plain types one by one. -/
theorem forall_plain {p : Ty → Bool} (hall : plainTys.all p = true) {t : Ty} (h : t.isPlain = true) :
    p t = true := List.all_eq_true.mp hall t (mem_plainTys h)

/-- The name of a plain type is a word of letters and digits. -/
theorem isAlphanum_name {t : Ty} (h : t.isPlain = true) :
    t.name.toList ≠ [] ∧ ∀ c ∈ t.name.toList, c.isAlphanum = true := by
  have hname := forall_plain (p := fun t => !t.name.toList.isEmpty && t.name.toList.all Char.isAlphanum)
    (by decide +kernel) h
  simpa using hname

theorem isAlphanum_ne_underscore {c : Char} (h : c.isAlphanum = true) : c ≠ '_' := by
  rintro rfl
  cases h

/-! ### Names of tuples -/

/-- The name of a type as it enters the name of a tuple. -/
def stem (t : Ty) : List Char := trimUnderscores t.name.toList

theorem stems_eq_map (ts : List Ty) : stems ts = ts.map fun t => String.ofList t.stem := by
  induction ts with
  | nil => rfl
  | cons t ts ih => rw [stems, ih, List.map_cons]; rfl

/-- The word that the name of a tuple starts with. -/
def tupleWord (ts : List Ty) : List Char :=
  if ts.length = 2 then ['p', 'a', 'i', 'r'] else ['t', 'u', 'p', 'l', 'e']

/-- The names of the fields after the first, and the end. -/
def laterStems : List Ty → List Char
  | [] => ['_', 't']
  | t :: ts => '_' :: (t.stem ++ laterStems ts)

/-- The names of the fields, and the end. -/
def joinedStems : List Ty → List Char
  | [] => ['_', 't']
  | t :: ts => t.stem ++ laterStems ts

theorem intercalate_stems (t : Ty) (ts : List Ty) :
    ['_'].intercalate ((t :: ts).map stem) ++ ['_', 't'] = t.stem ++ laterStems ts := by
  induction ts generalizing t with
  | nil => simp [laterStems]
  | cons u us ih =>
    rw [List.map_cons, List.map_cons, List.intercalate_cons_cons, ← List.map_cons,
      List.append_assoc, List.append_assoc, ih, laterStems]
    rfl

/-- The name of a tuple, letter by letter. -/
theorem name_tuple (ts : List Ty) :
    (tuple ts).name.toList = '_' :: (tupleWord ts ++ '_' :: joinedStems ts) := by
  have hfirst : (if ts.length = 2 then "_pair_" else "_tuple_" : String).toList =
      '_' :: (tupleWord ts ++ ['_']) := by
    unfold tupleWord
    split <;> rfl
  have hstems : (stems ts).map String.toList = ts.map stem := by
    rw [stems_eq_map, List.map_map]
    exact List.map_congr_left fun t _ => by simp
  have hrest : ['_'].intercalate (ts.map stem) ++ ['_', 't'] = joinedStems ts := by
    cases ts with
    | nil => rfl
    | cons t ts => exact intercalate_stems t ts
  rw [name, String.toList_append, String.toList_append, String.toList_intercalate, hfirst, hstems]
  have hends : "_t".toList = ['_', 't'] := rfl
  have hunder : "_".toList = ['_'] := rfl
  rw [hends, hunder, List.append_assoc, hrest]
  simp

theorem getLast?_laterStems (ts : List Ty) : ∃ cs, laterStems ts = cs ++ ['t'] := by
  induction ts with
  | nil => exact ⟨['_'], rfl⟩
  | cons t ts ih =>
    obtain ⟨cs, hcs⟩ := ih
    exact ⟨'_' :: (t.stem ++ cs), by simp [laterStems, hcs]⟩

theorem getLast?_joinedStems (ts : List Ty) : ∃ cs, joinedStems ts = cs ++ ['t'] := by
  cases ts with
  | nil => exact ⟨['_'], rfl⟩
  | cons t ts =>
    obtain ⟨cs, hcs⟩ := getLast?_laterStems ts
    exact ⟨t.stem ++ cs, by simp [joinedStems, hcs]⟩

theorem trimUnderscores_of_ends {c d : Char} {cs : List Char} (hc : c ≠ '_') (hd : d ≠ '_') :
    trimUnderscores (c :: cs ++ [d]) = c :: cs ++ [d] := by
  simp [trimUnderscores, hc, hd]

theorem stem_tuple (ts : List Ty) : (tuple ts).stem = tupleWord ts ++ '_' :: joinedStems ts := by
  obtain ⟨cs, hcs⟩ := getLast?_joinedStems ts
  have hword : ∃ d ds, tupleWord ts = d :: ds ∧ d ≠ '_' := by
    unfold tupleWord
    split
    · exact ⟨'p', _, rfl, by decide⟩
    · exact ⟨'t', _, rfl, by decide⟩
  obtain ⟨d, ds, hds, hd⟩ := hword
  have hdrop : trimUnderscores ('_' :: (tupleWord ts ++ '_' :: joinedStems ts)) =
      trimUnderscores (tupleWord ts ++ '_' :: joinedStems ts) := by
    simp [trimUnderscores]
  have hshape : tupleWord ts ++ '_' :: joinedStems ts = d :: (ds ++ '_' :: cs) ++ ['t'] := by
    rw [hds, hcs]
    simp
  rw [stem, name_tuple, hdrop, hshape]
  exact trimUnderscores_of_ends hd (by decide)

theorem stem_plain {t : Ty} (h : t.isPlain = true) : t.stem = t.name.toList := by
  obtain ⟨hne, hall⟩ := isAlphanum_name h
  have hdrop : ∀ cs : List Char, (∀ c ∈ cs, c ≠ '_') → cs.dropWhile (· == '_') = cs := by
    intro cs hcs
    cases cs with
    | nil => rfl
    | cons c cs => simp [hcs c List.mem_cons_self]
  have hname : ∀ c ∈ t.name.toList, c ≠ '_' := fun c hc => isAlphanum_ne_underscore (hall c hc)
  rw [stem, trimUnderscores, hdrop _ hname, hdrop _ (by simpa using hname), List.reverse_reverse]

/-! ### Reading names -/

/-- A text that is over, or goes on with an underscore. -/
def Divided (cs : List Char) : Prop := ∀ c, cs.head? = some c → c = '_'

theorem divided_laterStems (ts : List Ty) (cs : List Char) : Divided (laterStems ts ++ cs) := by
  intro c hc
  cases ts <;> cases hc <;> rfl

/-- Texts that start with a word each start with the same word when they are the same. -/
theorem word_unique {w w' cs cs' : List Char} (hw : ∀ c ∈ w, c ≠ '_') (hw' : ∀ c ∈ w', c ≠ '_')
    (hcs : Divided cs) (hcs' : Divided cs') (h : w ++ cs = w' ++ cs') : w = w' ∧ cs = cs' := by
  induction w generalizing w' with
  | nil =>
    cases w' with
    | nil => exact ⟨rfl, h⟩
    | cons c' w' =>
      have hc' := hcs c' (by rw [← List.nil_append cs, h]; rfl)
      exact absurd hc' (hw' c' List.mem_cons_self)
  | cons c w ih =>
    cases w' with
    | nil =>
      have hc := hcs' c (by rw [← List.nil_append cs', ← h]; rfl)
      exact absurd hc (hw c List.mem_cons_self)
    | cons c' w' =>
      simp only [List.cons_append, List.cons.injEq] at h
      obtain ⟨hwords, hrest⟩ := ih (fun d hd => hw d (List.mem_cons_of_mem _ hd))
        (fun d hd => hw' d (List.mem_cons_of_mem _ hd)) h.2
      exact ⟨by rw [h.1, hwords], hrest⟩

theorem tupleWord_letters (ts : List Ty) : ∀ c ∈ tupleWord ts, c ≠ '_' := by
  unfold tupleWord
  split <;> exact forall_mem_of_all (by decide)

/-- The first words that a type can start with. -/
theorem exists_word_stem {t : Ty} (h : t.isData = true) :
    ∃ w cs, t.stem = w ++ cs ∧ (∀ c ∈ w, c ≠ '_') ∧ Divided cs ∧ w ≠ [] ∧ w ≠ ['t'] := by
  rcases isData_cases h with hplain | ⟨ts, rfl, hts⟩
  · obtain ⟨hne, hall⟩ := isAlphanum_name hplain
    refine ⟨t.name.toList, [], by rw [stem_plain hplain, List.append_nil],
      fun c hc => isAlphanum_ne_underscore (hall c hc), nofun, hne, fun heq => ?_⟩
    have hname : t.name = "t" := String.toList_inj.mp heq
    have hparse := parse?_name hplain
    rw [hname] at hparse
    cases hparse
  · refine ⟨tupleWord ts, '_' :: joinedStems ts, stem_tuple ts, tupleWord_letters ts, ?_, ?_, ?_⟩
    · rintro c ⟨⟩
      rfl
    · unfold tupleWord
      split <;> decide
    · unfold tupleWord
      split <;> decide

/-- No field starts where the fields end. -/
theorem end_ne_stem {t : Ty} (h : t.isData = true) {cs ds : List Char} (hcs : Divided cs)
    (hds : Divided ds) : 't' :: cs ≠ t.stem ++ ds := by
  intro heq
  obtain ⟨w, es, hstem, hw, hes, -, hne⟩ := exists_word_stem h
  rw [hstem, List.append_assoc] at heq
  have hdivided : Divided (es ++ ds) := by
    cases es with
    | nil => exact hds
    | cons e es => exact fun c hc => hes c hc
  have hunique := word_unique (w := ['t']) (forall_mem_of_all (by decide)) hw hcs hdivided heq
  exact hne hunique.1.symm

theorem head_stem_ne {t : Ty} (h : t.isData = true) (cs ds : List Char) :
    '_' :: cs ≠ t.stem ++ ds := by
  intro heq
  obtain ⟨w, es, hstem, hw, -, hne, -⟩ := exists_word_stem h
  cases w with
  | nil => exact hne rfl
  | cons c w =>
    rw [hstem, List.cons_append, List.cons_append] at heq
    exact hw c List.mem_cons_self (List.cons.inj heq).1.symm

theorem stem_unique_of_plain {s t : Ty} (hs : s.isPlain = true) (ht : t.isData = true)
    {cs ds : List Char} (hcs : Divided cs) (hds : Divided ds) (h : s.stem ++ cs = t.stem ++ ds) :
    s = t ∧ cs = ds := by
  have hletters : ∀ {u : Ty}, u.isPlain = true → ∀ c ∈ u.name.toList, c ≠ '_' :=
    fun hu c hc => isAlphanum_ne_underscore ((isAlphanum_name hu).2 c hc)
  have hparse := parse?_name hs
  rw [stem_plain hs] at h
  rcases isData_cases ht with hplain | ⟨ts, rfl, -⟩
  · rw [stem_plain hplain] at h
    obtain ⟨hname, hrest⟩ := word_unique (hletters hs) (hletters hplain) hcs hds h
    rw [String.toList_inj.mp hname, parse?_name hplain] at hparse
    exact ⟨(Option.some.inj hparse).symm, hrest⟩
  · rw [stem_tuple, List.append_assoc] at h
    have hcons : Divided ('_' :: joinedStems ts ++ ds) := by
      rintro c ⟨⟩
      rfl
    obtain ⟨hname, -⟩ := word_unique (hletters hs) (tupleWord_letters ts) hcs hcons h
    have hnone : parse? (String.ofList (tupleWord ts)) = none := by
      unfold tupleWord
      split <;> rfl
    rw [← String.ofList_toList (s := s.name), hname, hnone] at hparse
    cases hparse

mutual

/-- **A name is read in one way only.** -/
theorem stem_unique : ∀ {s t : Ty}, s.isData = true → t.isData = true →
    ∀ {cs ds : List Char}, Divided cs → Divided ds → s.stem ++ cs = t.stem ++ ds →
      s = t ∧ cs = ds
  | .tuple ss, .tuple ts, hs, ht, cs, ds, hcs, hds, h => by
    rw [stem_tuple, stem_tuple, List.append_assoc, List.append_assoc] at h
    have hcons : ∀ (us : List Ty) (es : List Char), Divided ('_' :: joinedStems us ++ es) := by
      rintro us es c ⟨⟩
      rfl
    obtain ⟨-, hjoined⟩ := word_unique (tupleWord_letters ss) (tupleWord_letters ts)
      (hcons ss cs) (hcons ts ds) h
    obtain ⟨rfl, hrest⟩ := joinedStems_unique hs ht hcs hds (List.cons.inj hjoined).2
    exact ⟨rfl, hrest⟩
  | .scalar a, t, _, ht, cs, ds, hcs, hds, h => stem_unique_of_plain rfl ht hcs hds h
  | .vector a w, t, hs, ht, cs, ds, hcs, hds, h =>
    stem_unique_of_plain (isPlain_vector hs) ht hcs hds h
  | .tuple ss, .scalar a, hs, _, cs, ds, hcs, hds, h =>
    have ⟨heq, hrest⟩ := stem_unique_of_plain rfl hs hds hcs h.symm
    ⟨heq.symm, hrest.symm⟩
  | .tuple ss, .vector a w, hs, ht, cs, ds, hcs, hds, h =>
    have ⟨heq, hrest⟩ := stem_unique_of_plain (isPlain_vector ht) hs hds hcs h.symm
    ⟨heq.symm, hrest.symm⟩

theorem joinedStems_unique : ∀ {ss ts : List Ty}, areData ss = true → areData ts = true →
    ∀ {cs ds : List Char}, Divided cs → Divided ds → joinedStems ss ++ cs = joinedStems ts ++ ds →
      ss = ts ∧ cs = ds
  | [], [], _, _, cs, ds, _, _, h => ⟨rfl, by simpa [joinedStems] using h⟩
  | [], t :: ts, _, hts, cs, ds, _, _, h => by
    rw [areData, Bool.and_eq_true] at hts
    rw [joinedStems, joinedStems, List.append_assoc] at h
    exact absurd h (head_stem_ne hts.1 _ _)
  | s :: ss, [], hss, _, cs, ds, _, _, h => by
    rw [areData, Bool.and_eq_true] at hss
    rw [joinedStems, joinedStems, List.append_assoc] at h
    exact absurd h.symm (head_stem_ne hss.1 _ _)
  | s :: ss, t :: ts, hss, hts, cs, ds, hcs, hds, h => by
    rw [areData, Bool.and_eq_true] at hss hts
    rw [joinedStems, joinedStems, List.append_assoc, List.append_assoc] at h
    obtain ⟨rfl, hlater⟩ := stem_unique hss.1 hts.1 (divided_laterStems _ _)
      (divided_laterStems _ _) h
    obtain ⟨rfl, hrest⟩ := laterStems_unique hss.2 hts.2 hcs hds hlater
    exact ⟨rfl, hrest⟩

theorem laterStems_unique : ∀ {ss ts : List Ty}, areData ss = true → areData ts = true →
    ∀ {cs ds : List Char}, Divided cs → Divided ds → laterStems ss ++ cs = laterStems ts ++ ds →
      ss = ts ∧ cs = ds
  | [], [], _, _, cs, ds, _, _, h => ⟨rfl, by simpa [laterStems] using h⟩
  | [], t :: ts, _, hts, cs, ds, hcs, _, h => by
    rw [areData, Bool.and_eq_true] at hts
    simp only [laterStems, List.cons_append, List.append_assoc, List.cons.injEq, true_and] at h
    exact absurd h (end_ne_stem hts.1 hcs (divided_laterStems _ _))
  | s :: ss, [], hss, _, cs, ds, _, hds, h => by
    rw [areData, Bool.and_eq_true] at hss
    simp only [laterStems, List.cons_append, List.append_assoc, List.cons.injEq, true_and] at h
    exact absurd h.symm (end_ne_stem hss.1 hds (divided_laterStems _ _))
  | s :: ss, t :: ts, hss, hts, cs, ds, hcs, hds, h => by
    rw [areData, Bool.and_eq_true] at hss hts
    simp only [laterStems, List.cons_append, List.append_assoc, List.cons.injEq, true_and] at h
    obtain ⟨rfl, hlater⟩ := stem_unique hss.1 hts.1 (divided_laterStems _ _)
      (divided_laterStems _ _) h
    obtain ⟨rfl, hrest⟩ := laterStems_unique hss.2 hts.2 hcs hds hlater
    exact ⟨rfl, hrest⟩

end

theorem tuple_name_inj {ss ts : List Ty} (hss : areData ss = true) (hts : areData ts = true)
    (h : (tuple ss).name = (tuple ts).name) : ss = ts := by
  have hstem : (tuple ss).stem ++ [] = (tuple ts).stem ++ [] := by rw [stem, stem, h]
  have hnil : Divided [] := nofun
  have hdata : ∀ {us : List Ty}, areData us = true → (tuple us).isData = true := fun h => by
    simpa only [isData] using h
  exact Ty.tuple.inj (stem_unique (hdata hss) (hdata hts) hnil hnil hstem).1

/-! ### Names as words -/

theorem mem_of_mem_trimUnderscores {c : Char} {cs : List Char} (h : c ∈ trimUnderscores cs) :
    c ∈ cs := by
  have hsub := List.dropWhile_sublist (l := (cs.dropWhile (· == '_')).reverse) (· == '_')
  have hmem := hsub.mem (List.mem_reverse.mp h)
  exact (List.dropWhile_sublist _).mem (List.mem_reverse.mp hmem)

theorem isNameChar_of_plain {t : Ty} (h : t.isPlain = true) :
    ∀ c ∈ t.name.toList, Text.isNameChar c = true :=
  List.all_eq_true.mp (forall_plain (p := fun t => t.name.toList.all Text.isNameChar) (by decide +kernel) h)

mutual

theorem isNameChar_name : ∀ {t : Ty}, t.isData = true →
    ∀ c ∈ t.name.toList, Text.isNameChar c = true
  | .scalar a, _, c, hc => isNameChar_of_plain rfl c hc
  | .vector a w, h, c, hc => isNameChar_of_plain (isPlain_vector h) c hc
  | .tuple ts, h, c, hc => by
    rw [name_tuple] at hc
    have hword : ∀ d ∈ tupleWord ts, Text.isNameChar d = true := by
      unfold tupleWord
      split <;> exact forall_mem_of_all (by decide)
    simp only [List.mem_cons, List.mem_append] at hc
    rcases hc with rfl | hc | rfl | hc
    · decide
    · exact hword c hc
    · decide
    · exact isNameChar_joinedStems h c hc

theorem isNameChar_joinedStems : ∀ {ts : List Ty}, areData ts = true →
    ∀ c ∈ joinedStems ts, Text.isNameChar c = true
  | [], _, c, hc => by
    revert c
    exact forall_mem_of_all (by decide)
  | t :: ts, h, c, hc => by
    rw [areData, Bool.and_eq_true] at h
    rcases List.mem_append.mp hc with hc | hc
    · exact isNameChar_name h.1 c (mem_of_mem_trimUnderscores hc)
    · exact isNameChar_laterStems h.2 c hc

theorem isNameChar_laterStems : ∀ {ts : List Ty}, areData ts = true →
    ∀ c ∈ laterStems ts, Text.isNameChar c = true
  | [], _, c, hc => by
    revert c
    exact forall_mem_of_all (by decide)
  | t :: ts, h, c, hc => by
    rw [areData, Bool.and_eq_true] at h
    rcases List.mem_cons.mp hc with rfl | hc
    · decide
    · rcases List.mem_append.mp hc with hc | hc
      · exact isNameChar_name h.1 c (mem_of_mem_trimUnderscores hc)
      · exact isNameChar_laterStems h.2 c hc

end

/-- Tests whether a text starts as the names of tuples do. -/
def startsTuple : List Char → Bool
  | '_' :: 'p' :: _ | '_' :: 't' :: _ => true
  | _ => false

theorem startsTuple_name (ts : List Ty) : startsTuple (tuple ts).name.toList = true := by
  rw [name_tuple]
  unfold tupleWord
  split <;> rfl

/-- What one look at all plain types finds of their names. -/
theorem plain_name_facts {t : Ty} (h : t.isPlain = true) :
    startsTuple t.name.toList = false ∧ Token.isWord t.name.toList = true ∧
      Token.word t.name = .name t.name ∧ Code.Scope.isQualifier (.name t.name) = false ∧
        t.name ≠ "unsigned" :=
  of_decide_eq_true (forall_plain (p := fun t => decide (startsTuple t.name.toList = false ∧
    Token.isWord t.name.toList = true ∧ Token.word t.name = .name t.name ∧
      Code.Scope.isQualifier (.name t.name) = false ∧ t.name ≠ "unsigned")) (by decide +kernel) h)

theorem startsTuple_plain {t : Ty} (h : t.isPlain = true) :
    startsTuple t.name.toList = false := (plain_name_facts h).1

theorem name_tuple_ne (ts : List Ty) {w : String} (hw : startsTuple w.toList = false) :
    (tuple ts).name ≠ w := by
  rintro rfl
  rw [startsTuple_name] at hw
  cases hw

/-- No type of data is spelled like a word that is no type. -/
theorem name_ne {t : Ty} (h : t.isData = true) {w : String} (hparse : parse? w = none)
    (hw : startsTuple w.toList = false) : t.name ≠ w := by
  rcases isData_cases h with hplain | ⟨ts, rfl, -⟩
  · rintro rfl
    rw [parse?_name hplain] at hparse
    cases hparse
  · exact name_tuple_ne ts hw

theorem isWord_name {t : Ty} (h : t.isData = true) : Token.isWord t.name.toList = true := by
  rcases isData_cases h with hplain | ⟨ts, rfl, -⟩
  · exact (plain_name_facts hplain).2.1
  · have hall := isNameChar_name h
    rw [name_tuple] at hall ⊢
    have hfirst : Text.isLetter '_' = true := by decide
    refine Bool.and_eq_true_iff.mpr ⟨hfirst, List.all_eq_true.mpr fun d hd => ?_⟩
    exact hall d (List.mem_cons_of_mem _ hd)

theorem word_name {t : Ty} (h : t.isData = true) : Token.word t.name = .name t.name := by
  rcases isData_cases h with hplain | ⟨ts, rfl, -⟩
  · exact (plain_name_facts hplain).2.2.1
  · have hnone : Keyword.ofSpelling? (tuple ts).name = none := by
      refine List.find?_eq_none.mpr fun k _ hk => ?_
      have hstart : startsTuple k.spelling.toList = false := by cases k <;> rfl
      exact name_tuple_ne ts hstart (of_decide_eq_true hk).symm
    rw [Token.word, hnone]

theorem isQualifier_name {t : Ty} (h : t.isData = true) :
    Code.Scope.isQualifier (.name t.name) = false := by
  rcases isData_cases h with hplain | ⟨ts, rfl, -⟩
  · exact (plain_name_facts hplain).2.2.2.1
  · refine Code.Scope.isQualifier_of_notMem fun hmem => ?_
    have hstart : ∀ w ∈ Code.Scope.qualifierWords, startsTuple w.toList = false := by decide
    exact name_tuple_ne ts (hstart _ hmem) rfl

theorem isTypeWord_name {s : Code.Scope} {t : Ty} (h : t.isData = true)
    (hs : t.isPlain = true ∨ t.name ∈ s.typedefs) : Code.Scope.IsTypeWord s t.name := by
  refine ⟨?_, isQualifier_name h, ?_⟩
  · rw [Code.Scope.isTypeWord, Bool.or_eq_true]
    rcases hs with hplain | hmem
    · refine .inl ?_
      rw [isTypeName, parse?_name hplain]
      simp
    · exact .inr (List.contains_iff_mem.mpr hmem)
  · rcases isData_cases h with hplain | ⟨ts, rfl, -⟩
    · exact (plain_name_facts hplain).2.2.2.2
    · exact name_tuple_ne ts rfl

end Ty
end KernelForge
