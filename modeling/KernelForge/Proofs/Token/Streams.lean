/-
Sources that scan to known tokens.

A source without a hash has no directives, so it is scanned as it stands.  A pragma on a line of
its own before such a source is noted and blanked.
-/
import KernelForge.Proofs.Token.Scanning

namespace KernelForge.Token

/-! ### Lines -/

theorem flatten_linesOf (t : SourceText) : (linesOf t).flatten = t := by
  induction t with
  | nil => rfl
  | cons g rest ih =>
    rw [linesOf]
    split
    · rw [List.flatten_cons, ih]
      rfl
    · split
      · rename_i h
        rw [h] at ih
        rw [← ih]
        rfl
      · rename_i l ls h
        rw [h] at ih
        rw [← ih]
        rfl

/-- A line ends at its newline. -/
theorem linesOf_line {line : SourceText} (h : ∀ g ∈ line, g ≠ .char '\n') (rest : SourceText) :
    linesOf (line ++ .char '\n' :: rest) = (line ++ [.char '\n']) :: linesOf rest := by
  induction line with
  | nil => simp [linesOf]
  | cons g line ih =>
    have hg := h g List.mem_cons_self
    have hline := ih fun d hd => h d (List.mem_cons_of_mem _ hd)
    rw [List.cons_append, linesOf, if_neg hg, hline]
    rfl

/-- A text that is over or ends with a newline. -/
def EndsLine (t : SourceText) : Prop := ∀ g, t.getLast? = some g → g = .char '\n'

/-- The lines after the end of a line are lines of their own. -/
theorem linesOf_append {s : SourceText} (hs : EndsLine s) (t : SourceText) :
    linesOf (s ++ t) = linesOf s ++ linesOf t := by
  induction s with
  | nil => rfl
  | cons g s ih =>
    by_cases hg : g = .char '\n'
    · have hrest : EndsLine s := fun d hd => hs d (by rw [List.getLast?_cons, hd]; rfl)
      rw [List.cons_append, linesOf, linesOf, if_pos hg, if_pos hg, ih hrest, List.cons_append]
    · cases s with
      | nil => exact absurd (hs g rfl) hg
      | cons d s =>
        have hrest : EndsLine (d :: s) := fun e he => hs e (by rw [List.getLast?_cons, he]; rfl)
        obtain ⟨l, ls, hls⟩ : ∃ l ls, linesOf (d :: s) = l :: ls := by
          rw [linesOf]
          split
          · exact ⟨_, _, rfl⟩
          · split <;> exact ⟨_, _, rfl⟩
        rw [List.cons_append, linesOf, linesOf, if_neg hg, if_neg hg, ih hrest, hls]
        rfl

theorem exists_linesOf_cons {g : Glyph} (hg : g ≠ .char '\n') (t : SourceText) :
    ∃ l ls, linesOf (g :: t) = (g :: l) :: ls := by
  rw [linesOf, if_neg hg]
  split
  · exact ⟨_, _, rfl⟩
  · exact ⟨_, _, rfl⟩

/-- What stands before a line without a newline is part of it. -/
theorem linesOf_open {z t l : SourceText} {ls : List SourceText} (hz : .char '\n' ∉ z)
    (h : linesOf t = l :: ls) : linesOf (z ++ t) = (z ++ l) :: ls := by
  induction z with
  | nil => exact h
  | cons g z ih =>
    rw [List.cons_append, linesOf, if_neg (Ne.symm (List.ne_of_not_mem_cons hz)),
      ih (List.not_mem_of_not_mem_cons hz)]
    rfl

/-! ### Directives -/

/-- The first visible character of a line is a hash. -/
def IsDirective (line : SourceText) : Prop :=
  (line.dropWhile (·.sat Text.isBlank)).head? = some (.char '#')

instance (line : SourceText) : Decidable (IsDirective line) :=
  inferInstanceAs (Decidable ((line.dropWhile (·.sat Text.isBlank)).head? = some (.char '#')))

theorem head?_trimmed (line : SourceText) :
    line.trimmed.head? = (line.dropWhile (·.sat Text.isBlank)).head? := by
  unfold SourceText.trimmed
  dsimp only
  cases hd : line.dropWhile (Glyph.sat Text.isBlank) with
  | nil => rfl
  | cons g rest =>
    have hg : Glyph.sat Text.isBlank g = false := by
      have := List.head?_dropWhile_not (Glyph.sat Text.isBlank) line
      rw [hd] at this
      simpa using this
    rw [List.reverse_cons, List.dropWhile_append]
    split
    · simp [hg]
    · simp

theorem isDirective_iff {line : SourceText} :
    IsDirective line ↔ line.trimmed.head? = some (.char '#') := by
  rw [head?_trimmed]
  rfl

/-- A line without a hash is no directive. -/
theorem not_isDirective {line : SourceText} (h : .char '#' ∉ line) : ¬ IsDirective line := by
  intro hline
  exact h (List.dropWhile_subset _ (List.mem_of_mem_head? hline))

/-- Whether a line is a directive is said by what stands in it first. -/
theorem isDirective_append {line : SourceText} (hline : ¬ IsDirective line) (z : SourceText) :
    IsDirective (z ++ line) ↔ IsDirective z := by
  unfold IsDirective at hline ⊢
  rw [List.dropWhile_append]
  cases z.dropWhile (Glyph.sat Text.isBlank) with
  | nil => exact ⟨fun h => absurd h hline, nofun⟩
  | cons g rest => rfl

theorem not_isDirective_cons {g : Glyph} (hblank : g.sat Text.isBlank = false) (hhash : g ≠ .char '#')
    (t : SourceText) : ¬ IsDirective (g :: t) := by
  rw [IsDirective, List.dropWhile_cons, if_neg (by simp [hblank]), List.head?_cons]
  simpa using hhash

/-- What is left of a line: spaces in place of a directive. -/
def masked (line : SourceText) : SourceText := if IsDirective line then blanked line else line

/-- What is left of some lines and of those that follow. -/
def Stripped.followedBy (s s' : Stripped) : Stripped where
  text := s.text ++ s'.text
  pragmas := s.pragmas ++ s'.pragmas
  refused := s.refused ++ s'.refused

/-- The lines are read one by one. -/
theorem stripLines_append (offset : Nat) (ls ms : List SourceText) :
    stripLines offset (ls ++ ms) =
      (stripLines offset ls).followedBy (stripLines (offset + SourceText.size ls.flatten) ms) := by
  unfold Stripped.followedBy
  induction ls generalizing offset with
  | nil => rfl
  | cons l ls ih =>
    have hsize : offset + SourceText.size (l :: ls).flatten =
        offset + l.size + SourceText.size ls.flatten := by
      rw [List.flatten_cons, SourceText.size_append, Nat.add_assoc]
    rw [List.cons_append, stripLines, stripLines, ih, hsize]
    dsimp only
    split
    · split <;> simp
    · simp

theorem stripLines_of_plain {lines : List SourceText} (h : ∀ l ∈ lines, ¬ IsDirective l)
    (offset : Nat) : stripLines offset lines = { text := lines.flatten } := by
  induction lines generalizing offset with
  | nil => rfl
  | cons line lines ih =>
    have hline := h line List.mem_cons_self
    rw [stripLines, ih fun l hl => h l (List.mem_cons_of_mem _ hl)]
    dsimp only
    split
    · rename_i rest heq
      exact absurd (isDirective_iff.mpr (by rw [heq]; rfl)) hline
    · rw [List.flatten_cons]

theorem stripLines_plain {line : SourceText} (hline : ¬ IsDirective line) (offset : Nat)
    (ls : List SourceText) :
    stripLines offset (line :: ls) =
      Stripped.followedBy { text := line } (stripLines (offset + line.size) ls) := by
  have hone : stripLines offset [line] = { text := line } := by
    rw [stripLines_of_plain (List.forall_mem_singleton.mpr hline), List.flatten_singleton]
  have h := stripLines_append offset [line] ls
  rwa [hone, List.flatten_singleton] at h

/-- Some lines hold no directives. -/
theorem no_directives_iff {offset : Nat} {ls : List SourceText} :
    (∀ l ∈ ls, ¬ IsDirective l) ↔
      (stripLines offset ls).pragmas = [] ∧ (stripLines offset ls).refused = [] := by
  constructor
  · intro h
    rw [stripLines_of_plain h]
    exact ⟨rfl, rfl⟩
  · induction ls generalizing offset with
    | nil => exact fun _ => nofun
    | cons line ls ih =>
      by_cases hline : IsDirective line
      · intro h
        rw [isDirective_iff, List.head?_eq_some_iff] at hline
        obtain ⟨rest, hrest⟩ := hline
        rw [stripLines, hrest] at h
        dsimp only at h
        by_cases hpragma : directiveWord (.char '#' :: rest) = SourceText.ofString "pragma"
        · rw [if_pos hpragma] at h
          exact absurd h.1 (List.cons_ne_nil _ _)
        · rw [if_neg hpragma] at h
          exact absurd h.2 (List.cons_ne_nil _ _)
      · rw [stripLines_plain hline]
        exact fun h => List.forall_mem_cons.mpr ⟨hline, ih h⟩

/-- The start of a line that is no directive is left as it is. -/
theorem stripLines_open {offset : Nat} {z t l : SourceText} {ls : List SourceText} (hz : .char '\n' ∉ z)
    (hopen : ¬ IsDirective z) (hlines : linesOf t = l :: ls)
    (hline : ¬ IsDirective l) : stripLines offset (linesOf (z ++ t)) =
      Stripped.followedBy { text := z } (stripLines (offset + z.size) (linesOf t)) := by
  rw [linesOf_open hz hlines, hlines, stripLines_plain hline,
    stripLines_plain (by rwa [isDirective_append hline]), SourceText.size_append, Nat.add_assoc]
  simp [Stripped.followedBy]

theorem text_stripLines (lines : List SourceText) (offset : Nat) :
    (stripLines offset lines).text = lines.flatMap masked := by
  induction lines generalizing offset with
  | nil => rfl
  | cons line lines ih =>
    rw [stripLines, List.flatMap_cons, masked, ← ih (offset + line.size)]
    dsimp only
    split
    · rename_i rest heq
      have hline : IsDirective line := isDirective_iff.mpr (by rw [heq]; rfl)
      rw [if_pos hline]
      split <;> rfl
    · rename_i hne
      have hline : ¬ IsDirective line := fun hline => by
        obtain ⟨rest, hrest⟩ := List.head?_eq_some_iff.mp (isDirective_iff.mp hline)
        exact hne rest hrest
      rw [if_neg hline]

theorem stripLines_linesOf {t : SourceText} (h : .char '#' ∉ t) (offset : Nat) :
    stripLines offset (linesOf t) = { text := t } := by
  have hlines : ∀ l ∈ linesOf t, ¬ IsDirective l := by
    intro l hl
    refine not_isDirective fun hmem => h ?_
    rw [← flatten_linesOf t]
    exact List.mem_flatten.mpr ⟨l, hl, hmem⟩
  rw [stripLines_of_plain hlines, flatten_linesOf]

/-! ### Streams -/

theorem no_hash_of_readable {cs : List Char} (h : ∀ c ∈ cs, Readable c) :
    .char '#' ∉ SourceText.ofChars cs := by
  intro hmem
  obtain ⟨c, hc, heq⟩ := List.mem_map.mp hmem
  cases heq
  exact (h _ hc).hash rfl

theorem readComplaints_of_readable {cs : List Char} (h : ∀ c ∈ cs, Readable c) (offset : Nat) :
    readComplaints offset (SourceText.ofChars cs) = [] := by
  induction cs generalizing offset with
  | nil => rfl
  | cons c cs ih =>
    have hc := h c List.mem_cons_self
    have hcs := ih fun d hd => h d (List.mem_cons_of_mem _ hd)
    have hnone : readError? offset (.char c) = none := by
      rw [readError?, if_neg hc.nul]
      simp [hc.mark]
    simp only [SourceText.ofChars, List.map_cons, readComplaints] at hcs ⊢
    rw [hnone, hcs]
    rfl

/-- A text with known tokens is read without complaints. -/
theorem scanText_of_scans {cs : List Char} {ts : List Token} (h : Scans cs ts) :
    (scanText (SourceText.ofChars cs)).lexemes.map Lexeme.token = ts ∧
      (scanText (SourceText.ofChars cs)).complaints = [] ∧
        (scanText (SourceText.ofChars cs)).redirects = [] := by
  have hscan := h.at_ 0 0
  have hread := readComplaints_of_readable h.readable 0
  have hsame : scanText (SourceText.ofChars cs) =
      let scanned := scanFrom 0 0 (SourceText.ofChars cs)
      { scanned with
        lexemes := joinSuffixes scanned.lexemes
        complaints := ((readComplaints 0 (SourceText.ofChars cs) ++ scanned.complaints).mergeSort
          fun a b => a.raisedAt ≤ b.raisedAt)
        redirects := scanned.redirects.filter fun r => r.offset < scanned.finish } := by
    cases cs with
    | nil => rfl
    | cons c cs =>
      have hc := (h.readable c List.mem_cons_self).mark
      simp only [SourceText.ofChars, List.map_cons, scanText, if_neg hc]
  rw [hsame]
  refine ⟨hscan.tokens, ?_, ?_⟩
  · simp only [hread, hscan.complaints, List.nil_append, List.mergeSort_nil]
  · simp only [hscan.redirects, List.filter_nil]

theorem isWide_ofChars (cs : List Char) : isWide (SourceText.ofChars cs) = false := by
  cases cs <;> rfl

/-! ### Blanked lines -/

theorem Scans.blanks (bs : List Char) {cs : List Char} {ts : List Token}
    (hbs : ∀ c ∈ bs, c = ' ' ∨ c = '\n')
    (h : Scans cs ts) : Scans (bs ++ cs) ts := by
  induction bs with
  | nil => exact h
  | cons c bs ih =>
    exact (ih fun d hd => hbs d (List.mem_cons_of_mem _ hd)).blank (hbs c List.mem_cons_self)

theorem blanked_ofChars (cs : List Char) :
    ∃ bs, blanked (SourceText.ofChars cs) = SourceText.ofChars bs ∧ ∀ c ∈ bs, c = ' ' ∨ c = '\n' := by
  induction cs with
  | nil => exact ⟨[], rfl, nofun⟩
  | cons c cs ih =>
    obtain ⟨bs, hbs, hblank⟩ := ih
    have hcons : blanked (SourceText.ofChars (c :: cs)) =
        (if Glyph.char c = .char '\n' then [Glyph.char c] else
          List.replicate (Glyph.char c).size (.char ' ')) ++ blanked (SourceText.ofChars cs) := rfl
    by_cases hc : c = '\n'
    · subst hc
      refine ⟨'\n' :: bs, by rw [hcons, hbs]; rfl, List.forall_mem_cons.mpr ⟨.inr rfl, hblank⟩⟩
    · refine ⟨List.replicate (Glyph.char c).size ' ' ++ bs, ?_, ?_⟩
      · rw [hcons, hbs, if_neg (by simpa using hc), ofChars_append]
        simp [SourceText.ofChars]
      · refine List.forall_mem_append.mpr ⟨fun d hd => .inl ?_, hblank⟩
        exact List.eq_of_mem_replicate hd

end KernelForge.Token

namespace KernelForge.TokenStream

open Token

theorem ofText_of_scans {cs : List Char} {ts : List Token} (h : Scans cs ts) (file : String) :
    (ofText file (SourceText.ofChars cs)).lexemes.map Lexeme.token = ts ∧
      (ofText file (SourceText.ofChars cs)).pragmas = [] ∧
        (ofText file (SourceText.ofChars cs)).diagnostics = [] := by
  obtain ⟨htokens, hcomplaints, -⟩ := scanText_of_scans h
  have hstrip := stripLines_linesOf (no_hash_of_readable h.readable) 0
  unfold ofText stripDirectives
  simp only [hstrip, isWide_ofChars, Bool.false_eq_true, if_false]
  exact ⟨htokens, trivial, by simp [hcomplaints]⟩

/-- A line that is a pragma. -/
structure IsPragma (line : List Char) : Prop where
  hash : line.head? = some '#'
  word : directiveWord (SourceText.ofChars line) = SourceText.ofString "pragma"
  single : '\n' ∉ line
  trimmed : SourceText.trimmed (SourceText.ofChars (line ++ ['\n'])) = SourceText.ofChars line

/-- A pragma is blanked. -/
theorem stripDirectives_of_pragma {line cs : List Char} (hline : IsPragma line)
    (hcs : .char '#' ∉ SourceText.ofChars cs) :
    stripDirectives (SourceText.ofChars (line ++ '\n' :: cs)) =
      { text := blanked (SourceText.ofChars (line ++ ['\n'])) ++ SourceText.ofChars cs
        pragmas := [⟨0, SourceText.ofChars line⟩] } := by
  have hsingle : ∀ g ∈ SourceText.ofChars line, g ≠ .char '\n' := by
    intro g hg heq
    obtain ⟨c, hc, rfl⟩ := List.mem_map.mp hg
    cases heq
    exact hline.single hc
  have hlines : linesOf (SourceText.ofChars (line ++ '\n' :: cs)) =
      SourceText.ofChars (line ++ ['\n']) :: linesOf (SourceText.ofChars cs) := by
    rw [ofChars_append, ofChars_append]
    exact linesOf_line hsingle _
  obtain ⟨tail, hhash⟩ : ∃ tail, line = '#' :: tail := by
    cases line with
    | nil => cases hline.hash
    | cons c tail => cases hline.hash; exact ⟨tail, rfl⟩
  have htrimmed : SourceText.trimmed (SourceText.ofChars (line ++ ['\n'])) =
      .char '#' :: SourceText.ofChars tail := by
    rw [hline.trimmed, hhash]
    rfl
  have hword := hline.word
  subst hhash
  have hcons : SourceText.ofChars ('#' :: tail) = .char '#' :: SourceText.ofChars tail := rfl
  rw [hcons] at hword
  rw [stripDirectives, hlines, stripLines, stripLines_linesOf hcs]
  simp only [htrimmed, hword, if_true]
  simp [SourceText.ofChars, SourceText.size]

/-- A pragma before a text with known tokens is noted. -/
theorem ofText_of_pragma {line cs : List Char} {ts : List Token} (hline : IsPragma line)
    (h : Scans cs ts) (file : String) :
    (ofText file (SourceText.ofChars (line ++ '\n' :: cs))).lexemes.map Lexeme.token = ts ∧
      (ofText file (SourceText.ofChars (line ++ '\n' :: cs))).pragmas =
        [⟨0, SourceText.ofChars line⟩] ∧
        (ofText file (SourceText.ofChars (line ++ '\n' :: cs))).diagnostics = [] := by
  obtain ⟨bs, hbs, hblank⟩ := blanked_ofChars (line ++ ['\n'])
  have hscans : Scans (bs ++ cs) ts := h.blanks _ hblank
  obtain ⟨htokens, hcomplaints, -⟩ := scanText_of_scans hscans
  have hstrip := stripDirectives_of_pragma hline (no_hash_of_readable h.readable)
  rw [hbs, ← ofChars_append] at hstrip
  unfold ofText
  simp only [hstrip, isWide_ofChars, Bool.false_eq_true, if_false]
  exact ⟨htokens, trivial, by simp [hcomplaints]⟩

end KernelForge.TokenStream
