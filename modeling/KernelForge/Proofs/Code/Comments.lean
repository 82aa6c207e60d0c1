/-
What comments mean.

A source is parsed as if the text of a comment were not there, but for two things.  Pragmas in the lines
between the marks of the comment count as others do.  And there is something wrong with the source when
one of these lines is another directive, when a character in the comment may not stand in a source, or
when the comment says that it comes from a place that cannot be.
-/
import KernelForge.Code.Parse
import KernelForge.Proofs.Token.Comments

namespace KernelForge.TokenStream

open Token

/-- When nothing is objected to in a source. -/
theorem diagnostics_eq_nil {file : String} {t : SourceText} : (ofText file t).diagnostics = [] ↔
    (stripDirectives t).refused = [] ∧ isWide (stripDirectives t).text = false ∧
      ∀ a ∈ (scanText (stripDirectives t).text).complaints, a.error.isIgnored = true := by
  unfold ofText
  dsimp only
  cases hwide : isWide (stripDirectives t).text with
  | true =>
    have hmark : ScanError.isIgnored .wideEncoding = false := isIgnored_wideEncoding
    simp [refuseWide, hmark]
  | false =>
    simp only [Bool.false_eq_true, if_false, List.append_eq_nil_iff, List.map_eq_nil_iff,
      List.filter_eq_nil_iff, true_and]
    refine and_congr_right fun _ => forall₂_congr fun a _ => ?_
    cases a.error.isIgnored <;> simp

end KernelForge.TokenStream

namespace KernelForge.Code

open Token

theorem File.parse_eq_ok {file : String} {t : SourceText} {f : File} : File.parse file t = .ok f ↔
    (TokenStream.ofText file t).diagnostics = [] ∧ ∃ g,
      Scope.file { finish := (TokenStream.ofText file t).finish } (TokenStream.ofText file t).lexemes =
        .ok g ∧
        f = { g with pragmas := (stripDirectives t).pragmas } := by
  have hpragmas : (TokenStream.ofText file t).pragmas = (stripDirectives t).pragmas := rfl
  rw [File.parse, File.ofStream, hpragmas]
  cases hd : (TokenStream.ofText file t).diagnostics with
  | cons d ds => simp
  | nil =>
    simp only [List.isEmpty_nil, Bool.not_true, Bool.false_eq_true, if_false, true_and]
    cases Scope.file { finish := (TokenStream.ofText file t).finish } (TokenStream.ofText file t).lexemes with
    | error e => simp
    | ok g => simp [eq_comm]

variable {t : SourceText} (c : BlockComment t)

theorem diagnostics_blank (file : String) : (TokenStream.ofText file t).diagnostics = [] ↔
    c.Quiet ∧ (TokenStream.ofText file c.blank).diagnostics = [] := by
  rw [TokenStream.diagnostics_eq_nil, TokenStream.diagnostics_eq_nil]
  have hwide : isWide (stripDirectives t).text = isWide (stripDirectives c.blank).text := by
    rw [c.stripDirectives_eq, c.stripDirectives_blank]
    exact isWide_slash _ _ _
  have hcomplaints := c.scanText_blank.2.2
  have hrefused : (stripDirectives t).refused = [] ↔
      c.inner.refused = [] ∧ (stripDirectives c.blank).refused = [] := by
    rw [c.stripDirectives_eq, c.stripDirectives_blank]
    simp only [List.append_eq_nil_iff]
    tauto
  rw [hwide, hrefused, BlockComment.Quiet]
  simp only [hcomplaints, or_imp, forall_and]
  tauto

/-- What is parsed of a source is parsed without the comment's text, the pragmas in it apart. -/
theorem parse_blank (file : String) (f : File) : File.parse file t = .ok f ↔
    c.Quiet ∧ ∃ g : File,
      File.parse file c.blank = .ok { g with pragmas := c.front.pragmas ++ c.back.pragmas } ∧
        f = { g with pragmas := c.front.pragmas ++ (c.inner.pragmas ++ c.back.pragmas) } := by
  obtain ⟨hlexemes, hfinish, -⟩ := c.scanText_blank
  have hsame : (TokenStream.ofText file t).diagnostics = [] →
      (TokenStream.ofText file t).lexemes = (TokenStream.ofText file c.blank).lexemes ∧
        (TokenStream.ofText file t).finish = (TokenStream.ofText file c.blank).finish := by
    intro h
    obtain ⟨-, hl, hf⟩ := TokenStream.of_no_diagnostics h
    obtain ⟨-, hl', hf'⟩ := TokenStream.of_no_diagnostics ((diagnostics_blank c file).mp h).2
    exact ⟨by rw [hl, hl', hlexemes], by rw [hf, hf', hfinish]⟩
  have hpragmas : (stripDirectives t).pragmas = c.front.pragmas ++ (c.inner.pragmas ++ c.back.pragmas) := by
    rw [c.stripDirectives_eq]
  have hpragmasBlank : (stripDirectives c.blank).pragmas = c.front.pragmas ++ c.back.pragmas := by
    rw [c.stripDirectives_blank]
  simp only [File.parse_eq_ok, hpragmas, hpragmasBlank]
  constructor
  · rintro ⟨hnone, g, hg, rfl⟩
    obtain ⟨hquiet, hblank⟩ := (diagnostics_blank c file).mp hnone
    rw [(hsame hnone).1, (hsame hnone).2] at hg
    exact ⟨hquiet, g, ⟨hblank, g, hg, rfl⟩, rfl⟩
  · rintro ⟨hquiet, g, ⟨hblank, g', hg', heq⟩, rfl⟩
    have hnone := (diagnostics_blank c file).mpr ⟨hquiet, hblank⟩
    rw [← (hsame hnone).1, ← (hsame hnone).2] at hg'
    refine ⟨hnone, g', hg', ?_⟩
    injection heq with _ htypedefs hfuncs
    rw [htypedefs, hfuncs]

/-- A file with the pragmas that stand in a comment. -/
def reveal (f : File) : File :=
  { f with pragmas := f.pragmas.filter (fun d => d.offset < c.before.size) ++
      (c.inner.pragmas ++ f.pragmas.filter fun d => c.before.size ≤ d.offset) }

/-- The pragmas of the source stand before the comment, in it and after it. -/
theorem reveal_of_parse {file : String} {g : File} (h : File.parse file c.blank = .ok g) :
    g.pragmas = c.front.pragmas ++ c.back.pragmas ∧
      reveal c g = { g with pragmas := c.front.pragmas ++ (c.inner.pragmas ++ c.back.pragmas) } := by
  have hpragmas : g.pragmas = c.front.pragmas ++ c.back.pragmas := by
    obtain ⟨-, g', -, rfl⟩ := File.parse_eq_ok.mp h
    rw [c.stripDirectives_blank]
  have hfront : ∀ d ∈ c.front.pragmas, d.offset < c.before.size := fun d hd => c.offset_front hd
  have hback : ∀ d ∈ c.back.pragmas, c.before.size ≤ d.offset := fun d hd => c.offset_back hd
  have hbefore : g.pragmas.filter (fun d => decide (d.offset < c.before.size)) = c.front.pragmas := by
    rw [hpragmas, List.filter_append, List.filter_eq_self.mpr fun d hd => decide_eq_true (hfront d hd),
      List.filter_eq_nil_iff.mpr fun d hd => by rw [decide_eq_true_eq, not_lt]; exact hback d hd,
      List.append_nil]
  have hafter : g.pragmas.filter (fun d => decide (c.before.size ≤ d.offset)) = c.back.pragmas := by
    rw [hpragmas, List.filter_append,
      List.filter_eq_nil_iff.mpr fun d hd => by rw [decide_eq_true_eq, not_le]; exact hfront d hd,
      List.filter_eq_self.mpr fun d hd => decide_eq_true (hback d hd), List.nil_append]
  refine ⟨hpragmas, ?_⟩
  simp only [reveal, hbefore, hafter]

/-- **What comments mean.**  A source is parsed as if the text of a comment were not there, but for the
directives in the lines between its marks: the pragmas among them count, and others are objected to, as
are characters that no source may hold and places that cannot be.  So a comment means nothing exactly
when there are none of these in it, unless there is something wrong with the rest of the source. -/
theorem comments_mean_their_directives (file : String) :
    (∀ f, File.parse file t = .ok f ↔
        c.Quiet ∧ ∃ g, File.parse file c.blank = .ok g ∧ f = reveal c g) ∧
      ((∀ f, File.parse file t = .ok f ↔ File.parse file c.blank = .ok f) ↔
        ((∀ l ∈ linesOf (innerLines c.body), ¬ IsDirective l) ∧
          ∀ a ∈ c.complaints, a.error.isIgnored = true) ∨
          ∀ f, File.parse file c.blank ≠ .ok f) := by
  have hparse : ∀ f, File.parse file t = .ok f ↔
      c.Quiet ∧ ∃ g, File.parse file c.blank = .ok g ∧ f = reveal c g := by
    intro f
    rw [parse_blank c file f]
    refine and_congr_right fun _ => ⟨?_, ?_⟩
    · rintro ⟨g, hg, rfl⟩
      exact ⟨_, hg, (reveal_of_parse c hg).2.symm⟩
    · rintro ⟨g, hg, rfl⟩
      obtain ⟨hpragmas, hreveal⟩ := reveal_of_parse c hg
      refine ⟨g, ?_, hreveal⟩
      rw [hg, ← hpragmas]
  have hinner : (∀ l ∈ linesOf (innerLines c.body), ¬ IsDirective l) ↔
      c.inner.pragmas = [] ∧ c.inner.refused = [] := no_directives_iff
  refine ⟨hparse, ?_⟩
  rw [hinner]
  constructor
  · intro h
    by_cases hblank : ∃ f, File.parse file c.blank = .ok f
    · obtain ⟨f, hf⟩ := hblank
      obtain ⟨hquiet, g, hg, hfg⟩ := (hparse f).mp ((h f).mpr hf)
      obtain ⟨hpragmas, hreveal⟩ := reveal_of_parse c hg
      obtain rfl : f = g := by
        rw [hf] at hg
        exact Except.ok.inj hg
      have hsame := congrArg File.pragmas (hfg.trans hreveal)
      rw [hpragmas] at hsame
      have hnone : c.inner.pragmas = [] := by simpa using List.append_cancel_left hsame
      exact .inl ⟨⟨hnone, hquiet.1⟩, hquiet.2⟩
    · exact .inr (not_exists.mp hblank)
  · rintro (⟨⟨hnone, hrefused⟩, hquiet⟩ | hblank)
    · have hreveal : ∀ g, File.parse file c.blank = .ok g → reveal c g = g := by
        intro g hg
        obtain ⟨hpragmas, hreveal⟩ := reveal_of_parse c hg
        rw [hreveal, hnone, List.nil_append, ← hpragmas]
      intro f
      rw [hparse f]
      constructor
      · rintro ⟨-, g, hg, rfl⟩
        rw [hreveal g hg, hg]
      · exact fun hf => ⟨⟨hrefused, hquiet⟩, f, hf, (hreveal f hf).symm⟩
    · intro f
      rw [hparse f]
      constructor
      · rintro ⟨-, g, hg, -⟩
        exact absurd hg (hblank g)
      · exact fun hf => absurd hf (hblank f)

/-- A comment of three lines with a pragma in it. -/
def pragmaComment : BlockComment
    (SourceText.ofChars ['/', '*', '\n', '#', 'p', 'r', 'a', 'g', 'm', 'a', '\n', '*', '/']) where
  before := []
  body := SourceText.ofChars ['\n', '#', 'p', 'r', 'a', 'g', 'm', 'a', '\n']
  after := []
  split := rfl
  first := by decide
  opens := by decide
  closes := by decide
  reached := ⟨0, _, .here _ _ _⟩

/-- The pragma counts. -/
theorem commented_pragma_counts :
    File.parse "" pragmaComment.blank = .ok {} ∧
      File.parse "" (SourceText.ofChars ['/', '*', '\n', '#', 'p', 'r', 'a', 'g', 'm', 'a', '\n', '*', '/']) =
        .ok { pragmas := [⟨3, SourceText.ofChars ['#', 'p', 'r', 'a', 'g', 'm', 'a']⟩] } := by
  have hscan : scanText (stripDirectives pragmaComment.blank).text = { finish := 13 } := by
    have htext : (stripDirectives pragmaComment.blank).text =
        .char '/' :: .char '*' :: (blanked pragmaComment.body ++ Glyph.char '*' :: .char '/' :: []) := by decide
    have hstart : ∀ x : SourceText, unmarked (.char '/' :: x) = (0, .char '/' :: x) := fun _ => rfl
    have hread : readComplaints 0 (.char '/' :: .char '*' :: (blanked pragmaComment.body ++
        Glyph.char '*' :: .char '/' :: [])) = [] := by decide
    have hsize : (blanked pragmaComment.body).size = 9 := by decide
    rw [htext, scanText_eq, hstart]
    dsimp only
    rw [scanFrom_comment (isHidden_blanked _).first, (isHidden_blanked _).placement, scanFrom, hread, hsize]
    simp [Scanned.followedBy, joinSuffixes]
  have hnone : (TokenStream.ofText "" pragmaComment.blank).diagnostics = [] := by
    refine TokenStream.diagnostics_eq_nil.mpr ⟨by decide, by decide, ?_⟩
    rw [hscan]
    intro a ha
    cases ha
  have hblank : File.parse "" pragmaComment.blank = .ok {} := by
    obtain ⟨-, hlexemes, hfinish⟩ := TokenStream.of_no_diagnostics hnone
    refine File.parse_eq_ok.mpr ⟨hnone, {}, ?_, ?_⟩
    · rw [hlexemes, hfinish, hscan, Scope.file]
    · rfl
  have hquiet : pragmaComment.Quiet := by
    refine ⟨by decide, ?_⟩
    have hnone : pragmaComment.complaints = [] := by decide
    rw [hnone]
    intro a ha
    cases ha
  exact ⟨hblank, ((comments_mean_their_directives pragmaComment "").1 _).mpr ⟨hquiet, {}, hblank, rfl⟩⟩

end KernelForge.Code
