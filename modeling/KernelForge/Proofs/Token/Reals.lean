/-
Real numbers in source text.

A decimal number with a fraction or an exponent is one token, and an `f` right after it belongs to it.
-/
import KernelForge.Proofs.Token.Scanning

namespace KernelForge.Token

/-! ### Figures -/

/-- The figures of a decimal number: the digits before and after the point, and the exponent with its
sign. -/
structure Figures where
  whole : List Char
  fraction : List Char
  exponent? : Option (Bool × List Char)

namespace Figures

/-- The point and the digits after it. -/
def point (p : Figures) : List Char :=
  match p.fraction with
  | [] => []
  | c :: cs => '.' :: c :: cs

/-- The exponent with its letter. -/
def mark (p : Figures) : List Char :=
  match p.exponent? with
  | none => []
  | some (negative, ds) => 'e' :: (if negative then '-' else '+') :: ds

def chars (p : Figures) : List Char := p.whole ++ (p.point ++ p.mark)

/-- A number that is no whole one. -/
structure IsReal (p : Figures) : Prop where
  whole : IsNumeral p.whole
  fraction : ∀ c ∈ p.fraction, c.isDigit = true
  exponent : ∀ e ∈ p.exponent?, e.2 ≠ [] ∧ ∀ c ∈ e.2, c.isDigit = true
  real : p.fraction ≠ [] ∨ p.exponent?.isSome = true

end Figures

/-! ### Parts -/

/-- The digits at the start of a text whose next character is none. -/
theorem takeWhile_ends {r : Radix} {ds rest : List Char} (hds : ∀ c ∈ ds, c.isDigit = true)
    (hend : Ends (isDigitOf r) rest) :
    (ds ++ rest).takeWhile (isDigitOf r) = ds ∧ (ds ++ rest).dropWhile (isDigitOf r) = rest := by
  have hall : ∀ c ∈ ds, isDigitOf r c = true := by
    intro c hc
    rw [isDigitOf, isHexDigit, hds c hc]
    simp
  rw [List.takeWhile_append_of_pos hall, List.dropWhile_append_of_pos hall]
  cases rest with
  | nil => simp
  | cons d rest => simp [hend d rfl]

/-- The base that the first digits of a number announce, and how they are taken. -/
theorem exists_radix {whole : List Char} (hwhole : IsNumeral whole) {c : Char} (hc : c = '.' ∨ c = 'e')
    (cs : List Char) :
    ∃ radix lead digits, lead ++ digits = whole ∧
      (radix = .decimal ∧ digits ≠ [] ∨ radix = .zeroOctal) ∧
        radixOf (whole ++ c :: cs) = (radix, lead.length) ∧ ∀ d ∈ digits, d.isDigit = true := by
  obtain ⟨d, ds, rfl⟩ := List.exists_cons_of_ne_nil hwhole.ne_nil
  by_cases hd : d = '0'
  · subst hd
    cases hwhole.zero rfl
    refine ⟨.zeroOctal, ['0'], [], rfl, .inr rfl, ?_, by simp⟩
    rcases hc with rfl | rfl <;> simp [radixOf]
  · refine ⟨.decimal, [], d :: ds, rfl, .inl ⟨rfl, by simp⟩, ?_, hwhole.digits⟩
    unfold radixOf
    split <;> simp_all

/-- Takes the point and the digits after it. -/
def takeFraction (radix : Radix) (cs : List Char) : List Char × List Char × List Char :=
  let (point, cs) := match cs with
    | '.' :: cs => (['.'], cs)
    | cs => ([], cs)
  let fraction := if point.isEmpty then [] else cs.takeWhile (isDigitOf radix)
  (point, fraction, cs.drop fraction.length)

/-- Takes the letter and the sign of an exponent, and its digits. -/
def takeExponent (cs : List Char) : List Char × List Char × List Char :=
  let (mark, cs) := match cs with
    | c :: '+' :: cs' => if "eEpP".contains c then ([c, '+'], cs') else ([], cs)
    | c :: '-' :: cs' => if "eEpP".contains c then ([c, '-'], cs') else ([], cs)
    | c :: cs' => if "eEpP".contains c then ([c], cs') else ([], cs)
    | [] => ([], [])
  let exponent := if mark.isEmpty then [] else cs.takeWhile (isDigitOf .decimal)
  (mark, exponent, cs.drop exponent.length)

/-- The parts of a number are taken one after another. -/
theorem ofText_eq (cs : List Char) :
    NumberParts.ofText cs =
      let (radix, n) := radixOf cs
      let (point, fraction, cs₁) := takeFraction radix ((cs.drop n).dropWhile (isDigitOf radix))
      let (mark, exponent, cs₂) := takeExponent cs₁
      { radix, lead := cs.take n, whole := (cs.drop n).takeWhile (isDigitOf radix), point, fraction, mark,
        exponent, unit := match cs₂ with
          | 'i' :: _ => ['i']
          | _ => [] } := rfl

theorem takeFraction_append (radix : Radix) (cs : List Char) :
    (takeFraction radix cs).1 ++ ((takeFraction radix cs).2.1 ++ (takeFraction radix cs).2.2) = cs := by
  unfold takeFraction
  split
  rename_i point ds hpoint
  have hcs : point ++ ds = cs := by split at hpoint <;> cases hpoint <;> rfl
  rw [← hcs]
  refine congrArg (point ++ ·) ?_
  dsimp only
  split
  · rfl
  · exact List.prefix_iff_eq_append.mp (List.takeWhile_prefix _)

theorem takeExponent_append (cs : List Char) :
    (takeExponent cs).1 ++ ((takeExponent cs).2.1 ++ (takeExponent cs).2.2) = cs := by
  unfold takeExponent
  split
  rename_i mark ds hmark
  have hcs : mark ++ ds = cs := by
    split at hmark
    all_goals (try split at hmark)
    all_goals
      cases hmark
      rfl
  rw [← hcs]
  refine congrArg (mark ++ ·) ?_
  dsimp only
  split
  · rfl
  · exact List.prefix_iff_eq_append.mp (List.takeWhile_prefix _)

theorem prefix_chars_ofText (cs : List Char) : (NumberParts.ofText cs).chars <+: cs := by
  rw [ofText_eq]
  split
  rename_i radix n _
  have hfraction := takeFraction_append radix ((cs.drop n).dropWhile (isDigitOf radix))
  split
  rename_i point fraction cs₁ h₁
  rw [h₁] at hfraction
  have hexponent := takeExponent_append cs₁
  split
  rename_i mark exponent cs₂ h₂
  rw [h₂] at hexponent
  dsimp only at hfraction hexponent
  have hcs : cs = cs.take n ++ ((cs.drop n).takeWhile (isDigitOf radix) ++
      (point ++ (fraction ++ (mark ++ (exponent ++ cs₂))))) := by
    rw [hexponent, hfraction, List.takeWhile_append_dropWhile, List.take_append_drop]
  simp only [NumberParts.chars]
  split
  · rename_i tail
    exact ⟨tail, by simpa only [List.append_assoc, List.singleton_append] using hcs.symm⟩
  · exact ⟨cs₂, by simpa only [List.append_assoc, List.nil_append] using hcs.symm⟩

/-- The letter that numbers of single precision end with, or none. -/
def IsRealSuffix (suffix : List Char) : Prop := suffix = [] ∨ suffix = ['f']

theorem IsRealSuffix.ends {suffix : List Char} (h : IsRealSuffix suffix) {r : Radix}
    (hr : r = .decimal ∨ r = .zeroOctal) : Ends (isDigitOf r) suffix := by
  rcases h with rfl | rfl
  · exact .nil
  · rcases hr with rfl | rfl <;> exact .cons (by decide) []

variable {p : Figures} {suffix : List Char}

theorem takeExponent_mark (hp : p.IsReal) (hsuffix : IsRealSuffix suffix) :
    takeExponent (p.mark ++ suffix) = (p.mark.take 2, p.mark.drop 2, suffix) := by
  have hexponent := hp.exponent
  unfold Figures.mark
  cases he : p.exponent? with
  | none =>
    rcases hsuffix with rfl | rfl
    · rfl
    · simp [takeExponent]
  | some e =>
    obtain ⟨negative, ds⟩ := e
    obtain ⟨-, hds⟩ := hexponent _ he
    obtain ⟨htake, -⟩ := takeWhile_ends hds (hsuffix.ends (.inl rfl))
    cases negative <;> simp [takeExponent, htake]

theorem takeFraction_point (hp : p.IsReal) (hsuffix : IsRealSuffix suffix) {r : Radix}
    (hr : r = .decimal ∨ r = .zeroOctal) :
    takeFraction r (p.point ++ (p.mark ++ suffix)) = (p.point.take 1, p.fraction, p.mark ++ suffix) := by
  have hends : Ends (isDigitOf r) (p.mark ++ suffix) := by
    unfold Figures.mark
    cases p.exponent? with
    | none => exact hsuffix.ends hr
    | some e => rcases hr with rfl | rfl <;> exact .cons (by decide) _
  unfold Figures.point
  cases hf : p.fraction with
  | nil =>
    have hperiod : (p.mark ++ suffix).head? ≠ some '.' := by
      unfold Figures.mark
      rcases hsuffix with rfl | rfl <;> cases p.exponent? <;> simp
    unfold takeFraction
    split
    · rename_i heq
      split at heq
      · rename_i cs h
        rw [List.nil_append] at h
        rw [h] at hperiod
        exact absurd rfl hperiod
      · cases heq
        simp
  | cons c cs =>
    obtain ⟨htake, -⟩ := takeWhile_ends (hf ▸ hp.fraction) hends
    rw [List.cons_append] at htake
    simp [takeFraction, htake]

/-- **The parts of a real number are its figures.** -/
theorem ofText_figures (hp : p.IsReal) (hsuffix : IsRealSuffix suffix) :
    ∃ radix lead digits, lead ++ digits = p.whole ∧
      (radix = .decimal ∧ digits ≠ [] ∨ radix = .zeroOctal) ∧
      NumberParts.ofText (p.chars ++ suffix) =
        { radix, lead, whole := digits, point := p.point.take 1, fraction := p.fraction,
          mark := p.mark.take 2, exponent := p.mark.drop 2, unit := [] } := by
  obtain ⟨c, cs, hc, hcs⟩ : ∃ c cs, (c = '.' ∨ c = 'e') ∧ p.point ++ (p.mark ++ suffix) = c :: cs := by
    unfold Figures.point Figures.mark
    cases hf : p.fraction with
    | nil =>
      cases he : p.exponent? with
      | none =>
        have hreal := hp.real
        simp [hf, he] at hreal
      | some e => exact ⟨'e', _, .inr rfl, rfl⟩
    | cons c cs => exact ⟨'.', _, .inl rfl, rfl⟩
  obtain ⟨radix, lead, digits, hsplit, hr, hradix, hdigits⟩ := exists_radix hp.whole hc cs
  have htext : p.chars ++ suffix = lead ++ (digits ++ c :: cs) := by
    rw [Figures.chars, List.append_assoc, List.append_assoc, hcs, ← hsplit, List.append_assoc]
  have hends : Ends (isDigitOf radix) (c :: cs) := by
    rcases hr with ⟨rfl, -⟩ | rfl <;> rcases hc with rfl | rfl <;> exact .cons (by decide) cs
  obtain ⟨htake, hdrop⟩ := takeWhile_ends hdigits hends
  have hfraction := takeFraction_point hp hsuffix (hr.imp_left And.left)
  rw [hcs] at hfraction
  rw [← hsplit, List.append_assoc] at hradix
  refine ⟨radix, lead, digits, hsplit, hr, ?_⟩
  rw [ofText_eq, htext, hradix]
  simp only [List.drop_left, List.take_left, htake, hdrop, hfraction, takeExponent_mark hp hsuffix]
  rcases hsuffix with rfl | rfl <;> rfl

/-! ### Tokens -/

theorem chars_parts (p : Figures) :
    p.point.take 1 ++ p.fraction = p.point ∧ p.mark.take 2 ++ p.mark.drop 2 = p.mark := by
  refine ⟨?_, List.take_append_drop 2 _⟩
  unfold Figures.point
  cases p.fraction <;> rfl

theorem isFigure_of_mem {c : Char} (hc : c ∈ ['.', 'e', '+', '-', 'f']) : IsFigure c := by
  simp only [List.mem_cons, List.not_mem_nil, or_false] at hc
  rcases hc with rfl | rfl | rfl | rfl | rfl <;>
    exact ⟨by simp [NumberParts.isNumberChar], by decide, by decide, by decide, by decide⟩

/-- A number is written with digits and a few other characters. -/
theorem Figures.IsReal.figure (hp : p.IsReal) {c : Char} (hc : c ∈ p.chars) :
    c.isDigit = true ∨ c ∈ ['.', 'e', '+', '-', 'f'] := by
  rw [Figures.chars, List.mem_append, List.mem_append] at hc
  rcases hc with hc | hc | hc
  · exact .inl (hp.whole.digits c hc)
  · have hfraction := hp.fraction
    unfold Figures.point at hc
    cases hf : p.fraction with
    | nil => simp [hf] at hc
    | cons d ds =>
      rw [hf] at hc hfraction
      rcases List.mem_cons.mp hc with rfl | hc
      · simp
      · exact .inl (hfraction c hc)
  · have hexponent := hp.exponent
    unfold Figures.mark at hc
    cases he : p.exponent? with
    | none => simp [he] at hc
    | some e =>
      obtain ⟨negative, ds⟩ := e
      rw [he] at hc
      rcases List.mem_cons.mp hc with rfl | hc
      · simp
      · rcases List.mem_cons.mp hc with rfl | hc
        · cases negative <;> simp
        · exact .inl ((hexponent _ he).2 c hc)

theorem Figures.IsReal.isFigure (hp : p.IsReal) {c : Char} (hc : c ∈ p.chars) : IsFigure c :=
  (hp.figure hc).elim isFigure_of_isDigit isFigure_of_mem

theorem parts_figures (hp : p.IsReal) (hsuffix : IsRealSuffix suffix) (offset : Nat) :
    (NumberParts.ofText (p.chars ++ suffix)).chars = p.chars ∧
      (NumberParts.ofText (p.chars ++ suffix)).token = .float (String.ofList p.chars) ∧
        (NumberParts.ofText (p.chars ++ suffix)).complaints offset = [] := by
  obtain ⟨radix, lead, digits, hsplit, hr, hparts⟩ := ofText_figures hp hsuffix
  obtain ⟨hpoint, hmark⟩ := chars_parts p
  have hchars : (NumberParts.ofText (p.chars ++ suffix)).chars = p.chars := by
    rw [hparts, NumberParts.chars, List.append_nil, Figures.chars, ← hsplit, List.append_assoc _ (p.mark.take 2),
      hmark, List.append_assoc _ (p.point.take 1), hpoint, List.append_assoc, List.append_assoc]
  have hreal : ¬ (p.point.take 1 = [] ∧ p.mark.take 2 = []) := by
    have hreal := hp.real
    unfold Figures.point Figures.mark
    cases hf : p.fraction with
    | nil =>
      cases he : p.exponent? with
      | none => simp [hf, he] at hreal
      | some e => simp
    | cons c cs => simp
  have htoken : (NumberParts.ofText (p.chars ++ suffix)).token = .float (String.ofList p.chars) := by
    rw [NumberParts.token, hchars, hparts]
    simpa using hreal
  refine ⟨hchars, htoken, ?_⟩
  have hunderscore : p.chars.contains '_' = false := by
    rw [Bool.eq_false_iff]
    intro hmem
    rcases hp.figure (List.contains_iff_mem.mp hmem) with h | h
    · exact isDigit_ne_underscore h rfl
    · simp at h
  have hplaces : (!(p.point.take 1).isEmpty && (decide (radix = .octal) || decide (radix = .binary))) = false := by
    rcases hr with ⟨rfl, -⟩ | rfl <;> simp
  have hdigit : (decide (radix = .zeroOctal) || (digits ++ p.fraction).any (· ≠ '_')) = true := by
    rcases hr with ⟨rfl, hne⟩ | rfl
    · obtain ⟨d, ds, rfl⟩ := List.exists_cons_of_ne_nil hne
      have hd := hp.whole.digits d (by rw [← hsplit]; simp)
      simp [isDigit_ne_underscore hd]
    · rfl
  have hhex : (decide (radix = .hexadecimal) && !(p.point.take 1).isEmpty) = false := by
    rcases hr with ⟨rfl, -⟩ | rfl <;> rfl
  have hbase : (decide (radix = .decimal) || decide (radix = .zeroOctal)) = true := by
    rcases hr with ⟨rfl, -⟩ | rfl <;> rfl
  unfold NumberParts.complaints
  rw [htoken, hchars, hunderscore, hparts]
  simp only [hplaces, hdigit, Bool.false_eq_true, if_false, if_true, List.nil_append, List.append_nil]
  unfold Figures.mark
  cases he : p.exponent? with
  | none => simp only [List.take_nil, hhex, Bool.false_eq_true, if_false]
  | some e =>
    obtain ⟨negative, ds⟩ := e
    obtain ⟨hne, hds⟩ := hp.exponent _ he
    obtain ⟨d, ds, rfl⟩ := List.exists_cons_of_ne_nil hne
    have hd := isDigit_ne_underscore (hds d List.mem_cons_self)
    simp [hbase, hd]

/-- **A real number and its suffix are one token.** -/
theorem Scans.real (hp : p.IsReal) (hsuffix : IsRealSuffix suffix) {rest : List Char} {ts : List Token}
    (hend : Ends isNumberTail rest) (h : Scans rest ts) :
    Scans (p.chars ++ suffix ++ rest) (.float (String.ofList (p.chars ++ suffix)) :: ts) := by
  obtain ⟨hnumber, hname⟩ := hend.of_or
  have hchars : ∀ c ∈ p.chars, IsFigure c := fun c hc => hp.isFigure hc
  obtain ⟨c, cs, hc, hcs⟩ : ∃ c cs, c.isDigit = true ∧ p.chars = c :: cs := by
    obtain ⟨c, cs, hcs⟩ := List.exists_cons_of_ne_nil hp.whole.ne_nil
    refine ⟨c, cs ++ (p.point ++ p.mark), hp.whole.digits c (hcs ▸ List.mem_cons_self), ?_⟩
    rw [Figures.chars, hcs, List.cons_append]
  have hpiece : ∀ offset lineStart, Token.piece offset lineStart c
      (SourceText.ofChars (cs ++ (suffix ++ rest))) =
        { taken := cs.length + 1, lexemes := [⟨offset, .float (String.ofList (c :: cs))⟩] } := by
    intro offset lineStart
    refine piece_number hc (fun d hd => ?_) hnumber (hcs ▸ parts_figures hp hsuffix offset) lineStart
    rcases List.mem_append.mp hd with hd | hd
    · exact (hchars d (hcs ▸ hd)).number
    · rcases hsuffix with rfl | rfl
      · cases hd
      · rw [List.mem_singleton.mp hd]
        exact (isFigure_of_mem (by simp)).number
  rw [hcs] at hchars ⊢
  rcases hsuffix with rfl | rfl
  · rw [List.append_nil]
    exact h.bare hchars rfl (by simp) hpiece hname
  · have hf : isFloatSuffix "f" = true := by decide +kernel
    refine h.joined hchars rfl hpiece (by decide) (by simp) (by decide +kernel) ?_ hname
    rw [withSuffix?]
    rw [if_pos hf, String.ofList_append]

end KernelForge.Token
