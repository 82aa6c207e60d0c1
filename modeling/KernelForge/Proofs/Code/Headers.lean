/-
Sources with one kernel and no casts to pointer types.

Whether a source has such casts, and which of its functions are kernels, can be told from neighbours
among its lexemes.  A type in brackets is a pointer type only if a star comes before the closing
bracket.  A function is a kernel only if it starts with a word for kernels; when all of these are
followed by the same line but for those that are called, that line is the header of every kernel.

The header is read from the commas in it: a parameter is read-only when `const` comes right after the
comma before it.
-/
import KernelForge.Proofs.Program.Sealed
import KernelForge.Proofs.Token.Neighbours
import KernelForge.Proofs.Token.Reals

namespace KernelForge.Code

open Token (Guarded AfterStar IsKernelWord IsPointerWord)

variable {s : Scope} {ls : Lexemes}

/-! ### Casts -/

/-- No closing bracket comes after a star and words that qualify the pointer. -/
def NoStarClose (ts : List Token) : Prop :=
  ∀ before qs after, ts = before ++ .op .mul :: (qs ++ .op .rparen :: after) →
    ∃ q ∈ qs, ¬ IsPointerWord q

namespace NoStarClose

variable {ts us : List Token} {t : Token}

theorem left (h : NoStarClose (ts ++ us)) : NoStarClose ts := by
  rintro before qs after rfl
  exact h before qs (after ++ us) (by simp)

theorem right (h : NoStarClose (ts ++ us)) : NoStarClose us := by
  rintro before qs after rfl
  exact h (ts ++ before) qs after (by simp)

theorem tail (h : NoStarClose (t :: ts)) : NoStarClose ts := by
  rw [← List.singleton_append] at h
  exact h.right

end NoStarClose

/-- What follows a star does not close a bracket. -/
theorem not_close_of_afterStar {ls : Lexemes} {qs after : List Token}
    (h : AfterStar ls) (hls : ls.map Lexeme.token = qs ++ .op .rparen :: after) :
    ∃ q ∈ qs, ¬ IsPointerWord q := by
  obtain ⟨b, rest, rfl, hclose, hword⟩ := h
  cases qs with
  | nil =>
    rw [List.map_cons, List.nil_append, List.cons.injEq] at hls
    exact absurd hls.1 hclose
  | cons q qs =>
    rw [List.map_cons, List.cons_append, List.cons.injEq] at hls
    obtain ⟨rfl, hrest⟩ := hls
    by_contra hall
    have hpointer : IsPointerWord b.token := by
      by_contra hno
      exact hall ⟨b.token, List.mem_cons_self, hno⟩
    obtain ⟨c, more, rfl, hc⟩ := hword hpointer
    rw [List.map_cons, hc] at hrest
    cases qs with
    | nil => cases hrest
    | cons q' qs =>
      rw [List.cons_append, List.cons.injEq] at hrest
      refine hall ⟨q', by simp, fun h => ?_⟩
      rw [← hrest.1] at h
      rcases h with h | h <;> cases h

theorem noStarClose_of_guarded {line : Lexemes → Prop} (h : Guarded line ls) :
    NoStarClose (ls.map Lexeme.token) := by
  intro before qs after heq
  obtain ⟨front, rest, rfl, -, hrest⟩ := List.map_eq_append_iff.mp heq
  cases rest with
  | nil => cases hrest
  | cons a rest =>
    rw [List.map_cons, List.cons.injEq] at hrest
    exact not_close_of_afterStar ((h.of_suffix (List.suffix_append _ _)).1 hrest.1) hrest.2

/-- A cast is not to a pointer type. -/
def PlainCast (use : TypeUse) (spec : TypeSpec) : Prop := use = .cast → spec.pointer = false

theorem pointer_eq_false {ts us : List Token} {spec : TypeSpec} (hspec : Scope.SpellsType s ts spec)
    (h : NoStarClose (ts ++ .op .rparen :: us)) : spec.pointer = false := by
  obtain ⟨before, words, after, star, rfl, -, -, hstar, -, -⟩ := hspec
  generalize spec.pointer = pointer at hstar ⊢
  cases hstar with
  | value => rfl
  | pointer hqs =>
    rename_i qs
    obtain ⟨q, hq, hno⟩ := h (before ++ (words ++ after)) qs us (by simp)
    exact absurd (hqs q hq) hno

mutual

theorem plainCast_of_spells : ∀ {ts : List Token} {x : Expr}, s.Spells ts x → NoStarClose ts →
    Allowed PlainCast x.typeUses
  | _, _, .ident, _ => allowed_nil
  | _, _, .int, _ => allowed_nil
  | _, _, .float, _ => allowed_nil
  | _, .unary _ _ x, .unary _ hx, h => plainCast_of_spells (x := x) hx h.tail
  | _, _, .binary hx hy, h =>
    allowed_append (plainCast_of_spells hx h.left) (plainCast_of_spells hy h.right.tail)
  | _, _, .cond hc hx hy, h =>
    allowed_append (plainCast_of_spells hc h.left) (allowed_append
      (plainCast_of_spells hx h.right.tail.left) (plainCast_of_spells hy h.right.tail.right.tail))
  | _, _, .call hargs, h => plainCast_of_spellsAll hargs h.tail.tail.left
  | _, _, .cast hspec hx, h =>
    allowed_cons (fun _ => pointer_eq_false hspec h.tail) (plainCast_of_spells hx h.tail.right.tail)
  | _, _, .vectorLit hspec hitems, h =>
    allowed_cons (fun heq => by cases heq)
      (plainCast_of_spellsAll hitems h.tail.right.tail.tail.left)
  | _, _, .structLit hspec hitems, h =>
    allowed_cons (fun heq => by cases heq)
      (plainCast_of_spellsAll hitems h.tail.right.tail.tail.left)
  | _, _, .index hx hi, h =>
    allowed_append (plainCast_of_spells hx h.left) (plainCast_of_spells hi h.right.tail.left)
  | _, .select x _, .select hx, h => plainCast_of_spells (x := x) hx h.left
  | _, .paren _ x, .paren hx, h => plainCast_of_spells (x := x) hx h.tail.left

theorem plainCast_of_spellsAll : ∀ {ts : List Token} {xs : List Expr}, s.SpellsAll ts xs →
    NoStarClose ts → Allowed PlainCast (Expr.allTypeUses xs)
  | _, _, .nil, _ => allowed_nil
  | _, _, .last hx, h => allowed_append (plainCast_of_spells hx h) allowed_nil
  | _, _, .cons hx hxs, h =>
    allowed_append (plainCast_of_spells hx h.left) (plainCast_of_spellsAll hxs h.right.tail)

end

theorem Scope.rule_plainCast (line : Lexemes → Prop) : Scope.Rule (Guarded line) PlainCast := by
  refine ⟨Guarded.of_suffix, fun {s ls rest x} hls hwrote => ?_⟩
  obtain ⟨used, rfl, hspells⟩ := hwrote.spelled
  have hused := noStarClose_of_guarded hls
  rw [List.map_append] at hused
  exact plainCast_of_spells hspells hused.left

/-- **A source whose stars close no brackets has no casts to pointer types.** -/
theorem File.noPointerCasts_of_guarded {stream : TokenStream} {file : File} {line : Lexemes → Prop}
    (hguarded : Guarded line stream.lexemes) (h : File.ofStream stream = .ok file) :
    ∀ fn ∈ file.funcs, NoPointerCasts fn.typeUses :=
  fun fn hmem spec hspec =>
    allowed_of_ofStream (Scope.rule_plainCast line) hguarded h fn hmem _ spec hspec rfl

/-! ### Parameters -/

/-- The first word, perhaps after one for global memory, says that something is read-only. -/
def StartsConst (ls : Lexemes) : Prop :=
  (∃ b rest, ls = b :: rest ∧ b.token = .keyword .const) ∨
    ∃ b c rest, ls = b :: c :: rest ∧ b.token = .name "__global" ∧ c.token = .keyword .const

/-- Up to the closing bracket, what follows a comma starts with `const`. -/
def Constant : Lexemes → Prop
  | [] => True
  | a :: ls => a.token = .op .rparen ∨ ((a.token = .op .comma → StartsConst ls) ∧ Constant ls)

theorem StartsConst.joinSuffixes (h : StartsConst ls) : StartsConst (Token.joinSuffixes ls) := by
  rcases h with ⟨b, rest, rfl, hb⟩ | ⟨b, c, rest, rfl, hb, hc⟩
  · rw [Token.joinSuffixes_cons fun t => by rw [hb]; rfl]
    exact .inl ⟨b, _, rfl, hb⟩
  · rw [Token.joinSuffixes_cons fun t => by rw [hb]; rfl,
      Token.joinSuffixes_cons fun t => by rw [hc]; rfl]
    exact .inr ⟨b, c, _, rfl, hb, hc⟩

theorem Constant.joinSuffixes (h : Constant ls) : Constant (Token.joinSuffixes ls) := by
  fun_induction Token.joinSuffixes ls with
  | case1 a b rest t ht ih =>
    obtain ⟨⟨n, hn⟩, ⟨k, ha⟩, ⟨w, hb⟩⟩ := Token.number_of_joined ht
    have hb : b.token ≠ .op .rparen := by
      rw [hb]
      exact fun h => by cases h
    have ha : a.token ≠ .op .rparen := by
      rcases ha with ha | ha <;> (rw [ha]; exact fun h => by cases h)
    have hrest := ((h.resolve_left ha).2.resolve_left hb).2
    refine .inr ⟨fun hcomma => ?_, ih hrest⟩
    rcases hn with rfl | rfl <;> cases hcomma
  | case2 a b rest hno ih =>
    refine h.imp_right fun h => ⟨fun hcomma => (h.1 hcomma).joinSuffixes, ih h.2⟩
  | case3 ls hne => exact h

section
variable {ms : Lexemes}

/-- Lexemes that are no brackets may be passed over. -/
theorem Constant.of_append (h : Constant (ls ++ ms)) (hls : ∀ l ∈ ls, l.token ≠ .op .rparen) :
    Constant ms := by
  induction ls with
  | nil => exact h
  | cons a ls ih =>
    rw [List.forall_mem_cons] at hls
    exact ih (h.resolve_left hls.1).2 hls.2

end

namespace Scope

/-- No token of a type closes a bracket. -/
theorem SpellsType.ne_rparen {ts : List Token} {spec : TypeSpec} (h : SpellsType s ts spec) :
    ∀ t ∈ ts, t ≠ .op .rparen := by
  obtain ⟨before, words, after, star, rfl, hqs, hwords, hstar, -, -⟩ := h
  have hqualifier : ∀ t, isQualifier t = true → t ≠ .op .rparen := by
    rintro t ht rfl
    cases ht
  intro t ht
  simp only [List.mem_append] at ht hqs
  rcases ht with ht | ht | ht | ht
  · exact hqualifier t (hqs t (.inl ht))
  · generalize spec.name = name at hwords
    cases hwords with
    | single hw hplain =>
      rw [List.mem_singleton.mp ht]
      exact fun h => by cases h
    | pair hw =>
      simp only [List.mem_cons, List.not_mem_nil, or_false] at ht
      rcases ht with rfl | rfl <;> exact fun h => by cases h
  · exact hqualifier t (hqs t (.inr ht))
  · generalize spec.pointer = pointer at hstar
    cases hstar with
    | value => cases ht
    | pointer hqs =>
      rcases List.mem_cons.mp ht with rfl | ht
      · exact fun h => by cases h
      · rcases hqs t ht with rfl | rfl <;> exact fun h => by cases h

theorem readOnly_foldl {qs : List Token} {spec : TypeSpec}
    (h : .keyword .const ∈ qs ∨ spec.readOnly = true) : (qs.foldl qualified spec).readOnly = true := by
  induction qs generalizing spec with
  | nil => exact h.resolve_left List.not_mem_nil
  | cons q qs ih =>
    rw [List.foldl_cons]
    refine ih ?_
    rcases h with h | h
    · rcases List.mem_cons.mp h with rfl | h
      · exact .inr rfl
      · exact .inl h
    · right
      unfold qualified
      split
      · rfl
      · split <;> exact h
      · exact h

theorem TypeWords.exists_name {words : List Token} {name : String} (h : TypeWords s words name) :
    ∃ w ws, words = .name w :: ws ∧ isQualifier (.name w) = false := by
  cases h with
  | single hw hplain => exact ⟨name, [], rfl, hplain⟩
  | pair hw => exact ⟨"unsigned", _, rfl, by decide⟩

theorem SpellsType.readOnly {used rest : Lexemes} {spec : TypeSpec}
    (h : SpellsType s (used.map Lexeme.token) spec) (hconst : StartsConst (used ++ rest)) :
    spec.readOnly = true := by
  obtain ⟨before, words, after, star, heq, -, hwords, -, -, hread⟩ := h
  obtain ⟨w, ws, rfl, hw⟩ := hwords.exists_name
  have hglobal : w ≠ "__global" := by
    rintro rfl
    cases hw
  have htokens : (used ++ rest).map Lexeme.token =
      before ++ (.name w :: (ws ++ (after ++ (star ++ rest.map Lexeme.token)))) := by
    rw [List.map_append, heq]
    simp
  rw [hread]
  refine readOnly_foldl (.inl (List.mem_append_left _ ?_))
  -- `const` cannot be in the place of the name, so it is among the words before it
  rcases hconst with ⟨b, more, hcons, hb⟩ | ⟨b, c, more, hcons, hb, hc⟩
  · rw [hcons, List.map_cons, hb] at htokens
    cases before with
    | nil => cases htokens
    | cons q qs =>
      rw [List.cons_append, List.cons.injEq] at htokens
      rw [htokens.1]
      exact List.mem_cons_self
  · rw [hcons, List.map_cons, List.map_cons, hb, hc] at htokens
    cases before with
    | nil =>
      rw [List.nil_append, List.cons.injEq, Token.name.injEq] at htokens
      exact absurd htokens.1.symm hglobal
    | cons q qs =>
      cases qs with
      | nil => cases htokens
      | cons q' qs =>
        rw [List.cons_append, List.cons_append, List.cons.injEq, List.cons.injEq] at htokens
        rw [htokens.2.1]
        exact List.mem_cons_of_mem _ List.mem_cons_self

/-! ### Headers -/

/-- Only the first parameter may be written through; none may if `const` comes first. -/
theorem readOnly_params (ls : Lexemes) (hconstant : Constant ls) :
    Leaves (fun fs _ => (∀ f ∈ fs.tail, f.type.readOnly = true) ∧
      (StartsConst ls → ∀ f ∈ fs, f.type.readOnly = true)) (s.params ls) := by
  rw [params]
  split
  · split
    · exact leaves_error
    · exact leaves_ok ⟨by simp, by simp⟩
  · split
    · exact leaves_error
    · rename_i type ls₁ h₁ htype
      obtain ⟨used, hused, hspells⟩ := spelled_spec htype
      have hconstant₁ : Constant ls₁ := by
        rw [hused] at hconstant
        exact hconstant.of_append fun l hl => hspells.ne_rparen _ (List.mem_map_of_mem hl)
      have hfirst : StartsConst ls → type.readOnly = true := by
        rw [hused]
        exact hspells.readOnly
      split
      · exact leaves_error
      · rename_i name ls₂ h₂ hname
        have hcons := leaves_ident ls₁ _ _ hname
        dsimp only at hcons
        rw [hcons] at hconstant₁
        have hconstant₂ : Constant ls₂ := (hconstant₁.resolve_left fun h => by cases h).2
        split
        · rename_i ls₃ hless
          split
          · exact leaves_error
          · rename_i more ls₄ h₄ hmore
            obtain ⟨hcomma, hconstant₃⟩ := hconstant₂.resolve_left fun h => by cases h
            obtain ⟨-, hall⟩ := readOnly_params ls₃ hconstant₃ more ⟨ls₄, h₄⟩ hmore
            have hrest := hall (hcomma rfl)
            exact leaves_ok ⟨hrest, fun hconst => List.forall_mem_cons.mpr ⟨hfirst hconst, hrest⟩⟩
        · split
          · exact leaves_error
          · exact leaves_ok ⟨by simp, fun hconst => List.forall_mem_singleton.mpr (hfirst hconst)⟩
termination_by ls.length
decreasing_by all_goals grind

end Scope

/-- The rest of the first line of a kernel that returns nothing, after the word for kernels. -/
def HeaderLine (name : String) (ls : Lexemes) : Prop :=
  ∃ o o' o'' rest, ls = ⟨o, .name "void"⟩ :: ⟨o', .name name⟩ :: ⟨o'', .op .lparen⟩ :: rest ∧
    Constant rest

theorem HeaderLine.joinSuffixes {name : String} (h : HeaderLine name ls) :
    HeaderLine name (Token.joinSuffixes ls) := by
  obtain ⟨o, o', o'', rest, rfl, hrest⟩ := h
  rw [Token.joinSuffixes_cons fun _ => rfl, Token.joinSuffixes_cons fun _ => rfl,
    Token.joinSuffixes_cons fun _ => rfl]
  exact ⟨o, o', o'', _, rfl, hrest.joinSuffixes⟩

/-! ### The text of a header -/

section
open Token

/-- The characters of parameters and of the commas between them. -/
def isHeaderChar (c : Char) : Bool := Text.isLetter c || c.isDigit || [' ', '*', ','].contains c

/-- What follows a comma: a parameter that starts with `const`. -/
def OpensConst (cs : List Char) : Prop :=
  ∃ ds, cs = " const ".toList ++ ds ∨ cs = " __global const ".toList ++ ds

/-- The text of parameters of which all but the first start with `const`. -/
def Listed : List Char → Prop
  | [] => True
  | c :: cs => isHeaderChar c = true ∧ (c = ',' → OpensConst cs) ∧ Listed cs

theorem Listed.of_suffix {cs ds : List Char} (h : Listed cs) (hds : ds <:+ cs) : Listed ds := by
  induction cs with
  | nil =>
    rw [List.suffix_nil.mp hds]
    trivial
  | cons c cs ih =>
    rcases List.suffix_cons_iff.mp hds with rfl | hds
    · exact h
    · exact ih h.2.2 hds

theorem startsConst_of_opens {cs : List Char} (h : OpensConst cs) (offset lineStart : Nat) :
    StartsConst (scanFrom offset lineStart (SourceText.ofChars cs)).lexemes := by
  obtain ⟨ds, hcs⟩ := h
  have hblank : Ends Text.isNameChar (' ' :: ds) := .cons (by decide) ds
  rcases hcs with rfl | rfl
  · obtain ⟨o₁, l₁, h₁⟩ := exists_scanFrom_blank offset lineStart ("const".toList ++ ' ' :: ds)
    obtain ⟨o₂, l₂, h₂⟩ := exists_scanFrom_word (show isWord "const".toList = true by decide) hblank o₁ l₁
    exact .inl ⟨_, _, h₁.trans h₂, rfl⟩
  · have hconst : Ends Text.isNameChar (' ' :: ("const".toList ++ ' ' :: ds)) := .cons (by decide) _
    obtain ⟨o₁, l₁, h₁⟩ := exists_scanFrom_blank offset lineStart
      ("__global".toList ++ ' ' :: ("const".toList ++ ' ' :: ds))
    obtain ⟨o₂, l₂, h₂⟩ := exists_scanFrom_word (show isWord "__global".toList = true by decide) hconst o₁ l₁
    obtain ⟨o₃, l₃, h₃⟩ := exists_scanFrom_blank o₂ l₂ ("const".toList ++ ' ' :: ds)
    obtain ⟨o₄, l₄, h₄⟩ := exists_scanFrom_word (show isWord "const".toList = true by decide) hblank o₃ l₃
    rw [h₃, h₄] at h₂
    exact .inr ⟨_, _, _, h₁.trans h₂, rfl, rfl⟩

/-- A bracket ends what stands before it. -/
theorem ends_append_rparen {p : Char → Bool} {cs : List Char} (h : Ends p cs) (hparen : p ')' = false)
    (ds : List Char) : Ends p (cs ++ ')' :: ds) := by
  cases cs with
  | nil => exact .cons hparen ds
  | cons c cs => exact .cons (h c rfl) _

/-- A number takes nothing from behind the bracket. -/
theorem exists_scanFrom_number {c : Char} (hc : c.isDigit = true) (offset lineStart : Nat)
    (cs ds : List Char) :
    ∃ n t offset' lineStart', isLoose t = true ∧
      (scanFrom offset lineStart (SourceText.ofChars (c :: (cs ++ ')' :: ds)))).lexemes =
        ⟨offset, t⟩ ::
          (scanFrom offset' lineStart' (SourceText.ofChars (cs.drop n ++ ')' :: ds))).lexemes := by
  have hblank : (c = ' ' || c = '\t' || c = '\n' || c = '\r') = false := by
    simp only [Bool.or_eq_false_iff, decide_eq_false_iff_not]
    refine ⟨⟨⟨?_, ?_⟩, ?_⟩, ?_⟩
    all_goals
      rintro rfl
      exact absurd hc (by decide)
  have hchars : ∀ d ∈ (c :: cs).takeWhile NumberParts.isNumberChar, NumberParts.isNumberChar d = true :=
    List.all_eq_true.mp List.all_takeWhile
  have hends : Ends NumberParts.isNumberChar ((c :: cs).dropWhile NumberParts.isNumberChar) := by
    intro d hd
    have hnot := List.head?_dropWhile_not NumberParts.isNumberChar (c :: cs)
    rw [hd] at hnot
    simpa using hnot
  have hparen : NumberParts.isNumberChar ')' = false := by simp [NumberParts.isNumberChar]
  have htext := charsWhile_append hchars (ends_append_rparen hends hparen ds)
  rw [← List.append_assoc, List.takeWhile_append_dropWhile] at htext
  obtain ⟨offset', lineStart', hscan⟩ := exists_scanFrom_cons offset lineStart c (cs ++ ')' :: ds)
  have hpiece : piece offset lineStart c (SourceText.ofChars (cs ++ ')' :: ds)) =
      let parts := NumberParts.ofText ((c :: cs).takeWhile NumberParts.isNumberChar)
      { taken := parts.chars.length, lexemes := [⟨offset, parts.token⟩]
        complaints := parts.complaints offset } := by
    have htext' : SourceText.charsWhile NumberParts.isNumberChar
        (.char c :: SourceText.ofChars (cs ++ ')' :: ds)) =
          (c :: cs).takeWhile NumberParts.isNumberChar := htext
    rw [piece]
    simp only [hblank, isLetter_of_isDigit hc, hc, Bool.true_or, Bool.false_eq_true, if_false, if_true,
      htext']
  have hlength := (prefix_chars_ofText ((c :: cs).takeWhile NumberParts.isNumberChar)).length_le
  have hle := (List.takeWhile_prefix (l := c :: cs) NumberParts.isNumberChar).length_le
  rw [hpiece] at hscan
  dsimp only at hscan
  generalize (NumberParts.ofText ((c :: cs).takeWhile NumberParts.isNumberChar)).chars.length = n at hscan hlength
  rw [List.length_cons] at hle
  rw [List.drop_append_of_le_length (by omega)] at hscan
  exact ⟨n - 1, _, offset', lineStart', isLoose_parts _, hscan⟩

theorem exists_scanFrom_star {cs : List Char} (hcs : ∀ c ∈ cs.head?, isHeaderChar c = true)
    (offset lineStart : Nat) (ds : List Char) :
    ∃ offset' lineStart', (scanFrom offset lineStart (SourceText.ofChars ('*' :: (cs ++ ')' :: ds)))).lexemes =
      ⟨offset, .op .mul⟩ ::
        (scanFrom offset' lineStart' (SourceText.ofChars (cs ++ ')' :: ds))).lexemes := by
  have hgoesOn : ∀ c, isHeaderChar c = true → goesOn .mul c = false := by
    intro c hc
    rw [isHeaderChar, Bool.or_eq_true] at hc
    rcases hc with hc | hc
    · exact goesOn_operand (by decide) (by rw [startsOperand, hc, Bool.true_or])
    · simp only [List.contains_iff_mem, List.mem_cons, List.not_mem_nil, or_false] at hc
      rcases hc with rfl | rfl | rfl <;> decide
  have hends : Ends (goesOn .mul) (cs ++ ')' :: ds) :=
    ends_append_rparen (fun c hc => hgoesOn c (hcs c hc)) (by decide) ds
  have hapart : Apart .mul (cs ++ ')' :: ds) := .inr hends
  obtain ⟨o₁, l₁, -, heq⟩ := scanFrom_piece (piece_op (show Operator.mul.spelling.toList = ['*'] from rfl)
    rfl ⟨by decide, by decide⟩ hapart offset lineStart)
  exact ⟨o₁, l₁, congrArg Scanned.lexemes heq⟩

/-- **Scanning finds the commas of a header, and what follows them.** -/
theorem constant_scanFrom {cs ds : List Char} (h : Listed cs) (offset lineStart : Nat) :
    Constant (scanFrom offset lineStart (SourceText.ofChars (cs ++ ')' :: ds))).lexemes := by
  induction hn : cs.length using Nat.strongRecOn generalizing cs offset lineStart with
  | ind n ih =>
    subst hn
    cases cs with
    | nil =>
      obtain ⟨o₁, l₁, h₁⟩ := exists_scanFrom_mark (show Operator.rparen.spelling.toList = [')'] from rfl)
        (by decide) offset lineStart ds
      rw [List.nil_append, h₁]
      exact .inl rfl
    | cons c cs =>
      have hlater : ∀ es, es <:+ cs → ∀ o l,
          Constant (scanFrom o l (SourceText.ofChars (es ++ ')' :: ds))).lexemes :=
        fun es hes o l => ih es.length (Nat.lt_succ_of_le hes.length_le) (h.2.2.of_suffix hes) o l rfl
      by_cases hletter : Text.isLetter c = true
      · obtain ⟨w, rest, heq, hw, hend, -⟩ := exists_word hletter cs
        obtain ⟨o₁, l₁, h₁⟩ := exists_scanFrom_word hw (ends_append_rparen hend (by decide) ds)
          offset lineStart
        have hsuffix : rest <:+ cs := by
          cases w with
          | nil => cases hw
          | cons d w => exact ⟨w, (List.cons.inj heq).2.symm⟩
        rw [heq, List.append_assoc, h₁]
        exact .inr ⟨fun hcomma => absurd hcomma (word_ne_op _ _), hlater rest hsuffix o₁ l₁⟩
      · have hc := h.1
        rw [isHeaderChar, Bool.or_eq_true, Bool.or_eq_true, or_iff_right hletter] at hc
        rw [List.cons_append]
        rcases hc with hc | hc
        · obtain ⟨n, t, o₁, l₁, ht, h₁⟩ := exists_scanFrom_number hc offset lineStart cs ds
          rw [h₁]
          refine .inr ⟨fun hcomma => ?_, hlater _ (List.drop_suffix n cs) o₁ l₁⟩
          dsimp only at hcomma
          rw [hcomma] at ht
          cases ht
        · simp only [List.contains_iff_mem, List.mem_cons, List.not_mem_nil, or_false] at hc
          rcases hc with rfl | rfl | rfl
          · obtain ⟨o₁, l₁, h₁⟩ := exists_scanFrom_blank offset lineStart (cs ++ ')' :: ds)
            rw [h₁]
            exact hlater cs List.suffix_rfl o₁ l₁
          · have hhead : ∀ c ∈ cs.head?, isHeaderChar c = true := by
              cases cs with
              | nil => exact fun c h => by cases h
              | cons d cs =>
                rintro _ ⟨rfl⟩
                exact h.2.2.1
            obtain ⟨o₁, l₁, h₁⟩ := exists_scanFrom_star hhead offset lineStart ds
            rw [h₁]
            exact .inr ⟨(fun h => by cases h), hlater cs List.suffix_rfl o₁ l₁⟩
          · obtain ⟨o₁, l₁, h₁⟩ := exists_scanFrom_mark
              (show Operator.comma.spelling.toList = [','] from rfl) (by decide) offset lineStart
              (cs ++ ')' :: ds)
            obtain ⟨es, hes⟩ := h.2.1 rfl
            have hopens : OpensConst (cs ++ ')' :: ds) := by
              refine ⟨es ++ ')' :: ds, ?_⟩
              rw [← List.append_assoc, ← List.append_assoc]
              exact hes.imp (congrArg (· ++ ')' :: ds)) (congrArg (· ++ ')' :: ds))
            rw [h₁]
            exact .inr ⟨fun _ => startsConst_of_opens hopens o₁ l₁, hlater cs List.suffix_rfl o₁ l₁⟩

/-- What follows the word for kernels in the text of a kernel. -/
def headerText (name : String) (params more : List Char) : List Char :=
  " void ".toList ++ (name.toList ++ '(' :: (params ++ ')' :: more))

theorem headerLine_scanFrom {name : String} (hword : isWord name.toList = true)
    (hname : Token.word name = .name name) {params : List Char} (h : Listed params)
    (more : List Char) (offset lineStart : Nat) :
    HeaderLine name
      (scanFrom offset lineStart (SourceText.ofChars (headerText name params more))).lexemes := by
  obtain ⟨o₁, l₁, h₁⟩ := exists_scanFrom_blank offset lineStart
    ("void".toList ++ ' ' :: (name.toList ++ '(' :: (params ++ ')' :: more)))
  obtain ⟨o₂, l₂, h₂⟩ := exists_scanFrom_word (show isWord "void".toList = true by decide)
    (show Ends Text.isNameChar (' ' :: (name.toList ++ '(' :: (params ++ ')' :: more))) from
      .cons (by decide) _) o₁ l₁
  obtain ⟨o₃, l₃, h₃⟩ := exists_scanFrom_blank o₂ l₂ (name.toList ++ '(' :: (params ++ ')' :: more))
  obtain ⟨o₄, l₄, h₄⟩ := exists_scanFrom_word hword
    (show Ends Text.isNameChar ('(' :: (params ++ ')' :: more)) from .cons (by decide) _) o₃ l₃
  obtain ⟨o₅, l₅, h₅⟩ := exists_scanFrom_paren o₄ l₄ (params ++ ')' :: more)
  rw [String.ofList_toList, hname] at h₄
  have hlexemes := h₁.trans h₂
  rw [h₃, h₄, h₅] at hlexemes
  exact ⟨o₁, o₃, o₄, _, hlexemes, constant_scanFrom h o₅ l₅⟩

/-- A text may start with a mark of the byte order; the rest is scanned as it is. -/
theorem exists_scanText (cs : List Char) : ∃ ds offset lineStart, ds <:+ cs ∧
    (scanText (SourceText.ofChars cs)).lexemes =
      Token.joinSuffixes (scanFrom offset lineStart (SourceText.ofChars ds)).lexemes := by
  cases cs with
  | nil => exact ⟨[], 0, 0, List.suffix_rfl, rfl⟩
  | cons c cs =>
    by_cases hc : c = byteOrderMark
    · refine ⟨cs, c.utf8Size, 0, List.suffix_cons c cs, ?_⟩
      simp only [SourceText.ofChars, List.map_cons, scanText, if_pos hc]
    · refine ⟨c :: cs, 0, 0, List.suffix_rfl, ?_⟩
      simp only [SourceText.ofChars, List.map_cons, scanText, if_neg hc]

/-- **A tame text has guarded lexemes**, and its kernels have the header that follows the word for
kernels. -/
theorem guarded_scanText {name : String} (hword : isWord name.toList = true)
    (hname : Token.word name = .name name) {params more cs : List Char} (hparams : Listed params)
    (h : Tame (some (headerText name params more)) cs) :
    Guarded (HeaderLine name) (scanText (SourceText.ofChars cs)).lexemes := by
  obtain ⟨ds, offset, lineStart, hsuffix, heq⟩ := exists_scanText cs
  have hguarded := (guarded_scanFrom offset lineStart (h.of_suffix hsuffix)).joinSuffixes
  rw [heq]
  refine hguarded.mono ?_
  rintro ms ⟨ls, ⟨line, ⟨rfl⟩, o, l, rfl⟩, rfl⟩
  exact (headerLine_scanFrom hword hname hparams more o l).joinSuffixes

end

namespace Scope

variable {name : String}

/-- The words before a kernel end where an opening bracket or the header comes. -/
theorem funcWords_kernel (h : Guarded (HeaderLine name) ls) (hkernel : (funcWords false ls).1 = true) :
    (∃ b rest, (funcWords false ls).2.val = b :: rest ∧ b.token = .op .lparen) ∨
      HeaderLine name (funcWords false ls).2.val := by
  induction ls with
  | nil => cases hkernel
  | cons l ls ih =>
    rw [funcWords] at hkernel ⊢
    split
    · rename_i hword
      simp only [Bool.or_eq_true, decide_eq_true_eq] at hword
      dsimp only
      rcases h.2.1 hword with ⟨b, rest, rfl, hb⟩ | hline
      · left
        refine ⟨b, rest, ?_, hb⟩
        rw [funcWords]
        simp [hb]
      · right
        obtain ⟨o, o', o'', rest, rfl, hrest⟩ := hline
        exact ⟨o, o', o'', rest, rfl, hrest⟩
    · rename_i hword
      rw [if_neg hword] at hkernel
      split
      · rename_i hskip
        rw [if_pos hskip] at hkernel
        exact ih h.tail hkernel
      · rename_i hskip
        rw [if_neg hskip] at hkernel
        cases hkernel

/-- No type starts with a bracket. -/
theorem typeSpec_lparen {b : Lexeme} {rest : Lexemes} (hb : b.token = .op .lparen) {spec : TypeSpec}
    {left : Less (b :: rest)} : s.typeSpec (b :: rest) ≠ .ok (spec, left) := by
  intro h
  obtain ⟨used, heq, before, words, after, star, hused, hqs, hwords, -⟩ := spelled_spec h
  obtain ⟨w, ws, rfl, -⟩ := hwords.exists_name
  have htokens := congrArg (List.map Lexeme.token) heq
  rw [List.map_append, hused, List.map_cons, hb] at htokens
  cases before with
  | nil => cases htokens
  | cons q qs =>
    rw [List.cons_append, List.cons_append, List.cons.injEq] at htokens
    have hq := hqs q (by simp)
    rw [← htokens.1] at hq
    cases hq

theorem constant_noParams (h : Constant ls) : Constant (noParams ls).val := by
  unfold noParams
  split
  · split
    · exact (h.resolve_left nofun).2
    · exact h
  · exact h

/-- What is left of a header after the type of the result. -/
theorem typeSpec_void (hname : isQualifier (.name name) = false) {o o' : Nat} {rest : Lexemes}
    {spec : TypeSpec} {left : Less (⟨o, .name "void"⟩ :: ⟨o', .name name⟩ :: rest)}
    (h : s.typeSpec (⟨o, .name "void"⟩ :: ⟨o', .name name⟩ :: rest) = .ok (spec, left)) :
    left.val = ⟨o', .name name⟩ :: rest := by
  have hword : IsTypeWord s "void" := ⟨rfl, by decide, by decide⟩
  have hend : NoQualifier (⟨o', .name name⟩ :: rest) := fun l hl => by cases hl; exact hname
  obtain ⟨hlt, hread⟩ := @gives_typeSpec s _ [] "void" o (List.forall_mem_nil _) hword hend rfl
  have heq := h.symm.trans hread
  cases heq
  rfl

/-- **A kernel has the name of the header, and the header says which of its parameters are
read-only.** -/
theorem kernel_of_header (hname : isQualifier (.name name) = false)
    (h : Guarded (HeaderLine name) ls) :
    Leaves (fun fn _ => fn.isKernel = true → fn.name.name = name ∧
      ∀ f ∈ fn.params.tail, f.type.readOnly = true) (s.func ls) := by
  rw [func]
  have hwords := funcWords_kernel h
  split
  rename_i isKernel ls₁ h₁ hfuncWords
  rw [hfuncWords] at hwords
  dsimp only at hwords
  split
  · exact leaves_error
  · rename_i result ls₂ h₂ hresult
    split
    · exact leaves_error
    · rename_i id ls₃ h₃ hid
      have hcons := leaves_ident ls₂ _ _ hid
      split
      · exact leaves_error
      · rename_i ls₄ h₄ hopen
        have hcons' := leaves_expectOp _ ls₃ _ _ hopen
        dsimp only at hcons hcons'
        have hvoid : Constant ls₄ → Constant (noParams ls₄).val := constant_noParams
        split
        rename_i ls₅ h₅ hnoParams
        rw [hnoParams] at hvoid
        split
        · exact leaves_error
        · rename_i params ls₆ h₆ hparams
          split
          · exact leaves_error
          · split
            · exact leaves_error
            · refine leaves_ok fun hkernel => ?_
              rcases hwords hkernel with ⟨b, rest, rfl, hb⟩ | ⟨o, o', o'', rest, rfl, hrest⟩
              · exact absurd hresult (typeSpec_lparen hb)
              · obtain rfl := typeSpec_void hname hresult
                cases hcons
                cases hcons'
                exact ⟨rfl, (readOnly_params ls₅ (hvoid hrest) params _ hparams).1⟩

end Scope

/-! ### Streams -/

section
open Token

variable {name : String} {params more cs : List Char}

theorem guarded_ofText (hword : isWord name.toList = true) (hname : Token.word name = .name name)
    (hparams : Listed params) (h : Tame (some (headerText name params more)) cs) (file : String) :
    Guarded (HeaderLine name) (TokenStream.ofText file (SourceText.ofChars cs)).lexemes := by
  unfold TokenStream.ofText stripDirectives
  simp only [stripLines_linesOf h.no_hash, isWide_ofChars, Bool.false_eq_true, if_false]
  exact guarded_scanText hword hname hparams h

/-- A line before the text makes no difference when it is a pragma. -/
theorem guarded_ofText_of_pragma (hword : isWord name.toList = true)
    (hname : Token.word name = .name name) (hparams : Listed params)
    (h : Tame (some (headerText name params more)) cs) {line : List Char}
    (hline : TokenStream.IsPragma line) (file : String) :
    Guarded (HeaderLine name)
      (TokenStream.ofText file (SourceText.ofChars (line ++ '\n' :: cs))).lexemes := by
  obtain ⟨bs, hbs, hblank⟩ := blanked_ofChars (line ++ ['\n'])
  have hstrip := TokenStream.stripDirectives_of_pragma hline h.no_hash
  rw [hbs, ← ofChars_append] at hstrip
  have htame : Tame none bs := tame_of_plain fun c hc => by
    rcases hblank c hc with rfl | rfl <;> decide
  unfold TokenStream.ofText
  simp only [hstrip, isWide_ofChars, Bool.false_eq_true, if_false]
  exact guarded_scanText hword hname hparams (htame.append h)

end

/-- **The kernels of a source have their read-only parameters from the header.** -/
theorem File.kernels_of_header {stream : TokenStream} {file : File} {name : String}
    (hname : Scope.isQualifier (.name name) = false)
    (hguarded : Guarded (HeaderLine name) stream.lexemes) (h : File.ofStream stream = .ok file) :
    ∀ fn ∈ file.funcs, fn.isKernel = true → ∀ f ∈ fn.params.tail, f.type.readOnly = true := by
  intro fn hmem hkernel
  obtain ⟨s, ls, rest, hsuffix, hfn⟩ := exists_func_of_ofStream h fn hmem
  exact (Scope.kernel_of_header hname (hguarded.of_suffix hsuffix) fn rest hfn hkernel).2

end KernelForge.Code
