/-
What stands next to a star, and next to a word that makes a kernel.

A star ends a type in brackets when the closing bracket comes after it, and a function is a kernel when
a word before its type says so.  Both can be ruled out by a look at the text: at what follows each star,
and at what follows each word that ends like `kernel`.  The rules are about every place of the text, and
scanning hands them on to every place among the lexemes.

The text may have one line that makes a kernel.  It is known by all that follows the word in it.
-/
import KernelForge.Proofs.Token.Scanning

namespace KernelForge.Token

/-! ### Rules for lexemes -/

/-- The words that make a function a kernel. -/
def IsKernelWord (t : Token) : Prop := t = .name "__kernel" ∨ t = .name "kernel"

/-- The words that may qualify a pointer itself. -/
def IsPointerWord (t : Token) : Prop := t = .keyword .const ∨ t = .name "restrict"

/-- What follows a star is no closing bracket; a qualifier is there only as the name of a function. -/
def AfterStar (ls : List Lexeme) : Prop :=
  ∃ b rest, ls = b :: rest ∧ b.token ≠ .op .rparen ∧
    (IsPointerWord b.token → ∃ c more, rest = c :: more ∧ c.token = .op .lparen)

/-- The words for kernels are called like functions, but for one with the given rest, and no star ends
a type in brackets. -/
def Guarded (line : List Lexeme → Prop) : List Lexeme → Prop
  | [] => True
  | a :: ls =>
    (a.token = .op .mul → AfterStar ls) ∧
      (IsKernelWord a.token → (∃ b rest, ls = b :: rest ∧ b.token = .op .lparen) ∨ line ls) ∧
        Guarded line ls

theorem number_of_joined {a b : Lexeme} {t : Token}
    (h : (if a.offset + a.token.text.utf8ByteSize = b.offset then withSuffix? a.token b.token
      else none) = some t) :
    (∃ n, t = .int n ∨ t = .float n) ∧ (∃ n, a.token = .int n ∨ a.token = .float n) ∧
      ∃ n, b.token = .name n := by
  split at h
  · unfold withSuffix? at h
    grind
  · cases h

section
variable {line : List Lexeme → Prop} {ls ms : List Lexeme}

theorem Guarded.tail {a : Lexeme} (h : Guarded line (a :: ls)) : Guarded line ls := h.2.2

theorem Guarded.of_suffix (h : Guarded line ls) (hms : ms <:+ ls) : Guarded line ms := by
  induction ls with
  | nil =>
    rw [List.suffix_nil.mp hms]
    trivial
  | cons a ls ih =>
    rcases List.suffix_cons_iff.mp hms with rfl | hms
    · exact h
    · exact ih h.tail hms

theorem Guarded.mono {line' : List Lexeme → Prop} (h : Guarded line ls)
    (hline : ∀ ms, line ms → line' ms) : Guarded line' ls := by
  induction ls with
  | nil => trivial
  | cons a ls ih => exact ⟨h.1, fun hword => (h.2.1 hword).imp_right (hline ls), ih h.tail⟩

theorem guarded_append (hls : ∀ l ∈ ls, l.token ≠ .op .mul ∧ ¬ IsKernelWord l.token)
    (hms : Guarded line ms) : Guarded line (ls ++ ms) := by
  induction ls with
  | nil => exact hms
  | cons a ls ih =>
    rw [List.forall_mem_cons] at hls
    exact ⟨fun h => absurd h hls.1.1, fun h => absurd h hls.1.2, ih hls.2⟩

theorem AfterStar.joinSuffixes (h : AfterStar ls) : AfterStar (joinSuffixes ls) := by
  obtain ⟨b, rest, rfl, hclose, hword⟩ := h
  by_cases hpointer : IsPointerWord b.token
  · obtain ⟨c, more, rfl, hc⟩ := hword hpointer
    have hb : ∀ t, withSuffix? b.token t = none := by
      rcases hpointer with h | h <;> (intro t; rw [h]; rfl)
    rw [joinSuffixes_cons hb, joinSuffixes_cons (fun t => by rw [hc]; rfl)]
    exact ⟨b, _, rfl, hclose, fun _ => ⟨c, _, rfl, hc⟩⟩
  · cases rest with
    | nil => exact ⟨b, [], rfl, hclose, fun h => absurd h hpointer⟩
    | cons c more =>
      rw [Token.joinSuffixes]
      split
      · rename_i t ht
        obtain ⟨⟨n, rfl | rfl⟩, -⟩ := number_of_joined ht
        all_goals
          refine ⟨_, _, rfl, (fun h => by cases h), fun h => ?_⟩
          rcases h with h | h <;> cases h
      · exact ⟨b, _, rfl, hclose, fun h => absurd h hpointer⟩

/-- Joining numbers and their suffixes breaks no rule. -/
theorem Guarded.joinSuffixes (h : Guarded line ls) :
    Guarded (fun ms => ∃ ls, line ls ∧ ms = Token.joinSuffixes ls) (Token.joinSuffixes ls) := by
  fun_induction Token.joinSuffixes ls with
  | case1 a b rest t ht ih =>
    obtain ⟨⟨n, rfl | rfl⟩, -⟩ := number_of_joined ht
    all_goals
      refine ⟨(fun h => by cases h), fun hkernel => ?_, ih h.tail.tail⟩
      rcases hkernel with h | h <;> cases h
  | case2 a b rest hno ih =>
    refine ⟨fun hmul => (h.1 hmul).joinSuffixes, fun hkernel => ?_, ih h.tail⟩
    rcases h.2.1 hkernel with ⟨c, more, hcons, hc⟩ | hline
    · cases hcons
      rw [joinSuffixes_cons fun t => by rw [hc]; rfl]
      exact .inl ⟨b, _, rfl, hc⟩
    · exact .inr ⟨_, hline, rfl⟩
  | case3 ls hne =>
    cases ls with
    | nil => trivial
    | cons a ls =>
      cases ls with
      | nil =>
        refine ⟨h.1, fun hkernel => ?_, trivial⟩
        exact (h.2.1 hkernel).imp_right fun hline => ⟨[], hline, rfl⟩
      | cons b rest => exact absurd rfl (hne a b rest)

end

/-! ### Rules for texts -/

/-- A character that starts neither a blank, a comment, a closing bracket nor a qualifier. -/
def isFirm (c : Char) : Bool := !([' ', '\t', '\n', '\r', ')', '/', 'c', 'r'].contains c)

/-- What follows a star, after blanks: a firm character, or a word that is called. -/
def Leads (cs : List Char) : Prop :=
  ∃ bs ds, cs = bs ++ ds ∧ (∀ b ∈ bs, b = ' ') ∧
    ((∃ c rest, ds = c :: rest ∧ isFirm c = true) ∨ ∃ w rest, ds = w ++ '(' :: rest ∧ isWord w = true)

/-- A word goes on to its end, and then it is called. -/
def Called (cs : List Char) : Prop :=
  ∃ w rest, cs = w ++ '(' :: rest ∧ ∀ c ∈ w, Text.isNameChar c = true

/-- A text without hashes in which stars are followed by what may follow them, and in which words that
have a `k` are called; but a kernel word may be followed by a given line. -/
def Tame (line? : Option (List Char)) : List Char → Prop
  | [] => True
  | c :: cs =>
    (c = '*' → Leads cs) ∧ (c = 'k' → Called cs ∨ ∃ line ∈ line?, cs = "ernel".toList ++ line) ∧
      c ≠ '#' ∧ Tame line? cs

section
variable {line? : Option (List Char)} {cs ds : List Char}

theorem Leads.append (h : Leads cs) (ds : List Char) : Leads (cs ++ ds) := by
  obtain ⟨bs, es, rfl, hbs, hes⟩ := h
  refine ⟨bs, es ++ ds, List.append_assoc .., hbs, ?_⟩
  rcases hes with ⟨c, rest, rfl, hc⟩ | ⟨w, rest, rfl, hw⟩
  · exact .inl ⟨c, rest ++ ds, rfl, hc⟩
  · exact .inr ⟨w, rest ++ ds, by simp, hw⟩

theorem Called.append (h : Called cs) (ds : List Char) : Called (cs ++ ds) := by
  obtain ⟨w, rest, rfl, hw⟩ := h
  exact ⟨w, rest ++ ds, by simp, hw⟩

theorem Tame.append (h : Tame none cs) (hds : Tame line? ds) : Tame line? (cs ++ ds) := by
  induction cs with
  | nil => exact hds
  | cons c cs ih =>
    obtain ⟨hstar, hword, hhash, hcs⟩ := h
    refine ⟨fun hc => (hstar hc).append ds, fun hc => ?_, hhash, ih hcs⟩
    exact .inl (((hword hc).resolve_right nofun).append ds)

/-- A text without the characters that there are rules for. -/
theorem tame_of_plain (h : ∀ c ∈ cs, c ≠ '*' ∧ c ≠ 'k' ∧ c ≠ '#') : Tame line? cs := by
  induction cs with
  | nil => trivial
  | cons c cs ih =>
    rw [List.forall_mem_cons] at h
    exact ⟨fun hc => absurd hc h.1.1, fun hc => absurd hc h.1.2.1, h.1.2.2, ih h.2⟩

theorem Tame.of_suffix (h : Tame line? cs) (hds : ds <:+ cs) : Tame line? ds := by
  induction cs with
  | nil =>
    rw [List.suffix_nil.mp hds]
    trivial
  | cons c cs ih =>
    rcases List.suffix_cons_iff.mp hds with rfl | hds
    · exact h
    · exact ih h.2.2.2 hds

theorem Tame.no_hash (h : Tame line? cs) : Glyph.char '#' ∉ SourceText.ofChars cs := by
  intro hmem
  obtain ⟨c, hc, heq⟩ := List.mem_map.mp hmem
  cases heq
  induction cs with
  | nil => cases hc
  | cons c cs ih =>
    obtain ⟨-, -, hhash, hcs⟩ := h
    rcases List.mem_cons.mp hc with rfl | hc
    · exact hhash rfl
    · exact ih hcs (List.mem_map_of_mem hc) hc

end

/-! ### Pieces -/

/-- A token that there are no rules for. -/
def IsDull (t : Token) : Prop := t ≠ .op .mul ∧ ¬ IsKernelWord t

theorem isDull_op {o : Operator} (h : o ≠ .mul) : IsDull (.op o) :=
  ⟨fun heq => h (by cases heq; rfl), fun hword => by rcases hword with h | h <;> cases h⟩

/-- A token that is neither a word nor an operator. -/
def isLoose : Token → Bool
  | name _ | keyword _ | op _ => false
  | _ => true

theorem isDull_loose {t : Token} (h : isLoose t = true) : IsDull t := by
  refine ⟨fun heq => ?_, fun hword => ?_⟩
  · rw [heq] at h
    cases h
  · rcases hword with heq | heq <;> (rw [heq] at h; cases h)

theorem isLoose_parts (p : NumberParts) : isLoose p.token = true := by
  unfold NumberParts.token
  simp only
  split
  · rfl
  · split <;> rfl

theorem isDull_operatorLexemes {o : Operator} (h : o ≠ .mul) (offset : Nat) :
    ∀ l ∈ operatorLexemes offset o, IsDull l.token := by
  unfold operatorLexemes
  split
  · rename_i a b hab
    have hhalves : a ≠ .mul ∧ b ≠ .mul := by
      cases o <;> simp only [halves?, reduceCtorEq, Option.some.injEq, Prod.mk.injEq] at hab
      all_goals
        obtain ⟨rfl, rfl⟩ := hab
        exact ⟨nofun, nofun⟩
    rw [List.forall_mem_cons, List.forall_mem_singleton]
    exact ⟨isDull_op hhalves.1, isDull_op hhalves.2⟩
  · exact List.forall_mem_singleton.mpr (isDull_op h)

/-- The operator that is found starts the text. -/
theorem head_of_operatorAt? {o : Operator} {c : Char} {cs : List Char}
    (h : operatorAt? (.char c :: SourceText.ofChars cs) = some o) : o.spelling.toList.head? = some c := by
  have htake : (SourceText.ofChars (c :: cs)).take 3 = SourceText.ofChars ((c :: cs).take 3) :=
    List.map_take.symm
  have hcons : Glyph.char c :: SourceText.ofChars cs = SourceText.ofChars (c :: cs) := rfl
  unfold operatorAt? at h
  rw [hcons, htake] at h
  simp only [charsWhile_true] at h
  have hprefix := List.isPrefixOf_iff_prefix.mp (List.find?_some (p := fun o : Operator =>
    o.spelling.toList.isPrefixOf ((c :: cs).take 3)) h)
  obtain ⟨d, ds, hd⟩ := List.exists_cons_of_ne_nil (spelling_ne_nil o)
  rw [hd] at hprefix ⊢
  rw [(List.cons_prefix_cons.mp hprefix).1]
  rfl

/-- What a piece gives that does not start with a letter: nothing for blanks and comments, a token that
is no word, or the lexemes of an operator. -/
theorem piece_cases {c : Char} (hc : Text.isLetter c = false) (offset lineStart : Nat)
    (cs : List Char) :
    (piece offset lineStart c (SourceText.ofChars cs)).lexemes = [] ∧
        (c = ' ' ∨ c = '\t' ∨ c = '\n' ∨ c = '\r' ∨ c = '/') ∨
      (∃ t, (piece offset lineStart c (SourceText.ofChars cs)).lexemes = [⟨offset, t⟩] ∧
        isLoose t = true) ∨
      ∃ o : Operator, o.spelling.toList.head? = some c ∧
        (piece offset lineStart c (SourceText.ofChars cs)) =
          { taken := o.spelling.length, lexemes := operatorLexemes offset o } := by
  unfold piece
  simp only [hc, Bool.false_eq_true, if_false]
  split
  · rename_i hblank
    simp only [Bool.or_eq_true, decide_eq_true_eq, or_assoc] at hblank
    exact .inl ⟨rfl, hblank.imp_right (.imp_right (.imp_right .inl))⟩
  · split
    · exact .inr (.inl ⟨_, rfl, isLoose_parts _⟩)
    · split
      · exact .inr (.inl ⟨_, rfl, rfl⟩)
      · split
        · exact .inr (.inl ⟨_, rfl, rfl⟩)
        · split
          · exact .inr (.inl ⟨_, rfl, rfl⟩)
          · split
            · rename_i hslash
              simp only [Bool.and_eq_true, decide_eq_true_eq] at hslash
              exact .inl ⟨rfl, .inr (.inr (.inr (.inr hslash.1)))⟩
            · split
              · rename_i hslash
                simp only [Bool.and_eq_true, decide_eq_true_eq] at hslash
                exact .inl ⟨rfl, .inr (.inr (.inr (.inr hslash.1)))⟩
              · split
                · rename_i o ho
                  exact .inr (.inr ⟨o, head_of_operatorAt? ho, rfl⟩)
                · exact .inr (.inl ⟨_, rfl, rfl⟩)

/-! ### Scanning -/

theorem exists_scanFrom_cons (offset lineStart : Nat) (c : Char) (cs : List Char) :
    ∃ offset' lineStart', (scanFrom offset lineStart (SourceText.ofChars (c :: cs))).lexemes =
      (piece offset lineStart c (SourceText.ofChars cs)).lexemes ++
        (scanFrom offset' lineStart' (SourceText.ofChars
          (cs.drop ((piece offset lineStart c (SourceText.ofChars cs)).taken - 1)))).lexemes := by
  have hcons : SourceText.ofChars (c :: cs) = .char c :: SourceText.ofChars cs := rfl
  have hdrop : ∀ n, (SourceText.ofChars cs).drop n = SourceText.ofChars (cs.drop n) :=
    fun n => List.map_drop.symm
  rw [hcons, scanFrom]
  simp only [hdrop]
  exact ⟨_, _, rfl⟩

/-- A mark that nothing goes on with is the next lexeme. -/
theorem exists_scanFrom_mark {o : Operator} {c : Char} (hc : o.spelling.toList = [c]) (ho : o ∈ closed)
    (offset lineStart : Nat) (rest : List Char) :
    ∃ offset' lineStart', (scanFrom offset lineStart (SourceText.ofChars (c :: rest))).lexemes =
      ⟨offset, .op o⟩ :: (scanFrom offset' lineStart' (SourceText.ofChars rest)).lexemes := by
  have hapart : Apart o rest := .inl ho
  obtain ⟨offset', lineStart', -, heq⟩ := scanFrom_piece
    (piece_op hc (plain_of_closed ho).1 (plain_of_closed ho).2 hapart offset lineStart)
  exact ⟨offset', lineStart', congrArg Scanned.lexemes heq⟩

/-- An opening bracket is the next lexeme. -/
theorem exists_scanFrom_paren (offset lineStart : Nat) (rest : List Char) :
    ∃ offset' lineStart', (scanFrom offset lineStart (SourceText.ofChars ('(' :: rest))).lexemes =
      ⟨offset, .op .lparen⟩ :: (scanFrom offset' lineStart' (SourceText.ofChars rest)).lexemes :=
  exists_scanFrom_mark (show Operator.lparen.spelling.toList = ['('] from rfl) (by decide) ..

theorem exists_scanFrom_word {w rest : List Char} (hw : isWord w = true)
    (hend : Ends Text.isNameChar rest) (offset lineStart : Nat) :
    ∃ offset' lineStart', (scanFrom offset lineStart (SourceText.ofChars (w ++ rest))).lexemes =
      ⟨offset, Token.word (String.ofList w)⟩ ::
        (scanFrom offset' lineStart' (SourceText.ofChars rest)).lexemes := by
  obtain ⟨c, cs, rfl, hc, hcs⟩ := exists_of_isWord hw
  obtain ⟨offset', lineStart', -, heq⟩ := scanFrom_piece (piece_word hc hcs hend offset lineStart)
  exact ⟨offset', lineStart', congrArg Scanned.lexemes heq⟩

theorem exists_word {c : Char} (hc : Text.isLetter c = true) (cs : List Char) :
    ∃ w rest, c :: cs = w ++ rest ∧ isWord w = true ∧ Ends Text.isNameChar rest ∧ w.head? = some c := by
  refine ⟨c :: cs.takeWhile Text.isNameChar, cs.dropWhile Text.isNameChar, ?_, ?_, ?_, rfl⟩
  · rw [List.cons_append, List.takeWhile_append_dropWhile]
  · rw [isWord, hc, Bool.true_and, List.all_eq_true]
    exact List.all_eq_true.mp List.all_takeWhile
  · intro d hd
    have := List.head?_dropWhile_not Text.isNameChar cs
    rw [hd] at this
    simpa using this

/-- What follows a blank does not depend on it. -/
theorem exists_scanFrom_blank (offset lineStart : Nat) (cs : List Char) :
    ∃ offset' lineStart', (scanFrom offset lineStart (SourceText.ofChars (' ' :: cs))).lexemes =
      (scanFrom offset' lineStart' (SourceText.ofChars cs)).lexemes := by
  obtain ⟨offset', lineStart', -, heq⟩ := @scanFrom_piece offset lineStart ' ' [] cs [] rfl
  exact ⟨offset', lineStart', congrArg Scanned.lexemes heq⟩

/-! ### From texts to lexemes -/

theorem not_isPointerWord {t : Token} (hconst : t ≠ .keyword .const) (hname : t ≠ .name "restrict") :
    ¬ IsPointerWord t := by
  rintro (h | h)
  · exact hconst h
  · exact hname h

/-- The text of a word can be told from its token. -/
theorem eq_of_word {w : String} :
    (∀ k, Token.word w = .keyword k → w = k.spelling) ∧ ∀ n, Token.word w = .name n → w = n := by
  unfold Token.word
  cases hk : Keyword.ofSpelling? w with
  | none => exact ⟨nofun, fun n h => by cases h; rfl⟩
  | some k =>
    refine ⟨fun k' h => ?_, nofun⟩
    cases h
    have hspell := List.find?_some (p := fun k : Keyword => decide (k.spelling = w)) hk
    exact (of_decide_eq_true hspell).symm

/-- A word that starts with a firm letter is no qualifier. -/
theorem not_isPointerWord_word {w : List Char} {c : Char} (hhead : w.head? = some c)
    (hc : isFirm c = true) : ¬ IsPointerWord (Token.word (String.ofList w)) := by
  refine not_isPointerWord (fun h => ?_) fun h => ?_
  · have hw := congrArg String.toList (eq_of_word.1 _ h)
    rw [String.toList_ofList] at hw
    rw [hw] at hhead
    cases hhead
    cases hc
  · have hw := congrArg String.toList (eq_of_word.2 _ h)
    rw [String.toList_ofList] at hw
    rw [hw] at hhead
    cases hhead
    cases hc

theorem word_ne_op (w : String) (o : Operator) : Token.word w ≠ .op o := by
  unfold Token.word
  split <;> nofun

theorem afterStar_of_firm {c : Char} (hc : isFirm c = true) (offset lineStart : Nat)
    (cs : List Char) : AfterStar (scanFrom offset lineStart (SourceText.ofChars (c :: cs))).lexemes := by
  by_cases hletter : Text.isLetter c = true
  · obtain ⟨w, rest, heq, hw, hend, hhead⟩ := exists_word hletter cs
    obtain ⟨offset', lineStart', hscan⟩ := exists_scanFrom_word hw hend offset lineStart
    rw [heq, hscan]
    exact ⟨_, _, rfl, word_ne_op _ _, fun h => absurd h (not_isPointerWord_word hhead hc)⟩
  · obtain ⟨offset', lineStart', hscan⟩ := exists_scanFrom_cons offset lineStart c cs
    rw [hscan]
    rcases piece_cases (Bool.not_eq_true _ ▸ hletter) offset lineStart cs with
      ⟨-, hblank⟩ | ⟨t, hpiece, ht⟩ | ⟨o, ho, hpiece⟩
    · rcases hblank with rfl | rfl | rfl | rfl | rfl <;> cases hc
    · rw [hpiece]
      have hloose : ∀ u, isLoose u = false → t ≠ u := by
        rintro u hu rfl
        rw [ht] at hu
        cases hu
      exact ⟨_, _, rfl, hloose _ rfl,
        fun h => absurd h (not_isPointerWord (hloose _ rfl) (hloose _ rfl))⟩
    · rw [hpiece]
      have hclose : o ≠ .rparen := by
        rintro rfl
        cases ho
        cases hc
      unfold operatorLexemes
      split
      · rename_i a b hab
        have ha : a ≠ .rparen := by
          cases o <;> simp only [halves?, reduceCtorEq, Option.some.injEq, Prod.mk.injEq] at hab
          all_goals
            obtain ⟨rfl, -⟩ := hab
            exact nofun
        exact ⟨_, _, rfl, fun h => ha (by cases h; rfl), fun h => by rcases h with h | h <;> cases h⟩
      · exact ⟨_, _, rfl, fun h => hclose (by cases h; rfl), fun h => by rcases h with h | h <;> cases h⟩

/-- A text that may follow a star gives lexemes that may. -/
theorem afterStar_of_leads {cs : List Char} (h : Leads cs) (offset lineStart : Nat) :
    AfterStar (scanFrom offset lineStart (SourceText.ofChars cs)).lexemes := by
  obtain ⟨bs, ds, rfl, hbs, hds⟩ := h
  induction bs generalizing offset lineStart with
  | nil =>
    rcases hds with ⟨c, rest, rfl, hc⟩ | ⟨w, rest, rfl, hw⟩
    · exact afterStar_of_firm hc offset lineStart rest
    · obtain ⟨o₁, l₁, hword⟩ :=
        exists_scanFrom_word hw (.cons (show Text.isNameChar '(' = false by decide) rest) ..
      obtain ⟨o₂, l₂, hmark⟩ := exists_scanFrom_paren o₁ l₁ rest
      rw [List.nil_append, hword, hmark]
      exact ⟨_, _, rfl, word_ne_op _ _, fun _ => ⟨_, _, rfl, rfl⟩⟩
  | cons b bs ih =>
    rw [List.forall_mem_cons] at hbs
    obtain ⟨rfl, hbs⟩ := hbs
    obtain ⟨o₁, l₁, hscan⟩ := exists_scanFrom_blank offset lineStart (bs ++ ds)
    rw [List.cons_append, hscan]
    exact ih o₁ l₁ hbs

theorem Tame.after_kernel {line? : Option (List Char)} {w rest : List Char}
    (h : Tame line? (w ++ rest)) (hw : IsKernelWord (Token.word (String.ofList w)))
    (hend : Ends Text.isNameChar rest) : (∃ more, rest = '(' :: more) ∨ rest ∈ line? := by
  obtain ⟨front, hfront⟩ : ∃ front, w = front ++ "kernel".toList := by
    rcases hw with hw | hw
    · exact ⟨['_', '_'], by rw [← String.toList_ofList (l := w), eq_of_word.2 _ hw]; rfl⟩
    · exact ⟨[], by rw [← String.toList_ofList (l := w), eq_of_word.2 _ hw]; rfl⟩
  have hsuffix : 'k' :: ("ernel".toList ++ rest) <:+ w ++ rest := by
    rw [hfront]
    exact ⟨front, by simp⟩
  rcases (h.of_suffix hsuffix).2.1 rfl with ⟨v, more, heq, hv⟩ | ⟨line, hline, heq⟩
  · left
    -- both `ernel` and `v` are the run of letters at the start
    have hdrop := congrArg (List.dropWhile Text.isNameChar) heq
    have hernel : ∀ c ∈ "ernel".toList, Text.isNameChar c = true := forall_mem_of_all (by decide)
    rw [List.dropWhile_append_of_pos hernel, List.dropWhile_append_of_pos hv] at hdrop
    refine ⟨more, ?_⟩
    cases rest with
    | nil => cases hdrop
    | cons d rest =>
      rw [List.dropWhile_cons_of_neg (by simpa using hend d rfl)] at hdrop
      exact hdrop
  · right
    rw [List.append_cancel_left_eq] at heq
    exact heq ▸ hline

/-- **A tame text has guarded lexemes.** -/
theorem guarded_scanFrom {line? : Option (List Char)} (offset lineStart : Nat) {cs : List Char}
    (h : Tame line? cs) :
    Guarded (fun ls => ∃ line ∈ line?, ∃ offset' lineStart',
        ls = (scanFrom offset' lineStart' (SourceText.ofChars line)).lexemes)
      (scanFrom offset lineStart (SourceText.ofChars cs)).lexemes := by
  induction hn : cs.length using Nat.strongRecOn generalizing cs offset lineStart with
  | ind n ih =>
    subst hn
    cases cs with
    | nil =>
      rw [show SourceText.ofChars [] = [] from rfl, scanFrom]
      trivial
    | cons c cs =>
      by_cases hletter : Text.isLetter c = true
      · obtain ⟨w, rest, heq, hw, hend, hhead⟩ := exists_word hletter cs
        obtain ⟨offset', lineStart', hscan⟩ := exists_scanFrom_word hw hend offset lineStart
        rw [heq] at h ⊢
        rw [hscan]
        have hrest : Tame line? rest := h.of_suffix (List.suffix_append _ _)
        have hlt : rest.length < (c :: cs).length := by
          rw [heq, List.length_append]
          cases w with
          | nil => cases hw
          | cons d w => simp only [List.length_cons]; omega
        refine ⟨fun hmul => absurd hmul (word_ne_op _ _), fun hkernel => ?_,
          ih _ hlt offset' lineStart' hrest rfl⟩
        rcases h.after_kernel hkernel hend with ⟨more, rfl⟩ | hline
        · obtain ⟨o₂, l₂, hmark⟩ := exists_scanFrom_paren offset' lineStart' more
          rw [hmark]
          exact .inl ⟨_, _, rfl, rfl⟩
        · exact .inr ⟨rest, hline, offset', lineStart', rfl⟩
      · obtain ⟨offset', lineStart', hscan⟩ := exists_scanFrom_cons offset lineStart c cs
        generalize (piece offset lineStart c (SourceText.ofChars cs)).taken - 1 = n at hscan
        have hdrop := ih (cs.drop n).length (by simp only [List.length_drop, List.length_cons]; omega)
          offset' lineStart' (h.2.2.2.of_suffix (List.drop_suffix n cs)) rfl
        rcases piece_cases (Bool.not_eq_true _ ▸ hletter) offset lineStart cs with
          ⟨hpiece, -⟩ | ⟨t, hpiece, ht⟩ | ⟨o, ho, hpiece⟩
        · rw [hscan, hpiece]
          exact hdrop
        · rw [hscan, hpiece]
          exact guarded_append (List.forall_mem_singleton.mpr (isDull_loose ht)) hdrop
        · by_cases hmul : o = .mul
          · subst hmul
            obtain rfl : '*' = c := Option.some.inj ho
            obtain ⟨o₂, l₂, -, heq⟩ := @scanFrom_piece offset lineStart '*' [] cs _ hpiece
            have hstar : (scanFrom offset lineStart (SourceText.ofChars ('*' :: cs))).lexemes =
                ⟨offset, .op .mul⟩ :: (scanFrom o₂ l₂ (SourceText.ofChars cs)).lexemes :=
              congrArg Scanned.lexemes heq
            rw [hstar]
            refine ⟨fun _ => afterStar_of_leads (h.1 rfl) _ _, fun hkernel => ?_,
              ih cs.length (by simp) o₂ l₂ h.2.2.2 rfl⟩
            rcases hkernel with h | h <;> cases h
          · rw [hscan, hpiece]
            exact guarded_append (isDull_operatorLexemes hmul offset) hdrop

end KernelForge.Token
