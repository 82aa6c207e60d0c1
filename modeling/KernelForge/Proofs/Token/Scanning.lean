/-
Texts that scan to known tokens.

A text is put together from blanks, words, numbers and operators.  Each rule of this file puts
one of them before a text whose tokens are known; what it asks is that the first character of
that text does not go on with the new token.  Where the tokens stand does not matter, so the
rules hold at every offset.
-/
import KernelForge.Token.Scan

namespace KernelForge

/-- A test of each element of a list.  Deciding it goes through the list, and not through all
characters. -/
theorem forall_mem_of_all {α : Type} {p : α → Prop} [DecidablePred p] {xs : List α}
    (h : (xs.all fun x => decide (p x)) = true) : ∀ x ∈ xs, p x :=
  fun x hx => of_decide_eq_true (List.all_eq_true.mp h x hx)

end KernelForge

namespace KernelForge.Token

open KernelForge.Source (Redirect)

/-! ### Characters -/

theorem ofChars_append (cs ds : List Char) :
    SourceText.ofChars (cs ++ ds) = SourceText.ofChars cs ++ SourceText.ofChars ds :=
  List.map_append

/-- No character goes on with a run of characters: the text ends, or its first character is of
another kind. -/
def Ends (p : Char → Bool) (cs : List Char) : Prop := ∀ c, cs.head? = some c → p c = false

theorem Ends.nil {p : Char → Bool} : Ends p [] := nofun

theorem Ends.cons {p : Char → Bool} {c : Char} (h : p c = false) (cs : List Char) :
    Ends p (c :: cs) := by
  intro d hd
  cases hd
  exact h

theorem charsWhile_append {p : Char → Bool} {cs ds : List Char} (hcs : ∀ c ∈ cs, p c = true)
    (hds : Ends p ds) : SourceText.charsWhile p (SourceText.ofChars (cs ++ ds)) = cs := by
  induction cs with
  | nil =>
    cases ds with
    | nil => rfl
    | cons d ds =>
      have hd := hds d rfl
      simp [SourceText.ofChars, SourceText.charsWhile, hd]
  | cons c cs ih =>
    have hc := hcs c List.mem_cons_self
    have hrest := ih fun d hd => hcs d (List.mem_cons_of_mem _ hd)
    simp only [SourceText.ofChars, List.cons_append, List.map_cons, SourceText.charsWhile] at hrest ⊢
    rw [if_pos hc, hrest]

theorem size_ofChars_of_ascii {cs : List Char} (h : ∀ c ∈ cs, c.utf8Size = 1) :
    SourceText.size (SourceText.ofChars cs) = cs.length := by
  induction cs with
  | nil => rfl
  | cons c cs ih =>
    have hc := h c List.mem_cons_self
    have hcs := ih fun d hd => h d (List.mem_cons_of_mem _ hd)
    simp only [SourceText.ofChars, List.map_cons, SourceText.size, Glyph.size] at hcs ⊢
    rw [hc, hcs, List.length_cons]
    omega

/-! ### Joining suffixes -/

/-- What is no number takes no suffix. -/
theorem joinSuffixes_cons {a : Lexeme} (h : ∀ t, withSuffix? a.token t = none) (ls : List Lexeme) :
    joinSuffixes (a :: ls) = a :: joinSuffixes ls := by
  cases ls with
  | nil => rfl
  | cons b ls =>
    rw [joinSuffixes, h]
    simp

/-- A number takes no suffix from what does not follow at once, or is no name. -/
theorem joinSuffixes_number {a : Lexeme} {ls : List Lexeme}
    (h : ∀ b, ls.head? = some b → a.offset + a.token.text.utf8ByteSize = b.offset →
      ∀ s, b.token ≠ .name s) :
    joinSuffixes (a :: ls) = a :: joinSuffixes ls := by
  cases ls with
  | nil => rfl
  | cons b ls =>
    rw [joinSuffixes]
    split
    · rename_i t ht
      split at ht
      · rename_i hadjacent
        have hname := h b rfl hadjacent
        unfold withSuffix? at ht
        split at ht
        · rename_i n s _ heq
          exact absurd heq (hname s)
        · rename_i n s _ heq
          exact absurd heq (hname s)
        · cases ht
      · cases ht
    · rfl

theorem joinSuffixes_joined {a : Lexeme} {suffix : String} {t : Token}
    (h : withSuffix? a.token (.name suffix) = some t) (ls : List Lexeme) :
    joinSuffixes (a :: ⟨a.offset + a.token.text.utf8ByteSize, .name suffix⟩ :: ls) =
      ⟨a.offset, t⟩ :: joinSuffixes ls := by
  rw [joinSuffixes]
  simp [h]

/-! ### Texts and their tokens -/

/-- Scanning a text at an offset gives these tokens, and nothing to complain about. -/
structure ScansAt (offset lineStart : Nat) (cs : List Char) (ts : List Token) : Prop where
  tokens : (joinSuffixes (scanFrom offset lineStart (SourceText.ofChars cs)).lexemes).map
    Lexeme.token = ts
  complaints : (scanFrom offset lineStart (SourceText.ofChars cs)).complaints = []
  redirects : (scanFrom offset lineStart (SourceText.ofChars cs)).redirects = []
  after : ∀ l, (scanFrom offset lineStart (SourceText.ofChars cs)).lexemes.head? = some l →
    offset ≤ l.offset
  /-- A name at the start needs a letter there. -/
  first : ∀ l s, (scanFrom offset lineStart (SourceText.ofChars cs)).lexemes.head? = some l →
    l.offset = offset → l.token = .name s → ∃ c, cs.head? = some c ∧ Text.isLetter c = true

/-- A character that is no matter of complaint by itself and starts no directive. -/
structure Readable (c : Char) : Prop where
  hash : c ≠ '#'
  nul : c.toNat ≠ 0
  mark : c ≠ byteOrderMark

/-- A text has these tokens, wherever it stands. -/
structure Scans (cs : List Char) (ts : List Token) : Prop where
  readable : ∀ c ∈ cs, Readable c
  at_ : ∀ offset lineStart, ScansAt offset lineStart cs ts

theorem Scans.nil : Scans [] [] := by
  refine ⟨by simp, fun offset lineStart => ?_⟩
  have h : scanFrom offset lineStart (SourceText.ofChars []) = { finish := offset } := by
    rw [SourceText.ofChars, List.map_nil, scanFrom]
  constructor
  · rw [h]; rfl
  · rw [h]
  · rw [h]
  · simp [h]
  · simp [h]

/-- Reading a piece of the text goes on after it. -/
theorem scanFrom_piece {offset lineStart : Nat} {c : Char} {cs rest : List Char} {ls : List Lexeme}
    (h : piece offset lineStart c (SourceText.ofChars (cs ++ rest)) =
      { taken := cs.length + 1, lexemes := ls }) :
    ∃ offset' lineStart', offset' = offset + SourceText.size (SourceText.ofChars (c :: cs)) ∧
      let after := scanFrom offset' lineStart' (SourceText.ofChars rest)
      scanFrom offset lineStart (SourceText.ofChars (c :: cs ++ rest)) =
        { after with lexemes := ls ++ after.lexemes } := by
  have htake : (SourceText.ofChars (cs ++ rest)).take cs.length = SourceText.ofChars cs := by
    rw [ofChars_append, List.take_left' (by simp [SourceText.ofChars])]
  have hdrop : (SourceText.ofChars (cs ++ rest)).drop cs.length = SourceText.ofChars rest := by
    rw [ofChars_append, List.drop_left' (by simp [SourceText.ofChars])]
  refine ⟨_, lineStartAfter offset lineStart (SourceText.ofChars (c :: cs)), rfl, ?_⟩
  have hcons : SourceText.ofChars (c :: cs ++ rest) =
      .char c :: SourceText.ofChars (cs ++ rest) := rfl
  rw [hcons, scanFrom, h]
  simp only [Nat.add_sub_cancel, htake, hdrop]
  rfl

/-- A piece that gives one token which is no number. -/
theorem Scans.piece {c : Char} {cs rest : List Char} {t : Token} {ts : List Token}
    (hpiece : ∀ offset lineStart, Token.piece offset lineStart c (SourceText.ofChars (cs ++ rest)) =
      { taken := cs.length + 1, lexemes := [⟨offset, t⟩] })
    (hplain : ∀ u, withSuffix? t u = none)
    (hname : ∀ s, t = .name s → Text.isLetter c = true) (hread : ∀ d ∈ c :: cs, Readable d)
    (h : Scans rest ts) : Scans (c :: cs ++ rest) (t :: ts) := by
  refine ⟨List.forall_mem_append.mpr ⟨hread, h.readable⟩, fun offset lineStart => ?_⟩
  obtain ⟨offset', lineStart', -, heq⟩ := scanFrom_piece (hpiece offset lineStart)
  have hrest := h.at_ offset' lineStart'
  constructor
  · rw [heq]
    simp only [List.cons_append, List.nil_append]
    rw [joinSuffixes_cons hplain, List.map_cons, hrest.tokens]
  · rw [heq]
    exact hrest.complaints
  · rw [heq]
    exact hrest.redirects
  · rw [heq]
    intro l hl
    cases hl
    exact Nat.le_refl offset
  · rw [heq]
    intro l s hl hoffset hs
    cases hl
    exact ⟨c, rfl, hname s hs⟩

/-- Blanks are passed over. -/
theorem Scans.blank {c : Char} (hc : c = ' ' ∨ c = '\n') {rest : List Char} {ts : List Token}
    (h : Scans rest ts) : Scans (c :: rest) ts := by
  have hread : Readable c := by rcases hc with rfl | rfl <;> exact ⟨by decide, by decide, by decide⟩
  refine ⟨List.forall_mem_cons.mpr ⟨hread, h.readable⟩, fun offset lineStart => ?_⟩
  have hpiece : Token.piece offset lineStart c (SourceText.ofChars ([] ++ rest)) =
      { taken := ([] : List Char).length + 1, lexemes := [] } := by
    rcases hc with rfl | rfl <;> rfl
  obtain ⟨offset', lineStart', hoffset', heq⟩ := scanFrom_piece hpiece
  have hrest := h.at_ offset' lineStart'
  have hlt : offset < offset' := by
    have := c.utf8Size_pos
    simp only [SourceText.ofChars, List.map_cons, List.map_nil, SourceText.size, Glyph.size] at hoffset'
    omega
  have heq' : scanFrom offset lineStart (SourceText.ofChars (c :: rest)) =
      scanFrom offset' lineStart' (SourceText.ofChars rest) := heq
  constructor
  · rw [heq']
    exact hrest.tokens
  · rw [heq']
    exact hrest.complaints
  · rw [heq']
    exact hrest.redirects
  · rw [heq']
    intro l hl
    have := hrest.after l hl
    omega
  · rw [heq']
    intro l s hl hoffset hs
    have := hrest.after l hl
    omega

/-! ### Words -/

theorem isLetter_isNameChar {c : Char} (h : Text.isLetter c = true) : Text.isNameChar c = true := by
  rw [Text.isNameChar, h, Bool.true_or]

theorem isNameChar_byteOrderMark : Text.isNameChar byteOrderMark = false := by
  have hascii : Text.isAscii byteOrderMark = false := rfl
  -- The tables are searched as lists: an array would be walked anew for each of its entries.
  rw [Text.isNameChar, Text.isLetter, Text.isNameDigit, hascii, if_neg Bool.false_ne_true,
    if_neg Bool.false_ne_true, Text.inRanges, Text.inRanges, ← Array.any_toList, ← Array.any_toList]
  decide +kernel

theorem readable_of_isNameChar {c : Char} (h : Text.isNameChar c = true) : Readable c := by
  refine ⟨?_, fun hnul => ?_, ?_⟩
  · rintro rfl
    exact absurd h (by decide)
  · have hc : c = Char.ofNat 0 := Char.toNat_inj.mp hnul
    rw [hc] at h
    exact absurd h (by decide)
  · rintro rfl
    rw [isNameChar_byteOrderMark] at h
    cases h

theorem piece_word {c : Char} {cs rest : List Char} (hc : Text.isLetter c = true)
    (hcs : ∀ d ∈ cs, Text.isNameChar d = true) (hend : Ends Text.isNameChar rest)
    (offset lineStart : Nat) :
    piece offset lineStart c (SourceText.ofChars (cs ++ rest)) =
      { taken := cs.length + 1, lexemes := [⟨offset, Token.word (String.ofList (c :: cs))⟩] } := by
  have hblank : (c = ' ' || c = '\t' || c = '\n' || c = '\r') = false := by
    simp only [Bool.or_eq_false_iff, decide_eq_false_iff_not]
    refine ⟨⟨⟨?_, ?_⟩, ?_⟩, ?_⟩
    all_goals
      rintro rfl
      exact absurd hc (by decide)
  have htext : SourceText.charsWhile Text.isNameChar
      (.char c :: SourceText.ofChars (cs ++ rest)) = c :: cs := by
    refine @charsWhile_append _ (c :: cs) rest (fun d hd => ?_) hend
    rcases List.mem_cons.mp hd with rfl | hd
    · exact isLetter_isNameChar hc
    · exact hcs d hd
  rw [Token.piece]
  simp only [hblank, Bool.false_eq_true, if_false, hc, if_true, htext, List.length_cons]

theorem Scans.word {c : Char} {cs rest : List Char} {ts : List Token}
    (hc : Text.isLetter c = true) (hcs : ∀ d ∈ cs, Text.isNameChar d = true)
    (hend : Ends Text.isNameChar rest) (h : Scans rest ts) :
    Scans (c :: cs ++ rest) (Token.word (String.ofList (c :: cs)) :: ts) := by
  refine Scans.piece (piece_word hc hcs hend) (fun u => ?_) (fun _ _ => hc) ?_ h
  · unfold Token.word
    split <;> rfl
  · intro d hd
    rcases List.mem_cons.mp hd with rfl | hd
    · exact readable_of_isNameChar (isLetter_isNameChar hc)
    · exact readable_of_isNameChar (hcs d hd)

/-- Tests whether a text is a letter followed by letters and digits. -/
def isWord : List Char → Bool
  | c :: cs => Text.isLetter c && cs.all Text.isNameChar
  | [] => false

theorem exists_of_isWord {cs : List Char} (h : isWord cs = true) :
    ∃ d ds, cs = d :: ds ∧ Text.isLetter d = true ∧ ∀ e ∈ ds, Text.isNameChar e = true := by
  cases cs with
  | nil => cases h
  | cons d ds =>
    obtain ⟨hd, hds⟩ := Bool.and_eq_true_iff.mp h
    exact ⟨d, ds, rfl, hd, List.all_eq_true.mp hds⟩

theorem Scans.spelled {w : String} {rest : List Char} {t : Token} {ts : List Token}
    (hw : isWord w.toList = true) (ht : Token.word w = t) (hend : Ends Text.isNameChar rest)
    (h : Scans rest ts) : Scans (w.toList ++ rest) (t :: ts) := by
  obtain ⟨d, ds, hds, hletter, hchars⟩ := exists_of_isWord hw
  have hscan := h.word hletter hchars hend
  rw [← hds, String.ofList_toList, ht] at hscan
  exact hscan

/-! ### Operators -/

/-- The characters with which an operator goes on. -/
def operatorTails : List Char := ['=', '<', '>', '&', '|', '+', '-', '^', '.']

theorem mem_all (o : Operator) : o ∈ Operator.all := by
  cases o <;> decide

/-- What a look at all operators finds is so for each. -/
theorem of_all {P : Operator → Prop} (h : ∀ o ∈ Operator.all, P o) (o : Operator) : P o :=
  h o (mem_all o)

theorem of_all_mem {α : Type} {xs : Operator → List α} {P : Operator → α → Prop}
    [∀ o, DecidablePred (P o)] (h : ∀ o ∈ Operator.all, (xs o).all (fun x => decide (P o x)) = true)
    (o : Operator) : ∀ x ∈ xs o, P o x := fun x hx =>
  of_decide_eq_true (List.all_eq_true.mp (h o (mem_all o)) x hx)

/-- What one look at all operators finds of their spellings. -/
theorem spelling_facts : ∀ o : Operator, Operator.ofSpelling? o.spelling = some o ∧
    (0 < o.spelling.toList.length ∧ o.spelling.toList.length ≤ 3) ∧
    o.spelling.toList.tail.all (fun c => decide (c ∈ operatorTails)) = true ∧
    o.spelling.toList.all (fun c => decide (c ≠ '#' ∧ c.toNat ≠ 0 ∧ c ≠ byteOrderMark)) = true :=
  of_all (by decide +kernel)

theorem spelling_tail (o : Operator) : ∀ c ∈ o.spelling.toList.tail, c ∈ operatorTails := fun c hc =>
  of_decide_eq_true (List.all_eq_true.mp (spelling_facts o).2.2.1 c hc)

theorem ofSpelling?_spelling (o : Operator) : Operator.ofSpelling? o.spelling = some o :=
  (spelling_facts o).1

theorem spelling_inj {o p : Operator} (h : o.spelling.toList = p.spelling.toList) : o = p := by
  have heq := congrArg Operator.ofSpelling? (String.toList_inj.mp h)
  rw [ofSpelling?_spelling, ofSpelling?_spelling] at heq
  exact Option.some.inj heq

theorem charsWhile_true (cs : List Char) :
    SourceText.charsWhile (fun _ => true) (SourceText.ofChars cs) = cs := by
  have h := @charsWhile_append (fun _ => true) cs [] (fun _ _ => rfl) .nil
  rwa [List.append_nil] at h

theorem operators_sorted :
    operatorsByLength.Pairwise fun a b => b.spelling.length ≤ a.spelling.length := by
  unfold operatorsByLength
  refine (List.pairwise_mergeSort ?_ ?_ Operator.all).imp of_decide_eq_true
  · intro a b c hab hbc
    simp only [decide_eq_true_eq] at hab hbc ⊢
    omega
  · intro a b
    simp only [Bool.or_eq_true, decide_eq_true_eq]
    omega

/-- The operator that is found is the longest one. -/
theorem operatorAt?_eq {o : Operator} {cs : List Char} (hpre : o.spelling.toList <+: cs.take 3)
    (hmax : ∀ p : Operator, p.spelling.toList <+: cs.take 3 →
      p.spelling.toList.length ≤ o.spelling.toList.length) :
    operatorAt? (SourceText.ofChars cs) = some o := by
  have htake : (SourceText.ofChars cs).take 3 = SourceText.ofChars (cs.take 3) :=
    List.map_take.symm
  unfold operatorAt?
  simp only [htake, charsWhile_true]
  have hsome : (operatorsByLength.find? fun p => p.spelling.toList.isPrefixOf (cs.take 3)).isSome := by
    rw [List.find?_isSome]
    exact ⟨o, List.mem_mergeSort.mpr (mem_all o), List.isPrefixOf_iff_prefix.mpr hpre⟩
  obtain ⟨p, hp⟩ := Option.isSome_iff_exists.mp hsome
  rw [hp]
  obtain ⟨hspell, before, rest, hsplit, hbefore⟩ := List.find?_eq_some_iff_append.mp hp
  have hspell := List.isPrefixOf_iff_prefix.mp hspell
  have hle := hmax p hspell
  -- `o` stands at or after `p`, so it is not longer
  have hmem : o ∈ before ++ p :: rest := hsplit ▸ List.mem_mergeSort.mpr (mem_all o)
  have hge : o.spelling.toList.length ≤ p.spelling.toList.length := by
    rcases List.mem_append.mp hmem with hmem | hmem
    · have := hbefore o hmem
      rw [List.isPrefixOf_iff_prefix.mpr hpre] at this
      cases this
    · rcases List.mem_cons.mp hmem with rfl | hmem
      · exact Nat.le_refl _
      · have hsorted := operators_sorted
        rw [hsplit] at hsorted
        have h := (List.pairwise_cons.mp (List.pairwise_append.mp hsorted).2.1).1 o hmem
        rwa [String.length_toList, String.length_toList]
  have hsame : o.spelling.toList = p.spelling.toList := by
    rw [List.prefix_iff_eq_take.mp hpre, List.prefix_iff_eq_take.mp hspell]
    congr 1
    omega
  rw [spelling_inj hsame]

/-- The operators that no other one starts with, whatever comes after them. -/
def closed : List Operator :=
  [.lparen, .lbrack, .lbrace, .comma, .rparen, .rbrack, .rbrace, .semicolon, .tilde]

/-- The characters that go on with an operator: to a longer one, a comment or a number. -/
def goesOn (o : Operator) (c : Char) : Bool :=
  operatorTails.contains c || (o = .quo && (c = '/' || c = '*')) || (o = .period && c.isDigit)

/-- Nothing in the text goes on with an operator. -/
def Apart (o : Operator) (cs : List Char) : Prop := o ∈ closed ∨ Ends (goesOn o) cs

theorem closed_spelling {o p : Operator} (ho : o ∈ closed) (h : o.spelling.toList <+: p.spelling.toList) :
    p = o := by
  have hall : ∀ o ∈ closed, ∀ p ∈ Operator.all,
      o.spelling.toList.isPrefixOf p.spelling.toList = true → p = o := by decide +kernel
  exact hall o ho p (mem_all p) (List.isPrefixOf_iff_prefix.mpr h)

theorem spelling_length (o : Operator) : 0 < o.spelling.toList.length ∧ o.spelling.toList.length ≤ 3 :=
  (spelling_facts o).2.1

theorem spelling_ne_nil (o : Operator) : o.spelling.toList ≠ [] :=
  List.ne_nil_of_length_pos (spelling_length o).1

theorem readable_spelling (o : Operator) : ∀ c ∈ o.spelling.toList, Readable c := fun c hc => by
  obtain ⟨hhash, hnul, hmark⟩ := of_decide_eq_true (List.all_eq_true.mp (spelling_facts o).2.2.2 c hc)
  exact ⟨hhash, hnul, hmark⟩

theorem take_prefix_of_le {n : Nat} {ps cs : List Char} (h : ps <+: cs) (hn : ps.length ≤ n) :
    ps <+: cs.take n := by
  rw [List.prefix_take_iff]
  exact ⟨h, hn⟩

/-- An operator is found where nothing goes on with it. -/
theorem operatorAt?_append {o : Operator} {rest : List Char} (hapart : Apart o rest) :
    operatorAt? (SourceText.ofChars (o.spelling.toList ++ rest)) = some o := by
  refine operatorAt?_eq (take_prefix_of_le (List.prefix_append _ _) (spelling_length o).2) fun p hp => ?_
  have hp' : p.spelling.toList <+: o.spelling.toList ++ rest := hp.trans (List.take_prefix _ _)
  rcases Nat.lt_or_ge o.spelling.toList.length p.spelling.toList.length with hlt | hge
  · -- a longer operator goes on with a character of `rest`
    obtain ⟨more, hmore⟩ : o.spelling.toList <+: p.spelling.toList :=
      List.prefix_of_prefix_length_le (List.prefix_append _ _) hp' (by omega)
    cases more with
    | nil =>
      rw [List.append_nil] at hmore
      rw [hmore] at hlt
      omega
    | cons c more =>
      rcases hapart with hclosed | hends
      · have hsame := closed_spelling hclosed ⟨_, hmore⟩
        exact Nat.le_of_eq (by rw [hsame])
      · obtain ⟨d, ds, hd⟩ := List.exists_cons_of_ne_nil (spelling_ne_nil o)
        have htail : c ∈ operatorTails := by
          refine spelling_tail p c ?_
          rw [← hmore, hd]
          simp
        have hhead : rest.head? = some c := by
          rw [← hmore, List.prefix_append_right_inj] at hp'
          obtain ⟨tail, rfl⟩ := hp'
          rfl
        have hno := hends c hhead
        rw [goesOn, List.contains_iff_mem.mpr htail] at hno
        cases hno
  · exact hge

/-- The first character of an operator starts nothing else. -/
theorem operator_first : ∀ o : Operator, ∀ c ∈ o.spelling.toList.take 1,
    (c = ' ' || c = '\t' || c = '\n' || c = '\r') = false ∧ Text.isLetter c = false ∧
      c.isDigit = false ∧ c ≠ '"' ∧ c ≠ singleQuote ∧ c ≠ backQuote ∧
        (c = '.' → o = .period ∨ o = .ellipsis) ∧ (c = '/' → o = .quo ∨ o = .quoAssign) :=
  of_all_mem (by decide +kernel)

/-- The piece of an operator that nothing goes on with, unless it stands for two. -/
theorem piece_op {o : Operator} {c : Char} {cs rest : List Char} (hcs : o.spelling.toList = c :: cs)
    (hhalves : halves? o = none) (hplain : o ≠ .ellipsis ∧ o ≠ .quoAssign) (hapart : Apart o rest)
    (offset lineStart : Nat) :
    piece offset lineStart c (SourceText.ofChars (cs ++ rest)) =
      { taken := cs.length + 1, lexemes := [⟨offset, .op o⟩] } := by
  have hfound := operatorAt?_append hapart
  obtain ⟨hblank, hletter, hdigit, hdouble, hsingle, hback, hperiod, hslash⟩ :=
    operator_first o c (by rw [hcs]; exact List.mem_cons_self)
  have hlen : o.spelling.length = cs.length + 1 := by
    rw [← String.length_toList, hcs, List.length_cons]
  rw [hcs] at hfound
  have hnumber : (c.isDigit || (c = '.' &&
      (SourceText.ofChars (cs ++ rest)).head?.any (·.sat Char.isDigit))) = false := by
    rw [hdigit, Bool.false_or, Bool.and_eq_false_imp]
    intro hc
    have ho : o = .period := (hperiod (of_decide_eq_true hc)).resolve_right hplain.1
    subst ho
    cases hcs
    have hends : Ends (goesOn .period) rest := hapart.resolve_left (by decide)
    cases rest with
    | nil => rfl
    | cons d rest =>
      have hd := hends d rfl
      simp only [goesOn, Bool.or_eq_false_iff] at hd
      simpa [SourceText.ofChars, Glyph.sat] using hd.2
  have hcomment : ∀ d, d = '/' ∨ d = '*' →
      (c = '/' && (SourceText.ofChars (cs ++ rest)).head? = some (.char d)) = false := by
    intro d hd
    rw [Bool.and_eq_false_imp]
    intro hc
    have ho : o = .quo := (hslash (of_decide_eq_true hc)).resolve_right hplain.2
    subst ho
    cases hcs
    have hends : Ends (goesOn .quo) rest := hapart.resolve_left (by decide)
    rw [decide_eq_false_iff_not]
    intro hhead
    cases rest with
    | nil => cases hhead
    | cons d' rest =>
      cases hhead
      have hno := hends d rfl
      rcases hd with rfl | rfl <;> cases hno
  have hlexemes : operatorLexemes offset o = [⟨offset, .op o⟩] := by
    rw [operatorLexemes, hhalves]
  have hfound' : operatorAt? (.char c :: SourceText.ofChars (cs ++ rest)) = some o := hfound
  rw [Token.piece]
  simp only [hblank, hletter, hnumber, hcomment _ (.inl rfl), hcomment _ (.inr rfl), hdouble, hsingle,
    hback, hfound', hlexemes, hlen, Bool.false_eq_true, if_false]

/-- An operator that nothing goes on with is read as it is, unless it stands for two. -/
theorem Scans.op {o : Operator} {rest : List Char} {ts : List Token} (hhalves : halves? o = none)
    (hplain : o ≠ .ellipsis ∧ o ≠ .quoAssign) (hapart : Apart o rest) (h : Scans rest ts) :
    Scans (o.spelling.toList ++ rest) (.op o :: ts) := by
  obtain ⟨c, cs, hcs⟩ := List.exists_cons_of_ne_nil (spelling_ne_nil o)
  rw [hcs]
  exact Scans.piece (piece_op hcs hhalves hplain hapart) (fun u => rfl) (fun s hs => by cases hs)
    (hcs ▸ readable_spelling o) h

/-- The marks that nothing goes on with stand for themselves. -/
theorem plain_of_closed {o : Operator} (ho : o ∈ closed) :
    halves? o = none ∧ o ≠ .ellipsis ∧ o ≠ .quoAssign := by
  have hall : ∀ o ∈ closed, halves? o = none ∧ o ≠ .ellipsis ∧ o ≠ .quoAssign := by decide
  exact hall o ho

/-- A bracket or another mark that nothing goes on with. -/
theorem Scans.mark {o : Operator} {c : Char} {rest : List Char} {ts : List Token}
    (hc : o.spelling.toList = [c]) (ho : o ∈ closed) (h : Scans rest ts) :
    Scans (c :: rest) (.op o :: ts) := by
  have hscan := h.op (plain_of_closed ho).1 (plain_of_closed ho).2 (.inl ho)
  rw [hc] at hscan
  exact hscan

/-! ### Numbers -/

theorem isDigit_toNat {c : Char} (h : c.isDigit = true) : 48 ≤ c.toNat ∧ c.toNat < 58 := by
  simp only [Char.isDigit, Bool.and_eq_true, decide_eq_true_eq] at h
  have hlow := UInt32.le_iff_toNat_le.mp h.1
  have hhigh := UInt32.le_iff_toNat_le.mp h.2
  exact ⟨hlow, Nat.lt_succ_of_le hhigh⟩

theorem isDigit_ne_underscore {c : Char} (h : c.isDigit = true) : c ≠ '_' := by
  rintro rfl
  cases h

theorem isLetter_of_isDigit {c : Char} (h : c.isDigit = true) : Text.isLetter c = false := by
  obtain ⟨hlow, hhigh⟩ := isDigit_toNat h
  have hascii : Text.isAscii c = true := by simp [Text.isAscii]; omega
  have halpha : c.isAlpha = false := by
    delta Char.isAlpha Char.isUpper Char.isLower
    simp only [Bool.or_eq_false_iff, Bool.and_eq_false_imp,
      decide_eq_true_eq, decide_eq_false_iff_not, ge_iff_le, UInt32.le_iff_toNat_le]
    have hval : c.val.toNat = c.toNat := rfl
    simp only [hval, Char.reduceVal, UInt32.reduceToNat]
    omega
  rw [Text.isLetter, if_pos hascii, halpha]
  simp [isDigit_ne_underscore h]

theorem utf8Size_of_isDigit {c : Char} (h : c.isDigit = true) : c.utf8Size = 1 := by
  have hlt := (isDigit_toNat h).2
  have hle : c.val ≤ 0x7f := by
    rw [UInt32.le_iff_toNat_le]
    have hval : c.val.toNat = c.toNat := rfl
    rw [hval]
    exact Nat.le_of_lt (Nat.lt_of_lt_of_le hlt (by decide))
  rw [Char.utf8Size]
  exact if_pos hle

theorem utf8ByteSize_ofList {cs : List Char} (h : ∀ c ∈ cs, c.utf8Size = 1) :
    (String.ofList cs).utf8ByteSize = cs.length := by
  induction cs with
  | nil => rfl
  | cons c cs ih =>
    have hc := h c List.mem_cons_self
    have hcs := ih fun d hd => h d (List.mem_cons_of_mem _ hd)
    rw [String.ofList_cons, String.utf8ByteSize_append, String.utf8ByteSize_singleton, hc, hcs,
      List.length_cons]
    omega

theorem readable_of_isDigit {c : Char} (h : c.isDigit = true) : Readable c := by
  have hlow := (isDigit_toNat h).1
  refine ⟨?_, by omega, ?_⟩
  · rintro rfl
    cases h
  · rintro rfl
    cases h

/-- A character that numbers are written with, and that takes one byte. -/
structure IsFigure (c : Char) : Prop where
  number : NumberParts.isNumberChar c = true
  size : c.utf8Size = 1
  readable : Readable c

theorem isFigure_of_isDigit {c : Char} (h : c.isDigit = true) : IsFigure c where
  number := by rw [NumberParts.isNumberChar, Char.isAlphanum, h, Bool.or_true, Bool.true_or]
  size := utf8Size_of_isDigit h
  readable := readable_of_isDigit h

/-- The characters that would go on with a number or its suffix. -/
def isNumberTail (c : Char) : Bool := NumberParts.isNumberChar c || Text.isNameChar c

theorem Ends.of_or {p q : Char → Bool} {cs : List Char} (h : Ends (fun c => p c || q c) cs) :
    Ends p cs ∧ Ends q cs :=
  ⟨fun c hc => (Bool.or_eq_false_iff.mp (h c hc)).1, fun c hc => (Bool.or_eq_false_iff.mp (h c hc)).2⟩

theorem piece_number {c : Char} {cs tail rest : List Char} (hc : c.isDigit = true)
    (hchars : ∀ d ∈ c :: cs ++ tail, NumberParts.isNumberChar d = true)
    (hend : Ends NumberParts.isNumberChar rest) {t : Token} {offset : Nat}
    (hparts : (NumberParts.ofText (c :: cs ++ tail)).chars = c :: cs ∧
      (NumberParts.ofText (c :: cs ++ tail)).token = t ∧
        (NumberParts.ofText (c :: cs ++ tail)).complaints offset = []) (lineStart : Nat) :
    piece offset lineStart c (SourceText.ofChars (cs ++ (tail ++ rest))) =
      { taken := cs.length + 1, lexemes := [⟨offset, t⟩] } := by
  have hblank : (c = ' ' || c = '\t' || c = '\n' || c = '\r') = false := by
    simp only [Bool.or_eq_false_iff, decide_eq_false_iff_not]
    refine ⟨⟨⟨?_, ?_⟩, ?_⟩, ?_⟩
    all_goals
      rintro rfl
      exact absurd hc (by decide)
  have hletter := isLetter_of_isDigit hc
  have hnumber : (c.isDigit || (c = '.' &&
      (SourceText.ofChars (cs ++ (tail ++ rest))).head?.any (·.sat Char.isDigit))) = true := by
    rw [hc, Bool.true_or]
  have htext : SourceText.charsWhile NumberParts.isNumberChar
      (.char c :: SourceText.ofChars (cs ++ (tail ++ rest))) = c :: cs ++ tail := by
    have h := charsWhile_append hchars hend
    rwa [List.append_assoc] at h
  obtain ⟨hpartChars, htoken, hcomplaints⟩ := hparts
  rw [Token.piece]
  simp only [hblank, hletter, hnumber, Bool.false_eq_true, if_false, if_true, htext, hpartChars, htoken,
    hcomplaints, List.length_cons]

theorem Scans.bare {c : Char} {cs rest : List Char} {t : Token} {ts : List Token}
    (hchars : ∀ d ∈ c :: cs, IsFigure d) (htext : t.text = String.ofList (c :: cs))
    (hplain : ∀ s, t ≠ .name s)
    (hpiece : ∀ offset lineStart, Token.piece offset lineStart c (SourceText.ofChars (cs ++ rest)) =
      { taken := cs.length + 1, lexemes := [⟨offset, t⟩] })
    (hname : Ends Text.isNameChar rest) (h : Scans rest ts) : Scans (c :: cs ++ rest) (t :: ts) := by
  have hsizes : ∀ d ∈ c :: cs, d.utf8Size = 1 := fun d hd => (hchars d hd).size
  have hread : ∀ d ∈ c :: cs, Readable d := fun d hd => (hchars d hd).readable
  refine ⟨List.forall_mem_append.mpr ⟨hread, h.readable⟩, fun offset lineStart => ?_⟩
  obtain ⟨offset', lineStart', hoffset', heq⟩ := scanFrom_piece (hpiece offset lineStart)
  have hrest := h.at_ offset' lineStart'
  rw [size_ofChars_of_ascii hsizes] at hoffset'
  constructor
  · rw [heq]
    simp only [List.cons_append, List.nil_append]
    rw [joinSuffixes_number, List.map_cons, hrest.tokens]
    intro b hb hadjacent s hs
    -- a name right after the number would start with a letter
    have hoffset : b.offset = offset' := by
      rw [← hadjacent, hoffset']
      simp only [htext, utf8ByteSize_ofList hsizes]
    obtain ⟨d, hd, hletter⟩ := hrest.first b s hb hoffset hs
    have hnot := hname d hd
    rw [isLetter_isNameChar hletter] at hnot
    cases hnot
  · rw [heq]
    exact hrest.complaints
  · rw [heq]
    exact hrest.redirects
  · rw [heq]
    intro l hl
    cases hl
    exact Nat.le_refl offset
  · rw [heq]
    intro l s hl hoffset hs
    cases hl
    exact absurd hs (hplain s)

/-- A number and the name right after it are one token, when the name is a suffix. -/
theorem Scans.joined {c d : Char} {cs ds rest : List Char} {t t' : Token} {ts : List Token}
    (hchars : ∀ e ∈ c :: cs, IsFigure e) (htext : t.text = String.ofList (c :: cs))
    (hpiece : ∀ offset lineStart,
      Token.piece offset lineStart c (SourceText.ofChars (cs ++ (d :: ds ++ rest))) =
        { taken := cs.length + 1, lexemes := [⟨offset, t⟩] })
    (hd : Text.isLetter d = true) (hds : ∀ e ∈ ds, Text.isNameChar e = true)
    (hword : Token.word (String.ofList (d :: ds)) = .name (String.ofList (d :: ds)))
    (hjoin : withSuffix? t (.name (String.ofList (d :: ds))) = some t')
    (hname : Ends Text.isNameChar rest) (h : Scans rest ts) :
    Scans (c :: cs ++ d :: ds ++ rest) (t' :: ts) := by
  have hsizes : ∀ e ∈ c :: cs, e.utf8Size = 1 := fun e he => (hchars e he).size
  have hread : ∀ e ∈ c :: cs ++ d :: ds, Readable e := by
    intro e he
    rcases List.mem_append.mp he with he | he
    · exact (hchars e he).readable
    · rcases List.mem_cons.mp he with rfl | he
      · exact readable_of_isNameChar (isLetter_isNameChar hd)
      · exact readable_of_isNameChar (hds e he)
  refine ⟨List.forall_mem_append.mpr ⟨hread, h.readable⟩, fun offset lineStart => ?_⟩
  obtain ⟨offset₁, lineStart₁, hoffset₁, heq₁⟩ := scanFrom_piece (hpiece offset lineStart)
  obtain ⟨offset₂, lineStart₂, -, heq₂⟩ := scanFrom_piece (piece_word hd hds hname offset₁ lineStart₁)
  have hrest := h.at_ offset₂ lineStart₂
  rw [size_ofChars_of_ascii hsizes, ← utf8ByteSize_ofList hsizes, ← htext] at hoffset₁
  rw [heq₂, ← List.append_assoc] at heq₁
  constructor
  · rw [heq₁]
    simp only [hword, hoffset₁, List.cons_append, List.nil_append]
    rw [joinSuffixes_joined (a := ⟨offset, t⟩) hjoin, List.map_cons, hrest.tokens]
  · rw [heq₁]
    exact hrest.complaints
  · rw [heq₁]
    exact hrest.redirects
  · rw [heq₁]
    intro l hl
    cases hl
    exact Nat.le_refl offset
  · -- The number itself is no name.
    rw [heq₁]
    intro l s hl hoffset hs
    cases hl
    have ht : t = .name s := hs
    rw [ht] at hjoin
    cases hjoin

/-! ### Whole numbers -/

/-- Decimal digits without a needless zero at the start. -/
structure IsNumeral (ds : List Char) : Prop where
  digits : ∀ c ∈ ds, c.isDigit = true
  ne_nil : ds ≠ []
  zero : ds.head? = some '0' → ds = ['0']

/-- The suffixes that whole numbers are written with. -/
def suffixes : List (List Char) := [[], ['u'], ['l'], ['u', 'l']]

theorem isDigitOf_decimal {c : Char} (h : c.isDigit = true) : isDigitOf .decimal c = true := by
  rw [isDigitOf, h]
  simp

theorem takeWhile_digits {ds suffix : List Char} (hds : ∀ c ∈ ds, c.isDigit = true)
    (hsuffix : suffix ∈ suffixes) :
    (ds ++ suffix).takeWhile (isDigitOf .decimal) = ds ∧
      (ds ++ suffix).dropWhile (isDigitOf .decimal) = suffix := by
  have hall : ∀ c ∈ ds, isDigitOf .decimal c = true := fun c hc => isDigitOf_decimal (hds c hc)
  have hend : suffix.takeWhile (isDigitOf .decimal) = [] ∧
      suffix.dropWhile (isDigitOf .decimal) = suffix := by
    revert suffix
    decide
  rw [List.takeWhile_append_of_pos hall, List.dropWhile_append_of_pos hall, hend.1, hend.2]
  exact ⟨List.append_nil _, rfl⟩

/-- A number without a base, a fraction and an exponent. -/
def wholeParts (radix : Radix) (lead whole : List Char) : NumberParts :=
  { radix, lead, whole, point := [], fraction := [], mark := [], exponent := [], unit := [] }

theorem ofText_numeral {ds suffix : List Char} (hds : IsNumeral ds) (hsuffix : suffix ∈ suffixes) :
    NumberParts.ofText (ds ++ suffix) = wholeParts .zeroOctal ['0'] [] ∧ ds = ['0'] ∨
      NumberParts.ofText (ds ++ suffix) = wholeParts .decimal [] ds := by
  obtain ⟨c, cs, rfl⟩ := List.exists_cons_of_ne_nil hds.ne_nil
  by_cases hc : c = '0'
  · subst hc
    have hzero := hds.zero rfl
    cases hzero
    left
    simp only [suffixes, List.mem_cons, List.not_mem_nil, or_false] at hsuffix
    rcases hsuffix with rfl | rfl | rfl | rfl <;>
      simp [NumberParts.ofText, wholeParts, radixOf, isDigitOf]
  · right
    have hradix : radixOf (c :: cs ++ suffix) = (.decimal, 0) := by
      unfold radixOf
      split <;> simp_all
    obtain ⟨htake, hdrop⟩ := takeWhile_digits hds.digits hsuffix
    unfold NumberParts.ofText
    simp only [hradix, List.take_zero, List.drop_zero, htake, hdrop]
    simp only [suffixes, List.mem_cons, List.not_mem_nil, or_false] at hsuffix
    rcases hsuffix with rfl | rfl | rfl | rfl <;> simp [wholeParts]

theorem wholeParts_complaints {ds : List Char} (hds : IsNumeral ds) (offset : Nat) :
    (wholeParts .decimal [] ds).complaints offset = [] := by
  have hany : ∃ c ∈ ds, ¬ c = '_' := by
    obtain ⟨c, cs, rfl⟩ := List.exists_cons_of_ne_nil hds.ne_nil
    exact ⟨c, List.mem_cons_self, isDigit_ne_underscore (hds.digits c List.mem_cons_self)⟩
  have hbad : badDigit? .decimal ds = none := by
    rw [badDigit?, if_neg (by decide), List.findIdx?_eq_none_iff]
    intro c hc
    have hlt := (isDigit_toNat (hds.digits c hc)).2
    rw [Bool.and_eq_false_imp]
    intro _
    rw [decide_eq_false_iff_not]
    exact Nat.not_le.mpr hlt
  have hnone : ¬ '_' ∈ ds := fun hmem => isDigit_ne_underscore (hds.digits _ hmem) rfl
  simp only [NumberParts.complaints, NumberParts.token, NumberParts.chars, wholeParts]
  simp [hany, hbad, hnone]

theorem piece_numeral {c : Char} {cs suffix rest : List Char} (hds : IsNumeral (c :: cs))
    (hsuffix : suffix ∈ suffixes) (hend : Ends NumberParts.isNumberChar rest)
    (offset lineStart : Nat) :
    piece offset lineStart c (SourceText.ofChars (cs ++ (suffix ++ rest))) =
      { taken := cs.length + 1, lexemes := [⟨offset, .int (String.ofList (c :: cs))⟩] } := by
  refine piece_number (hds.digits c List.mem_cons_self) (fun d hd => ?_) hend ?_ lineStart
  · have hletters : ∀ s ∈ suffixes, ∀ e ∈ s, NumberParts.isNumberChar e = true := by
      simp [suffixes, NumberParts.isNumberChar]
    rcases List.mem_append.mp hd with hd | hd
    · exact (isFigure_of_isDigit (hds.digits d hd)).number
    · exact hletters suffix hsuffix d hd
  · rcases ofText_numeral hds hsuffix with ⟨hparts, hzero⟩ | hparts
    · cases hzero
      rw [hparts]
      refine ⟨rfl, rfl, ?_⟩
      simp [wholeParts, NumberParts.complaints, NumberParts.token, NumberParts.chars, badDigit?]
    · rw [hparts]
      refine ⟨?_, ?_, wholeParts_complaints hds offset⟩
      · simp [wholeParts, NumberParts.chars]
      · simp [wholeParts, NumberParts.token, NumberParts.chars]

/-- A number without a suffix is one token. -/
theorem Scans.bareNumber {ds rest : List Char} {ts : List Token} (hds : IsNumeral ds)
    (hend : Ends isNumberTail rest) (h : Scans rest ts) :
    Scans (ds ++ rest) (.int (String.ofList ds) :: ts) := by
  obtain ⟨hnumber, hname⟩ := hend.of_or
  obtain ⟨c, cs, rfl⟩ := List.exists_cons_of_ne_nil hds.ne_nil
  refine h.bare (fun d hd => isFigure_of_isDigit (hds.digits d hd)) rfl nofun
    (fun offset lineStart => ?_) hname
  have hpiece := piece_numeral hds List.mem_cons_self hnumber offset lineStart
  rw [List.nil_append] at hpiece
  exact hpiece

/-- A plus belongs to a number only after the letter of an exponent, so it ends a zero. -/
theorem ofText_zeroPlus (cs : List Char) :
    NumberParts.ofText ('0' :: '+' :: cs) = wholeParts .zeroOctal ['0'] [] := by
  have hmark : "eEpP".contains '+' = false := by simp
  cases cs with
  | nil => simp [NumberParts.ofText, radixOf, isDigitOf, wholeParts, hmark]
  | cons c cs =>
    by_cases hplus : c = '+'
    · subst hplus
      simp [NumberParts.ofText, radixOf, isDigitOf, wholeParts, hmark]
    · by_cases hminus : c = '-'
      · subst hminus
        simp [NumberParts.ofText, radixOf, isDigitOf, wholeParts, hmark]
      · simp [NumberParts.ofText, radixOf, isDigitOf, wholeParts, hmark, hplus, hminus]

theorem Scans.zeroPlus {rest : List Char} {ts : List Token} (h : Scans ('+' :: rest) ts) :
    Scans ('0' :: '+' :: rest) (.int "0" :: ts) := by
  have hdigit : ∀ c ∈ ['0'], c.isDigit = true := fun c hc => by rw [List.mem_singleton.mp hc]; rfl
  refine h.bare (fun d hd => isFigure_of_isDigit (hdigit d hd)) rfl nofun (fun offset lineStart => ?_)
    (.cons (by decide) _)
  have hchars : SourceText.charsWhile NumberParts.isNumberChar
      (.char '0' :: SourceText.ofChars ([] ++ '+' :: rest)) =
      '0' :: '+' :: SourceText.charsWhile NumberParts.isNumberChar (SourceText.ofChars rest) := by
    simp [SourceText.ofChars, SourceText.charsWhile, NumberParts.isNumberChar]
  have hletter : Text.isLetter '0' = false := by decide
  have hdigit : Char.isDigit '0' = true := by decide
  have hcomplaints : (wholeParts .zeroOctal ['0'] []).complaints offset = [] := by
    simp [wholeParts, NumberParts.complaints, NumberParts.token, NumberParts.chars, badDigit?]
  rw [Token.piece]
  simp only [hchars, ofText_zeroPlus, hletter, hdigit, hcomplaints]
  rfl

/-- The suffixes are words that numbers take. -/
theorem suffix_word {c : Char} {cs : List Char} (h : c :: cs ∈ suffixes) :
    Text.isLetter c = true ∧ (∀ d ∈ cs, Text.isNameChar d = true) ∧
      Token.word (String.ofList (c :: cs)) = .name (String.ofList (c :: cs)) ∧
        isIntSuffix (String.ofList (c :: cs)) = true := by
  simp only [suffixes, List.mem_cons, List.not_mem_nil, or_false, List.cons.injEq, reduceCtorEq,
    false_or] at h
  rcases h with ⟨rfl, rfl⟩ | ⟨rfl, rfl⟩ | ⟨rfl, rfl⟩
  all_goals
    exact ⟨by decide, forall_mem_of_all (by decide), by decide +kernel, by decide +kernel⟩

theorem Scans.number {ds suffix rest : List Char} {ts : List Token} (hds : IsNumeral ds)
    (hsuffix : suffix ∈ suffixes) (hend : Ends isNumberTail rest) (h : Scans rest ts) :
    Scans (ds ++ suffix ++ rest) (.int (String.ofList (ds ++ suffix)) :: ts) := by
  cases suffix with
  | nil =>
    rw [List.append_nil]
    exact h.bareNumber hds hend
  | cons d suffix =>
    obtain ⟨hnumber, hname⟩ := hend.of_or
    obtain ⟨hd, hds', hword, hint⟩ := suffix_word hsuffix
    obtain ⟨c, cs, rfl⟩ := List.exists_cons_of_ne_nil hds.ne_nil
    refine h.joined (fun e he => isFigure_of_isDigit (hds.digits e he)) rfl
      (piece_numeral hds hsuffix hnumber) hd hds' hword ?_ hname
    rw [withSuffix?, if_pos hint, String.ofList_append]

/-! ### Operands -/

/-- The characters that words, numbers and brackets start with. -/
def startsOperand (c : Char) : Bool := Text.isLetter c || c.isDigit || c = '('

theorem goesOn_operand {o : Operator} (ho : o ≠ .period) {c : Char} (hc : startsOperand c = true) :
    goesOn o c = false := by
  have htails : ∀ d ∈ '/' :: '*' :: operatorTails, startsOperand d = false :=
    forall_mem_of_all (by decide)
  have hne : ∀ d ∈ '/' :: '*' :: operatorTails, c ≠ d := by
    rintro d hd rfl
    rw [htails c hd] at hc
    cases hc
  have hmem : operatorTails.contains c = false := by
    rw [Bool.eq_false_iff]
    intro hmem
    have hmem := List.contains_iff_mem.mp hmem
    exact hne c (List.mem_cons_of_mem _ (List.mem_cons_of_mem _ hmem)) rfl
  have hslash := hne '/' (by simp)
  have hstar := hne '*' (by simp)
  rw [goesOn, hmem]
  simp [ho, hslash, hstar]

theorem isDigit_of_isLetter {c : Char} (h : Text.isLetter c = true) : c.isDigit = false := by
  cases hdigit : c.isDigit with
  | false => rfl
  | true =>
    rw [isLetter_of_isDigit hdigit] at h
    cases h

theorem Scans.before {o : Operator} {cs : List Char} {ts : List Token} (hhalves : halves? o = none)
    (hplain : o ≠ .ellipsis ∧ o ≠ .quoAssign ∧ o ≠ .period)
    (hcs : cs.head?.any startsOperand = true) (h : Scans cs ts) :
    Scans (o.spelling.toList ++ cs) (.op o :: ts) := by
  refine h.op hhalves ⟨hplain.1, hplain.2.1⟩ (.inr fun c hc => ?_)
  rw [hc] at hcs
  exact goesOn_operand hplain.2.2 hcs

theorem Scans.field {w : String} {rest : List Char} {t : Token} {ts : List Token}
    (hw : isWord w.toList = true) (ht : Token.word w = t) (hend : Ends Text.isNameChar rest)
    (h : Scans rest ts) : Scans ('.' :: (w.toList ++ rest)) (.op .period :: t :: ts) := by
  have hword := h.spelled hw ht hend
  refine hword.op (o := .period) rfl (by decide) (.inr fun c hc => ?_)
  obtain ⟨d, ds, hds, hletter, -⟩ := exists_of_isWord hw
  rw [hds] at hc
  cases hc
  have hoperand : startsOperand c = true := by
    rw [startsOperand, hletter, Bool.true_or, Bool.true_or]
  have hgoes := goesOn_operand (o := .sub) (by decide) hoperand
  rw [goesOn] at hgoes ⊢
  simpa [isDigit_of_isLetter hletter] using hgoes

/-! ### Lists -/

/-- The tokens of things that commas divide. -/
def commaTokens {α : Type} (tokens : α → List Token) : List α → List Token
  | [] => []
  | [x] => tokens x
  | x :: y :: xs => tokens x ++ .op .comma :: commaTokens tokens (y :: xs)

/-- Things that commas divide, before a closing bracket. -/
theorem Scans.commas {α : Type} (text : α → String) (tokens : α → List Token) {xs : List α}
    {close : Char} (hxs : ∀ x ∈ xs, ∀ c rest ts, c = ',' ∨ c = close → Scans (c :: rest) ts →
      Scans ((text x).toList ++ c :: rest) (tokens x ++ ts)) {rest : List Char} {ts : List Token}
    (h : Scans (close :: rest) ts) :
    Scans ((", ".intercalate (xs.map text)).toList ++ close :: rest) (commaTokens tokens xs ++ ts) := by
  induction xs with
  | nil => exact h
  | cons x xs ih =>
    have hx := hxs x List.mem_cons_self
    have hrest := ih fun y hy => hxs y (List.mem_cons_of_mem _ hy)
    cases xs with
    | nil =>
      rw [List.map_singleton, String.intercalate_singleton]
      exact hx close rest ts (.inr rfl) h
    | cons y ys =>
      have hcomma := (hrest.blank (c := ' ') (.inl rfl)).mark (c := ',') (o := .comma) rfl (by decide)
      have hall := hx ',' _ _ (.inl rfl) hcomma
      have hsep : ", ".toList = [',', ' '] := rfl
      rw [List.map_cons] at hall ⊢
      rw [List.map_cons, String.intercalate_cons_cons, String.toList_append, String.toList_append,
        hsep, commaTokens]
      simpa using hall

/-! ### Spaced texts -/

/-- The tokens that are read back from their texts: words, whole numbers, and operators that do
not stand for two. -/
def isLegible : Token → Bool
  | name w => isWord w.toList && Token.word w = name w
  | keyword k => isWord k.spelling.toList && Token.word k.spelling = keyword k
  | int t =>
    t.toList.all Char.isDigit && !t.toList.isEmpty &&
      (t.toList.head? ≠ some '0' || t.toList = ['0'])
  | op o => (halves? o).isNone && o ≠ .ellipsis && o ≠ .quoAssign
  | _ => false

/-- A text in which a blank follows every token. -/
def spaced (ts : List Token) : List Char := ts.flatMap fun t => t.text.toList ++ [' ']

theorem isNumberTail_of_mark {c : Char} (hmark : "._+-".contains c = false)
    (halnum : c.isAlphanum = false) (hname : Text.isNameChar c = false) : isNumberTail c = false := by
  rw [isNumberTail, NumberParts.isNumberChar, halnum, hmark, hname]
  rfl

theorem isNumberTail_blank : isNumberTail ' ' = false :=
  isNumberTail_of_mark (by simp) (by decide) (by decide)

theorem goesOn_blank (o : Operator) : goesOn o ' ' = false := by
  simp [goesOn, operatorTails, Char.isDigit]

/-- A text in which a blank follows every token is read as these tokens. -/
theorem scans_spaced {ts : List Token} (h : ∀ t ∈ ts, t.isLegible = true) :
    Scans (spaced ts) ts := by
  induction ts with
  | nil => exact Scans.nil
  | cons t ts ih =>
    have hrest : Scans (' ' :: spaced ts) ts :=
      (ih fun u hu => h u (List.mem_cons_of_mem _ hu)).blank (.inl rfl)
    have ht := h t List.mem_cons_self
    have hcons : spaced (t :: ts) = t.text.toList ++ ' ' :: spaced ts := by
      simp [spaced]
    rw [hcons]
    cases t with
    | name w =>
      simp only [isLegible, Bool.and_eq_true, decide_eq_true_eq] at ht
      exact hrest.spelled ht.1 ht.2 (.cons (by decide) _)
    | keyword k =>
      simp only [isLegible, Bool.and_eq_true, decide_eq_true_eq] at ht
      exact hrest.spelled ht.1 ht.2 (.cons (by decide) _)
    | int s =>
      simp only [isLegible, Bool.and_eq_true, Bool.or_eq_true, decide_eq_true_eq] at ht
      have hds : IsNumeral s.toList := by
        refine ⟨List.all_eq_true.mp ht.1.1, by simpa using ht.1.2, fun hzero => ?_⟩
        exact ht.2.resolve_left (by simpa using hzero)
      have hscan := hrest.bareNumber hds (.cons isNumberTail_blank _)
      rw [String.ofList_toList] at hscan
      exact hscan
    | op o =>
      simp only [isLegible, Bool.and_eq_true, decide_eq_true_eq,
        Option.isNone_iff_eq_none] at ht
      exact hrest.op ht.1.1 ⟨ht.1.2, ht.2⟩ (.inr (.cons (goesOn_blank o) _))
    | _ => cases ht

end KernelForge.Token
