/-
Comments, and what is left of a source when the text of one is hidden.

Directives are found line by line, before the scanner knows what a comment is.  So the lines between the
marks of a comment are lines as others are: directives among them are blanked, pragmas noted, and others
refused.  What is left of the comment is then read in one piece, and all that this piece gives are
complaints: no lexeme comes from it, and the scanner goes on after it wherever the comment is closed.

Nothing before the comment is read in another way, either, when its text is hidden.  A piece ends before
the comment, and no piece is found by looking further ahead than to the opening mark.
-/
import KernelForge.Proofs.Token.Tiles
import Mathlib.Data.List.DropRight
import Mathlib.Tactic.Tauto

namespace KernelForge.Token

open SourceText (size_append)

/-! ### What is read before a comment -/

section Locality

variable {a x y : SourceText} {p : Char → Bool} {offset lineStart start : Nat} {quote : Char}

/-- Characters of a kind are counted up to the first slash. -/
theorem charsWhile_take_slash (hp : p '/' = false) (n : Nat) :
    SourceText.charsWhile p ((a ++ .char '/' :: x).take n) = SourceText.charsWhile p (a.take n) := by
  induction a generalizing n with
  | nil =>
    cases n with
    | zero => rfl
    | succ n => simp [SourceText.charsWhile, hp]
  | cons d a ih =>
    cases n with
    | zero => rfl
    | succ n =>
      cases d with
      | stray b => rfl
      | char c => simp only [List.cons_append, List.take_succ_cons, SourceText.charsWhile, ih n]

theorem charsWhile_slash (hp : p '/' = false) :
    SourceText.charsWhile p (a ++ .char '/' :: x) = SourceText.charsWhile p a := by
  have h := charsWhile_take_slash (a := a) (x := x) hp (a ++ .char '/' :: x).length
  rwa [List.take_length, List.take_of_length_le (by simp)] at h

theorem length_charsWhile_le (t : SourceText) : (t.charsWhile p).length ≤ t.length := by
  have h := (prefix_charsWhile p t).length_le
  rwa [SourceText.ofChars, List.length_map] at h

/-- The digits of an escape sequence end before a slash, so what follows the slash does not matter. -/
theorem escapeDigits_slash (lead count base limit : Nat) :
    escapeDigits start lead count base limit (a ++ .char '/' :: y) =
        escapeDigits start lead count base limit (a ++ .char '/' :: x) ∧
      (escapeDigits start lead count base limit (a ++ .char '/' :: x)).taken ≤ lead + a.length := by
  have hslash : isDigitBelow base '/' = false := rfl
  have hlength : (SourceText.charsWhile (isDigitBelow base) (a.take count)).length ≤ a.length :=
    (length_charsWhile_le _).trans (List.length_take_le' _ _)
  unfold escapeDigits
  rw [charsWhile_take_slash hslash, charsWhile_take_slash hslash]
  simp only [List.drop_append_of_le_length hlength]
  constructor
  · cases a.drop (SourceText.charsWhile (isDigitBelow base) (a.take count)).length <;> rfl
  · split
    · exact Nat.add_le_add_left hlength _
    · split <;> exact Nat.add_le_add_left hlength _

theorem escapeSequence_slash (hquote : quote ≠ '/') :
    escapeSequence quote start (a ++ .char '/' :: y) = escapeSequence quote start (a ++ .char '/' :: x) ∧
      (escapeSequence quote start (a ++ .char '/' :: x)).taken ≤ a.length := by
  cases a with
  | nil =>
    have hoctal : isDigitBelow 8 '/' = false := rfl
    simp [escapeSequence, Ne.symm hquote, hoctal]
  | cons g a =>
    cases g with
    | stray b => exact ⟨rfl, Nat.zero_le _⟩
    | char c =>
      simp only [List.cons_append, escapeSequence, List.length_cons]
      have hoctal := @escapeDigits_slash (.char c :: a) x y start 0 3 8 255
      have hcode := fun count limit => @escapeDigits_slash a x y start 1 count 16 limit
      simp only [List.cons_append, List.length_cons] at hoctal
      split
      · exact ⟨rfl, Nat.le_add_left _ _⟩
      · split
        · exact ⟨hoctal.1, by omega⟩
        · split
          · exact ⟨(hcode 2 255).1, Nat.add_comm 1 _ ▸ (hcode 2 255).2⟩
          · split
            · exact ⟨(hcode 4 0x10ffff).1, Nat.add_comm 1 _ ▸ (hcode 4 0x10ffff).2⟩
            · split
              · exact ⟨(hcode 8 0x10ffff).1, Nat.add_comm 1 _ ▸ (hcode 8 0x10ffff).2⟩
              · exact ⟨rfl, Nat.zero_le _⟩

theorem inside_slash (hquote : quote ≠ '/')
    (h : (inside quote offset (a ++ .char '/' :: x)).taken ≤ a.length) :
    inside quote offset (a ++ .char '/' :: y) = inside quote offset (a ++ .char '/' :: x) := by
  induction hn : a.length using Nat.strongRecOn generalizing a offset with
  | ind n ih =>
    cases a with
    | nil =>
      rw [List.nil_append, inside, if_neg (by decide), if_neg (by simpa using Ne.symm hquote)] at h
      simp at h
    | cons g a =>
      rw [List.cons_append, List.cons_append, inside, inside]
      rw [List.cons_append, inside] at h
      dsimp only at h ⊢
      split
      · rfl
      · rename_i hline
        split
        · rfl
        · rename_i hclose
          rw [if_neg hline, if_neg hclose] at h
          have hescape : (if g = .char '\\' then escapeSequence quote (offset + g.size) (a ++ .char '/' :: y)
                else ⟨0, []⟩) =
              (if g = .char '\\' then escapeSequence quote (offset + g.size) (a ++ .char '/' :: x)
                else ⟨0, []⟩) ∧
                (if g = .char '\\' then escapeSequence quote (offset + g.size) (a ++ .char '/' :: x)
                  else ⟨0, []⟩).taken ≤ a.length := by
            split
            · exact escapeSequence_slash hquote
            · exact ⟨rfl, Nat.zero_le _⟩
          rw [hescape.1]
          generalize (if g = .char '\\' then escapeSequence quote (offset + g.size) (a ++ .char '/' :: x)
            else ⟨0, []⟩) = escape at h hescape ⊢
          have htaken := hescape.2
          rw [List.drop_append_of_le_length htaken, List.take_append_of_le_length htaken] at h ⊢
          rw [List.drop_append_of_le_length htaken, List.take_append_of_le_length htaken]
          have hdrop : (a.drop escape.taken).length = a.length - escape.taken := List.length_drop
          rw [List.length_cons] at hn h
          dsimp only at h
          rw [ih (a.drop escape.taken).length (by omega) (by omega) rfl]

/-- A stretch that is over before a slash. -/
theorem takeWhile_slash {q : Glyph → Bool} (hq : q (.char '/') = true)
    (h : ((a ++ .char '/' :: x).takeWhile q).length ≤ a.length) (y : SourceText) :
    (a ++ .char '/' :: y).takeWhile q = a.takeWhile q ∧ (a.takeWhile q).length < a.length := by
  have hshort : (a.takeWhile q).length ≠ a.length := by
    intro hall
    rw [List.takeWhile_append, if_pos hall, List.takeWhile_cons, if_pos hq, List.length_append,
      List.length_cons] at h
    omega
  refine ⟨by rw [List.takeWhile_append, if_neg hshort], ?_⟩
  exact lt_of_le_of_ne (List.takeWhile_prefix q).length_le hshort

theorem readRaw_slash (hquote : quote ≠ '/')
    (h : (readRaw quote offset (a ++ .char '/' :: x)).taken ≤ a.length + 1) :
    readRaw quote offset (a ++ .char '/' :: y) = readRaw quote offset (a ++ .char '/' :: x) := by
  have hq : decide (Glyph.char '/' ≠ .char quote) = true := by simpa using Ne.symm hquote
  have hbody : ((a ++ .char '/' :: x).takeWhile fun g => decide (g ≠ .char quote)).length ≤ a.length := by
    unfold readRaw at h
    dsimp only at h
    split at h <;> dsimp only at h <;> omega
  obtain ⟨hx, hshort⟩ := takeWhile_slash hq hbody x
  have hy := (takeWhile_slash hq hbody y).1
  unfold readRaw
  simp only [hx, hy, List.length_append, Nat.lt_add_right _ hshort, if_true]

theorem lineComment_slash (h : (lineComment offset lineStart (a ++ .char '/' :: x)).taken ≤ a.length + 2) :
    lineComment offset lineStart (a ++ .char '/' :: y) =
      lineComment offset lineStart (a ++ .char '/' :: x) := by
  have hq : decide (Glyph.char '/' ≠ .char '\n') = true := by decide
  have hbody : ((a ++ .char '/' :: x).takeWhile fun g => decide (g ≠ .char '\n')).length ≤ a.length := by
    unfold lineComment at h
    dsimp only at h
    omega
  obtain ⟨hx, hshort⟩ := takeWhile_slash hq hbody x
  have hy := (takeWhile_slash hq hbody y).1
  unfold lineComment
  simp only [hx, hy, List.length_append, Nat.lt_add_right _ hshort, if_true]

/-- The first closing mark is found. -/
theorem blockLength?_of_first {body : SourceText} (h : ¬ [Glyph.char '*', .char '/'] <:+: body ++ [Glyph.char '*'])
    (rest : SourceText) : blockLength? (body ++ Glyph.char '*' :: .char '/' :: rest) = some (body.length + 2) := by
  induction body with
  | nil => rfl
  | cons g body ih =>
    rw [List.cons_append, List.infix_cons_iff, not_or] at h
    rw [List.cons_append, blockLength?.eq_2, ih h.2]
    · rfl
    · intro after hg hafter
      refine h.1 ?_
      cases body with
      | nil => cases hafter
      | cons d body =>
        cases hafter
        rw [hg]
        exact ⟨_, rfl⟩

/-- What the text of a comment says about places. -/
def placement (offset : Nat) (body : SourceText) : List Complaint × Option Source.Redirect :=
  match afterLine? body with
  | some rest => redirect (offset + 7) (offset + 4 + body.size) (offset + 4 + body.size) rest
  | none => ([], none)

/-- A comment is what stands before its first closing mark. -/
theorem blockComment_of_first {body : SourceText} (h : ¬ [Glyph.char '*', .char '/'] <:+: body ++ [Glyph.char '*'])
    (rest : SourceText) : blockComment offset (body ++ Glyph.char '*' :: .char '/' :: rest) =
      ⟨body.length + 4, (placement offset body).1, (placement offset body).2⟩ := by
  have htake : (body ++ Glyph.char '*' :: .char '/' :: rest).take (body.length + 2) =
      body ++ [Glyph.char '*', .char '/'] := List.take_length_add_append 2
  have hsize : offset + 2 + SourceText.size (body ++ [Glyph.char '*', .char '/']) = offset + 4 + body.size := by
    have hmark : SourceText.size [Glyph.char '*', .char '/'] = 2 := rfl
    rw [size_append, hmark]
    omega
  unfold blockComment placement
  rw [blockLength?_of_first h]
  dsimp only
  rw [htake, hsize, Nat.add_sub_cancel, List.take_left]
  congr 1
  omega

theorem blockComment_slash (h : (blockComment offset (a ++ Glyph.char '/' :: x)).taken ≤ a.length + 2) :
    blockComment offset (a ++ Glyph.char '/' :: y) = blockComment offset (a ++ Glyph.char '/' :: x) := by
  cases hn : blockLength? (a ++ Glyph.char '/' :: x) with
  | none =>
    rw [blockComment, hn] at h
    simp only [List.length_append, List.length_cons] at h
    omega
  | some n =>
    obtain ⟨body, rest, hsplit, rfl, hbody⟩ := exists_of_blockLength? hn
    have hshort : body.length + 2 ≤ a.length := by
      rw [blockComment, hn] at h
      dsimp only at h
      omega
    obtain ⟨after, rfl⟩ : body ++ [Glyph.char '*', .char '/'] <+: a := by
      refine List.prefix_of_prefix_length_le ⟨rest, ?_⟩ (List.prefix_append a (.char '/' :: x)) ?_
      · rw [hsplit, List.append_assoc]
        rfl
      · simpa using hshort
    have hcomment : ∀ z : SourceText, blockComment offset (body ++ [Glyph.char '*', .char '/'] ++ after ++ z) =
        ⟨body.length + 4, (placement offset body).1, (placement offset body).2⟩ := by
      intro z
      rw [List.append_assoc, List.append_assoc]
      exact blockComment_of_first hbody _
    rw [hcomment, hcomment]

theorem readString_slash (h : (readString offset (a ++ Glyph.char '/' :: x)).taken ≤ a.length + 1) :
    readString offset (a ++ .char '/' :: y) = readString offset (a ++ .char '/' :: x) := by
  unfold readString at h ⊢
  rw [inside_slash (y := y) (x := x) (by decide) (by dsimp only at h; omega)]

theorem readChar_slash (hquote : quote ≠ '/')
    (h : (readChar quote offset (a ++ .char '/' :: x)).taken ≤ a.length + 1) :
    readChar quote offset (a ++ .char '/' :: y) = readChar quote offset (a ++ .char '/' :: x) := by
  unfold readChar at h ⊢
  rw [inside_slash (y := y) (x := x) hquote (by dsimp only at h; omega)]

theorem quotationPiece_slash {c : Char} {r : Read} {kind : String → Token}
    (h : r.taken ≤ a.length + 1) :
    quotationPiece offset (.char c :: (a ++ .char '/' :: y)) kind r =
      quotationPiece offset (.char c :: (a ++ .char '/' :: x)) kind r := by
  have htake : ∀ z : SourceText, (Glyph.char c :: (a ++ z)).take r.taken = (Glyph.char c :: a).take r.taken :=
    fun z => List.take_append_of_le_length (show r.taken ≤ (Glyph.char c :: a).length by simpa using h)
  unfold quotationPiece
  rw [htake, htake]

/-- A choice between pieces, made twice, when each piece that is over in time is the same. -/
theorem Piece.choice {c : Prop} [Decidable c] {b b' e e' : Piece} {n : Nat}
    (h : Piece.taken (if c then b else e) ≤ n) (hb : c → b.taken ≤ n → b' = b)
    (he : e.taken ≤ n → e' = e) :
    (if c then b' else e') = if c then b else e := by
  split
  · rename_i hc
    rw [if_pos hc] at h
    exact hb hc h
  · rename_i hc
    rw [if_neg hc] at h
    exact he h

/-- **A piece that is over before a comment** does not depend on what the comment says. -/
theorem piece_before_comment {c : Char}
    (h : (piece offset lineStart c (a ++ Glyph.char '/' :: .char '*' :: x)).taken ≤ a.length + 1) :
    piece offset lineStart c (a ++ Glyph.char '/' :: .char '*' :: y) =
      piece offset lineStart c (a ++ Glyph.char '/' :: .char '*' :: x) := by
  have hname : ∀ z : SourceText, SourceText.charsWhile Text.isNameChar (Glyph.char c :: (a ++ Glyph.char '/' :: z)) =
      SourceText.charsWhile Text.isNameChar (.char c :: a) := fun z =>
    charsWhile_slash (a := .char c :: a) (by decide)
  have hnumber : ∀ z : SourceText,
      SourceText.charsWhile NumberParts.isNumberChar (Glyph.char c :: (a ++ Glyph.char '/' :: z)) =
        SourceText.charsWhile NumberParts.isNumberChar (.char c :: a) := fun z =>
    charsWhile_slash (a := .char c :: a) (by simp [NumberParts.isNumberChar])
  have hhead : ∀ z : SourceText, (a ++ Glyph.char '/' :: z).head? = (a ++ [Glyph.char '/']).head? := by
    intro z
    cases a <;> rfl
  have hoperator : ∀ z : SourceText, operatorAt? (Glyph.char c :: (a ++ Glyph.char '/' :: .char '*' :: z)) =
      operatorAt? (Glyph.char c :: (a ++ [Glyph.char '/', .char '*'])) := by
    intro z
    have htake : (Glyph.char c :: (a ++ Glyph.char '/' :: .char '*' :: z)).take 3 =
        (Glyph.char c :: (a ++ [Glyph.char '/', .char '*'])).take 3 := by
      rcases a with _ | ⟨d, _ | ⟨e, a⟩⟩ <;> rfl
    rw [operatorAt?, operatorAt?, htake]
  unfold piece at h ⊢
  simp only [hname, hnumber, hhead, hoperator] at h ⊢
  refine Piece.choice h (fun _ _ => rfl) fun h => ?_
  refine Piece.choice h (fun _ _ => rfl) fun h => ?_
  refine Piece.choice h (fun _ _ => rfl) fun h => ?_
  refine Piece.choice h (fun _ h => ?_) fun h => ?_
  · rw [readString_slash h]
    exact quotationPiece_slash h
  refine Piece.choice h (fun _ h => ?_) fun h => ?_
  · rw [readChar_slash (by decide) h]
    exact quotationPiece_slash h
  refine Piece.choice h (fun _ h => ?_) fun h => ?_
  · rw [readRaw_slash (by decide) h]
    exact quotationPiece_slash h
  -- other comments start with two glyphs, and the second is not that of this comment
  refine Piece.choice h (fun _ h => ?_) fun h => Piece.choice h (fun hblock h => ?_) fun _ => rfl
  · cases a with
    | nil =>
      simp only [lineComment, List.length_nil] at h
      omega
    | cons d a =>
      rw [List.cons_append, List.tail_cons] at h ⊢
      rw [List.cons_append, List.tail_cons, lineComment_slash h]
  · cases a with
    | nil => simp at hblock
    | cons d a =>
      rw [List.cons_append, List.tail_cons] at h ⊢
      rw [List.cons_append, List.tail_cons, blockComment_slash h]

end Locality

/-! ### From piece to piece -/

/-- The scanner goes from one place of a text to another, piece by piece. -/
inductive Comes : Nat → Nat → SourceText → Nat → Nat → SourceText → Prop where
  | here (offset lineStart : Nat) (t : SourceText) : Comes offset lineStart t offset lineStart t
  | piece {offset lineStart finish finishLine n : Nat} {g : Glyph} {rest read t : SourceText}
      (hn : n = (pieceAt offset lineStart g rest).taken - 1) (hread : read = g :: rest.take n)
      (h : Comes (offset + read.size) (lineStartAfter offset lineStart read) (rest.drop n) finish
        finishLine t) :
      Comes offset lineStart (g :: rest) finish finishLine t

/-- What is read of a text and of what follows it. -/
def Scanned.followedBy (s s' : Scanned) : Scanned where
  lexemes := s.lexemes ++ s'.lexemes
  complaints := s.complaints ++ s'.complaints
  redirects := s.redirects ++ s'.redirects
  finish := s'.finish

section
variable {offset lineStart finish finishLine : Nat} {s t before x : SourceText}

theorem Comes.suffix (h : Comes offset lineStart s finish finishLine t) :
    ∃ pre, s = pre ++ t ∧ finish = offset + pre.size := by
  induction h with
  | here => exact ⟨[], rfl, rfl⟩
  | @piece _ _ _ _ n g rest read t _ hread _ ih =>
    obtain ⟨pre, hdrop, hsize⟩ := ih
    refine ⟨read ++ pre, ?_, by rw [hsize, size_append, Nat.add_assoc]⟩
    rw [List.append_assoc, ← hdrop, hread, List.cons_append, List.take_append_drop]

/-- What is read before a comment is read whatever the comment says. -/
theorem Comes.scanFrom (h : Comes offset lineStart (before ++ Glyph.char '/' :: .char '*' :: x) finish finishLine
      (.char '/' :: .char '*' :: x)) :
    ∃ front : Scanned, ∀ y, scanFrom offset lineStart (before ++ Glyph.char '/' :: .char '*' :: y) =
      front.followedBy (Token.scanFrom finish finishLine (.char '/' :: .char '*' :: y)) := by
  generalize hs : before ++ Glyph.char '/' :: .char '*' :: x = s at h
  generalize ht : Glyph.char '/' :: .char '*' :: x = t at h
  induction h generalizing before with
  | here offset lineStart t =>
    subst ht
    obtain rfl : before = [] := by simpa using hs
    exact ⟨{}, fun y => rfl⟩
  | @piece offset lineStart finish finishLine n g rest read t hn hread h ih =>
    subst ht
    obtain ⟨pre, hdrop, -⟩ := h.suffix
    have hlength := congrArg List.length hdrop
    rw [List.length_drop, List.length_append] at hlength
    cases before with
    | nil =>
      obtain ⟨rfl, rfl⟩ := List.cons_eq_cons.mp hs
      simp only [List.length_cons] at hlength
      omega
    | cons d a =>
      obtain ⟨rfl, hrest⟩ := List.cons_eq_cons.mp hs
      obtain rfl : rest = a ++ Glyph.char '/' :: .char '*' :: x := hrest.symm
      have hshort : n ≤ a.length := by
        simp only [List.length_append, List.length_cons] at hlength
        omega
      rw [List.drop_append_of_le_length hshort] at h ih
      obtain ⟨front, hfront⟩ := ih rfl rfl
      have hpiece : ∀ y, pieceAt offset lineStart d (a ++ Glyph.char '/' :: .char '*' :: y) =
          pieceAt offset lineStart d (a ++ Glyph.char '/' :: .char '*' :: x) := by
        intro y
        cases d with
        | stray b => rfl
        | char c =>
          refine piece_before_comment ?_
          have htaken :
              (Token.piece offset lineStart c (a ++ Glyph.char '/' :: .char '*' :: x)).taken - 1 = n := hn.symm
          omega
      refine ⟨Scanned.followedBy
        { lexemes := (pieceAt offset lineStart d (a ++ Glyph.char '/' :: .char '*' :: x)).lexemes
          complaints := (pieceAt offset lineStart d (a ++ Glyph.char '/' :: .char '*' :: x)).complaints
          redirects := (pieceAt offset lineStart d (a ++ Glyph.char '/' :: .char '*' :: x)).redirect?.toList }
        front, fun y => ?_⟩
      rw [List.cons_append, scanFrom_cons, hpiece]
      dsimp only
      rw [← hn, List.drop_append_of_le_length hshort, List.take_append_of_le_length hshort]
      rw [List.take_append_of_le_length hshort] at hread
      rw [← hread, hfront]
      simp only [Scanned.followedBy, List.append_assoc]

theorem lineStartAfter_append (s t : SourceText) :
    lineStartAfter offset lineStart (s ++ t) =
      lineStartAfter (offset + s.size) (lineStartAfter offset lineStart s) t := by
  induction s generalizing offset lineStart with
  | nil => rfl
  | cons g s ih =>
    rw [List.cons_append, lineStartAfter, lineStartAfter, ih, SourceText.size, Nat.add_assoc]

theorem lineStartAfter_spaces (n : Nat) (s : SourceText) :
    lineStartAfter offset lineStart (List.replicate n (Glyph.char ' ') ++ s) =
      lineStartAfter (offset + n) lineStart s := by
  induction n generalizing offset with
  | zero => rfl
  | succ n ih =>
    rw [List.replicate_succ, List.cons_append, lineStartAfter, if_neg (by decide), ih]
    congr 1
    show offset + 1 + n = _
    omega

theorem Masks.lineStartAfter {t' : SourceText} (h : Masks t t') :
    Token.lineStartAfter offset lineStart t' = Token.lineStartAfter offset lineStart t := by
  induction h generalizing offset lineStart with
  | nil => rfl
  | keep g _ ih => rw [Token.lineStartAfter, Token.lineStartAfter, ih]
  | blank hg _ ih =>
    rw [lineStartAfter_spaces, Token.lineStartAfter, if_neg hg, ih]

/-- A comment is a piece without lexemes. -/
theorem scanFrom_comment {body : SourceText} (h : ¬ [Glyph.char '*', .char '/'] <:+: body ++ [Glyph.char '*'])
    (rest : SourceText) :
    scanFrom offset lineStart (Glyph.char '/' :: .char '*' :: (body ++ Glyph.char '*' :: .char '/' :: rest)) =
      Scanned.followedBy
        { complaints := (placement offset body).1, redirects := (placement offset body).2.toList }
        (scanFrom (offset + 4 + body.size) (Token.lineStartAfter (offset + 2) lineStart body) rest) := by
  have hpiece : pieceAt offset lineStart (.char '/')
        (Glyph.char '*' :: (body ++ Glyph.char '*' :: .char '/' :: rest)) =
      { taken := body.length + 4
        complaints := (placement offset body).1
        redirect? := (placement offset body).2 } := by
    have hletter : Text.isLetter '/' = false := by decide
    have hdigit : Char.isDigit '/' = false := by decide
    have hquote : '/' ≠ singleQuote := by decide
    have hraw : '/' ≠ backQuote := by decide
    simp [pieceAt, piece, hletter, hdigit, hquote, hraw, blockComment_of_first h]
  have htake : (Glyph.char '*' :: (body ++ Glyph.char '*' :: .char '/' :: rest)).take (body.length + 3) =
      Glyph.char '*' :: (body ++ [Glyph.char '*', .char '/']) := by
    rw [List.take_succ_cons, List.take_length_add_append 2]
    rfl
  have hdrop : (Glyph.char '*' :: (body ++ Glyph.char '*' :: .char '/' :: rest)).drop (body.length + 3) = rest := by
    rw [List.drop_succ_cons, List.drop_length_add_append 2]
    rfl
  have hsize :
      SourceText.size (Glyph.char '/' :: .char '*' :: (body ++ [Glyph.char '*', .char '/'])) = 4 + body.size := by
    rw [SourceText.size, SourceText.size, size_append]
    show 1 + (1 + (body.size + 2)) = _
    omega
  have hline : Token.lineStartAfter offset lineStart
      (Glyph.char '/' :: .char '*' :: (body ++ [Glyph.char '*', .char '/'])) =
      Token.lineStartAfter (offset + 2) lineStart body := by
    rw [Token.lineStartAfter, Token.lineStartAfter, lineStartAfter_append]
    rfl
  rw [scanFrom_cons, hpiece]
  dsimp only
  rw [show body.length + 4 - 1 = body.length + 3 from rfl, htake, hdrop, hsize, hline, Nat.add_assoc]
  rfl

end

/-! ### Lines around a comment -/

/-- The part of a text after its last newline. -/
def openLine (t : SourceText) : SourceText := t.rtakeWhile (· ≠ .char '\n')

/-- The part of a text up to its last newline. -/
def closedLines (t : SourceText) : SourceText := t.rdropWhile (· ≠ .char '\n')

/-- The first line of a text, without its newline. -/
def firstLine (t : SourceText) : SourceText := t.takeWhile (· ≠ .char '\n')

/-- The lines of a text between its first and its last newline. -/
def innerLines (t : SourceText) : SourceText := closedLines (t.dropWhile (· ≠ .char '\n'))

/-- The last line of a text, unless it is also the first. -/
def lastLine (t : SourceText) : SourceText := openLine (t.dropWhile (· ≠ .char '\n'))

section
variable {offset : Nat} {t : SourceText}

theorem closedLines_append_openLine (t : SourceText) : closedLines t ++ openLine t = t :=
  List.rdropWhile_append_rtakeWhile

theorem firstLine_append (t : SourceText) : firstLine t ++ (innerLines t ++ lastLine t) = t := by
  rw [innerLines, lastLine, closedLines_append_openLine, firstLine, List.takeWhile_append_dropWhile]

theorem newline_not_mem_openLine (t : SourceText) : .char '\n' ∉ openLine t := fun h => by
  simpa using List.mem_rtakeWhile_imp h

theorem newline_not_mem_firstLine (t : SourceText) : .char '\n' ∉ firstLine t := fun h => by
  simpa using List.mem_takeWhile_imp h

theorem newline_not_mem_lastLine (t : SourceText) : .char '\n' ∉ lastLine t := newline_not_mem_openLine _

theorem endsLine_closedLines (t : SourceText) : EndsLine (closedLines t) := by
  intro g hg
  have hne : closedLines t ≠ [] := fun hnil => by rw [hnil] at hg; cases hg
  rw [List.getLast?_eq_some_getLast hne] at hg
  cases hg
  have h := List.rdropWhile_last_not (fun g => decide (g ≠ Glyph.char '\n')) t hne
  rw [decide_eq_true_eq, not_not] at h
  exact h

/-- The lines between the first and the last newline are a newline and some lines, if there are any. -/
theorem innerLines_cases (t : SourceText) :
    innerLines t = [] ∨ ∃ m, innerLines t = .char '\n' :: m ∧ EndsLine m := by
  cases hrest : t.dropWhile (· ≠ .char '\n') with
  | nil => exact .inl (by rw [innerLines, hrest]; rfl)
  | cons g rest =>
    obtain rfl : g = .char '\n' := by
      have h := List.head?_dropWhile_not (· ≠ Glyph.char '\n') t
      rw [hrest] at h
      simpa using h
    cases hclosed : closedLines (.char '\n' :: rest) with
    | nil => exact .inl (by rw [innerLines, hrest, hclosed])
    | cons d m =>
      have hsplit := closedLines_append_openLine (.char '\n' :: rest)
      rw [hclosed] at hsplit
      obtain ⟨rfl, -⟩ := List.cons_eq_cons.mp hsplit
      refine .inr ⟨m, by rw [innerLines, hrest, hclosed], fun e he => ?_⟩
      refine endsLine_closedLines (.char '\n' :: rest) e ?_
      rw [hclosed, List.getLast?_cons, he]
      rfl

end

theorem stripLines_comment {p first m z : SourceText} (hp : .char '\n' ∉ p) (hfirst : .char '\n' ∉ first)
    (hz : .char '\n' ∉ z) (hm : m = [] ∨ ∃ m', m = .char '\n' :: m' ∧ EndsLine m')
    (hopen : ¬ IsDirective p)
    (hclose : ¬ IsDirective z) (offset : Nat) (after : SourceText) :
    stripLines offset (linesOf (p ++ .char '/' :: .char '*' :: (first ++ (m ++ z) ++
        .char '*' :: .char '/' :: after))) =
      Stripped.followedBy { text := p ++ .char '/' :: .char '*' :: first }
        (Stripped.followedBy (stripLines (offset + p.size + 2 + first.size) (linesOf m))
          (Stripped.followedBy { text := z }
            (stripLines (offset + p.size + 2 + (first ++ (m ++ z)).size)
              (linesOf (.char '*' :: .char '/' :: after))))) := by
  have hstart : ¬ IsDirective (.char '/' :: .char '*' :: first) := not_isDirective_cons rfl (by decide) _
  obtain ⟨l, ls, htail⟩ := exists_linesOf_cons (g := .char '*') (by decide) (.char '/' :: after)
  have hline : ¬ IsDirective (.char '*' :: l) := not_isDirective_cons rfl (by decide) _
  have hhead : .char '\n' ∉ p ++ .char '/' :: .char '*' :: first := by
    simp [hp, hfirst]
  have hplain : ¬ IsDirective (p ++ .char '/' :: .char '*' :: first) := by
    rwa [isDirective_append hstart]
  have hsize : (p ++ .char '/' :: .char '*' :: first).size = p.size + 2 + first.size := by
    rw [size_append, SourceText.size, SourceText.size]
    show p.size + (1 + (1 + first.size)) = _
    omega
  have hmark : ∀ y : SourceText, p ++ .char '/' :: .char '*' :: (first ++ y) =
      (p ++ .char '/' :: .char '*' :: first) ++ y := by
    intro y
    simp
  rw [List.append_assoc, hmark]
  rcases hm with rfl | ⟨m', rfl, hends⟩
  · -- the comment is closed in the line in which it is opened
    have hwhole : ¬ IsDirective ((p ++ .char '/' :: .char '*' :: first) ++ z) := by
      have hrest : ¬ IsDirective (.char '/' :: .char '*' :: (first ++ z)) :=
        not_isDirective_cons rfl (by decide) _
      have hassoc : (p ++ .char '/' :: .char '*' :: first) ++ z =
          p ++ .char '/' :: .char '*' :: (first ++ z) := by
        simp
      rwa [hassoc, isDirective_append hrest]
    have hnewline : .char '\n' ∉ (p ++ .char '/' :: .char '*' :: first) ++ z := by
      rw [List.mem_append, not_or]
      exact ⟨hhead, hz⟩
    rw [List.nil_append, ← List.append_assoc, stripLines_open hnewline hwhole htail hline, size_append, hsize,
      size_append]
    simp [Stripped.followedBy, stripLines, linesOf, Nat.add_assoc]
  · have hnewline : ¬ IsDirective [.char '\n'] := by decide
    have hafter : linesOf (.char '\n' :: m' ++ z ++ .char '*' :: .char '/' :: after) =
        [.char '\n'] :: (linesOf m' ++ linesOf (z ++ .char '*' :: .char '/' :: after)) := by
      rw [List.append_assoc, List.cons_append, linesOf, if_pos rfl, linesOf_append hends]
    have hlines : linesOf (.char '\n' :: m') = [.char '\n'] :: linesOf m' := by
      rw [linesOf, if_pos rfl]
    rw [stripLines_open hhead hplain hafter hnewline, hsize, hafter, hlines, stripLines_plain hnewline,
      stripLines_plain hnewline, stripLines_append, flatten_linesOf, stripLines_open hz hclose htail hline]
    have hfinish : offset + (p.size + 2 + first.size) + SourceText.size [.char '\n'] +
        SourceText.size m' + z.size =
        offset + p.size + 2 + (first ++ (.char '\n' :: m' ++ z)).size := by
      simp only [List.cons_append, size_append, SourceText.size]
      omega
    rw [hfinish]
    simp [Stripped.followedBy, Nat.add_assoc]

/-! ### Comments of a source -/

/-- The scanner starts to read a piece of a text at an offset. -/
def Reached (t : SourceText) (offset : Nat) : Prop :=
  ∃ lineStart rest, Comes (unmarked t).1 0 (unmarked t).2 offset lineStart rest

section
variable {offset : Nat} {s t x y front body hidden after : SourceText}

theorem readComplaints_append (offset : Nat) (s t : SourceText) :
    readComplaints offset (s ++ t) = readComplaints offset s ++ readComplaints (offset + s.size) t := by
  induction s generalizing offset with
  | nil => rfl
  | cons g s ih =>
    rw [List.cons_append, readComplaints, readComplaints, ih, SourceText.size, List.append_assoc,
      Nat.add_assoc]

/-- The blanks that stand for the text of a comment. -/
def IsHidden (t : SourceText) : Prop := ∀ g ∈ t, g = .char ' ' ∨ g = .char '\n'

theorem IsHidden.readComplaints (h : IsHidden t) (offset : Nat) : readComplaints offset t = [] := by
  induction t generalizing offset with
  | nil => rfl
  | cons g t ih =>
    have hg : readError? offset g = none := by
      rcases h g List.mem_cons_self with rfl | rfl <;> rfl
    rw [Token.readComplaints, hg, ih (fun d hd => h d (List.mem_cons_of_mem _ hd))]
    rfl

theorem IsHidden.placement (h : IsHidden t) (offset : Nat) : placement offset t = ([], none) := by
  have hnone : afterLine? t = none := by
    unfold afterLine?
    split
    · rename_i rest
      have := h _ List.mem_cons_self
      simp at this
    · rfl
  rw [Token.placement, hnone]

theorem IsHidden.first (h : IsHidden t) : ¬ [Glyph.char '*', .char '/'] <:+: t ++ [Glyph.char '*'] := by
  intro hinfix
  have hmem : Glyph.char '/' ∈ t ++ [Glyph.char '*'] := hinfix.subset (by simp)
  rcases List.mem_append.mp hmem with hmem | hmem
  · have := h _ hmem
    simp at this
  · simp at hmem

theorem isHidden_blanked (t : SourceText) : IsHidden (blanked t) := by
  intro g hg
  obtain ⟨d, -, hd⟩ := List.mem_flatMap.mp hg
  split at hd
  · rename_i hnewline
    exact .inr ((List.mem_singleton.mp hd).trans hnewline)
  · exact .inl (List.eq_of_mem_replicate hd)

theorem blanked_append (s t : SourceText) : blanked (s ++ t) = blanked s ++ blanked t := List.flatMap_append

theorem newline_not_mem_blanked (h : .char '\n' ∉ t) : .char '\n' ∉ blanked t := by
  intro hmem
  obtain ⟨g, hg, hblank⟩ := List.mem_flatMap.mp hmem
  have hne : g ≠ .char '\n' := fun heq => h (by rwa [heq] at hg)
  rw [if_neg hne] at hblank
  exact absurd (List.eq_of_mem_replicate hblank) (by decide)

theorem hash_not_mem_blanked (t : SourceText) : .char '#' ∉ blanked t := by
  intro hmem
  have := isHidden_blanked t _ hmem
  simp at this

theorem endsLine_blanked (h : EndsLine t) : EndsLine (blanked t) := by
  intro g hg
  rcases List.eq_nil_or_concat' t with rfl | ⟨s, d, rfl⟩
  · cases hg
  · obtain rfl := h d (by simp)
    rw [blanked_append] at hg
    have hnewline : blanked [Glyph.char '\n'] = [.char '\n'] := rfl
    rw [hnewline, List.getLast?_concat] at hg
    exact (Option.some.inj hg).symm

/-- A byte order mark is looked for before a comment. -/
theorem exists_unmarked (front : SourceText) :
    ∃ start rest, ∀ x, unmarked (front ++ .char '/' :: x) = (start, rest ++ .char '/' :: x) := by
  cases front with
  | nil => exact ⟨0, [], fun x => rfl⟩
  | cons g front =>
    cases g with
    | stray b => exact ⟨0, .stray b :: front, fun x => rfl⟩
    | char c =>
      by_cases hc : c = byteOrderMark
      · exact ⟨c.utf8Size, front, fun x => if_pos hc⟩
      · exact ⟨0, .char c :: front, fun x => if_neg hc⟩

theorem isWide_slash (front x y : SourceText) :
    isWide (front ++ .char '/' :: x) = isWide (front ++ .char '/' :: y) := by
  rcases front with _ | ⟨g, _ | ⟨d, front⟩⟩
  · rfl
  · simp [isWide, List.isPrefixOf]
  · simp [isWide, List.isPrefixOf]

/-- Two parts of a text with as many bytes are the same. -/
theorem append_inj_of_size {s s' t t' : SourceText} (h : s ++ t = s' ++ t') (hsize : s.size = s'.size) :
    s = s' ∧ t = t' := by
  induction s generalizing s' with
  | nil =>
    cases s' with
    | nil => exact ⟨rfl, h⟩
    | cons g s' => exact absurd hsize (Nat.ne_of_lt (size_pos_of_ne_nil (List.cons_ne_nil g s')))
  | cons g s ih =>
    cases s' with
    | nil => exact absurd hsize.symm (Nat.ne_of_lt (size_pos_of_ne_nil (List.cons_ne_nil g s)))
    | cons d s' =>
      obtain ⟨rfl, hrest⟩ := List.cons_eq_cons.mp h
      rw [SourceText.size, SourceText.size] at hsize
      obtain ⟨rfl, rfl⟩ := ih hrest (Nat.add_left_cancel hsize)
      exact ⟨rfl, rfl⟩

/-- What a comment says is all that is lost when it is hidden. -/
theorem scanText_comment (hfirst : ¬ [Glyph.char '*', .char '/'] <:+: body ++ [Glyph.char '*'])
    (hhidden : IsHidden hidden)
    (hsize : body.size = hidden.size)
    (hlines : ∀ o l, lineStartAfter o l body = lineStartAfter o l hidden)
    (hreached : Reached
      (front ++ Glyph.char '/' :: .char '*' :: (body ++ Glyph.char '*' :: .char '/' :: after)) front.size) :
    let seen := scanText (front ++ Glyph.char '/' :: .char '*' :: (body ++ Glyph.char '*' :: .char '/' :: after))
    let blank := scanText (front ++ Glyph.char '/' :: .char '*' :: (hidden ++ Glyph.char '*' :: .char '/' :: after))
    seen.lexemes = blank.lexemes ∧ seen.finish = blank.finish ∧ ∀ c, c ∈ seen.complaints ↔
      c ∈ readComplaints (front.size + 2) body ++ (placement front.size body).1 ∨
        c ∈ blank.complaints := by
  intro seen blank
  obtain ⟨start, rest, hstart⟩ := exists_unmarked front
  obtain ⟨lineStart, u, hcomes⟩ := hreached
  rw [hstart] at hcomes
  obtain ⟨pre, hsplit, hoffset⟩ := hcomes.suffix
  obtain ⟨mark, hmark, hmarkSize, -⟩ := exists_mark
    (front ++ Glyph.char '/' :: .char '*' :: (body ++ Glyph.char '*' :: .char '/' :: after))
  rw [hstart] at hmark hmarkSize
  -- the comment is where the scanner is when it has come to its offset
  obtain ⟨hfront, rfl⟩ : front = mark ++ pre ∧
      Glyph.char '/' :: .char '*' :: (body ++ Glyph.char '*' :: .char '/' :: after) = u := by
    refine append_inj_of_size (hmark.trans ?_) ?_
    · rw [hsplit, List.append_assoc]
    · rw [hoffset, size_append, hmarkSize]
  obtain ⟨before, hbefore⟩ := hcomes.scanFrom
  have hscan : ∀ {b : SourceText}, ¬ [Glyph.char '*', .char '/'] <:+: b ++ [Glyph.char '*'] →
      scanFrom start 0 (rest ++ Glyph.char '/' :: .char '*' :: (b ++ Glyph.char '*' :: .char '/' :: after)) =
        before.followedBy (Scanned.followedBy
          { complaints := (placement front.size b).1, redirects := (placement front.size b).2.toList }
          (scanFrom (front.size + 4 + b.size) (lineStartAfter (front.size + 2) lineStart b) after)) := by
    intro b hb
    rw [hbefore, scanFrom_comment hb]
  have hread : ∀ b : SourceText,
      readComplaints 0 (front ++ Glyph.char '/' :: .char '*' :: (b ++ Glyph.char '*' :: .char '/' :: after)) =
        readComplaints 0 front ++ (readComplaints (front.size + 2) b ++
          readComplaints (front.size + 4 + b.size) after) := by
    intro b
    have hopen : ∀ (o : Nat) (z : SourceText),
        readComplaints o (.char '/' :: .char '*' :: z) = readComplaints (o + 2) z := fun _ _ => rfl
    have hclose : ∀ (o : Nat) (z : SourceText),
        readComplaints o (.char '*' :: .char '/' :: z) = readComplaints (o + 2) z := fun _ _ => rfl
    rw [readComplaints_append, hopen, readComplaints_append, hclose, Nat.zero_add,
      Nat.add_right_comm front.size 4, Nat.add_right_comm front.size 2]
  have hseen := hscan hfirst
  have hblank := hscan hhidden.first
  rw [hhidden.placement] at hblank
  refine ⟨?_, ?_, fun c => ?_⟩
  · simp only [seen, blank, scanText_eq, hstart, hseen, hblank, hsize, hlines, Scanned.followedBy]
  · simp only [seen, blank, scanText_eq, hstart, hseen, hblank, hsize, hlines, Scanned.followedBy]
  · simp only [seen, blank, mem_complaints_scanText, hstart, hseen, hblank, hsize, hlines, Scanned.followedBy,
      hread, hhidden.readComplaints, List.mem_append, List.not_mem_nil, false_or]
    tauto

end

/-! ### What a comment says -/

theorem offset_of_mem_pragmas {offset : Nat} {ls : List SourceText} {d : Pragma}
    (h : d ∈ (stripLines offset ls).pragmas) :
    offset ≤ d.offset ∧ d.offset < offset + SourceText.size ls.flatten := by
  induction ls generalizing offset with
  | nil => cases h
  | cons line ls ih =>
    have hlater : d ∈ (stripLines (offset + line.size) ls).pragmas →
        offset ≤ d.offset ∧ d.offset < offset + SourceText.size (line :: ls).flatten := by
      intro hd
      have := ih hd
      rw [List.flatten_cons, size_append]
      omega
    rw [stripLines] at h
    dsimp only at h
    split at h
    · rename_i rest htrimmed
      have hdirective : IsDirective line := isDirective_iff.mpr (by rw [htrimmed]; rfl)
      split at h
      · rcases List.mem_cons.mp h with rfl | h
        · have hne : line.dropWhile (fun g => decide (g ≠ Glyph.char '#')) ≠ [] := by
            intro hnil
            have hmem : Glyph.char '#' ∈ line := by
              by_contra hmem
              exact not_isDirective hmem hdirective
            have := List.dropWhile_eq_nil_iff.mp hnil _ hmem
            simp at this
          have hsplit := congrArg SourceText.size
            (List.takeWhile_append_dropWhile (p := fun g => decide (g ≠ Glyph.char '#')) (l := line))
          have := size_pos_of_ne_nil hne
          rw [size_append] at hsplit
          rw [List.flatten_cons, size_append]
          dsimp only
          omega
        · exact hlater h
      · exact hlater h
    · exact hlater h

theorem stripDirectives_comment {first m z : SourceText} (hfirst : .char '\n' ∉ first) (hz : .char '\n' ∉ z)
    (hm : m = [] ∨ ∃ m', m = .char '\n' :: m' ∧ EndsLine m') (hclose : ¬ IsDirective z)
    {before : SourceText} (hopen : ¬ IsDirective (openLine before)) (after : SourceText) :
    stripDirectives
        (before ++ .char '/' :: .char '*' :: (first ++ (m ++ z) ++ .char '*' :: .char '/' :: after)) =
      Stripped.followedBy (Stripped.followedBy (stripLines 0 (linesOf (closedLines before)))
          { text := openLine before })
        (Stripped.followedBy { text := .char '/' :: .char '*' :: first }
          (Stripped.followedBy (stripLines (before.size + 2 + first.size) (linesOf m))
            (Stripped.followedBy { text := z }
              (stripLines (before.size + 2 + (first ++ (m ++ z)).size)
                (linesOf (.char '*' :: .char '/' :: after)))))) := by
  have hbefore := closedLines_append_openLine before
  have hsize : (closedLines before).size + (openLine before).size = before.size := by
    rw [← size_append, hbefore]
  have hcomment := stripLines_comment (newline_not_mem_openLine before) hfirst hz hm hopen hclose
    (closedLines before).size after
  rw [hsize] at hcomment
  conv_lhs => rw [← hbefore]
  rw [List.append_assoc, stripDirectives, linesOf_append (endsLine_closedLines before), stripLines_append,
    flatten_linesOf, Nat.zero_add, hcomment]
  simp [Stripped.followedBy]

/-- A block comment of a source: the scanner starts to read a piece at its opening mark, it goes to the
first closing mark, and neither of the marks is in a directive. -/
structure BlockComment (t : SourceText) where
  before : SourceText
  body : SourceText
  after : SourceText
  split : t = before ++ .char '/' :: .char '*' :: (body ++ .char '*' :: .char '/' :: after)
  first : ¬ [.char '*', .char '/'] <:+: body ++ [.char '*']
  opens : ¬ IsDirective (openLine before)
  closes : ¬ IsDirective (lastLine body)
  reached : Reached (stripDirectives t).text before.size

namespace BlockComment

variable {t : SourceText} (c : BlockComment t)

/-- The source with spaces in place of the comment's text. -/
def blank : SourceText :=
  c.before ++ .char '/' :: .char '*' :: (blanked c.body ++ .char '*' :: .char '/' :: c.after)

/-- What is left of the lines inside of the comment, and the directives among them. -/
def inner : Stripped :=
  stripLines (c.before.size + 2 + (firstLine c.body).size) (linesOf (innerLines c.body))

/-- The comment's text as the scanner sees it. -/
def seen : SourceText := firstLine c.body ++ (c.inner.text ++ lastLine c.body)

/-- What the scanner objects to in the comment. -/
def complaints : List Complaint :=
  readComplaints (c.before.size + 2) c.seen ++ (placement c.before.size c.seen).1

/-- Nothing is objected to in the comment: the directives in it are pragmas, and there is no character
in it that may not stand in a source, nor a place that cannot be. -/
def Quiet : Prop := c.inner.refused = [] ∧ ∀ a ∈ c.complaints, a.error.isIgnored = true

/-- The lines after the comment have its closing mark first. -/
theorem exists_text_strip (offset : Nat) (after : SourceText) :
    ∃ rest, (stripLines offset (linesOf (.char '*' :: .char '/' :: after))).text =
      .char '*' :: .char '/' :: rest := by
  obtain ⟨l, ls, hslash⟩ := exists_linesOf_cons (g := .char '/') (by decide) after
  have hlines : linesOf (.char '*' :: .char '/' :: after) = (.char '*' :: .char '/' :: l) :: ls :=
    linesOf_open (z := [.char '*']) (by decide) hslash
  rw [hlines, stripLines_plain (not_isDirective_cons rfl (by decide) _)]
  exact ⟨_, rfl⟩

/-- What is left of the source before the comment. -/
def front : Stripped :=
  Stripped.followedBy (stripLines 0 (linesOf (closedLines c.before))) { text := openLine c.before }

/-- What is left of the source from the closing mark on. -/
def back : Stripped :=
  stripLines (c.before.size + 2 + c.body.size) (linesOf (.char '*' :: .char '/' :: c.after))

theorem size_front : c.front.text.size = c.before.size := by
  rw [front, Stripped.followedBy, size_append, text_stripLines, (masks_lines _).same.1, flatten_linesOf,
    ← size_append, closedLines_append_openLine]

theorem offset_front {d : Pragma} (hd : d ∈ c.front.pragmas) : d.offset < c.before.size := by
  have hbefore : (closedLines c.before).size + (openLine c.before).size = c.before.size := by
    rw [← size_append, closedLines_append_openLine]
  rw [front, Stripped.followedBy, List.append_nil] at hd
  have := offset_of_mem_pragmas hd
  rw [flatten_linesOf] at this
  omega

theorem offset_back {d : Pragma} (hd : d ∈ c.back.pragmas) : c.before.size ≤ d.offset := by
  have := (offset_of_mem_pragmas hd).1
  omega

theorem stripDirectives_eq : stripDirectives t =
    { text := c.front.text ++ .char '/' :: .char '*' :: (c.seen ++ c.back.text)
      pragmas := c.front.pragmas ++ (c.inner.pragmas ++ c.back.pragmas)
      refused := c.front.refused ++ (c.inner.refused ++ c.back.refused) } := by
  have hseen := stripDirectives_comment (newline_not_mem_firstLine c.body) (newline_not_mem_lastLine c.body)
    (innerLines_cases c.body) c.closes c.opens c.after
  rw [firstLine_append, ← c.split] at hseen
  rw [hseen]
  simp [Stripped.followedBy, front, back, seen, inner]

theorem stripDirectives_blank : stripDirectives c.blank =
    { text := c.front.text ++ .char '/' :: .char '*' :: (blanked c.body ++ c.back.text)
      pragmas := c.front.pragmas ++ c.back.pragmas
      refused := c.front.refused ++ c.back.refused } := by
  have hbody : blanked (firstLine c.body) ++ (blanked (innerLines c.body) ++ blanked (lastLine c.body)) =
      blanked c.body := by
    rw [← blanked_append, ← blanked_append, firstLine_append]
  have hinner : blanked (innerLines c.body) = [] ∨
      ∃ m, blanked (innerLines c.body) = .char '\n' :: m ∧ EndsLine m := by
    rcases innerLines_cases c.body with hnil | ⟨m, hm, hends⟩
    · exact .inl (by rw [hnil]; rfl)
    · exact .inr ⟨blanked m, by rw [hm]; rfl, endsLine_blanked hends⟩
  have hblank := stripDirectives_comment (newline_not_mem_blanked (newline_not_mem_firstLine c.body))
    (newline_not_mem_blanked (newline_not_mem_lastLine c.body)) hinner
    (not_isDirective (hash_not_mem_blanked _)) c.opens c.after
  rw [stripLines_linesOf (hash_not_mem_blanked _), hbody, (masks_blanked c.body).same.1] at hblank
  rw [blank, hblank]
  simp [Stripped.followedBy, front, back, ← hbody]

/-- Directives are masked in the comment, so it is closed where it was. -/
theorem masks_seen : Masks c.body c.seen := by
  have hinner : Masks (innerLines c.body) c.inner.text := by
    have h := masks_lines (linesOf (innerLines c.body))
    rwa [flatten_linesOf, ← text_stripLines] at h
  have h := (Masks.refl (firstLine c.body)).append (hinner.append (.refl (lastLine c.body)))
  rwa [firstLine_append] at h

theorem first_seen : ¬ [Glyph.char '*', .char '/'] <:+: c.seen ++ [Glyph.char '*'] := by
  rintro ⟨pre, post, hseen⟩
  obtain ⟨pre', post', hbody, -⟩ :=
    (c.masks_seen.append (.refl [Glyph.char '*'])).standsAt (List.cons_ne_nil _ _)
    (by decide) ⟨pre, post, hseen.symm, rfl⟩
  exact c.first ⟨pre', post', hbody.symm⟩

/-- **What a comment says.**  All that is lost when it is hidden is what the scanner objects to in it. -/
theorem scanText_blank :
    (scanText (stripDirectives t).text).lexemes = (scanText (stripDirectives c.blank).text).lexemes ∧
      (scanText (stripDirectives t).text).finish = (scanText (stripDirectives c.blank).text).finish ∧
        ∀ a, a ∈ (scanText (stripDirectives t).text).complaints ↔
          a ∈ c.complaints ∨ a ∈ (scanText (stripDirectives c.blank).text).complaints := by
  obtain ⟨rest, hrest⟩ := exists_text_strip (c.before.size + 2 + c.body.size) c.after
  have hback : c.back.text = .char '*' :: .char '/' :: rest := hrest
  have hreached := c.reached
  rw [c.stripDirectives_eq, hback, ← c.size_front] at hreached
  have hscan := scanText_comment c.first_seen (isHidden_blanked c.body)
    (by rw [c.masks_seen.same.1, (masks_blanked c.body).same.1])
    (fun o l => by rw [c.masks_seen.lineStartAfter, (masks_blanked c.body).lineStartAfter]) hreached
  rw [c.size_front] at hscan
  rw [c.stripDirectives_eq, c.stripDirectives_blank, hback]
  exact hscan

end BlockComment

end KernelForge.Token
