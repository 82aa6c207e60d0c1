/-
Scanning is faithful: the lexemes are the source.

A source that is read without complaints is laid out with tiles, side by side and one after another.
Each of them is a comment or a lexeme, and a lexeme is what its tile says.  Between the tiles there is
nothing but blanks.  A piece of the text is laid out when it is read, operators that stand for two in
two tiles, and a number and the suffix right after it are joined to one tile afterwards.

All this is about the text in which directives have been blanked.  Nothing else has changed there, and
nothing has moved: what stands in it without a blank stands in the source, at the same offset.
-/
import KernelForge.Proofs.Token.Reals
import KernelForge.Proofs.Token.Streams
import Mathlib.Data.List.TakeWhile

namespace KernelForge.Token

open SourceText (size_append)

/-! ### Blanked texts -/

/-- Some glyphs of a text have been replaced by as many spaces as they have bytes. -/
inductive Masks : SourceText → SourceText → Prop where
  | nil : Masks [] []
  | keep (g : Glyph) {t t' : SourceText} (h : Masks t t') : Masks (g :: t) (g :: t')
  | blank {g : Glyph} (hg : g ≠ .char '\n') {t t' : SourceText} (h : Masks t t') :
      Masks (g :: t) (List.replicate g.size (.char ' ') ++ t')

/-- The offsets of the newlines of a text that starts at an offset. -/
def newlines (offset : Nat) : SourceText → List Nat
  | [] => []
  | g :: rest => (if g = .char '\n' then [offset] else []) ++ newlines (offset + g.size) rest

/-- A text is found in another one at an offset. -/
def StandsAt (t : SourceText) (offset : Nat) (x : SourceText) : Prop :=
  ∃ pre post, t = pre ++ x ++ post ∧ pre.size = offset

section
variable {t t' : SourceText}

theorem Masks.refl : ∀ t, Masks t t
  | [] => .nil
  | g :: t => .keep g (Masks.refl t)

theorem Masks.append {s s' : SourceText} (hs : Masks s s') (h : Masks t t') :
    Masks (s ++ t) (s' ++ t') := by
  induction hs with
  | nil => exact h
  | keep g _ ih => exact .keep g ih
  | blank hg _ ih =>
    rw [List.append_assoc]
    exact .blank hg ih

theorem masks_blanked : ∀ line, Masks line (blanked line)
  | [] => .nil
  | g :: line => by
    have hcons : blanked (g :: line) =
        (if g = .char '\n' then [g] else List.replicate g.size (.char ' ')) ++ blanked line := rfl
    rw [hcons]
    split
    · exact .keep g (masks_blanked line)
    · rename_i hg
      exact .blank hg (masks_blanked line)

theorem masks_masked (line : SourceText) : Masks line (masked line) := by
  unfold masked
  split
  · exact masks_blanked line
  · exact .refl line

theorem masks_lines (ls : List SourceText) : Masks ls.flatten (ls.flatMap masked) := by
  induction ls with
  | nil => exact .nil
  | cons l ls ih => exact (masks_masked l).append ih

/-- Directives are masked, and nothing else is touched. -/
theorem masks_stripDirectives (t : SourceText) : Masks t (stripDirectives t).text := by
  have h := masks_lines (linesOf t)
  rwa [flatten_linesOf, ← text_stripLines] at h

theorem size_spaces (n : Nat) : SourceText.size (List.replicate n (.char ' ')) = n := by
  induction n with
  | zero => rfl
  | succ n ih =>
    rw [List.replicate_succ, SourceText.size, ih, Nat.add_comm]
    rfl

theorem newlines_spaces (n offset : Nat) (t : SourceText) :
    newlines offset (List.replicate n (.char ' ') ++ t) = newlines (offset + n) t := by
  induction n generalizing offset with
  | zero => rfl
  | succ n ih =>
    rw [List.replicate_succ, List.cons_append, newlines, ih, if_neg (by decide), List.nil_append]
    congr 1
    show offset + 1 + n = _
    omega

/-- A masked text is as long as before, and its newlines are where they were. -/
theorem Masks.same (h : Masks t t') :
    t'.size = t.size ∧ ∀ offset, newlines offset t' = newlines offset t := by
  induction h with
  | nil => exact ⟨rfl, fun _ => rfl⟩
  | keep g _ ih => exact ⟨by rw [SourceText.size, SourceText.size, ih.1], fun o => by
    rw [newlines, newlines, ih.2]⟩
  | blank hg _ ih =>
    refine ⟨by rw [size_append, size_spaces, SourceText.size, ih.1], fun o => ?_⟩
    rw [newlines_spaces, newlines, if_neg hg, ih.2]
    rfl

theorem size_glyph_pos (g : Glyph) : 0 < g.size := by
  cases g with
  | char c => exact c.utf8Size_pos
  | stray b => exact Nat.one_pos

theorem Masks.prefix_of (h : Masks t t') {x : SourceText} (hx : .char ' ' ∉ x) (hpre : x <+: t') :
    x <+: t := by
  induction h generalizing x with
  | nil => exact hpre
  | keep g h ih =>
    cases x with
    | nil => exact List.nil_prefix
    | cons d x =>
      obtain ⟨rfl, hrest⟩ := List.cons_prefix_cons.mp hpre
      exact List.cons_prefix_cons.mpr ⟨rfl, ih (List.not_mem_of_not_mem_cons hx) hrest⟩
  | @blank g hg _ _ h ih =>
    cases x with
    | nil => exact List.nil_prefix
    | cons d x =>
      obtain ⟨n, hn⟩ := Nat.exists_eq_succ_of_ne_zero (Nat.ne_of_gt (size_glyph_pos g))
      rw [hn, List.replicate_succ, List.cons_append] at hpre
      obtain ⟨rfl, -⟩ := List.cons_prefix_cons.mp hpre
      exact absurd List.mem_cons_self hx

theorem Masks.standsAt (h : Masks t t') {offset : Nat} {x : SourceText} (hne : x ≠ [])
    (hx : .char ' ' ∉ x) (hat : StandsAt t' offset x) : StandsAt t offset x := by
  obtain ⟨pre, post, hsplit, rfl⟩ := hat
  rw [List.append_assoc] at hsplit
  have hstart : ∀ {u u' : SourceText}, Masks u u' → u' = x ++ post → StandsAt u 0 x := by
    intro u u' hu heq
    obtain ⟨rest, rfl⟩ := hu.prefix_of hx ⟨post, heq.symm⟩
    exact ⟨[], rest, rfl, rfl⟩
  induction h generalizing pre with
  | nil =>
    obtain ⟨-, hnil⟩ := List.append_eq_nil_iff.mp hsplit.symm
    exact absurd (List.append_eq_nil_iff.mp hnil).1 hne
  | keep g h ih =>
    cases pre with
    | nil => exact hstart (.keep g h) hsplit
    | cons d pre =>
      obtain ⟨rfl, hrest⟩ := List.cons_eq_cons.mp hsplit
      obtain ⟨pre', post', rfl, hsize⟩ := ih pre hrest
      exact ⟨g :: pre', post', rfl, by rw [SourceText.size, SourceText.size, hsize]⟩
  | @blank g hg u u' h ih =>
    have hinside : ∀ pre', pre = List.replicate g.size (.char ' ') ++ pre' →
        StandsAt u (SourceText.size pre') x → StandsAt (g :: u) pre.size x := by
      rintro pre' rfl ⟨before, after, rfl, hsize⟩
      exact ⟨g :: before, after, rfl, by rw [SourceText.size, hsize, size_append, size_spaces]⟩
    rcases List.append_eq_append_iff.mp hsplit with ⟨pre', hpre, hrest⟩ | ⟨spaces, hspaces, hrest⟩
    · exact hinside pre' hpre (ih pre' hrest)
    · cases spaces with
      | nil => exact hinside [] (by rw [hspaces, List.append_nil, List.append_nil]) (hstart h hrest.symm)
      | cons d spaces =>
        have hd : d ∈ List.replicate g.size (Glyph.char ' ') := by
          rw [hspaces]
          exact List.mem_append_right _ List.mem_cons_self
        obtain ⟨e, y, rfl⟩ := List.exists_cons_of_ne_nil hne
        obtain ⟨rfl, -⟩ := List.cons_eq_cons.mp hrest
        rw [List.eq_of_mem_replicate hd] at hx
        exact absurd List.mem_cons_self hx

end

/-- An offset is in a line whose first visible character is a hash. -/
def InDirective (t : SourceText) (offset : Nat) : Prop :=
  ∃ ls l ms, linesOf t = ls ++ l :: ms ∧ IsDirective l ∧ SourceText.size ls.flatten ≤ offset ∧
    offset < SourceText.size ls.flatten + l.size

theorem exists_of_flatten_eq {ls : List SourceText} {pre post : SourceText} {g : Glyph}
    (h : ls.flatten = pre ++ g :: post) :
    ∃ before l after a b, ls = before ++ l :: after ∧ l = a ++ g :: b ∧ pre = before.flatten ++ a := by
  induction ls generalizing pre with
  | nil => exact absurd (List.append_eq_nil_iff.mp h.symm).2 (List.cons_ne_nil _ _)
  | cons l ls ih =>
    rcases List.append_eq_append_iff.mp h with ⟨pre', rfl, hrest⟩ | ⟨b, hl, hrest⟩
    · obtain ⟨before, l', after, a, b, rfl, hl', rfl⟩ := ih hrest
      exact ⟨l :: before, l', after, a, b, rfl, hl', by simp⟩
    · cases b with
      | nil =>
        obtain ⟨before, l', after, a, b, rfl, hl', hpre⟩ := ih (show ls.flatten = [] ++ g :: post from hrest.symm)
        refine ⟨l :: before, l', after, a, b, rfl, hl', ?_⟩
        rw [List.flatten_cons, List.append_assoc, ← hpre, hl, List.append_nil, List.append_nil]
      | cons d b =>
        obtain ⟨rfl, -⟩ := List.cons_eq_cons.mp hrest
        exact ⟨[], l, ls, pre, b, rfl, hl, rfl⟩

theorem standsAt_or_inDirective {t pre post : SourceText} {g : Glyph} (h : t = pre ++ g :: post) :
    StandsAt (stripDirectives t).text pre.size [g] ∨ InDirective t pre.size := by
  obtain ⟨ls, l, ms, a, b, hlines, rfl, rfl⟩ := exists_of_flatten_eq ((flatten_linesOf t).trans h)
  by_cases hl : IsDirective (a ++ g :: b)
  · refine .inr ⟨ls, _, ms, hlines, hl, ?_, ?_⟩
    · rw [size_append]
      omega
    · have := size_glyph_pos g
      rw [size_append, size_append, SourceText.size]
      omega
  · refine .inl ⟨ls.flatMap masked ++ a, b ++ ms.flatMap masked, ?_, ?_⟩
    · rw [stripDirectives, text_stripLines, hlines, List.flatMap_append, List.flatMap_cons, masked,
        if_neg hl]
      simp
    · have hsize := (masks_lines ls).same.1
      rw [size_append, size_append, hsize]

/-! ### Tiles -/

/-- A part of a text that is read as one: a token, or a comment, which is none. -/
structure Tile where
  offset : Nat
  text : SourceText
  token? : Option Token

namespace Tile

/-- The offset after a tile. -/
def finish (a : Tile) : Nat := a.offset + a.text.size

def lexeme? (a : Tile) : Option Lexeme := a.token?.map (⟨a.offset, ·⟩)

end Tile

/-- A comment: to the end of its line, or to the first closing mark. -/
inductive IsComment : SourceText → Prop where
  | line (body : SourceText) (h : .char '\n' ∉ body) : IsComment (.char '/' :: .char '/' :: body)
  | block (body : SourceText) (h : ¬ [.char '*', .char '/'] <:+: body ++ [.char '*']) :
      IsComment (.char '/' :: .char '*' :: body ++ [.char '*', .char '/'])

/-- What a tile is read as.  Strings and characters are taken as they are seen, but a raw string is
read without its carriage returns.  Other tokens are spelled, and have no blanks in them. -/
def Tile.Reads (a : Tile) : Prop :=
  match a.token? with
  | none => IsComment a.text
  | some (.char s) => s = a.text.shown
  | some (.string s) => s = a.text.shown ∨ s = String.ofList (a.text.shown.toList.filter (· ≠ '\r'))
  | some (.stray c) => ∃ g : Glyph, a.text = [g] ∧ g.shown = c ∧ g ≠ .char ' '
  | some t => a.text = .ofString t.text ∧ .char ' ' ∉ a.text

/-- White space between tiles. -/
def IsSpace (g : Glyph) : Prop :=
  g = .char ' ' ∨ g = .char '\t' ∨ g = .char '\n' ∨ g = .char '\r'

/-- A text is laid out with tiles, and with white space between them. -/
inductive Tiled : Nat → SourceText → List Tile → Prop where
  | nil (offset : Nat) : Tiled offset [] []
  | space {offset : Nat} {g : Glyph} {t : SourceText} {as : List Tile} (hg : IsSpace g)
      (h : Tiled (offset + g.size) t as) : Tiled offset (g :: t) as
  | tile {offset : Nat} {x t : SourceText} {as : List Tile} (hx : x ≠ []) (token? : Option Token)
      (h : Tiled (offset + x.size) t as) : Tiled offset (x ++ t) (⟨offset, x, token?⟩ :: as)

theorem size_pos_of_ne_nil {x : SourceText} (h : x ≠ []) : 0 < x.size := by
  obtain ⟨g, y, rfl⟩ := List.exists_cons_of_ne_nil h
  have := size_glyph_pos g
  rw [SourceText.size]
  omega

namespace Tiled

variable {offset : Nat} {s t : SourceText} {as bs : List Tile}

theorem append (hs : Tiled offset s as) (ht : Tiled (offset + s.size) t bs) :
    Tiled offset (s ++ t) (as ++ bs) := by
  induction hs with
  | nil => exact ht
  | space hg _ ih =>
    refine space hg (ih ?_)
    rwa [Nat.add_assoc]
  | tile hx token? _ ih =>
    rw [List.append_assoc]
    refine tile hx token? (ih ?_)
    rwa [Nat.add_assoc, ← size_append]

/-- The tiles lie inside of the text. -/
theorem bounds (h : Tiled offset t as) {a : Tile} (ha : a ∈ as) :
    offset ≤ a.offset ∧ a.offset < a.finish ∧ a.finish ≤ offset + t.size := by
  induction h with
  | nil => cases ha
  | space hg _ ih =>
    have := ih ha
    rw [SourceText.size]
    omega
  | @tile offset x t as hx token? _ ih =>
    have hpos := size_pos_of_ne_nil hx
    rw [size_append]
    rcases List.mem_cons.mp ha with rfl | ha
    · simp only [Tile.finish]
      omega
    · have := ih ha
      omega

/-- A tile ends before the next one starts. -/
theorem pairwise (h : Tiled offset t as) : as.Pairwise fun a b => a.finish ≤ b.offset := by
  induction h with
  | nil => exact .nil
  | space _ _ ih => exact ih
  | tile hx token? h ih => exact .cons (fun b hb => (h.bounds hb).1) ih

theorem standsAt (h : Tiled offset t as) {a : Tile} (ha : a ∈ as) :
    a.text ≠ [] ∧ ∃ pre post, t = pre ++ a.text ++ post ∧ offset + pre.size = a.offset := by
  induction h with
  | nil => cases ha
  | @space offset g t as hg _ ih =>
    obtain ⟨hne, pre, post, rfl, hsize⟩ := ih ha
    exact ⟨hne, g :: pre, post, rfl, by rw [SourceText.size, ← hsize, Nat.add_assoc]⟩
  | @tile offset x t as hx token? _ ih =>
    rcases List.mem_cons.mp ha with rfl | ha
    · exact ⟨hx, [], t, rfl, rfl⟩
    · obtain ⟨hne, pre, post, rfl, hsize⟩ := ih ha
      exact ⟨hne, x ++ pre, post, by simp, by rw [size_append, ← hsize, Nat.add_assoc]⟩

theorem cover (h : Tiled offset t as) {pre post : SourceText} {g : Glyph} (ht : t = pre ++ g :: post) :
    IsSpace g ∨ ∃ a ∈ as, a.offset ≤ offset + pre.size ∧ offset + pre.size < a.finish := by
  induction h generalizing pre with
  | nil => exact absurd (List.append_eq_nil_iff.mp ht.symm).2 (List.cons_ne_nil _ _)
  | @space offset d t as hd _ ih =>
    cases pre with
    | nil =>
      obtain ⟨rfl, -⟩ := List.cons_eq_cons.mp ht
      exact .inl hd
    | cons e pre =>
      obtain ⟨rfl, hrest⟩ := List.cons_eq_cons.mp ht
      rw [SourceText.size, ← Nat.add_assoc]
      exact ih hrest
  | @tile offset x t as hx token? _ ih =>
    rcases List.append_eq_append_iff.mp ht with ⟨pre', rfl, hrest⟩ | ⟨b, rfl, hrest⟩
    · rw [size_append, ← Nat.add_assoc]
      rcases ih hrest with hspace | ⟨a, ha, hin⟩
      · exact .inl hspace
      · exact .inr ⟨a, List.mem_cons_of_mem _ ha, hin⟩
    · cases b with
      | nil =>
        have hlater := @ih [] hrest.symm
        rw [List.append_nil] at hlater ⊢
        rcases hlater with hspace | ⟨a, ha, hin⟩
        · exact .inl hspace
        · exact .inr ⟨a, List.mem_cons_of_mem _ ha, hin⟩
      | cons d b =>
        obtain ⟨rfl, -⟩ := List.cons_eq_cons.mp hrest
        refine .inr ⟨_, List.mem_cons_self, Nat.le_add_right _ _, ?_⟩
        have := size_glyph_pos g
        simp only [Tile.finish, size_append, SourceText.size]
        omega

/-- The first lexeme starts the text when it stands at its start. -/
theorem next {b : Lexeme} {ls : List Lexeme} (h : Tiled offset t as)
    (hlexemes : as.filterMap Tile.lexeme? = b :: ls) (hb : b.offset = offset) :
    ∃ (x rest : SourceText) (bs : List Tile), x ≠ [] ∧ t = x ++ rest ∧
      as = ⟨offset, x, some b.token⟩ :: bs ∧
      bs.filterMap Tile.lexeme? = ls ∧ Tiled (offset + x.size) rest bs := by
  have hlater : ∀ {o : Nat} {u : SourceText} {cs : List Tile}, Tiled o u cs →
      cs.filterMap Tile.lexeme? = b :: ls → o ≤ b.offset := by
    intro o u cs hcs heq
    have hmem : b ∈ cs.filterMap Tile.lexeme? := by rw [heq]; exact List.mem_cons_self
    obtain ⟨a, ha, hlexeme⟩ := List.mem_filterMap.mp hmem
    obtain ⟨u, -, rfl⟩ := Option.map_eq_some_iff.mp hlexeme
    exact (hcs.bounds ha).1
  cases h with
  | nil => cases hlexemes
  | @space _ g _ _ hg h =>
    have := hlater h hlexemes
    have := size_glyph_pos g
    omega
  | @tile _ x t as hx token? h =>
    cases token? with
    | none =>
      have := hlater h hlexemes
      have := size_pos_of_ne_nil hx
      omega
    | some u =>
      obtain ⟨rfl, hls⟩ := List.cons_eq_cons.mp hlexemes
      exact ⟨x, t, as, hx, rfl, rfl, hls, h⟩

end Tiled

/-! ### Lexemes -/

/-- A text is laid out with tiles that are read as these lexemes, and with comments. -/
def Laid (offset : Nat) (t : SourceText) (ls : List Lexeme) : Prop :=
  ∃ as, Tiled offset t as ∧ (∀ a ∈ as, a.Reads) ∧ as.filterMap Tile.lexeme? = ls

theorem shown_ofString (s : String) : (SourceText.ofString s).shown = s := by
  have hshown : (SourceText.ofString s).map Glyph.shown = s.toList := by
    rw [SourceText.ofString, SourceText.ofChars, List.map_map]
    exact List.map_id _
  rw [SourceText.shown, hshown, String.ofList_toList]

theorem ofString_append (s t : String) :
    SourceText.ofString (s ++ t) = SourceText.ofString s ++ SourceText.ofString t := by
  rw [SourceText.ofString, String.toList_append, ofChars_append]
  rfl

theorem size_ofString (s : String) : (SourceText.ofString s).size = s.utf8ByteSize := by
  have h : ∀ cs : List Char, SourceText.size (SourceText.ofChars cs) = (String.ofList cs).utf8ByteSize := by
    intro cs
    induction cs with
    | nil => rfl
    | cons c cs ih =>
      rw [String.ofList_cons, String.utf8ByteSize_append, String.utf8ByteSize_singleton, ← ih]
      rfl
  rw [SourceText.ofString, h, String.ofList_toList]

theorem reads_of_text {offset : Nat} {x : SourceText} {t : Token} (h : x = .ofString t.text)
    (hblank : .char ' ' ∉ x) : Tile.Reads ⟨offset, x, some t⟩ := by
  cases t with
  | char s => rw [h]; exact (shown_ofString s).symm
  | string s => rw [h]; exact .inl (shown_ofString s).symm
  | stray c =>
    have htext : x = [.char c] := by rw [h]; simp [Token.text, SourceText.ofString, SourceText.ofChars]
    refine ⟨.char c, htext, rfl, fun hc => hblank ?_⟩
    rw [htext, hc]
    exact List.mem_singleton_self _
  | _ => exact ⟨h, hblank⟩

namespace Laid

variable {offset : Nat} {s t x : SourceText} {ls ms : List Lexeme}

theorem nil (offset : Nat) : Laid offset [] [] := ⟨[], .nil offset, nofun, rfl⟩

theorem space {g : Glyph} (hg : IsSpace g) (h : Laid (offset + g.size) t ls) : Laid offset (g :: t) ls := by
  obtain ⟨as, htiled, hreads, rfl⟩ := h
  exact ⟨as, .space hg htiled, hreads, rfl⟩

theorem comment (hx : IsComment x) (h : Laid (offset + x.size) t ls) : Laid offset (x ++ t) ls := by
  obtain ⟨as, htiled, hreads, rfl⟩ := h
  have hne : x ≠ [] := by cases hx <;> exact List.cons_ne_nil _ _
  exact ⟨_, .tile hne none htiled, List.forall_mem_cons.mpr ⟨hx, hreads⟩, rfl⟩

theorem lexeme {token : Token} (hne : x ≠ []) (hx : Tile.Reads ⟨offset, x, some token⟩)
    (h : Laid (offset + x.size) t ls) : Laid offset (x ++ t) (⟨offset, token⟩ :: ls) := by
  obtain ⟨as, htiled, hreads, rfl⟩ := h
  exact ⟨_, .tile hne (some token) htiled, List.forall_mem_cons.mpr ⟨hx, hreads⟩, rfl⟩

theorem append (hs : Laid offset s ls) (ht : Laid (offset + s.size) t ms) :
    Laid offset (s ++ t) (ls ++ ms) := by
  obtain ⟨as, has, hreads, rfl⟩ := hs
  obtain ⟨bs, hbs, hreads', rfl⟩ := ht
  exact ⟨as ++ bs, has.append hbs, List.forall_mem_append.mpr ⟨hreads, hreads'⟩, List.filterMap_append⟩

theorem one {token : Token} (hne : x ≠ []) (hx : Tile.Reads ⟨offset, x, some token⟩) :
    Laid offset x [⟨offset, token⟩] := by
  have h := lexeme hne hx (nil (offset + x.size))
  rwa [List.append_nil] at h

end Laid

/-- What is joined: a number, and the suffix that is added to its text. -/
theorem exists_of_withSuffix? {t u v : Token} (h : withSuffix? t u = some v) :
    ∃ n s, u = .name s ∧ (t = .int n ∧ v = .int (n ++ s) ∨ t = .float n ∧ v = .float (n ++ s)) := by
  unfold withSuffix? at h
  split at h
  · split at h
    · cases h
      exact ⟨_, _, rfl, .inl ⟨rfl, rfl⟩⟩
    · cases h
  · split at h
    · cases h
      exact ⟨_, _, rfl, .inr ⟨rfl, rfl⟩⟩
    · cases h
  · cases h

/-- Side by side with its suffix a number is read as both. -/
theorem Laid.suffix {offset : Nat} {x t : SourceText} {u v : Token} {b : Lexeme} {ls : List Lexeme}
    (hx : Tile.Reads ⟨offset, x, some u⟩) (hb : offset + u.text.utf8ByteSize = b.offset)
    (hv : withSuffix? u b.token = some v) (h : Laid (offset + x.size) t (b :: ls)) :
    ∃ y rest, t = y ++ rest ∧ y ≠ [] ∧ Tile.Reads ⟨offset, x ++ y, some v⟩ ∧
      Laid (offset + (x ++ y).size) rest ls := by
  obtain ⟨n, suffix, hname, hnumber⟩ := exists_of_withSuffix? hv
  have htext : x = .ofString u.text ∧ .char ' ' ∉ x := by
    rcases hnumber with ⟨rfl, -⟩ | ⟨rfl, -⟩ <;> exact hx
  obtain ⟨as, htiled, hreads, hls⟩ := h
  have hstart : b.offset = offset + x.size := by rw [← hb, htext.1, size_ofString]
  obtain ⟨y, rest, bs, hy, rfl, rfl, rfl, hbs⟩ := htiled.next hls hstart
  rw [List.forall_mem_cons, hname] at hreads
  obtain ⟨hyText, hyBlank⟩ : y = SourceText.ofString suffix ∧ Glyph.char ' ' ∉ y := hreads.1
  refine ⟨y, rest, rfl, hy, reads_of_text ?_ ?_, bs, by rwa [size_append, ← Nat.add_assoc], hreads.2, rfl⟩
  · rcases hnumber with ⟨rfl, rfl⟩ | ⟨rfl, rfl⟩ <;>
    · rw [hyText, htext.1]
      exact (ofString_append _ _).symm
  · rw [List.mem_append, not_or]
    exact ⟨htext.2, hyBlank⟩

/-- Joining numbers and suffixes joins their tiles. -/
theorem Laid.joined {offset : Nat} {t : SourceText} {ls : List Lexeme} (h : Laid offset t ls) :
    Laid offset t (joinSuffixes ls) := by
  induction hn : t.length using Nat.strongRecOn generalizing offset t ls with
  | ind n ih =>
    obtain ⟨as, htiled, hreads, rfl⟩ := h
    cases htiled with
    | nil => exact .nil offset
    | @space _ g t _ hg h =>
      have hlen : t.length < n := by rw [← hn, List.length_cons]; omega
      exact (ih _ hlen ⟨as, h, hreads, rfl⟩ rfl).space hg
    | @tile _ x t as hx token? h =>
      rw [List.forall_mem_cons] at hreads
      have hpos := List.length_pos_iff.mpr hx
      have hlen : t.length < n := by rw [← hn, List.length_append]; omega
      have hrest : Laid (offset + x.size) t (as.filterMap Tile.lexeme?) := ⟨as, h, hreads.2, rfl⟩
      cases token? with
      | none => exact (ih _ hlen hrest rfl).comment hreads.1
      | some u =>
        have hcons : List.filterMap Tile.lexeme? (⟨offset, x, some u⟩ :: as) =
            ⟨offset, u⟩ :: as.filterMap Tile.lexeme? := rfl
        rw [hcons]
        cases hls : as.filterMap Tile.lexeme? with
        | nil =>
          rw [hls] at hrest
          exact hrest.lexeme hx hreads.1
        | cons b ls =>
          rw [hls] at hrest
          rw [joinSuffixes]
          split
          · rename_i v hv
            split at hv
            · rename_i hb
              obtain ⟨y, rest, rfl, -, hread, hafter⟩ := hrest.suffix hreads.1 hb hv
              have hshort : rest.length < n := by
                rw [← hn, List.length_append, List.length_append]
                omega
              rw [← List.append_assoc]
              exact (ih _ hshort hafter rfl).lexeme (by simp [hx]) hread
            · cases hv
          · exact (ih _ hlen hrest rfl).lexeme hx hreads.1

/-! ### Pieces -/

/-- The piece at the start of a text that is not over. -/
def pieceAt (offset lineStart : Nat) (g : Glyph) (rest : SourceText) : Piece :=
  match g with
  | .char c => piece offset lineStart c rest
  | .stray _ => strayPiece offset g

/-- A text is read piece by piece. -/
theorem scanFrom_cons (offset lineStart : Nat) (g : Glyph) (rest : SourceText) :
    scanFrom offset lineStart (g :: rest) =
      let p := pieceAt offset lineStart g rest
      let read : SourceText := g :: rest.take (p.taken - 1)
      let after := scanFrom (offset + read.size) (lineStartAfter offset lineStart read)
        (rest.drop (p.taken - 1))
      { lexemes := p.lexemes ++ after.lexemes
        complaints := p.complaints ++ after.complaints
        redirects := p.redirect?.toList ++ after.redirects
        finish := after.finish } := by
  rw [scanFrom.eq_def]
  cases g <;> rfl

/-- What a piece takes is laid out with its lexemes. -/
def Piece.Lays (p : Piece) (offset : Nat) (t : SourceText) : Prop :=
  0 < p.taken ∧ Laid offset (t.take p.taken) p.lexemes

section
variable {offset lineStart : Nat} {t x : SourceText}

theorem take_length_eq (h : x <+: t) : t.take x.length = x := (List.prefix_iff_eq_take.mp h).symm

theorem lays_token {token : Token} {complaints : List Complaint} {n : Nat} (hn : n = x.length)
    (hne : x ≠ []) (hpre : x <+: t) (hx : x = .ofString token.text) (hblank : .char ' ' ∉ x) :
    Piece.Lays { taken := n, lexemes := [⟨offset, token⟩], complaints } offset t := by
  subst hn
  refine ⟨List.length_pos_iff.mpr hne, ?_⟩
  rw [take_length_eq hpre]
  exact .one hne (reads_of_text hx hblank)

theorem prefix_charsWhile (p : Char → Bool) (t : SourceText) :
    SourceText.ofChars (t.charsWhile p) <+: t := by
  induction t with
  | nil => exact List.nil_prefix
  | cons g t ih =>
    cases g with
    | stray b => exact List.nil_prefix
    | char c =>
      rw [SourceText.charsWhile]
      split
      · exact List.cons_prefix_cons.mpr ⟨rfl, ih⟩
      · exact List.nil_prefix

theorem of_mem_charsWhile {p : Char → Bool} {c : Char} (h : c ∈ t.charsWhile p) : p c = true := by
  induction t with
  | nil => cases h
  | cons g t ih =>
    cases g with
    | stray b => cases h
    | char d =>
      rw [SourceText.charsWhile] at h
      split at h
      · rename_i hd
        rcases List.mem_cons.mp h with rfl | h
        · exact hd
        · exact ih h
      · cases h

theorem blank_not_mem {p : Char → Bool} {cs : List Char} (hp : p ' ' = false)
    (h : ∀ c ∈ cs, p c = true) : .char ' ' ∉ SourceText.ofChars cs := by
  intro hmem
  obtain ⟨c, hc, heq⟩ := List.mem_map.mp hmem
  cases heq
  rw [h _ hc] at hp
  cases hp

theorem text_word (w : String) : (word w).text = w := by
  unfold word
  split
  · rename_i k hk
    exact of_decide_eq_true (List.find?_some (p := fun k : Keyword => k.spelling = w) hk)
  · rfl

theorem lays_word {c : Char} {rest : SourceText} (hc : Text.isLetter c = true) :
    Piece.Lays { taken := (SourceText.charsWhile Text.isNameChar (.char c :: rest)).length
                 lexemes := [⟨offset, word (String.ofList (SourceText.charsWhile Text.isNameChar
                   (.char c :: rest)))⟩] } offset (.char c :: rest) := by
  have hne : SourceText.charsWhile Text.isNameChar (.char c :: rest) ≠ [] := by
    rw [SourceText.charsWhile, if_pos (isLetter_isNameChar hc)]
    exact List.cons_ne_nil _ _
  refine lays_token (by rw [SourceText.ofChars, List.length_map]) ?_ (prefix_charsWhile _ _) ?_
    (blank_not_mem (by decide) fun d => of_mem_charsWhile)
  · simpa [SourceText.ofChars] using hne
  · rw [text_word, SourceText.ofString, String.toList_ofList]

theorem text_parts (p : NumberParts) : p.token.text = String.ofList p.chars := by
  unfold NumberParts.token
  dsimp only
  split
  · rfl
  · split <;> rfl

/-- A number has at least the character that announces it. -/
theorem chars_ofText_ne_nil {c : Char} (hc : c.isDigit = true ∨ c = '.') (cs : List Char) :
    (NumberParts.ofText (c :: cs)).chars ≠ [] := by
  rw [ofText_eq]
  rcases hradix : radixOf (c :: cs) with ⟨radix, n⟩
  dsimp only
  rcases hc with hc | rfl
  · have hdigit : isDigitOf radix c = true := by
      rw [isDigitOf, isHexDigit, hc]
      simp
    cases n with
    | zero => simp [NumberParts.chars, hdigit]
    | succ n => simp [NumberParts.chars]
  · obtain ⟨rfl, rfl⟩ : radix = .decimal ∧ n = 0 := by
      unfold radixOf at hradix
      simpa [eq_comm] using hradix
    have hpoint : isDigitOf .decimal '.' = false := by decide
    simp [NumberParts.chars, takeFraction, hpoint]

theorem lays_number {c : Char} {rest : SourceText} {complaints : List Complaint}
    (hc : c.isDigit = true ∨ c = '.') :
    let parts := NumberParts.ofText (SourceText.charsWhile NumberParts.isNumberChar (.char c :: rest))
    Piece.Lays { taken := parts.chars.length, lexemes := [⟨offset, parts.token⟩], complaints } offset
      (.char c :: rest) := by
  intro parts
  have hfirst : NumberParts.isNumberChar c = true := by
    rcases hc with hc | rfl
    · exact (isFigure_of_isDigit hc).number
    · simp [NumberParts.isNumberChar]
  have hpre : parts.chars <+: SourceText.charsWhile NumberParts.isNumberChar (.char c :: rest) :=
    prefix_chars_ofText _
  have hne : parts.chars ≠ [] := by
    show (NumberParts.ofText (SourceText.charsWhile _ _)).chars ≠ []
    rw [SourceText.charsWhile, if_pos hfirst]
    exact chars_ofText_ne_nil hc _
  refine lays_token (x := .ofChars parts.chars) (by rw [SourceText.ofChars, List.length_map]) ?_
    ((hpre.map Glyph.char).trans (prefix_charsWhile _ _)) ?_
    (blank_not_mem (by simp [NumberParts.isNumberChar]) fun d hd => of_mem_charsWhile (hpre.subset hd))
  · simpa [SourceText.ofChars] using hne
  · rw [text_parts, SourceText.ofString, String.toList_ofList]

theorem lays_quotation {g : Glyph} {rest : SourceText} {kind : String → Token} {r : Read}
    (hpos : 0 < r.taken) (hreads : ∀ x : SourceText, Tile.Reads ⟨offset, x, some (kind x.shown)⟩) :
    (quotationPiece offset (g :: rest) kind r).Lays offset (g :: rest) := by
  refine ⟨hpos, .one ?_ (hreads _)⟩
  obtain ⟨n, hn⟩ := Nat.exists_eq_succ_of_ne_zero (Nat.ne_of_gt hpos)
  rw [show (quotationPiece offset (g :: rest) kind r).taken = n + 1 from hn, List.take_succ_cons]
  exact List.cons_ne_nil _ _

theorem lays_comment {p : Piece} (hpos : 0 < p.taken) (hlexemes : p.lexemes = [])
    (hx : IsComment (t.take p.taken)) : p.Lays offset t := by
  refine ⟨hpos, ?_⟩
  rw [hlexemes, ← List.append_nil (t.take p.taken)]
  exact (Laid.nil _).comment hx

theorem isComment_line (rest : SourceText) : IsComment (List.take
    (2 + (rest.takeWhile (· ≠ .char '\n')).length) (.char '/' :: .char '/' :: rest)) := by
  rw [Nat.add_comm 2, List.take_succ_cons, List.take_succ_cons, take_length_eq (List.takeWhile_prefix _)]
  refine .line _ fun hmem => ?_
  simpa using List.mem_takeWhile_imp hmem

/-- A comment goes to its first closing mark. -/
theorem exists_of_blockLength? {n : Nat} (h : blockLength? t = some n) :
    ∃ body rest, t = body ++ Glyph.char '*' :: .char '/' :: rest ∧ n = body.length + 2 ∧
      ¬ [Glyph.char '*', .char '/'] <:+: body ++ [Glyph.char '*'] := by
  fun_induction blockLength? t generalizing n with
  | case1 rest =>
    cases h
    exact ⟨[], rest, rfl, rfl, fun h => absurd h.length_le (by simp)⟩
  | case2 g rest hne ih =>
    obtain ⟨m, hm, rfl⟩ := Option.map_eq_some_iff.mp h
    obtain ⟨body, after, rfl, rfl, hbody⟩ := ih hm
    refine ⟨g :: body, after, rfl, rfl, fun hinfix => ?_⟩
    rw [List.cons_append, List.infix_cons_iff] at hinfix
    rcases hinfix with hpre | hinfix
    · obtain ⟨hstar, hslash⟩ := List.cons_prefix_cons.mp hpre
      cases body with
      | nil => exact absurd (List.cons_prefix_cons.mp hslash).1 (by decide)
      | cons d body =>
        exact hne _ hstar.symm (by rw [← (List.cons_prefix_cons.mp hslash).1]; rfl)
    · exact hbody hinfix
  | case3 => cases h

theorem isComment_block {n : Nat} (h : blockLength? t = some n) :
    IsComment (List.take (2 + n) (.char '/' :: .char '*' :: t)) := by
  obtain ⟨body, rest, rfl, rfl, hbody⟩ := exists_of_blockLength? h
  have htake : List.take (2 + (body.length + 2)) (.char '/' :: .char '*' ::
      (body ++ Glyph.char '*' :: .char '/' :: rest)) =
        Glyph.char '/' :: .char '*' :: body ++ [Glyph.char '*', .char '/'] := by
    rw [Nat.add_comm 2, List.take_succ_cons, List.take_succ_cons, List.take_length_add_append]
    rfl
  rw [htake]
  exact .block body hbody

/-- The operator that is found starts the text. -/
theorem prefix_of_operatorAt? {o : Operator} (h : operatorAt? t = some o) :
    SourceText.ofString o.spelling <+: t := by
  have hpre := List.isPrefixOf_iff_prefix.mp (List.find?_some (p := fun o : Operator =>
    o.spelling.toList.isPrefixOf (SourceText.charsWhile (fun _ => true) (t.take 3))) h)
  exact (hpre.map Glyph.char).trans ((prefix_charsWhile _ _).trans (List.take_prefix _ _))

theorem halves_spelling {o a b : Operator} (h : halves? o = some (a, b)) :
    o.spelling = a.spelling ++ b.spelling ∧ a.spelling.utf8ByteSize = 1 := by
  have hall : ∀ o : Operator, ∀ ab ∈ halves? o,
      o.spelling = ab.1.spelling ++ ab.2.spelling ∧ ab.1.spelling.utf8ByteSize = 1 :=
    of_all (by decide +kernel)
  exact hall o _ h

theorem spelling_no_blank : ∀ o : Operator, .char ' ' ∉ SourceText.ofString o.spelling :=
  of_all (by decide +kernel)

theorem ofString_spelling_ne_nil (o : Operator) : SourceText.ofString o.spelling ≠ [] := by
  have := spelling_ne_nil o
  simpa [SourceText.ofString, SourceText.ofChars] using this

theorem lays_operator {o : Operator} (h : operatorAt? t = some o) :
    Piece.Lays { taken := o.spelling.length, lexemes := operatorLexemes offset o } offset t := by
  have hlength : o.spelling.length = (SourceText.ofString o.spelling).length := by
    rw [SourceText.ofString, SourceText.ofChars, List.length_map, String.length_toList]
  have hpre := prefix_of_operatorAt? h
  unfold operatorLexemes
  split
  · rename_i a b hab
    obtain ⟨hspelling, hsize⟩ := halves_spelling hab
    have hreads : ∀ (p : Operator) (offset : Nat),
        Tile.Reads ⟨offset, .ofString p.spelling, some (.op p)⟩ :=
      fun p _ => reads_of_text rfl (spelling_no_blank p)
    refine ⟨?_, ?_⟩
    · rw [hlength]
      exact List.length_pos_iff.mpr (ofString_spelling_ne_nil o)
    · dsimp only
      rw [hlength, take_length_eq hpre, hspelling, ofString_append]
      refine Laid.lexeme (ofString_spelling_ne_nil a) (hreads a offset) ?_
      rw [size_ofString, hsize]
      exact .one (ofString_spelling_ne_nil b) (hreads b _)
  · exact lays_token hlength (ofString_spelling_ne_nil o) hpre rfl (spelling_no_blank o)

theorem lays_stray {g : Glyph} {rest : SourceText} (hg : g ≠ .char ' ') :
    (strayPiece offset g).Lays offset (g :: rest) :=
  ⟨Nat.one_pos, .one (List.cons_ne_nil _ _) ⟨g, rfl, rfl, hg⟩⟩

theorem head?_eq_char {c : Char} {rest : SourceText} (h : rest.head? = some (.char c)) :
    ∃ tail, rest = .char c :: tail := List.head?_eq_some_iff.mp h

/-- **A piece is laid out**, unless it is a comment that is not closed. -/
theorem lays_pieceAt {g : Glyph} {rest : SourceText}
    (h : ∀ c ∈ (pieceAt offset lineStart g rest).complaints, c.error ≠ .unterminatedComment) :
    (pieceAt offset lineStart g rest).Lays offset (g :: rest) := by
  cases g with
  | stray b => exact lays_stray nofun
  | char c =>
    revert h
    unfold pieceAt
    dsimp only
    unfold piece
    dsimp only
    split
    · rename_i hspace
      simp only [Bool.or_eq_true, decide_eq_true_eq] at hspace
      refine fun _ => ⟨Nat.one_pos, Laid.space (t := []) ?_ (.nil _)⟩
      rcases hspace with ((rfl | rfl) | rfl) | rfl
      · exact .inl rfl
      · exact .inr (.inl rfl)
      · exact .inr (.inr (.inl rfl))
      · exact .inr (.inr (.inr rfl))
    · rename_i hspace
      split
      · rename_i hletter
        exact fun _ => lays_word hletter
      · split
        · rename_i hnumber
          simp only [Bool.or_eq_true, Bool.and_eq_true, decide_eq_true_eq] at hnumber
          exact fun _ => lays_number (hnumber.imp_right (·.1))
        · split
          · exact fun _ => lays_quotation (by simp [readString, Nat.add_comm 1]) fun _ => .inl rfl
          · split
            · exact fun _ => lays_quotation (by simp [readChar, Nat.add_comm 1]) fun _ => rfl
            · split
              · refine fun _ => lays_quotation ?_ fun _ => .inr rfl
                unfold readRaw
                dsimp only
                split <;> simp [Nat.add_comm _ (List.length _)]
              · split
                · rename_i hslash
                  simp only [Bool.and_eq_true, decide_eq_true_eq] at hslash
                  obtain ⟨rfl, hrest⟩ := hslash
                  obtain ⟨tail, rfl⟩ := head?_eq_char hrest
                  exact fun _ => lays_comment (Nat.add_pos_left Nat.two_pos _) rfl (isComment_line tail)
                · split
                  · rename_i hslash
                    simp only [Bool.and_eq_true, decide_eq_true_eq] at hslash
                    obtain ⟨rfl, hrest⟩ := hslash
                    obtain ⟨tail, rfl⟩ := head?_eq_char hrest
                    unfold blockComment
                    rw [List.tail_cons]
                    split
                    · exact fun h => absurd rfl (h _ (List.mem_singleton_self _))
                    · rename_i n hn
                      exact fun _ => lays_comment (Nat.add_pos_left Nat.two_pos _) rfl (isComment_block hn)
                  · split
                    · rename_i o ho
                      exact fun _ => lays_operator ho
                    · refine fun _ => lays_stray fun heq => hspace ?_
                      cases heq
                      rfl

end

/-! ### Whole texts -/

/-- **A text is laid out with its lexemes**, in which all comments are closed. -/
theorem laid_scanFrom (t : SourceText) : ∀ {offset lineStart : Nat},
    (∀ c ∈ (scanFrom offset lineStart t).complaints, c.error ≠ .unterminatedComment) →
      Laid offset t (scanFrom offset lineStart t).lexemes ∧
        (scanFrom offset lineStart t).finish = offset + t.size := by
  induction hn : t.length using Nat.strongRecOn generalizing t with
  | ind n ih =>
    intro offset lineStart h
    cases t with
    | nil =>
      rw [scanFrom]
      exact ⟨.nil offset, rfl⟩
    | cons g rest =>
      rw [scanFrom_cons] at h ⊢
      dsimp only at h ⊢
      rw [List.forall_mem_append] at h
      obtain ⟨hpos, hpiece⟩ := lays_pieceAt h.1
      obtain ⟨more, hmore⟩ := Nat.exists_eq_succ_of_ne_zero (Nat.ne_of_gt hpos)
      rw [hmore, Nat.succ_sub_one] at h ⊢
      rw [hmore, List.take_succ_cons] at hpiece
      have hsplit : g :: rest = (g :: rest.take more) ++ rest.drop more := by
        rw [List.cons_append, List.take_append_drop]
      have hshort : (rest.drop more).length < n := by
        rw [← hn, List.length_drop, List.length_cons]
        omega
      obtain ⟨hafter, hfinish⟩ := ih _ hshort _ rfl h.2
      refine ⟨?_, hfinish.trans ?_⟩
      · rw [hsplit]
        exact hpiece.append hafter
      · rw [Nat.add_assoc, ← size_append, ← hsplit]

/-- The text that is read, and the offset at which it starts: a byte order mark may come before it. -/
def unmarked : SourceText → Nat × SourceText
  | .char c :: rest => if c = byteOrderMark then (c.utf8Size, rest) else (0, .char c :: rest)
  | t => (0, t)

theorem scanText_eq (t : SourceText) :
    scanText t =
      let scanned := scanFrom (unmarked t).1 0 (unmarked t).2
      { scanned with
        lexemes := joinSuffixes scanned.lexemes
        complaints := (readComplaints 0 t ++ scanned.complaints).mergeSort fun a b => a.raisedAt ≤ b.raisedAt
        redirects := scanned.redirects.filter fun r => r.offset < scanned.finish } := by
  cases t with
  | nil => rfl
  | cons g rest =>
    cases g with
    | stray b => rfl
    | char c =>
      by_cases hc : c = byteOrderMark
      · simp only [scanText, unmarked, if_pos hc]
      · simp only [scanText, unmarked, if_neg hc]

theorem exists_mark (t : SourceText) :
    ∃ mark, t = mark ++ (unmarked t).2 ∧ mark.size = (unmarked t).1 ∧
      (mark = [] ∨ mark = [.char byteOrderMark]) := by
  unfold unmarked
  split
  · split
    · rename_i hc
      subst hc
      exact ⟨[.char byteOrderMark], rfl, rfl, .inr rfl⟩
    · exact ⟨[], rfl, rfl, .inl rfl⟩
  · exact ⟨[], rfl, rfl, .inl rfl⟩

theorem mem_complaints_scanText {t : SourceText} {c : Complaint} :
    c ∈ (scanText t).complaints ↔
      c ∈ readComplaints 0 t ∨ c ∈ (scanFrom (unmarked t).1 0 (unmarked t).2).complaints := by
  rw [scanText_eq]
  simp only [List.mem_mergeSort, List.mem_append]

/-- A byte that belongs to no character is complained about. -/
theorem exists_complaint_of_stray {t : SourceText} {b : UInt8} (h : .stray b ∈ t) (offset : Nat) :
    ∃ c ∈ readComplaints offset t, c.error = .encoding := by
  induction t generalizing offset with
  | nil => cases h
  | cons g t ih =>
    rw [readComplaints]
    rcases List.mem_cons.mp h with rfl | h
    · exact ⟨_, List.mem_append_left _ (List.mem_singleton_self _), rfl⟩
    · obtain ⟨c, hc, herror⟩ := ih h (offset + g.size)
      exact ⟨c, List.mem_append_right _ hc, herror⟩

theorem increasing_of_tiled {offset : Nat} {t : SourceText} {as : List Tile} (h : Tiled offset t as) :
    ((as.filterMap Tile.lexeme?).map Lexeme.offset ++ [offset + t.size]).Pairwise (· < ·) := by
  have hoffset : ∀ {a : Tile} {l : Lexeme}, a.lexeme? = some l → l.offset = a.offset := by
    intro a l hl
    obtain ⟨u, -, rfl⟩ := Option.map_eq_some_iff.mp hl
    rfl
  refine List.pairwise_append.mpr ⟨?_, List.pairwise_singleton _ _, ?_⟩
  · rw [List.pairwise_map, List.pairwise_filterMap]
    refine h.pairwise.imp_of_mem fun {a b} ha _ hab l hl l' hl' => ?_
    have := h.bounds ha
    rw [hoffset hl, hoffset hl']
    omega
  · intro o ho finish hfinish
    obtain ⟨l, hl, rfl⟩ := List.mem_map.mp ho
    obtain ⟨a, ha, hlexeme⟩ := List.mem_filterMap.mp hl
    have := h.bounds ha
    rw [List.mem_singleton.mp hfinish, hoffset hlexeme]
    omega

/-- The complaints that are ignored name the question mark by its code. -/
theorem isIgnored_plain {e : ScanError} (h : '+' ∉ e.message.toList) : e.isIgnored = false := by
  rw [← Bool.not_eq_true, ScanError.isIgnored, String.contains_string_iff]
  exact fun hin => h (List.IsInfix.subset hin (by simp))

theorem isIgnored_encoding : ScanError.isIgnored .encoding = false := isIgnored_plain (by decide)

theorem isIgnored_wideEncoding : ScanError.isIgnored .wideEncoding = false := isIgnored_plain (by decide)

theorem isIgnored_unterminatedComment : ScanError.isIgnored .unterminatedComment = false :=
  isIgnored_plain (by decide)

/-- A text with no complaint but ignored ones is laid out, a byte order mark at its start apart. -/
theorem exists_tiles {u : SourceText} (h : ∀ c ∈ (scanText u).complaints, c.error.isIgnored = true) :
    (∀ b, .stray b ∉ u) ∧ (scanText u).finish = u.size ∧ ∃ mark rest as, u = mark ++ rest ∧
      (mark = [] ∨ mark = [.char byteOrderMark]) ∧ Tiled mark.size rest as ∧ (∀ a ∈ as, a.Reads) ∧
        as.filterMap Tile.lexeme? = (scanText u).lexemes := by
  obtain ⟨mark, hmark, hstart, hmarked⟩ := exists_mark u
  have hignored := fun c hc => h c (mem_complaints_scanText.mpr hc)
  have hclosed : ∀ c ∈ (scanFrom (unmarked u).1 0 (unmarked u).2).complaints,
      c.error ≠ .unterminatedComment := by
    intro c hc herror
    have := hignored c (.inr hc)
    rw [herror, isIgnored_unterminatedComment] at this
    cases this
  obtain ⟨hlaid, hend⟩ := laid_scanFrom _ hclosed
  obtain ⟨as, htiled, hreads, has⟩ := hlaid.joined
  rw [scanText_eq]
  refine ⟨fun b hb => ?_, ?_, mark, _, as, hmark, hmarked, by rwa [hstart], hreads, has⟩
  · obtain ⟨c, hc, herror⟩ := exists_complaint_of_stray hb 0
    have := hignored c (.inl hc)
    rw [herror, isIgnored_encoding] at this
    cases this
  · rw [hend, ← hstart, ← size_append, ← hmark]

theorem cover_of_mark {mark rest before after : SourceText} {g : Glyph} {as : List Tile}
    (hmark : mark = [] ∨ mark = [.char byteOrderMark]) (h : Tiled mark.size rest as)
    (hsplit : mark ++ rest = before ++ g :: after) :
    IsSpace g ∨ (before = [] ∧ g = .char byteOrderMark) ∨
      ∃ a ∈ as, a.offset ≤ before.size ∧ before.size < a.finish := by
  rcases List.append_eq_append_iff.mp hsplit with ⟨inner, rfl, hrest⟩ | ⟨later, hlater, hrest⟩
  · rw [size_append]
    exact (h.cover hrest).imp_right .inr
  · cases later with
    | nil =>
      have hin := h.cover (show rest = [] ++ g :: after from hrest.symm)
      rw [hlater, List.append_nil] at hin
      exact hin.imp_right .inr
    | cons d later =>
      obtain ⟨rfl, -⟩ := List.cons_eq_cons.mp hrest
      rcases hmark with rfl | rfl
      · exact absurd hlater.symm (by simp)
      · cases before with
        | nil => exact .inr (.inl ⟨rfl, (List.cons_eq_cons.mp hlater).1.symm⟩)
        | cons e before => exact absurd (List.cons_eq_cons.mp hlater).2.symm (by simp)

/-- The quotations. -/
def isQuotation : Token → Bool
  | char _ | string _ => true
  | _ => false

theorem Tile.Reads.spelled {a : Tile} {t : Token} (h : a.Reads) (ht : a.token? = some t)
    (hquotation : isQuotation t = false) (hchars : ∀ b, .stray b ∉ a.text) :
    a.text = .ofString t.text ∧ .char ' ' ∉ a.text := by
  rw [Tile.Reads, ht] at h
  cases t with
  | char s => cases hquotation
  | string s => cases hquotation
  | stray c =>
    obtain ⟨g, hg, rfl, hblank⟩ := h
    rw [hg] at hchars ⊢
    cases g with
    | stray b => exact absurd (List.mem_singleton_self _) (hchars b)
    | char c =>
      refine ⟨?_, by rw [List.mem_singleton]; exact Ne.symm hblank⟩
      simp [Token.text, SourceText.ofString, SourceText.ofChars, Glyph.shown]
  | _ => exact h

end KernelForge.Token

namespace KernelForge.TokenStream

open Token

theorem of_no_diagnostics {file : String} {t : SourceText} (h : (ofText file t).diagnostics = []) :
    (∀ c ∈ (scanText (stripDirectives t).text).complaints, c.error.isIgnored = true) ∧
      (ofText file t).lexemes = (scanText (stripDirectives t).text).lexemes ∧
        (ofText file t).finish = (scanText (stripDirectives t).text).finish := by
  unfold ofText at h ⊢
  dsimp only at h ⊢
  obtain ⟨-, hcomplaints⟩ := List.append_eq_nil_iff.mp h
  have hignored := List.filter_eq_nil_iff.mp (List.map_eq_nil_iff.mp hcomplaints)
  split at hignored
  · have := hignored ⟨0, 0, .wideEncoding⟩ List.mem_cons_self
    rw [isIgnored_wideEncoding] at this
    exact absurd rfl this
  · rename_i hwide
    rw [if_neg hwide]
    exact ⟨fun c hc => by simpa using hignored c hc, rfl, rfl⟩

/-- Without complaints the lexemes stand one after another, and before the end. -/
theorem increasing_ofText {file : String} {t : SourceText} (h : (ofText file t).diagnostics = []) :
    ((ofText file t).lexemes.map Lexeme.offset ++ [(ofText file t).finish]).Pairwise (· < ·) := by
  obtain ⟨hignored, hlexemes, hfinish⟩ := of_no_diagnostics h
  obtain ⟨-, hend, mark, rest, as, hsplit, -, htiled, -, has⟩ := exists_tiles hignored
  have hincreasing := increasing_of_tiled htiled
  rwa [has, ← SourceText.size_append, ← hsplit, ← hend, ← hlexemes, ← hfinish] at hincreasing

/-- The lexemes of a stream are what stands in the source. -/
structure Faithful (t : SourceText) (s : TokenStream) : Prop where
  finish : s.finish = t.size
  increasing : (s.lexemes.map Lexeme.offset ++ [s.finish]).Pairwise (· < ·)
  /-- The tiles of the lexemes and of the comments, side by side. -/
  laid : ∃ as : List Tile, as.filterMap Tile.lexeme? = s.lexemes ∧
    as.Pairwise (fun a b => a.finish ≤ b.offset) ∧
    (∀ a ∈ as, a.Reads ∧ StandsAt (stripDirectives t).text a.offset a.text) ∧
    (∀ a ∈ as, ∀ u, a.token? = some u → isQuotation u = false →
      a.text = .ofString u.text ∧ StandsAt t a.offset a.text) ∧
    ∀ (pre : SourceText) (g : Glyph) (post : SourceText), t = pre ++ g :: post →
      IsSpace g ∨ (pre = [] ∧ g = .char byteOrderMark) ∨
        (∃ a ∈ as, a.offset ≤ pre.size ∧ pre.size < a.finish) ∨ InDirective t pre.size

/-- **Scanning is faithful.**  Stripping moves nothing; and when nothing is objected to, the lexemes are
spelled in the source where they say, one after another up to its end, and what they leave out is white
space, a byte order mark, comments and directives. -/
theorem scanning_faithful (file : String) (t : SourceText) :
    (stripDirectives t).text.size = t.size ∧ newlines 0 (stripDirectives t).text = newlines 0 t ∧
      ((ofText file t).diagnostics = [] → Faithful t (ofText file t)) := by
  have hmasks := masks_stripDirectives t
  refine ⟨hmasks.same.1, hmasks.same.2 0, fun h => ?_⟩
  obtain ⟨hignored, hlexemes, hfinish⟩ := of_no_diagnostics h
  obtain ⟨hchars, hend, mark, rest, as, hsplit, hmark, htiled, hreads, has⟩ := exists_tiles hignored
  have hfinish : (ofText file t).finish = t.size := by rw [hfinish, hend, hmasks.same.1]
  have hstands : ∀ a ∈ as, StandsAt (stripDirectives t).text a.offset a.text := by
    intro a ha
    obtain ⟨-, pre, post, hrest, hoffset⟩ := htiled.standsAt ha
    refine ⟨mark ++ pre, post, ?_, by rw [SourceText.size_append, hoffset]⟩
    rw [hsplit, hrest]
    simp
  refine ⟨hfinish, increasing_ofText h, as, has.trans hlexemes.symm, htiled.pairwise,
    fun a ha => ⟨hreads a ha, hstands a ha⟩, fun a ha v hv hquotation => ?_, fun pre g post ht => ?_⟩
  · have hat := hstands a ha
    obtain ⟨before, after, hwhole, -⟩ := hat
    have hspelled := (hreads a ha).spelled hv hquotation fun b hb => hchars b (by rw [hwhole]; simp [hb])
    exact ⟨hspelled.1, hmasks.standsAt (htiled.standsAt ha).1 hspelled.2 (hstands a ha)⟩
  · rcases standsAt_or_inDirective ht with ⟨before, after, hwhole, hbefore⟩ | hdirective
    · rw [List.append_assoc, hsplit] at hwhole
      rw [← hbefore]
      refine (cover_of_mark hmark htiled hwhole).imp_right (.imp (fun hbom => ⟨?_, hbom.2⟩) .inl)
      by_contra hne
      rw [hbom.1] at hbefore
      exact absurd hbefore.symm (Nat.ne_of_gt (size_pos_of_ne_nil hne))
    · exact .inr (.inr (.inr hdirective))

/-- An assignment is scanned to its four tokens. -/
theorem assignment_faithful :
    let t := SourceText.ofChars (spaced [.name "x", .op .assign, .int "1", .op .semicolon])
    (ofText "" t).diagnostics = [] ∧ Faithful t (ofText "" t) := by
  have hnone := (ofText_of_scans (@scans_spaced [.name "x", .op .assign, .int "1", .op .semicolon]
    (by decide)) "").2.2
  exact ⟨hnone, (scanning_faithful "" _).2.2 hnone⟩

end KernelForge.TokenStream
