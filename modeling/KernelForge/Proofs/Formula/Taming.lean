/-
What is written for a formula is tame.

A star comes into the source of a kernel as the mark of a pointer type and as an operator.  The name of
a type is followed by the name that is declared, inside the name of a tuple by an underscore; an operator
is followed by a value.  So no star is followed by a closing bracket.  A `k` comes in only with the names
of functions, which are called.

The induction is on the formula and goes into the bodies of the helpers.  It needs the type of the
formula, for a placeholder without a binding has no text, and for the names of elements.
-/
import KernelForge.Proofs.Code.Headers
import KernelForge.Proofs.Decimal.General
import KernelForge.Proofs.Formula.Defining

namespace KernelForge

open Token (Tame Leads isFirm isWord)

/-! ### Plain texts -/

/-- A character that no rule is about. -/
def isPlainChar (c : Char) : Bool := c ≠ '*' && c ≠ 'k' && c ≠ '#'

theorem tame_of_all {line? : Option (List Char)} {cs : List Char} (h : cs.all isPlainChar = true) :
    Tame line? cs := by
  refine Token.tame_of_plain fun c hc => ?_
  have hplain := List.all_eq_true.mp h c hc
  simpa [isPlainChar, and_assoc] using hplain

/-- A text that may stand anywhere. -/
structure Tidy (s : String) : Prop where
  tame : Tame none s.toList

/-- A text that may stand behind a star as well. -/
structure Firm (s : String) : Prop where
  tidy : Tidy s
  head : ∃ c cs, s.toList = c :: cs ∧ isFirm c = true

section
variable {s t name : String}

theorem tidy_plain (h : s.toList.all isPlainChar = true) : Tidy s := ⟨tame_of_all h⟩

theorem firm_plain (h : s.toList.all isPlainChar = true) (hhead : s.toList.head?.any isFirm = true) :
    Firm s := by
  refine ⟨tidy_plain h, ?_⟩
  cases hs : s.toList with
  | nil =>
    rw [hs] at hhead
    cases hhead
  | cons c cs =>
    rw [hs] at hhead
    exact ⟨c, cs, rfl, hhead⟩

theorem Tidy.append (hs : Tidy s) (ht : Tidy t) : Tidy (s ++ t) := by
  refine ⟨?_⟩
  rw [String.toList_append]
  exact Tame.append hs.tame ht.tame

/-- Brackets make any text firm. -/
theorem Tidy.bracketed (hs : Tidy s) (ht : t.toList.all isPlainChar = true) : Firm ("(" ++ s ++ t) :=
  ⟨((tidy_plain (by decide)).append hs).append (tidy_plain ht), '(', s.toList ++ t.toList,
    by rw [String.toList_append, String.toList_append]; rfl, by decide⟩

theorem Firm.append (hs : Firm s) (ht : Tidy t) : Firm (s ++ t) := by
  obtain ⟨htidy, c, cs, hcs, hc⟩ := hs
  exact ⟨htidy.append ht, c, cs ++ t.toList, by rw [String.toList_append, hcs]; rfl, hc⟩

theorem tidy_join {ss : List String} (h : ∀ s ∈ ss, Tidy s) : Tidy (String.join ss) := by
  induction ss with
  | nil => exact ⟨trivial⟩
  | cons s ss ih =>
    rw [List.forall_mem_cons] at h
    rw [String.join_cons]
    exact h.1.append (ih h.2)

theorem tidy_intercalate {sep : String} (hsep : Tidy sep) : ∀ {ss : List String},
    (∀ s ∈ ss, Tidy s) → Tidy (sep.intercalate ss)
  | [], _ => ⟨trivial⟩
  | [s], h => by simpa using h
  | s :: t :: ss, h => by
    rw [List.forall_mem_cons] at h
    rw [String.intercalate_cons_cons]
    exact (h.1.append hsep).append (tidy_intercalate hsep h.2)

/-- A word may have any letters where it is called. -/
theorem tame_called {line? : Option (List Char)} {w cs : List Char}
    (hw : ∀ c ∈ w, Text.isNameChar c = true) (hcs : Tame line? ('(' :: cs)) :
    Tame line? (w ++ '(' :: cs) := by
  induction w with
  | nil => exact hcs
  | cons c w ih =>
    rw [List.forall_mem_cons] at hw
    refine ⟨?_, fun _ => .inl ⟨w, cs, rfl, hw.2⟩, ?_, ih hw.2⟩
    · rintro rfl
      exact absurd hw.1 (by decide)
    · rintro rfl
      exact absurd hw.1 (by decide)

theorem tidy_call (hname : ∀ c ∈ name.toList, Text.isNameChar c = true) (hs : Tidy s) :
    Tidy (name ++ "(" ++ s) := by
  have hcall : Tame none (name.toList ++ '(' :: s.toList) :=
    tame_called hname ⟨nofun, nofun, by decide, hs.tame⟩
  exact ⟨by simpa using hcall⟩

end

/-! ### Names of types -/

namespace Ty

/-- A text as the names of types are: a star is followed by a star or an underscore, or it is the last
character. -/
def Worded : List Char → Prop
  | [] => True
  | c :: cs => Code.isHeaderChar c = true ∧ c ≠ ',' ∧ isPlainChar c = true ∧ Worded cs ∨
      c = '*' ∧ (∀ d ∈ cs.head?, d = '*' ∨ d = '_') ∧ Worded cs

/-- A character that a word of a name may have. -/
def isWordedChar (c : Char) : Bool := Code.isHeaderChar c && c ≠ ',' && isPlainChar c

section
variable {cs ds : List Char}

theorem Worded.tail {c : Char} (h : Worded (c :: cs)) : Worded cs := by
  rcases h with ⟨-, -, -, h⟩ | ⟨-, -, h⟩ <;> exact h

theorem worded_plain (hcs : cs.all isWordedChar = true) (hds : Worded ds) : Worded (cs ++ ds) := by
  induction cs with
  | nil => exact hds
  | cons c cs ih =>
    rw [List.all_cons, Bool.and_eq_true] at hcs
    obtain ⟨hc, hcs⟩ := hcs
    simp only [isWordedChar, Bool.and_eq_true, decide_eq_true_eq] at hc
    exact .inl ⟨hc.1.1, hc.1.2, hc.2, ih hcs⟩

theorem worded_underscore (hds : Worded ds) : Worded ('_' :: ds) :=
  .inl ⟨by decide, by decide, by decide, hds⟩

theorem worded_all (hcs : cs.all isWordedChar = true) : Worded cs := by
  have h : Worded (cs ++ []) := worded_plain hcs trivial
  rwa [List.append_nil] at h

/-- A name may end in a star when an underscore or a star follows. -/
theorem Worded.append (hcs : Worded cs) (hds : Worded ds) (hhead : ∀ d ∈ ds.head?, d = '*' ∨ d = '_') :
    Worded (cs ++ ds) := by
  induction cs with
  | nil => exact hds
  | cons c cs ih =>
    rcases hcs with ⟨hc, hcomma, hplain, hcs⟩ | ⟨rfl, hnext, hcs⟩
    · exact .inl ⟨hc, hcomma, hplain, ih hcs⟩
    · refine .inr ⟨rfl, fun d hd => ?_, ih hcs⟩
      cases cs with
      | nil => exact hhead d hd
      | cons e cs => exact hnext d hd

theorem Worded.of_suffix (h : Worded cs) (hds : ds <:+ cs) : Worded ds := by
  induction cs with
  | nil =>
    rw [List.suffix_nil.mp hds]
    trivial
  | cons c cs ih =>
    rcases List.suffix_cons_iff.mp hds with rfl | hds
    · exact h
    · exact ih h.tail hds

theorem Worded.start (h : Worded cs) (hds : ds <+: cs) : Worded ds := by
  induction cs generalizing ds with
  | nil =>
    rw [List.prefix_nil.mp hds]
    trivial
  | cons c cs ih =>
    cases ds with
    | nil => trivial
    | cons d ds =>
      obtain ⟨rfl, hmore⟩ := List.cons_prefix_cons.mp hds
      rcases h with ⟨hd, hcomma, hplain, hcs⟩ | ⟨rfl, hnext, hcs⟩
      · exact .inl ⟨hd, hcomma, hplain, ih hcs hmore⟩
      · refine .inr ⟨rfl, fun e he => hnext e ?_, ih hcs hmore⟩
        obtain ⟨rest, rfl⟩ := hmore
        rw [List.head?_append, Option.mem_def.mp he]
        rfl

theorem Worded.trim (h : Worded cs) : Worded (trimUnderscores cs) := by
  have hprefix : trimUnderscores cs <+: cs.dropWhile (· == '_') := by
    rw [← List.reverse_suffix, trimUnderscores, List.reverse_reverse]
    exact List.dropWhile_suffix _
  exact (h.of_suffix (List.dropWhile_suffix _)).start hprefix

end

mutual

theorem worded_name : ∀ t : Ty, Worded t.name.toList
  | .void => worded_all (by decide)
  | .scalar s => by cases s <;> exact worded_all (by decide)
  | .vector s w => by cases s <;> cases w <;> exact worded_all (by decide)
  | .tuple ts => by
    have hword : (tupleWord ts).all isWordedChar = true := by
      unfold tupleWord
      split <;> decide
    rw [name_tuple]
    exact worded_underscore (worded_plain hword (worded_underscore (worded_joinedStems ts)))
  | .pointer t space readOnly => by
    have hspace : (if space = .priv then "" else space.qualifier ++ " ").toList.all isWordedChar = true := by
      cases space <;> decide
    have hconst : (if readOnly then "const " else "").toList.all isWordedChar = true := by
      cases readOnly <;> decide
    have hstar : Worded (t.name.toList ++ ['*']) := by
      refine (worded_name t).append (.inr ⟨rfl, nofun, trivial⟩) ?_
      rintro _ ⟨rfl⟩
      exact .inl rfl
    rw [name, String.toList_append, String.toList_append, String.toList_append, List.append_assoc,
      List.append_assoc]
    exact worded_plain hspace (worded_plain hconst hstar)

theorem worded_joinedStems : ∀ ts : List Ty, Worded (joinedStems ts)
  | [] => worded_all (by decide)
  | t :: ts => (worded_name t).trim.append (worded_laterStems ts).1 (worded_laterStems ts).2

theorem worded_laterStems : ∀ ts : List Ty, Worded (laterStems ts) ∧
    ∀ d ∈ (laterStems ts).head?, d = '*' ∨ d = '_'
  | [] => by
    refine ⟨worded_all (by decide), ?_⟩
    rintro _ ⟨rfl⟩
    exact .inr rfl
  | t :: ts => by
    have hlater := (worded_name t).trim.append (worded_laterStems ts).1 (worded_laterStems ts).2
    refine ⟨worded_underscore hlater, ?_⟩
    rintro _ ⟨rfl⟩
    exact .inr rfl

end

/-- The name of a type may stand before what a star may stand before. -/
theorem Worded.tame {line? : Option (List Char)} {cs ds : List Char} (h : Worded cs)
    (hend : cs.getLast? = some '*' → Leads ds) (hds : Tame line? ds) : Tame line? (cs ++ ds) := by
  induction cs with
  | nil => exact hds
  | cons c cs ih =>
    have hrest : cs ≠ [] → Tame line? (cs ++ ds) := fun hne => by
      refine ih h.tail fun hlast => hend ?_
      rw [List.getLast?_cons, hlast]
      rfl
    have htail : Tame line? (cs ++ ds) := by
      cases cs with
      | nil => exact hds
      | cons d cs => exact hrest nofun
    rcases h with ⟨-, -, hplain, -⟩ | ⟨rfl, hnext, -⟩
    · simp only [isPlainChar, Bool.and_eq_true, decide_eq_true_eq] at hplain
      exact ⟨fun hc => absurd hc hplain.1.1, fun hc => absurd hc hplain.1.2, hplain.2, htail⟩
    · refine ⟨fun _ => ?_, nofun, by decide, htail⟩
      cases cs with
      | nil => exact hend rfl
      | cons d cs =>
        refine ⟨[], _, rfl, nofun, .inl ⟨d, cs ++ ds, rfl, ?_⟩⟩
        rcases hnext d rfl with rfl | rfl <;> decide

/-- The name of a tuple is a word, whatever its fields are called. -/
theorem getLast?_name_tuple (ts : List Ty) : (tuple ts).name.toList.getLast? = some 't' := by
  obtain ⟨cs, hcs⟩ := getLast?_joinedStems ts
  have hname : (tuple ts).name.toList = ('_' :: (tupleWord ts ++ '_' :: cs)) ++ ['t'] := by
    rw [name_tuple, hcs]
    simp
  rw [hname, List.getLast?_append]
  rfl

theorem tidy_tuple (ts : List Ty) : Tidy (tuple ts).name := by
  have htame : Tame none ((tuple ts).name.toList ++ []) := (worded_name (tuple ts)).tame
    (fun hlast => by rw [getLast?_name_tuple] at hlast; cases hlast) trivial
  rw [List.append_nil] at htame
  exact ⟨htame⟩

theorem tidy_vector (s : Scalar) (w : Width) : Tidy (vector s w).name := by
  cases s <;> cases w <;> exact tidy_plain (by decide)

end Ty

/-! ### Literals -/

theorem forall_of_mapM {α β ε : Type} {f : α → Except ε β} {P : β → Prop}
    (hf : ∀ a b, f a = .ok b → P b) : ∀ {as : List α} {bs : List β}, as.mapM f = .ok bs →
      ∀ b ∈ bs, P b
  | [], bs, h => by
    cases h
    nofun
  | a :: as, bs, h => by
    rw [List.mapM_cons] at h
    obtain ⟨b, hb, h⟩ := bind_eq_ok.mp h
    obtain ⟨bs, hbs, h⟩ := bind_eq_ok.mp h
    cases h
    exact List.forall_mem_cons.mpr ⟨hf a b hb, forall_of_mapM hf hbs⟩

/-- A character that the text of a number may have. -/
def isFigureChar (c : Char) : Bool :=
  c.isDigit || ['.', 'e', '+', '-', 'N', 'a', 'I', 'n', 'f', 'u', 'l'].contains c

theorem plain_of_figure {c : Char} (h : isFigureChar c = true) :
    isPlainChar c = true ∧ isFirm c = true := by
  have hne : ∀ d, isFigureChar d = false → c ≠ d := by
    rintro d hd rfl
    rw [h] at hd
    cases hd
  refine ⟨?_, ?_⟩
  · simp only [isPlainChar, Bool.and_eq_true, decide_eq_true_eq]
    exact ⟨⟨hne _ (by decide), hne _ (by decide)⟩, hne _ (by decide)⟩
  · simp only [isFirm, Bool.not_eq_true', Bool.eq_false_iff, ne_eq, List.contains_iff_mem, List.mem_cons,
      List.not_mem_nil, or_false, not_or]
    refine ⟨?_, ?_, ?_, ?_, ?_, ?_, ?_, ?_⟩ <;> exact hne _ (by decide)

/-- A text of characters of numbers. -/
def IsFigure (s : String) : Prop := ∀ c ∈ s.toList, isFigureChar c = true

section
variable {s t : String}

theorem IsFigure.append (hs : IsFigure s) (ht : IsFigure t) : IsFigure (s ++ t) := by
  intro c hc
  rw [String.toList_append] at hc
  exact (List.mem_append.mp hc).elim (hs c) (ht c)

theorem IsFigure.firm (hs : IsFigure s) (hne : s.toList ≠ []) : Firm s := by
  refine firm_plain (List.all_eq_true.mpr fun c hc => (plain_of_figure (hs c hc)).1) ?_
  obtain ⟨c, cs, hcs⟩ := List.exists_cons_of_ne_nil hne
  rw [hcs]
  exact (plain_of_figure (hs c (hcs ▸ List.mem_cons_self))).2

theorem isFigure_digits {cs : List Char} (h : ∀ c ∈ cs, c.isDigit = true) :
    IsFigure (String.ofList cs) := by
  intro c hc
  rw [String.toList_ofList] at hc
  rw [isFigureChar, h c hc, Bool.true_or]

theorem isFigure_toString (n : Nat) : IsFigure (toString n) := by
  intro c hc
  rw [isFigureChar, Names.isDigit_toString c hc, Bool.true_or]

theorem isFigure_int (i : Int) : IsFigure (toString i) ∧ (toString i).toList ≠ [] := by
  rcases Int.lt_or_le i 0 with h | h
  · rw [Literal.toString_neg h]
    exact ⟨.append (forall_mem_of_all (by decide)) (isFigure_toString _), by simp⟩
  · rw [Literal.toString_nonneg h]
    exact ⟨isFigure_toString _, Names.toString_ne_nil _⟩

end

namespace Decimal

theorem isFigure_exponentText (e : Int) : IsFigure (exponentText e) := by
  have hsign : IsFigure (if e < 0 then "e-" else "e+") := by
    split <;> exact forall_mem_of_all (by decide)
  unfold exponentText
  refine hsign.append ?_
  split
  · exact .append (forall_mem_of_all (by decide)) (isFigure_toString _)
  · exact isFigure_toString _

theorem isFigure_positional {digits : List Char} (h : ∀ c ∈ digits, c.isDigit = true) (point : Int) :
    IsFigure (positional digits point) := by
  have hzeros : ∀ n, ∀ c ∈ List.replicate n '0', c.isDigit = true := fun _ => isDigit_replicate_zero
  unfold positional
  split
  · exact .append (forall_mem_of_all (by decide))
      (isFigure_digits (List.forall_mem_append.mpr ⟨hzeros _, h⟩))
  · simp only
    split
    · exact isFigure_digits (List.forall_mem_append.mpr ⟨h, hzeros _⟩)
    · refine .append (.append (isFigure_digits fun c hc => ?_) (forall_mem_of_all (by decide)))
        (isFigure_digits fun c hc => ?_)
      · exact h c (List.mem_of_mem_take hc)
      · exact h c (List.mem_of_mem_drop hc)

theorem isFigure_general (s : Scaled) : IsFigure s.general := by
  have hdigits : ∀ c ∈ Nat.toDigits 10 s.digits, c.isDigit = true :=
    fun c hc => Nat.isDigit_of_mem_toDigits (by decide) (by decide) hc
  unfold Scaled.general
  split
  · exact forall_mem_of_all (by decide)
  · simp only
    split
    · split
      · rename_i d hd
        rw [hd] at hdigits
        exact .append (isFigure_digits hdigits) (isFigure_exponentText _)
      · rename_i d ds _ hd
        rw [hd, List.forall_mem_cons] at hdigits
        refine .append (fun c hc => ?_) (isFigure_exponentText _)
        rw [String.toList_ofList, List.mem_cons, List.mem_cons] at hc
        rcases hc with rfl | rfl | hc
        · rw [isFigureChar, hdigits.1, Bool.true_or]
        · decide
        · rw [isFigureChar, hdigits.2 c hc, Bool.true_or]
      · exact forall_mem_of_all (by decide)
    · exact isFigure_positional hdigits _

theorem isFigure_generalText (f : Binary.Format) (negative : Bool) (magnitude : Nat) :
    IsFigure (generalText f negative magnitude) := by
  unfold generalText
  split
  · exact forall_mem_of_all (by decide)
  · split
    · cases negative <;> exact forall_mem_of_all (by decide)
    · refine .append ?_ (isFigure_general _)
      cases negative <;> exact forall_mem_of_all (by decide)

end Decimal

namespace Literal

theorem firm_parenthesize {text : String} (h : Firm text) : Firm (parenthesize text) := by
  unfold parenthesize
  split
  · exact h.tidy.bracketed (by decide)
  · exact h

theorem isFigure_suffix (s : Scalar) : IsFigure (suffix s) := by
  cases s <;> exact forall_mem_of_all (by decide)

theorem firm_boolean (b : Bool) : Firm (boolean b) := by
  cases b <;> exact firm_plain (by decide) (by decide)

theorem firm_real (s : Scalar) (x : Binary64) : Firm (real s x) := by
  have hpoint : ∀ digits : String, IsFigure digits →
      Firm ((if digits.any fun c => c = '.' || c = 'e' then digits else digits ++ ".0") ++ suffix s) := by
    intro digits hdigits
    split
    · rename_i hany
      refine (hdigits.append (isFigure_suffix s)).firm fun hnil => ?_
      rw [String.toList_append] at hnil
      obtain ⟨c, hc, -⟩ := List.any_eq_true.mp (String.contains_bool_eq.symm.trans hany)
      rw [(List.append_eq_nil_iff.mp hnil).1] at hc
      cases hc
    · refine ((hdigits.append (forall_mem_of_all (by decide))).append (isFigure_suffix s)).firm ?_
      simp
  unfold real
  split
  · exact firm_plain (by decide) (by decide)
  · split
    · split <;> exact firm_plain (by decide) (by decide)
    · refine firm_parenthesize (hpoint _ ?_)
      split <;> exact Decimal.isFigure_generalText _ _ _

theorem tidy_scalar (s : Scalar) : Tidy s.name := by
  cases s <;> exact tidy_plain (by decide)

theorem firm_narrow (s : Scalar) (i : Int) : Firm (narrow s (toString i)) :=
  ((tidy_scalar s).bracketed (by decide)).append
    (firm_parenthesize ((isFigure_int i).1.firm (isFigure_int i).2)).tidy

theorem firm_integer (s : Scalar) (i : Int) : Firm (integer s i) := by
  have hdigits : ∀ i : Int, Firm (toString i ++ suffix s) := by
    intro i
    refine ((isFigure_int i).1.append (isFigure_suffix s)).firm fun hnil => ?_
    rw [String.toList_append] at hnil
    exact (isFigure_int i).2 (List.append_eq_nil_iff.mp hnil).1
  cases s with
  | bool => exact firm_boolean _
  | float | double => exact firm_real _ _
  | char | short | uchar | ushort => exact firm_narrow _ _
  | int | long => exact firm_parenthesize (hdigits _)
  | uint | ulong => exact hdigits _

theorem firm_ofReal (s : Scalar) (x : Binary64) : Firm (ofReal s x) := by
  unfold ofReal
  split
  · exact firm_real s x
  · split
    · exact firm_integer s _
    · split
      · exact firm_boolean _
      · exact firm_integer s _

theorem firm_of_scalar {s : Scalar} {h : HostTy} {v : HostValue} {text : String}
    (htext : scalar s h v = .ok text) : Firm text := by
  unfold scalar at htext
  split at htext
  · split at htext
    · cases htext
      exact firm_boolean _
    · cases htext
  · split at htext
    · cases htext
    · cases htext
      exact firm_integer s _
  · split at htext
    · cases htext
    · cases htext
      exact firm_integer s _
  · cases htext
    exact firm_ofReal s _
  · cases htext
    exact firm_ofReal s _
  · cases htext

/-- The literals of several parts, behind their type. -/
theorem firm_composite {name : String} (opening : String) {closing : String} {texts : List String}
    (hname : Tidy name) (hopening : opening.toList.all isPlainChar = true) (hclosing : closing.toList.all isPlainChar = true)
    (htexts : ∀ text ∈ texts, Firm text) :
    Firm ("(" ++ name ++ opening ++ ", ".intercalate texts ++ closing) :=
  ((hname.bracketed hopening).append
    (tidy_intercalate (tidy_plain (by decide)) fun text h => (htexts text h).tidy)).append
    (tidy_plain hclosing)

mutual

theorem firm_of_format : ∀ {t : Ty} {h : HostTy} {v : HostValue} {text : String},
    format t h v = .ok text → Firm text
  | .scalar s, h, v, text, htext => firm_of_scalar htext
  | .vector s w, h, v, text, htext => by
    unfold format at htext
    split at htext
    · split at htext
      · split at htext
        · cases htext
        · rename_i texts htexts
          cases htext
          exact firm_composite ")(" (Ty.tidy_vector s w) (by decide) (by decide)
            (forall_of_mapM (fun _ _ => firm_of_scalar) htexts)
      · cases htext
    · cases htext
  | .tuple ts, h, v, text, htext => by
    unfold format at htext
    split at htext
    · simp only at htext
      split at htext
      · split at htext
        · cases htext
        · rename_i texts htexts
          cases htext
          exact firm_composite ")\x7b" (Ty.tidy_tuple ts) (by decide) (by decide)
            (firm_of_formatFields htexts)
      · cases htext
    · cases htext
  | .void, h, v, text, htext => by cases htext
  | .pointer t space readOnly, h, v, text, htext => by cases htext

theorem firm_of_formatFields : ∀ {ts : List Ty} {fields : List (HostTy × HostValue)}
    {texts : List String}, formatFields ts fields = .ok texts → ∀ text ∈ texts, Firm text
  | [], fields, texts, h => by
    rw [formatFields] at h
    · cases h
      nofun
    · nofun
  | t :: ts, [], texts, h => by
    rw [formatFields] at h
    · cases h
      nofun
    · nofun
  | t :: ts, (g, v) :: rest, texts, h => by
    rw [formatFields] at h
    split at h
    · cases h
    · rename_i text htext
      split at h
      · cases h
      · rename_i more hmore
        cases h
        exact List.forall_mem_cons.mpr ⟨firm_of_format htext, firm_of_formatFields hmore⟩

end

/-- **A literal is firm.** -/
theorem firm_of_ofHost {type : Option HostTy} {value : HostValue} {t : Ty} {src : String}
    (h : ofHost type value = .ok (t, src)) : Firm src := by
  unfold ofHost at h
  split at h
  · cases h
  · simp only at h
    split at h
    · cases h
    · rename_i text htext
      cases h
      exact firm_of_format htext

end Literal

/-! ### Names -/

section
variable {s name : String}

theorem isFirm_plain_names {root : String} (hroot : Firm root) (i : Nat) :
    Firm (Names.indexedName root i) :=
  hroot.append ((isFigure_toString i).firm (Names.toString_ne_nil i)).tidy

theorem firm_indexed {root : String} (hroot : Firm root) (ns : Names) : Firm (ns.indexed root).1 :=
  isFirm_plain_names hroot _

theorem isWord_fresh {root : String} (hroot : isWord root.toList = true) (ns : Names) :
    isWord (ns.fresh root).1.toList = true := by
  unfold Names.fresh
  split
  · exact Names.isWord_indexedName hroot _
  · exact hroot

theorem isLetter_of_isAlpha {c : Char} (h : c.isAlpha = true) : Text.isLetter c = true := by
  have hascii : Text.isAscii c = true := by
    delta Char.isAlpha Char.isUpper Char.isLower at h
    simp only [Bool.or_eq_true, Bool.and_eq_true, decide_eq_true_eq] at h
    rw [Text.isAscii, decide_eq_true_eq]
    rcases h with h | h
    · exact Nat.lt_of_le_of_lt (UInt32.le_iff_toNat_le.mp h.2) (by decide)
    · exact Nat.lt_of_le_of_lt (UInt32.le_iff_toNat_le.mp h.2) (by decide)
  rw [Text.isLetter, hascii, if_pos rfl, h, Bool.true_or]

theorem HelperFn.isWord_of_make {id : Nat} {body : Formula} {result? : Option Ty} {params : List Ty}
    {fn : HelperFn} (h : make id name body result? params = .ok fn) : isWord name.toList = true := by
  have hname : isName name = true := by
    by_contra hnot
    rw [Bool.not_eq_true] at hnot
    simp [make, hnot, bind, Except.bind, throw, throwThe, MonadExceptOf.throw] at h
  unfold isName at hname
  cases hchars : name.toList with
  | nil =>
    rw [hchars] at hname
    cases hname
  | cons c cs =>
    rw [hchars] at hname
    simp only [Bool.and_eq_true, List.all_eq_true] at hname
    refine Bool.and_eq_true_iff.mpr ⟨isLetter_of_isAlpha hname.1.1.1, List.all_eq_true.mpr fun d hd => ?_⟩
    have hd := hname.1.1.2 d hd
    rw [Bool.or_eq_true, Bool.or_eq_true, decide_eq_true_eq] at hd
    rcases hd with (hd | hd) | rfl
    · exact Token.isLetter_isNameChar (isLetter_of_isAlpha hd)
    · exact Names.isNameChar_of_isDigit hd
    · decide

theorem isNameChar_of_isWord {w : List Char} (h : isWord w = true) :
    ∀ c ∈ w, Text.isNameChar c = true := by
  obtain ⟨c, cs, rfl, hc, hcs⟩ := Token.exists_of_isWord h
  exact List.forall_mem_cons.mpr ⟨Token.isLetter_isNameChar hc, hcs⟩

/-- A type stands before a name that is no word of types. -/
theorem tidy_decl (t : Ty) (hname : Firm name) : Tidy (t.name ++ " " ++ name) := by
  obtain ⟨htidy, c, cs, hcs, hc⟩ := hname
  have hlead : Leads (' ' :: name.toList) :=
    ⟨[' '], name.toList, rfl, List.forall_mem_singleton.mpr rfl, .inl ⟨c, cs, hcs, hc⟩⟩
  have htame : Tame none (t.name.toList ++ ' ' :: name.toList) :=
    (Ty.worded_name t).tame (fun _ => hlead) ⟨nofun, nofun, by decide, htidy.tame⟩
  exact ⟨by simpa using htame⟩

/-- A type stands before a name that is called. -/
theorem tidy_header (t : Ty) (hname : isWord name.toList = true) (hs : Tidy s) :
    Tidy (t.name ++ " " ++ name ++ "(" ++ s) := by
  have hlead : Leads (' ' :: (name.toList ++ '(' :: s.toList)) :=
    ⟨[' '], _, rfl, List.forall_mem_singleton.mpr rfl, .inr ⟨name.toList, s.toList, rfl, hname⟩⟩
  have hcall : Tame none (name.toList ++ '(' :: s.toList) :=
    tame_called (isNameChar_of_isWord hname) ⟨nofun, nofun, by decide, hs.tame⟩
  have htame : Tame none (t.name.toList ++ ' ' :: (name.toList ++ '(' :: s.toList)) :=
    (Ty.worded_name t).tame (fun _ => hlead) ⟨nofun, nofun, by decide, hcall⟩
  exact ⟨by simpa using htame⟩

end

/-! ### Drafts -/

theorem OrderedMap.mem_values_insert {α β : Type} [DecidableEq α] {m : OrderedMap α β} {k : α} {v w : β}
    (h : w ∈ (m.insert k v).2.values) : w = v ∨ w ∈ m.values := by
  obtain ⟨e, he, rfl⟩ := List.mem_map.mp h
  unfold insert at he
  split at he
  · rcases List.mem_or_eq_of_mem_set he with he | rfl
    · exact .inr (List.mem_map_of_mem he)
    · exact .inl rfl
  · rcases List.mem_append.mp he with he | he
    · exact .inr (List.mem_map_of_mem he)
    · exact .inl (congrArg Prod.snd (List.mem_singleton.mp he))

namespace Preamble

/-- No extension but that for doubles is enabled. -/
def Standard (p : Preamble) : Prop :=
  p.extensions.entries = [] ∨ p.extensions.entries = [(Draft.doubleExtension, ())]

theorem Standard.enable {p : Preamble} (h : p.Standard) : (p.enable Draft.doubleExtension).Standard := by
  rcases h with h | h <;>
    simp [Standard, Preamble.enable, OrderedMap.insert, OrderedMap.index?, h]

mutual

theorem Standard.inject : ∀ {p : Preamble} {t : Ty}, p.Standard → (p.inject t).Standard
  | p, .void, h => by
    rw [Preamble.inject]
    exact h
  | p, .scalar s, h => by
    rw [Preamble.inject]
    split
    · exact h.enable
    · exact h
  | p, .vector s w, h => by
    rw [Preamble.inject]
    split
    · exact h.enable
    · exact h
  | p, .pointer t space readOnly, h => by
    rw [Preamble.inject]
    exact Standard.inject h
  | p, .tuple ts, h => by
    rw [Preamble.inject]
    simp only
    split
    · exact h
    · exact (Standard.injectAll h : (p.injectAll ts).Standard)

theorem Standard.injectAll : ∀ {p : Preamble} {ts : List Ty}, p.Standard → (p.injectAll ts).Standard
  | p, [], h => by
    rw [Preamble.injectAll]
    exact h
  | p, t :: ts, h => by
    rw [Preamble.injectAll]
    exact Standard.injectAll (Standard.inject h)

end

end Preamble

namespace Draft

/-- A draft that has nothing but tidy texts. -/
structure Neat (d : Draft) : Prop where
  body : Tidy d.part.body
  functions : ∀ src ∈ d.pre.functions.values, Tidy src
  helpers : ∀ h ∈ d.pre.helperNames, isWord h.2.toList = true
  standard : d.pre.Standard

/-- A later state of a draft: it has its name and its arguments, and it is as neat. -/
structure Advances (d d' : Draft) : Prop where
  name : d'.name = d.name
  args : d'.part.args = d.part.args
  neat : d.Neat → d'.Neat

variable {d d₁ d₂ : Draft}

theorem Advances.refl (d : Draft) : d.Advances d := ⟨rfl, rfl, id⟩

theorem Advances.trans (h₁ : d.Advances d₁) (h₂ : d₁.Advances d₂) : d.Advances d₂ :=
  ⟨h₂.name.trans h₁.name, h₂.args.trans h₁.args, h₂.neat ∘ h₁.neat⟩

theorem advances_withNames {α : Type} (d : Draft) (take : Names → α × Names) :
    d.Advances (d.withNames take).2 := by
  unfold withNames
  split
  · exact ⟨rfl, rfl, fun h => ⟨h.body, h.functions, h.helpers, h.standard⟩⟩
  · exact ⟨rfl, rfl, fun h => ⟨h.body, h.functions, h.helpers, h.standard⟩⟩

theorem fst_withNames {α : Type} (d : Draft) (take : Names → α × Names) :
    ∃ ns, (d.withNames take).1 = (take ns).1 := by
  unfold withNames
  split
  · exact ⟨_, rfl⟩
  · exact ⟨_, rfl⟩

theorem advances_inject (d : Draft) (t : Ty) : d.Advances (d.inject t) := by
  obtain ⟨hfunctions, hhelpers⟩ := Preamble.inject_keeps t d.pre
  refine ⟨rfl, rfl, fun h => ⟨h.body, fun src hsrc => ?_, fun k hk => ?_, h.standard.inject⟩⟩
  · rw [OrderedMap.values, show (d.inject t).pre.functions = _ from hfunctions] at hsrc
    exact h.functions src hsrc
  · rw [show (d.inject t).pre.helperNames = _ from hhelpers] at hk
    exact h.helpers k hk

theorem tidy_margin (n : Nat) : Tidy (margin n) :=
  tidy_join fun s hs => by
    rw [List.eq_of_mem_replicate hs]
    exact tidy_plain (by decide)

theorem advances_line (d : Draft) {text : String} (h : Tidy text) : d.Advances (d.line text) :=
  ⟨rfl, rfl, fun hd => ⟨hd.body.append (((tidy_margin _).append h).append (tidy_plain (by decide))),
    hd.functions, hd.helpers, hd.standard⟩⟩

theorem advances_indent (d : Draft) : d.Advances d.indent :=
  ⟨rfl, rfl, fun h => ⟨h.body, h.functions, h.helpers, h.standard⟩⟩

theorem advances_dedent (d : Draft) : d.Advances d.dedent :=
  ⟨rfl, rfl, fun h => ⟨h.body, h.functions, h.helpers, h.standard⟩⟩

theorem advances_declare (d : Draft) (t : Ty) {init : String} (h : Tidy init) :
    d.Advances (d.declare t init).2 ∧ Firm (d.declare t init).1 := by
  have hname : Firm (d.indexed "_v").1 := by
    obtain ⟨ns, hns⟩ := d.fst_withNames (·.indexed "_v")
    rw [indexed, hns]
    exact firm_indexed (firm_plain (by decide) (by decide)) ns
  have htext : Tidy (t.name ++ " " ++ (d.indexed "_v").1 ++ " = " ++ init ++ ";") :=
    (((tidy_decl t hname).append (tidy_plain (by decide))).append h).append (tidy_plain (by decide))
  have hline := advances_line ((d.indexed "_v").2.inject t) htext
  exact ⟨((d.advances_withNames (·.indexed "_v")).trans (advances_inject _ t)).trans hline, hname⟩

theorem advances_decl (d : Draft) (t : Ty) (name : String) : d.Advances (d.decl t name).2 :=
  (d.advances_withNames (·.register name)).trans (advances_inject _ t)

end Draft

/-! ### Writing -/

namespace Formula

open Drafting Draft

/-- Placeholders that stand for firm texts. -/
def Steady (bs : List Binding) : Prop := ∀ b ∈ bs, Firm b.expr ∧ ∀ field ∈ b.fields, Firm field

section
variable {bs : List Binding} {d d' : Draft} {n : Formula} {t : Ty} {v : String}

theorem tidy_bindingAt (hbs : Steady bs) (i : Int) :
    Tidy (bindingAt bs i).expr ∧ ∀ field ∈ (bindingAt bs i).fields, Firm field := by
  rw [bindingAt, List.getD_eq_getElem?_getD]
  cases hb : bs[i.toNat]? with
  | none => exact ⟨⟨trivial⟩, nofun⟩
  | some b => exact ⟨(hbs b (List.mem_of_getElem? hb)).1.tidy, (hbs b (List.mem_of_getElem? hb)).2⟩

theorem firm_bindingAt (hbs : Steady bs) {i : Int} (h : (arg i).infer (bs.map (·.type)) = .ok t) :
    Firm (bindingAt bs i).expr := by
  have htype := infer_arg h
  rw [List.getElem?_map] at htype
  obtain ⟨b, hb, -⟩ := Option.map_eq_some_iff.mp htype
  rw [bindingAt, List.getD_eq_getElem?_getD, hb]
  exact (hbs b (List.mem_of_getElem? hb)).1

theorem firm_fieldBinding (hbs : Steady bs) {index : Int} {x : Formula} {expr : String}
    (h : fieldBinding? bs index x = some expr) : Firm expr := by
  cases x with
  | arg i => exact (tidy_bindingAt hbs i).2 _ (List.mem_of_getElem? h)
  | _ => cases h

theorem tidy_fieldName (n i : Nat) : Tidy (Ty.fieldName n i) := by
  unfold Ty.fieldName
  split
  · split <;> exact tidy_plain (by decide)
  · exact (isFirm_plain_names (firm_plain (by decide) (by decide)) i).tidy

/-- An element is named by a word without a `k`. -/
theorem HasElement.tidy {index : Int} {s : Ty} (h : HasElement index s t) :
    Tidy ("." ++ elementName index s) := by
  refine (tidy_plain (by decide)).append ?_
  cases h with
  | @lane s w hlo hhi =>
    have hall : ∀ i < 16, ("s" ++ String.ofList (Nat.toDigits 16 i)).toList.all isPlainChar = true := by
      decide
    have hlt : index.toNat < 16 := by
      have hlanes : w.lanes ≤ 16 := by cases w <;> decide
      omega
    exact tidy_plain (hall _ hlt)
  | field _ _ => exact tidy_fieldName _ _

theorem firm_parenthesized (x : Formula) (hv : Firm v) :
    Firm (parenthesized x v) := by
  unfold Formula.parenthesized
  split
  · exact hv.tidy.bracketed (by decide)
  · exact hv

/-- The sign of an operator that formulas have stands before any operand. -/
theorem tidy_unarySign {op : Operator} {s : Ty} (h : unaryTy? op s = some t) : Tidy (unarySign op) := by
  unfold unaryTy? at h
  split at h <;> first | exact tidy_plain (by decide) | cases h

/-- An operator stands between two operands; only that of products is a star. -/
theorem firm_operation {op : Operator} {m : Formula} {s r : Ty} {w : String}
    (h : binaryTy m op s r = .ok t) (hv : Firm v) (hw : Firm w) :
    Firm (v ++ " " ++ op.spelling ++ " " ++ w) := by
  by_cases hmul : op = .mul
  · subst hmul
    obtain ⟨htidy, c, cs, hcs, hc⟩ := hw
    have hstar : Tidy ("* " ++ w) := by
      have htame : Token.Tame none ('*' :: ' ' :: w.toList) :=
        ⟨fun _ => ⟨[' '], w.toList, rfl, List.forall_mem_singleton.mpr rfl, .inl ⟨c, cs, hcs, hc⟩⟩, nofun,
          by decide, nofun, nofun, by decide, htidy.tame⟩
      exact ⟨by simpa using htame⟩
    have heq : v ++ " " ++ Operator.mul.spelling ++ " " ++ w = v ++ " " ++ ("* " ++ w) :=
      String.toList_inj.mp (by simp [Operator.spelling])
    rw [heq]
    exact (hv.append (tidy_plain (by decide))).append hstar
  · have hplain : op.spelling.toList.all isPlainChar = true := by
      unfold binaryTy at h
      split at h
      · rename_i hop
        cases op <;> first | decide | cases hop
      · split at h
        · cases h
        · rename_i hop
          cases op <;> first | decide | exact absurd rfl hmul | exact absurd rfl hop
    exact (((hv.append (tidy_plain (by decide))).append (tidy_plain hplain)).append
      (tidy_plain (by decide))).append hw.tidy

theorem place_firm (hbs : Steady bs) {l : String} (hn : n.infer (bs.map (·.type)) = .ok t)
    (h : place bs n d = (.ok l, d')) : d = d' ∧ Firm l := by
  fun_induction place bs n generalizing d d' l t with
  | case1 n ih =>
    obtain ⟨u, d₁, hrun, hrest⟩ := of_bind_ok h
    obtain ⟨-, rfl⟩ := of_ofExcept_ok hrun
    cases n with
    | arg i =>
      obtain ⟨rfl, rfl⟩ := of_pure_ok hrest
      exact ⟨rfl, firm_bindingAt hbs hn⟩
    | get index x =>
      cases hfield : fieldBinding? bs index x with
      | some expr =>
        simp only [hfield] at hrest
        obtain ⟨rfl, rfl⟩ := of_pure_ok hrest
        exact ⟨rfl, firm_fieldBinding hbs hfield⟩
      | none =>
        simp only [hfield] at hrest
        obtain ⟨parent, d₂, hparent, hrest⟩ := of_bind_ok hrest
        obtain ⟨s, hs, helement⟩ := infer_get hn
        obtain ⟨rfl, hfirm⟩ := ih hs hparent
        obtain ⟨s', d₃, htype, hrest⟩ := of_bind_ok hrest
        obtain ⟨hs', rfl⟩ := of_ofExcept_ok htype
        obtain rfl : s = s' := Except.ok.inj (hs.symm.trans hs')
        obtain ⟨rfl, rfl⟩ := of_pure_ok hrest
        refine ⟨rfl, ?_⟩
        rw [String.append_assoc]
        exact hfirm.append helement.tidy
    | _ => cases hrest

/-- The draft has advanced, and a firm text stands for the value. -/
def Tames (x : Drafting String) (d : Draft) : Prop :=
  ∀ v d', x d = (.ok v, d') → d.Advances d' ∧ Firm v

theorem tames_declare {init : String} (h : Tidy init) : Tames (declare bs n init) d := by
  intro v d' hrun
  obtain ⟨t, d₁, hinfer, hrest⟩ := of_bind_ok hrun
  obtain ⟨-, rfl⟩ := of_ofExcept_ok hinfer
  have hdeclare := advances_declare d t h
  rw [of_take_ok hrest] at hdeclare
  exact hdeclare

/-- The right operand of `&&` and `||` stands in a block of its own. -/
theorem tames_logical {op : Operator} {x y : Formula} (hop : op.isLogical = true)
    (hx : Tames (write bs x) d) (hy : ∀ d, d.Neat → Tames (write bs y) d) (hd : d.Neat) :
    Tames (write bs (binary op x y)) d := by
  intro v d' h
  rw [write] at h
  simp only [hop, if_true] at h
  obtain ⟨left, d₁, hleft, h⟩ := of_bind_ok h
  obtain ⟨hadvances₁, hfirm⟩ := hx _ _ hleft
  obtain ⟨result, d₂, hdeclare, h⟩ := of_bind_ok h
  have hdeclared := advances_declare d₁ (.scalar .bool) hfirm.tidy
  rw [of_take_ok hdeclare] at hdeclared
  obtain ⟨hadvances₂, hresult⟩ := hdeclared
  have htest : Tidy ("if (" ++ (if op = .lor then "!" ++ result else result) ++ ") \x7b") := by
    refine ((tidy_plain (by decide)).append ?_).append (tidy_plain (by decide))
    split
    · exact (tidy_plain (by decide)).append hresult.tidy
    · exact hresult.tidy
  obtain ⟨u, d₃, hopen, h⟩ := of_bind_ok h
  have hadvances₃ : d₂.Advances d₃ := by
    rw [← of_edit_ok hopen]
    exact (advances_line d₂ htest).trans (advances_indent _)
  obtain ⟨right, d₄, hright, h⟩ := of_bind_ok h
  have hneat₃ := (hadvances₁.trans (hadvances₂.trans hadvances₃)).neat hd
  obtain ⟨hadvances₄, hright⟩ := hy d₃ hneat₃ _ _ hright
  obtain ⟨u', d₅, hclose, h⟩ := of_bind_ok h
  have hadvances₅ : d₄.Advances d₅ := by
    rw [← of_edit_ok hclose]
    have hassign : Tidy (result ++ " = " ++ right ++ ";") :=
      (((hresult.tidy.append (tidy_plain (by decide))).append hright.tidy).append (tidy_plain (by decide)))
    exact ((advances_line d₄ hassign).trans (advances_dedent _)).trans
      (advances_line _ (tidy_plain (by decide)))
  obtain ⟨rfl, rfl⟩ := of_pure_ok h
  exact ⟨hadvances₁.trans (hadvances₂.trans (hadvances₃.trans (hadvances₄.trans hadvances₅))), hresult⟩

theorem advances_helperParams : ∀ {bs : List Binding} {d : Draft}, Steady bs →
    d.Advances (helperParams d bs).2 ∧ ∀ text ∈ (helperParams d bs).1, Tidy text
  | [], d, _ => ⟨.refl d, nofun⟩
  | b :: bs, d, hbs => by
    obtain ⟨hadvances, htexts⟩ := @advances_helperParams bs (d.decl b.type b.expr).2
      fun c hc => hbs c (List.mem_cons_of_mem _ hc)
    exact ⟨(advances_decl d b.type b.expr).trans hadvances,
      List.forall_mem_cons.mpr ⟨tidy_decl _ (hbs b List.mem_cons_self).1, htexts⟩⟩

theorem advances_injects : ∀ {bs : List Binding} {d : Draft},
    d.Advances (bs.foldl (fun d b => d.inject b.type) d)
  | [], d => .refl d
  | b :: _, d => (advances_inject d b.type).trans advances_injects

theorem steady_helperBindings (params : List Ty) : Steady (helperBindings params) := by
  intro b hb
  obtain ⟨⟨t, i⟩, -, rfl⟩ := List.mem_map.mp hb
  have hroot : Firm "_" := firm_plain (by decide) (by decide)
  exact ⟨isFirm_plain_names hroot (i + 1), nofun⟩

theorem tames_define {id : Nat} {root : String} {body : Formula} {params : List Ty} {result : Ty}
    (hroot : isWord root.toList = true)
    (hbody : ∀ d, d.Neat → Tames (write (helperBindings params) body) d) (hd : d.Neat)
    {name : String} (h : define (.mk id root body params result) d = (.ok name, d')) :
    d.Advances d' ∧ isWord name.toList = true := by
  cases hlookup : d.helper? (.function id) with
  | some known =>
    rw [define] at h
    obtain ⟨d₀, d₁, hrun, hrest⟩ := of_bind_ok h
    cases hrun
    simp only [hlookup] at hrest
    obtain ⟨rfl, rfl⟩ := of_pure_ok hrest
    exact ⟨.refl d, hd.helpers _ (mem_of_lookup hlookup)⟩
  | none =>
    obtain ⟨hname, value, d₁, hwrite, rfl⟩ := define_new hlookup h
    have hword : isWord name.toList = true := hname ▸ isWord_fresh hroot d.pre.names
    have hempty : (emptyBody d root).Neat := ⟨⟨trivial⟩, hd.functions, hd.helpers, hd.standard⟩
    obtain ⟨hparams, htexts⟩ := advances_helperParams (d := emptyBody d root) (steady_helperBindings params)
    have hbegun : (bodyDraft d root params).Neat := advances_injects.neat (hparams.neat hempty)
    obtain ⟨hadvances, hvalue⟩ := hbody _ hbegun _ _ hwrite
    have hneat := hadvances.neat hbegun
    have hreturned : Neat (({ d₁ with part := d.part } : Draft).inject result) :=
      (advances_inject _ result).neat ⟨hd.body, hneat.functions, hneat.helpers, hneat.standard⟩
    have hblock : Tidy (", ".intercalate (helperParams (emptyBody d root) (helperBindings params)).1 ++
        ")\n\x7b\n" ++ d₁.part.body ++ "    return " ++ value ++ ";\n\x7d\n") :=
      (((((tidy_intercalate (tidy_plain (by decide)) htexts).append (tidy_plain (by decide))).append
        hneat.body).append (tidy_plain (by decide))).append hvalue.tidy).append (tidy_plain (by decide))
    have hsource := (tidy_plain (s := "inline ") (by decide)).append (tidy_header result hword hblock)
    refine ⟨⟨hadvances.name.trans (advances_injects.name.trans hparams.name), rfl, fun _ => ?_⟩, hword⟩
    refine ⟨hreturned.body, fun src hsrc => ?_, List.forall_mem_cons.mpr ⟨hword, hreturned.helpers⟩,
      hreturned.standard⟩
    rcases OrderedMap.mem_values_insert hsrc with rfl | hsrc
    · simpa only [String.append_assoc] using hsource
    · exact hreturned.functions src hsrc

mutual

/-- **What is written for a formula is tidy**, and so are the helpers that it needs. -/
theorem tames_write : ∀ {n : Formula} {bs : List Binding} {t : Ty} {d : Draft}, n.Made → Steady bs →
    n.infer (bs.map (·.type)) = .ok t → d.Neat → Tames (write bs n) d
  | .missing, bs, t, d, hmade, hbs, ht, hd => by cases ht
  | .literal type value, bs, t, d, hmade, hbs, ht, hd => by
    intro v d' h
    rw [write] at h
    cases hlit : Literal.ofHost type value with
    | error e =>
      simp only [hlit] at h
      cases h
    | ok p =>
      simp only [hlit] at h
      cases h
      exact ⟨advances_inject d _, Literal.firm_of_ofHost hlit⟩
  | .arg i, bs, t, d, hmade, hbs, ht, hd => by
    intro v d' h
    rw [write] at h
    obtain ⟨rfl, rfl⟩ := of_pure_ok h
    exact ⟨.refl d, firm_bindingAt hbs ht⟩
  | .unary op x, bs, t, d, hmade, hbs, ht, hd => by
    intro v d' h
    rw [write] at h
    obtain ⟨s, hs, hop⟩ := infer_unary ht
    obtain ⟨operand, d₁, hx, h⟩ := of_bind_ok h
    obtain ⟨hadvances, hfirm⟩ := tames_write (n := x) hmade hbs hs hd _ _ hx
    obtain ⟨hdeclared, hv⟩ := tames_declare ((tidy_unarySign hop).append hfirm.tidy) _ _ h
    exact ⟨hadvances.trans hdeclared, hv⟩
  | .binary op x y, bs, t, d, hmade, hbs, ht, hd => by
    obtain ⟨s, r, hs, hr, hop⟩ := infer_binary ht
    cases hlogical : op.isLogical with
    | true =>
      exact tames_logical hlogical (tames_write hmade.1 hbs hs hd)
        (fun d hd => tames_write hmade.2 hbs hr hd) hd
    | false =>
      intro v d' h
      rw [write] at h
      simp only [hlogical, Bool.false_eq_true, if_false] at h
      obtain ⟨left, d₁, hx, h⟩ := of_bind_ok h
      obtain ⟨hadvances₁, hleft⟩ := tames_write hmade.1 hbs hs hd _ _ hx
      obtain ⟨right, d₂, hy, h⟩ := of_bind_ok h
      obtain ⟨hadvances₂, hright⟩ := tames_write hmade.2 hbs hr (hadvances₁.neat hd) _ _ hy
      obtain ⟨hdeclared, hv⟩ := tames_declare (firm_operation hop hleft hright).tidy _ _ h
      exact ⟨hadvances₁.trans (hadvances₂.trans hdeclared), hv⟩
  | .call name xs, bs, t, d, hmade, hbs, ht, hd => by
    intro v d' h
    rw [write] at h
    obtain ⟨ts, fn, sig, hts, hname, -⟩ := infer_call ht
    obtain ⟨texts, d₁, hxs, h⟩ := of_bind_ok h
    obtain ⟨hadvances, htexts⟩ := tames_writeAll hmade hbs hts hd hxs
    have hargs : Tidy (", ".intercalate texts ++ ")") :=
      (tidy_intercalate (tidy_plain (by decide)) htexts).append (tidy_plain (by decide))
    have hword : ∀ c ∈ name.toList, Text.isNameChar c = true := by
      rw [← Builtin.name_of_ofName? hname]
      cases fn <;> exact forall_mem_of_all (by decide)
    have hcall := tidy_call hword hargs
    rw [← String.append_assoc] at hcall
    obtain ⟨hdeclared, hv⟩ := tames_declare hcall _ _ h
    exact ⟨hadvances.trans hdeclared, hv⟩
  | .apply fn xs, bs, t, d, hmade, hbs, ht, hd => by
    intro v d' h
    rw [write] at h
    obtain ⟨ts, hts, -⟩ := bind_eq_ok.mp ht
    obtain ⟨texts, d₁, hxs, h⟩ := of_bind_ok h
    obtain ⟨hadvances₁, htexts⟩ := tames_writeAll hmade.2 hbs hts hd hxs
    obtain ⟨name, d₂, hdefine, h⟩ := of_bind_ok h
    obtain ⟨hadvances₂, hname⟩ := tames_defined hmade.1 (hadvances₁.neat hd) hdefine
    have hargs : Tidy (", ".intercalate texts ++ ")") :=
      (tidy_intercalate (tidy_plain (by decide)) htexts).append (tidy_plain (by decide))
    have hcall := tidy_call (isNameChar_of_isWord hname) hargs
    rw [← String.append_assoc] at hcall
    obtain ⟨hdeclared, hv⟩ := tames_declare hcall _ _ h
    exact ⟨hadvances₁.trans (hadvances₂.trans hdeclared), hv⟩
  | .helper fn, bs, t, d, hmade, hbs, ht, hd => by
    intro v d' h
    rw [write] at h
    obtain ⟨name, d₁, hdefine, h⟩ := of_bind_ok h
    obtain ⟨hadvances, hname⟩ := tames_defined hmade hd hdefine
    have htexts : ∀ text ∈ (List.range fn.params.length).map fun (i : Nat) => (bindingAt bs i).expr,
        Tidy text := by
      intro text htext
      obtain ⟨i, -, rfl⟩ := List.mem_map.mp htext
      exact (tidy_bindingAt hbs i).1
    have hcomma : Tidy ", " := tidy_plain (by decide)
    have hargs := (tidy_intercalate hcomma htexts).append
      (tidy_plain (s := ")") (by decide))
    have hcall := tidy_call (isNameChar_of_isWord hname) hargs
    rw [← String.append_assoc] at hcall
    obtain ⟨hdeclared, hv⟩ := tames_declare hcall _ _ h
    exact ⟨hadvances.trans hdeclared, hv⟩
  | .get index x, bs, t, d, hmade, hbs, ht, hd => by
    intro v d' h
    rw [write] at h
    cases hfield : fieldBinding? bs index x with
    | some expr =>
      simp only [hfield] at h
      obtain ⟨rfl, rfl⟩ := of_pure_ok h
      exact ⟨.refl d, firm_fieldBinding hbs hfield⟩
    | none =>
      simp only [hfield] at h
      obtain ⟨s, hs, helement⟩ := infer_get ht
      obtain ⟨whole, d₁, hx, h⟩ := of_bind_ok h
      obtain ⟨hadvances, hfirm⟩ := tames_write (n := x) hmade hbs hs hd _ _ hx
      obtain ⟨s', d₂, hrun, h⟩ := of_bind_ok h
      obtain ⟨hs', rfl⟩ := of_ofExcept_ok hrun
      obtain rfl : s = s' := Except.ok.inj (hs.symm.trans hs')
      have hinit := (firm_parenthesized x hfirm).append helement.tidy
      rw [← String.append_assoc] at hinit
      obtain ⟨hdeclared, hv⟩ := tames_declare hinit.tidy _ _ h
      exact ⟨hadvances.trans hdeclared, hv⟩
  | .set lhs rhs, bs, t, d, hmade, hbs, ht, hd => by
    intro v d' h
    rw [write] at h
    obtain ⟨-, s, hs, u, hu⟩ := infer_set ht
    obtain ⟨value, d₁, hrhs, h⟩ := of_bind_ok h
    obtain ⟨hadvances, hvalue⟩ := tames_write hmade.2 hbs hu hd _ _ hrhs
    obtain ⟨l, d₂, hlhs, h⟩ := of_bind_ok h
    obtain ⟨rfl, hl⟩ := place_firm hbs hs hlhs
    have hline : Tidy (l ++ " = " ++ value ++ ";") :=
      ((hl.tidy.append (tidy_plain (by decide))).append hvalue.tidy).append (tidy_plain (by decide))
    cases h
    exact ⟨hadvances.trans (advances_line d₁ hline), hl⟩

theorem tames_writeAll : ∀ {ns : List Formula} {bs : List Binding} {ts : List Ty} {d d' : Draft}
    {vs : List String}, AllMade ns → Steady bs → inferAll (bs.map (·.type)) ns = .ok ts → d.Neat →
    writeAll bs ns d = (.ok vs, d') → d.Advances d' ∧ ∀ v ∈ vs, Tidy v
  | [], bs, ts, d, d', vs, hmade, hbs, hts, hd, h => by
    rw [writeAll] at h
    obtain ⟨rfl, rfl⟩ := of_pure_ok h
    exact ⟨.refl d, nofun⟩
  | n :: ns, bs, ts, d, d', vs, hmade, hbs, hts, hd, h => by
    rw [writeAll] at h
    obtain ⟨t, ts', ht, hts', rfl⟩ := inferAll_cons hts
    obtain ⟨v, d₁, hn, h⟩ := of_bind_ok h
    obtain ⟨hadvances₁, hv⟩ := tames_write hmade.1 hbs ht hd _ _ hn
    obtain ⟨ws, d₂, hns, h⟩ := of_bind_ok h
    obtain ⟨hadvances₂, hws⟩ := tames_writeAll hmade.2 hbs hts' (hadvances₁.neat hd) hns
    obtain ⟨rfl, rfl⟩ := of_pure_ok h
    exact ⟨hadvances₁.trans hadvances₂, List.forall_mem_cons.mpr ⟨hv.tidy, hws⟩⟩

theorem tames_defined : ∀ {fn : HelperFn} {d d' : Draft} {name : String}, fn.Made → d.Neat →
    define fn d = (.ok name, d') → d.Advances d' ∧ isWord name.toList = true
  | .mk id root body params result, d, d', name, hmade, hd, h => by
    rw [HelperFn.Made] at hmade
    obtain ⟨⟨result?, hmake⟩, hbody⟩ := hmade
    obtain ⟨t, ht⟩ := HelperFn.infer_of_make hmake
    rw [← types_helperBindings params] at ht
    exact tames_define (HelperFn.isWord_of_make hmake)
      (fun d hd => tames_write hbody (steady_helperBindings params) ht hd) hd h

end

end

end Formula

end KernelForge
