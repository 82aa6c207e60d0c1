/-
Types as they are written.

The parser reads the qualifiers of a type wherever they stand, takes one word for its name, or two
after `unsigned`, and passes over the qualifiers of a pointer.  Here this is shown to be what the
grammar says, in both directions: a type that is written down is read back, and what was read as a
type is one that the grammar has.
-/
import KernelForge.Proofs.Code.Phrases

namespace KernelForge.Code.Scope

variable {s : Scope} {l : Lexeme} {ls rest : Lexemes}

/-! ### Qualifiers -/

/-- Qualifiers do not change the name; the star they leave by `pointer_foldl`. -/
theorem name_foldl (qs : Lexemes) (spec : TypeSpec) :
    (qs.foldl (fun spec q => qualified spec q.token) spec).name = spec.name := by
  induction qs generalizing spec with
  | nil => rfl
  | cons q qs ih =>
    rw [List.foldl_cons, ih]
    unfold qualified
    split
    · rfl
    · split <;> rfl
    · rfl

theorem qualifiers_cons_of_not (h : isQualifier l.token = false) (spec : TypeSpec) (ls : Lexemes) :
    (qualifiers spec (l :: ls)).1 = spec ∧ (qualifiers spec (l :: ls)).2.val = l :: ls :=
  qualifiers_stop (fun l' hl' => by cases hl'; exact h) spec

/-- A token that qualifies is passed over. -/
theorem qualifiers_cons (h : isQualifier l.token = true) (spec : TypeSpec) (ls : Lexemes) :
    (qualifiers spec (l :: ls)).1 = (qualifiers (qualified spec l.token) ls).1 ∧
      (qualifiers spec (l :: ls)).2.val = (qualifiers (qualified spec l.token) ls).2.val := by
  rw [qualifiers]
  split
  · rename_i ht
    rw [ht]
    exact ⟨rfl, rfl⟩
  · rename_i w ht
    rw [ht] at h ⊢
    rw [isQualifier, Bool.or_eq_true] at h
    split
    · rename_i space hspace
      simp only [qualified, hspace, and_self]
    · rename_i hspace
      rw [hspace] at h
      simp only [qualified, hspace, if_pos (h.resolve_left (by decide)), and_self]
  · rename_i hconst hname
    cases ht : l.token with
    | name w => exact absurd ht (hname w)
    | keyword k =>
      rw [ht] at h
      cases k with
      | const => exact absurd ht hconst
      | _ => cases h
    | _ =>
      rw [ht] at h
      cases h

/-- All the qualifiers that come next are read, and nothing else. -/
theorem spelled_qualifiers (ls : Lexemes) (spec : TypeSpec) :
    ∃ qs, ls = qs ++ (qualifiers spec ls).2.val ∧ (∀ q ∈ qs, isQualifier q.token = true) ∧
      (qualifiers spec ls).1 = qs.foldl (fun spec q => qualified spec q.token) spec ∧
      NoQualifier (qualifiers spec ls).2.val := by
  induction ls generalizing spec with
  | nil => exact ⟨[], rfl, List.forall_mem_nil _, rfl, fun _ => nofun⟩
  | cons l ls ih =>
    cases hl : isQualifier l.token with
    | false =>
      obtain ⟨hspec, hleft⟩ := qualifiers_cons_of_not hl spec ls
      rw [hspec, hleft]
      exact ⟨[], rfl, List.forall_mem_nil _, rfl, fun l' hl' => by cases hl'; exact hl⟩
    | true =>
      obtain ⟨hspec, hleft⟩ := qualifiers_cons hl spec ls
      obtain ⟨qs, hls, hqs, hfold, hend⟩ := ih (qualified spec l.token)
      rw [hspec, hleft]
      exact ⟨l :: qs, by rw [List.cons_append, ← hls], List.forall_mem_cons.mpr ⟨hl, hqs⟩, hfold,
        hend⟩

/-! ### Names -/

theorem unsignedTail?_eq_some {w v : String} {t : Token} :
    unsignedTail? w t = some v ↔ w = "unsigned" ∧ t = .name v ∧ v ∈ unsignedTails := by
  unfold unsignedTail?
  split
  · rename_i u
    by_cases hu : w = "unsigned" ∧ u ∈ unsignedTails
    · have hcond : (decide (w = "unsigned") && ["char", "short", "int", "long"].contains u) = true :=
        Bool.and_eq_true_iff.mpr ⟨decide_eq_true hu.1, List.contains_iff_mem.mpr hu.2⟩
      rw [if_pos hcond]
      simp only [Option.some.injEq, Token.name.injEq]
      constructor
      · rintro rfl
        exact ⟨hu.1, rfl, hu.2⟩
      · exact fun h => h.2.1
    · have hcond : ¬ (decide (w = "unsigned") && ["char", "short", "int", "long"].contains u) = true := by
        rw [Bool.and_eq_true, List.contains_iff_mem, decide_eq_true_eq]
        exact hu
      rw [if_neg hcond]
      simp only [reduceCtorEq, Token.name.injEq, false_iff, not_and]
      rintro hw rfl hv
      exact hu ⟨hw, hv⟩
  · rename_i hne
    simp only [reduceCtorEq, false_iff, not_and]
    rintro - rfl
    exact absurd rfl (hne v)

/-- No word that may follow the name of a type makes it another one. -/
theorem unsignedTail?_of_qualifier {w : String} {t : Token} (h : isQualifier t = true) :
    unsignedTail? w t = none := by
  rw [Option.eq_none_iff_forall_ne_some]
  intro v hv
  obtain ⟨-, rfl, hmem⟩ := unsignedTail?_eq_some.mp hv
  have hnone : ∀ v ∈ unsignedTails, isQualifier (.name v) = false := by decide
  rw [hnone v hmem] at h
  cases h

/-- No word of a type's name comes next. -/
def NoTail (ls : Lexemes) : Prop := ∀ l, ls.head? = some l → ∀ w, unsignedTail? w l.token = none

theorem nameTail_of_noTail {w : String} (h : NoTail ls) :
    nameTail w ls = (w, ⟨ls, Nat.le_refl _⟩) := by
  cases ls with
  | nil => rfl
  | cons l ls => simp only [nameTail, h l rfl w]

theorem gives_words {lw : Lexemes} {name : String} (hw : TypeWords s (lw.map Lexeme.token) name)
    (hend : NoTail rest) : Gives (s.typeName (lw ++ rest)) name rest := by
  generalize hts : lw.map Lexeme.token = ts at hw
  cases hw with
  | single hword hplain =>
    obtain ⟨o, lw', rfl, hnil⟩ := exists_lexeme hts
    rw [List.map_eq_nil_iff] at hnil
    subst hnil
    show Gives (s.typeName (⟨o, .name name⟩ :: rest)) name rest
    refine ⟨by simp, ?_⟩
    rw [typeName]
    simp only [hword, if_true, nameTail_of_noTail hend]
  | @pair w hw =>
    obtain ⟨o, lw', rfl, hts'⟩ := exists_lexeme hts
    obtain ⟨o', lw'', rfl, hnil⟩ := exists_lexeme hts'
    rw [List.map_eq_nil_iff] at hnil
    subst hnil
    have hword : s.isTypeWord "unsigned" = true := rfl
    have htail : unsignedTail? "unsigned" (.name w) = some w :=
      unsignedTail?_eq_some.mpr ⟨rfl, rfl, hw⟩
    show Gives (s.typeName (⟨o, .name "unsigned"⟩ :: ⟨o', .name w⟩ :: rest))
      ("unsigned" ++ " " ++ w) rest
    refine ⟨by simp only [List.length_cons]; omega, ?_⟩
    rw [typeName]
    simp only [hword, if_true, nameTail, htail]

theorem noQualifier_words {lw : Lexemes} {name : String}
    (hw : TypeWords s (lw.map Lexeme.token) name) : NoQualifier (lw ++ rest) := by
  intro l hl
  generalize hts : lw.map Lexeme.token = ts at hw
  cases hw with
  | single hword hplain =>
    obtain ⟨o, lw', rfl, -⟩ := exists_lexeme hts
    cases hl
    exact hplain
  | pair hw =>
    obtain ⟨o, lw', rfl, -⟩ := exists_lexeme hts
    cases hl
    rfl

theorem spelled_words {name : String} {rest : Less ls} (hplain : NoQualifier ls)
    (h : s.typeName ls = .ok (name, rest)) :
    ∃ lw, ls = lw ++ rest.val ∧ TypeWords s (lw.map Lexeme.token) name := by
  unfold typeName at h
  split at h
  · rename_i o w ls₁
    split at h
    · rename_i hword
      have hsingle : TypeWords s [.name w] w := .single hword (hplain _ rfl)
      cases ls₁ with
      | nil =>
        cases h
        exact ⟨[⟨o, .name name⟩], rfl, hsingle⟩
      | cons l ls₂ =>
        cases htail : unsignedTail? w l.token with
        | none =>
          simp only [nameTail, htail] at h
          cases h
          exact ⟨[⟨o, .name name⟩], rfl, hsingle⟩
        | some v =>
          simp only [nameTail, htail] at h
          cases h
          obtain ⟨rfl, htoken, hv⟩ := unsignedTail?_eq_some.mp htail
          refine ⟨[⟨o, .name "unsigned"⟩, l], rfl, ?_⟩
          simp only [List.map_cons, List.map_nil, htoken]
          exact .pair hv
    · cases h
  · cases h

/-! ### Stars -/

/-- A qualifier of a pointer itself. -/
def isPointerQualifier (t : Token) : Prop := t = .keyword .const ∨ t = .name "restrict"

theorem pointerQualifiers_append {qs : Lexemes} (hqs : ∀ q ∈ qs, isPointerQualifier q.token)
    (hend : ∀ l, rest.head? = some l → ¬ isPointerQualifier l.token) :
    (pointerQualifiers (qs ++ rest)).val = rest := by
  induction qs with
  | nil =>
    cases rest with
    | nil => rfl
    | cons l rest =>
      have hl := hend l rfl
      rw [List.nil_append, pointerQualifiers, if_neg]
      simpa [isPointerQualifier] using hl
  | cons q qs ih =>
    have hq := hqs q List.mem_cons_self
    rw [List.cons_append, pointerQualifiers, if_pos (by simpa [isPointerQualifier] using hq)]
    exact ih fun p hp => hqs p (List.mem_cons_of_mem _ hp)

theorem spelled_pointerQualifiers (ls : Lexemes) :
    ∃ qs, ls = qs ++ (pointerQualifiers ls).val ∧ ∀ q ∈ qs, isPointerQualifier q.token := by
  induction ls with
  | nil => exact ⟨[], rfl, List.forall_mem_nil _⟩
  | cons l ls ih =>
    rw [pointerQualifiers]
    split
    · rename_i hl
      obtain ⟨qs, hls, hqs⟩ := ih
      refine ⟨l :: qs, ?_, List.forall_mem_cons.mpr ⟨?_, hqs⟩⟩
      · show l :: ls = l :: (qs ++ (pointerQualifiers ls).val)
        rw [← hls]
      · simpa [isPointerQualifier] using hl
    · exact ⟨[], rfl, List.forall_mem_nil _⟩

/-- What follows the name of a type, and then its qualifiers, belongs to neither. -/
theorem star_ends {lstar : Lexemes} {pointer : Bool} (h : Star (lstar.map Lexeme.token) pointer)
    (o : Nat) (rest : Lexemes) :
    NoQualifier (lstar ++ ⟨o, .op .rparen⟩ :: rest) ∧ NoTail (lstar ++ ⟨o, .op .rparen⟩ :: rest) := by
  generalize hts : lstar.map Lexeme.token = ts at h
  cases h with
  | value =>
    rw [List.map_eq_nil_iff] at hts
    subst hts
    exact ⟨fun l hl => by cases hl; rfl, fun l hl w => by cases hl; rfl⟩
  | pointer hqs =>
    obtain ⟨mul, lqs, rfl, -⟩ := exists_lexeme hts
    exact ⟨fun l hl => by cases hl; rfl, fun l hl w => by cases hl; rfl⟩

/-! ### Types -/

/-- A type that is written down is read, up to where it stands; a round bracket follows it. -/
theorem reads_spec {ts us : List Token} {spec : TypeSpec} (h : SpellsType s ts spec) :
    Reads s.typeSpec (ts ++ .op .rparen :: us) (.op .rparen :: us) fun spec' =>
      spec'.bare = spec.bare := by
  intro ls hls
  obtain ⟨before, words, after, star, rfl, hqs, hwords, hstar, hspace, hread⟩ := h
  simp only [List.append_assoc] at hls
  obtain ⟨lb, ls₁, rfl, rfl, hls₁⟩ := List.map_eq_append_iff.mp hls
  obtain ⟨lw, ls₂, rfl, rfl, hls₂⟩ := List.map_eq_append_iff.mp hls₁
  obtain ⟨la, ls₃, rfl, rfl, hls₃⟩ := List.map_eq_append_iff.mp hls₂
  obtain ⟨lstar, ls₄, rfl, hlstar, hls₄⟩ := List.map_eq_append_iff.mp hls₃
  obtain ⟨close, ls₅, rfl, rfl⟩ := exists_lexeme hls₄
  have hq : ∀ q ∈ lb ++ la, isQualifier q.token = true := fun q hq => by
    refine hqs q.token ?_
    rw [← List.map_append]
    exact List.mem_map_of_mem hq
  have hqb : ∀ q ∈ lb, isQualifier q.token = true := fun q h => hq q (List.mem_append_left _ h)
  have hqa : ∀ q ∈ la, isQualifier q.token = true := fun q h => hq q (List.mem_append_right _ h)
  have hstar' := star_ends (hlstar ▸ hstar) close ls₅
  have htail : NoTail (la ++ (lstar ++ ⟨close, .op .rparen⟩ :: ls₅)) := by
    cases la with
    | nil => exact hstar'.2
    | cons q la =>
      intro l hl w
      cases hl
      exact unsignedTail?_of_qualifier (hqa q List.mem_cons_self)
  have hplain : NoQualifier (lw ++ (la ++ (lstar ++ ⟨close, .op .rparen⟩ :: ls₅))) :=
    noQualifier_words hwords
  obtain ⟨hle₁, hfirst⟩ := qualifiers_eq hqb hplain
    { offset := (s.here (lb ++ (lw ++ (la ++ (lstar ++ ⟨close, .op .rparen⟩ :: ls₅))))).1, name := "" }
  obtain ⟨hlt, hname⟩ := gives_words hwords htail
  generalize hspec₁ : lb.foldl (fun spec q => qualified spec q.token) _ = spec₁ at hfirst
  obtain ⟨hle₂, hsecond⟩ := qualifiers_eq hqa hstar'.1 { spec₁ with name := spec.name }
  generalize hspec₂ : la.foldl (fun spec q => qualified spec q.token) _ = spec₂ at hsecond
  have hname₂ : spec₂.name = spec.name := by rw [← hspec₂, name_foldl la _]
  have hpointer₂ : spec₂.pointer = false := by
    rw [← hspec₂, pointer_foldl la _, ← hspec₁]
    exact pointer_foldl lb _
  have hfold₁ := foldl_qualified lb
    { offset := (s.here (lb ++ (lw ++ (la ++ (lstar ++ ⟨close, .op .rparen⟩ :: ls₅))))).1, name := "" }
    { offset := 0, name := "" } rfl rfl
  rw [hspec₁] at hfold₁
  have hfold₂ := foldl_qualified la { spec₁ with name := spec.name } _ hfold₁.1 hfold₁.2
  rw [hspec₂, ← List.foldl_append, ← hspace, ← hread] at hfold₂
  have hbare : ({ spec₂ with pointer := spec.pointer } : TypeSpec).bare = spec.bare := by
    rw [TypeSpec.bare, TypeSpec.bare, TypeSpec.mk.injEq]
    exact ⟨rfl, hname₂, hfold₂.1, hfold₂.2, rfl⟩
  cases hp : spec.pointer with
  | false =>
    rw [hp] at hstar hbare
    cases hstar
    rw [List.map_eq_nil_iff] at hlstar
    subst hlstar
    refine ⟨spec₂, ⟨close, .op .rparen⟩ :: ls₅, ⟨?_, ?_⟩, rfl, ?_⟩
    · simp only [List.length_append, List.length_cons, List.length_nil] at hlt ⊢
      omega
    · rw [typeSpec, hfirst]
      dsimp only
      rw [hname]
      dsimp only
      rw [hsecond]
      rfl
    · rw [← hbare, ← hpointer₂]
  | true =>
    rw [hp] at hstar hbare
    cases hstar with
    | pointer hqs =>
      obtain ⟨mul, lqs, rfl, rfl⟩ := exists_lexeme hlstar
      have hstop : pointerQualifiers (lqs ++ ⟨close, .op .rparen⟩ :: ls₅) =
          ⟨⟨close, .op .rparen⟩ :: ls₅, by simp⟩ := by
        refine Subtype.ext (pointerQualifiers_append (fun q hq => hqs _ (List.mem_map_of_mem hq)) ?_)
        intro l hl
        cases hl
        simp [isPointerQualifier]
      refine ⟨{ spec₂ with pointer := true }, ⟨close, .op .rparen⟩ :: ls₅, ⟨?_, ?_⟩, rfl, hbare⟩
      · simp only [List.length_append, List.length_cons] at hlt ⊢
        omega
      · rw [typeSpec, hfirst]
        dsimp only
        rw [hname]
        dsimp only
        rw [hsecond]
        dsimp only [List.cons_append]
        rw [hstop]
        rfl

/-- What was read as a type is written as one. -/
theorem spelled_spec {spec : TypeSpec} {rest : Less ls} (h : s.typeSpec ls = .ok (spec, rest)) :
    ∃ used, ls = used ++ rest.val ∧ SpellsType s (used.map Lexeme.token) spec := by
  unfold typeSpec at h
  obtain ⟨lb, hlb, hqb, hfirst, hplain⟩ := spelled_qualifiers ls { offset := (s.here ls).1, name := "" }
  generalize qualifiers { offset := (s.here ls).1, name := "" } ls = q₁ at hfirst hplain h hlb
  obtain ⟨spec₁, ls₁, h₁⟩ := q₁
  dsimp only at h hfirst hplain hlb
  cases hname : s.typeName ls₁ with
  | error e =>
    rw [hname] at h
    cases h
  | ok p =>
    obtain ⟨name, ls₂, h₂⟩ := p
    rw [hname] at h
    dsimp only at h
    obtain ⟨lw, hlw, hwords⟩ := spelled_words hplain hname
    obtain ⟨la, hla, hqa, hsecond, -⟩ := spelled_qualifiers ls₂ { spec₁ with name }
    generalize qualifiers { spec₁ with name } ls₂ = q₂ at hsecond h hla
    obtain ⟨spec₂, ls₃, h₃⟩ := q₂
    dsimp only at h hsecond hla hlw
    have hname₂ : spec₂.name = name := by rw [hsecond, name_foldl la _]
    have hpointer₂ : spec₂.pointer = false := by
      rw [hsecond, pointer_foldl la _]
      show spec₁.pointer = false
      rw [hfirst, pointer_foldl lb _]
    have hfold₁ := foldl_qualified lb { offset := (s.here ls).1, name := "" }
      { offset := 0, name := "" } rfl rfl
    rw [← hfirst] at hfold₁
    have hfold₂ := foldl_qualified la { spec₁ with name } _ hfold₁.1 hfold₁.2
    rw [← hsecond, ← List.foldl_append, ← List.map_append] at hfold₂
    have hq : ∀ q ∈ lb.map Lexeme.token ++ la.map Lexeme.token, isQualifier q = true := by
      rw [← List.map_append]
      intro q hq
      obtain ⟨l, hl, rfl⟩ := List.mem_map.mp hq
      exact (List.mem_append.mp hl).elim (hqb l) (hqa l)
    split at h
    · rename_i mul rest' h₃'
      obtain ⟨lqs, hlqs, hqs⟩ := spelled_pointerQualifiers rest'
      generalize pointerQualifiers rest' = q₃ at h hlqs
      obtain ⟨ls₄, h₄⟩ := q₃
      dsimp only at h hlqs
      split at h
      · cases h
      · cases h
        refine ⟨lb ++ (lw ++ (la ++ ⟨mul, .op .mul⟩ :: lqs)), ?_, ?_⟩
        · simp only [List.append_assoc, List.cons_append]
          rw [hlb, hlw, hla, hlqs]
        · refine ⟨lb.map Lexeme.token, lw.map Lexeme.token, la.map Lexeme.token,
            .op .mul :: lqs.map Lexeme.token, by simp, hq, ?_, .pointer ?_, ?_, ?_⟩
          · rw [← hname₂] at hwords
            exact hwords
          · intro q hq
            obtain ⟨l, hl, rfl⟩ := List.mem_map.mp hq
            exact hqs l hl
          · rw [← List.map_append]
            exact hfold₂.1
          · rw [← List.map_append]
            exact hfold₂.2
    · cases h
      refine ⟨lb ++ (lw ++ la), ?_, ?_⟩
      · simp only [List.append_assoc]
        rw [hlb, hlw, hla]
      · refine ⟨lb.map Lexeme.token, lw.map Lexeme.token, la.map Lexeme.token, [], by simp, hq, ?_, ?_,
          ?_, ?_⟩
        · rw [← hname₂] at hwords
          exact hwords
        · rw [hpointer₂]
          exact .value
        · rw [← List.map_append]
          exact hfold₂.1
        · rw [← List.map_append]
          exact hfold₂.2

end KernelForge.Code.Scope
