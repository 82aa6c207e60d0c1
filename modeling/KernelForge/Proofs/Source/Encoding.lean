/-
Sources and their bytes.

Reading bytes as a source and giving the bytes of a source back are inverse to each other: nothing
is lost of any bytes, and a source that is made of characters is read again character by character.
What there is to say about UTF-8 is said of codes and of the bytes that spell them, once in each
direction.
-/
import KernelForge.Source.Glyph
import Mathlib.Data.List.Basic

namespace KernelForge.SourceText

variable {b : UInt8} {c : Char} {n code more least : Nat} {tail rest bs : List UInt8}

/-! ### Codes -/

/-- The bytes of a code. -/
def encoded (n : Nat) : List UInt8 :=
  if n ≤ 127 then [UInt8.ofNat n]
  else if n ≤ 2047 then [UInt8.ofNat (n / 64 % 32 + 192), UInt8.ofNat (n % 64 + 128)]
  else if n ≤ 65535 then
    [UInt8.ofNat (n / 4096 % 16 + 224), UInt8.ofNat (n / 64 % 64 + 128), UInt8.ofNat (n % 64 + 128)]
  else
    [UInt8.ofNat (n / 262144 % 8 + 240), UInt8.ofNat (n / 4096 % 64 + 128),
      UInt8.ofNat (n / 64 % 64 + 128), UInt8.ofNat (n % 64 + 128)]

theorem utf8EncodeChar_eq (c : Char) : String.utf8EncodeChar c = encoded c.toNat := rfl

/-- A byte and some more are read as a code. -/
def Spells (b : UInt8) (tail : List UInt8) (n : Nat) : Prop :=
  ∃ code least, leadOf? b = some (code, tail.length, least) ∧ codeFrom? code tail = some n ∧ least ≤ n

/-- The first byte tells how many bytes follow. -/
theorem leadOf?_eq_some :
    leadOf? b = some (code, more, least) ↔
      (b.toNat < 0x80 ∧ code = b.toNat ∧ more = 0 ∧ least = 0) ∨
      (0xc0 ≤ b.toNat ∧ b.toNat < 0xe0 ∧ code + 0xc0 = b.toNat ∧ more = 1 ∧ least = 0x80) ∨
      (0xe0 ≤ b.toNat ∧ b.toNat < 0xf0 ∧ code + 0xe0 = b.toNat ∧ more = 2 ∧ least = 0x800) ∨
      (0xf0 ≤ b.toNat ∧ b.toNat < 0xf8 ∧ code + 0xf0 = b.toNat ∧ more = 3 ∧ least = 0x10000) := by
  unfold leadOf?
  dsimp only
  constructor
  · intro h
    split_ifs at h with h₁ h₂ h₃ h₄ h₅ <;>
      simp only [Option.some.injEq, Prod.mk.injEq] at h <;> obtain ⟨rfl, rfl, rfl⟩ := h
    · exact .inl ⟨h₁, rfl, rfl, rfl⟩
    · exact .inr (.inl ⟨by omega, h₃, by omega, rfl, rfl⟩)
    · exact .inr (.inr (.inl ⟨by omega, h₄, by omega, rfl, rfl⟩))
    · exact .inr (.inr (.inr ⟨by omega, h₅, by omega, rfl, rfl⟩))
  · rintro (⟨h, rfl, rfl, rfl⟩ | ⟨-, h, hcode, rfl, rfl⟩ | ⟨h', h, hcode, rfl, rfl⟩ |
      ⟨h', h, hcode, rfl, rfl⟩)
    · rw [if_pos h]
    · rw [if_neg (by omega), if_neg (by omega), if_pos h, ← hcode, Nat.add_sub_cancel]
    · rw [if_neg (by omega), if_neg (by omega), if_neg (by omega), if_pos h, ← hcode,
        Nat.add_sub_cancel]
    · rw [if_neg (by omega), if_neg (by omega), if_neg (by omega), if_neg (by omega), if_pos h,
        ← hcode, Nat.add_sub_cancel]

/-- A byte that continues a character adds its six lowest bits. -/
theorem codeFrom?_cons_eq_some :
    codeFrom? code (b :: bs) = some n ↔
      b.toNat / 64 = 2 ∧ codeFrom? (64 * code + b.toNat % 64) bs = some n := by
  rw [codeFrom?]
  split_ifs with h <;> simp [h]

theorem codeFrom?_nil_eq_some : codeFrom? code [] = some n ↔ code = n := by simp [codeFrom?]

theorem toNat_byte (h : n < 256) : (UInt8.ofNat n).toNat = n := by
  rw [UInt8.toNat_ofNat', Nat.mod_eq_of_lt h]

/-- A byte that continues a character, made of its six bits and added to the ones before. -/
theorem codeFrom?_byte (hcode : code = n / 64) {tail : List UInt8} :
    codeFrom? code (UInt8.ofNat (n % 64 + 128) :: tail) = codeFrom? n tail := by
  have hsix : n % 64 < 64 := Nat.mod_lt _ (by decide)
  rw [codeFrom?, toNat_byte (by omega), if_pos (by omega), hcode]
  congr 1
  omega

/-- The bytes of a code spell it. -/
theorem spells_encoded (h : n < 0x110000) : ∃ b tail, encoded n = b :: tail ∧ Spells b tail n := by
  unfold encoded
  split_ifs with h₁ h₂ h₃
  · refine ⟨_, _, rfl, n, 0, leadOf?_eq_some.mpr (.inl ?_), rfl, Nat.zero_le _⟩
    rw [toNat_byte (by omega)]
    exact ⟨by omega, rfl, rfl, rfl⟩
  · refine ⟨_, _, rfl, n / 64, 0x80, leadOf?_eq_some.mpr (.inr (.inl ?_)), ?_, by omega⟩
    · rw [toNat_byte (by omega)]
      exact ⟨by omega, by omega, by omega, rfl, rfl⟩
    · rw [codeFrom?_byte rfl, codeFrom?]
  · refine ⟨_, _, rfl, n / 4096, 0x800, leadOf?_eq_some.mpr (.inr (.inr (.inl ?_))), ?_, by omega⟩
    · rw [toNat_byte (by omega)]
      exact ⟨by omega, by omega, by omega, rfl, rfl⟩
    · rw [codeFrom?_byte (by omega), codeFrom?_byte rfl, codeFrom?]
  · refine ⟨_, _, rfl, n / 262144, 0x10000, leadOf?_eq_some.mpr (.inr (.inr (.inr ?_))), ?_, by omega⟩
    · rw [toNat_byte (by omega)]
      exact ⟨by omega, by omega, by omega, rfl, rfl⟩
    · rw [codeFrom?_byte (by omega), codeFrom?_byte (by omega), codeFrom?_byte rfl, codeFrom?]

/-- The byte that starts with some bits and ends with the lowest ones of a number. -/
theorem byte_eq (h : n = b.toNat) : UInt8.ofNat n = b := by rw [h, UInt8.ofNat_toNat]

/-- A byte that continues a character is made of its lowest bits. -/
theorem byte_of_codeFrom? (hb : b.toNat / 64 = 2) (hn : 64 * code + b.toNat % 64 = n) :
    UInt8.ofNat (n % 64 + 128) = b ∧ n / 64 = code :=
  ⟨byte_eq (by omega), by omega⟩

/-- Bytes that spell a code are its bytes. -/
theorem encoded_of_spells (h : Spells b tail n) : encoded n = b :: tail := by
  obtain ⟨code, least, hlead, hcode, hleast⟩ := h
  unfold encoded
  rcases leadOf?_eq_some.mp hlead with ⟨hb, rfl, hmore, rfl⟩ | ⟨hge, hlt, hb, hmore, rfl⟩ |
    ⟨hge, hlt, hb, hmore, rfl⟩ | ⟨hge, hlt, hb, hmore, rfl⟩
  · obtain rfl := List.length_eq_zero_iff.mp hmore
    rw [codeFrom?_nil_eq_some] at hcode
    rw [if_pos (by omega), byte_eq hcode.symm]
  · obtain ⟨b₁, rfl⟩ := List.length_eq_one_iff.mp hmore
    simp only [codeFrom?_cons_eq_some, codeFrom?_nil_eq_some] at hcode
    obtain ⟨h₁, rfl⟩ := byte_of_codeFrom? hcode.1 hcode.2
    rw [if_neg (by omega), if_pos (by omega), h₁, @byte_eq b _ (by omega)]
  · obtain ⟨b₁, b₂, rfl⟩ := List.length_eq_two.mp hmore
    simp only [codeFrom?_cons_eq_some, codeFrom?_nil_eq_some] at hcode
    obtain ⟨h₂, hn⟩ := byte_of_codeFrom? hcode.2.1 hcode.2.2
    obtain ⟨h₁, rfl⟩ := byte_of_codeFrom? hcode.1 hn.symm
    rw [Nat.div_div_eq_div_mul] at hb
    rw [if_neg (by omega), if_neg (by omega), if_pos (by omega), h₁, h₂, @byte_eq b _ (by omega)]
  · obtain ⟨b₁, b₂, b₃, rfl⟩ := List.length_eq_three.mp hmore
    simp only [codeFrom?_cons_eq_some, codeFrom?_nil_eq_some] at hcode
    obtain ⟨h₃, hn⟩ := byte_of_codeFrom? hcode.2.2.1 hcode.2.2.2
    obtain ⟨h₂, hn'⟩ := byte_of_codeFrom? hcode.2.1 hn.symm
    obtain ⟨h₁, rfl⟩ := byte_of_codeFrom? hcode.1 hn'.symm
    rw [Nat.div_div_eq_div_mul] at h₁ hb
    rw [Nat.div_div_eq_div_mul] at hb
    rw [if_neg (by omega), if_neg (by omega), if_neg (by omega), h₁, h₂, h₃, @byte_eq b _ (by omega)]

/-! ### Characters -/

theorem charAt?_eq_some :
    charAt? b rest = some (c, more) ↔ more ≤ rest.length ∧ Spells b (rest.take more) c.toNat := by
  unfold charAt?
  constructor
  · intro h
    split at h
    · cases h
    · rename_i code more' least hlead
      dsimp only at h
      split at h
      · cases h
      · rename_i n hcode
        split at hcode
        · rename_i hlength
          split at h
          · rename_i hn
            cases h
            rw [Bool.and_eq_true, decide_eq_true_eq, decide_eq_true_eq] at hn
            have hc : (Char.ofNat n).toNat = n := by
              rw [Char.ofNat, dif_pos hn.2]
              rfl
            have hlead' : leadOf? b = some (code, (rest.take more).length, least) := by rwa [hlength]
            exact ⟨hlength ▸ List.length_take_le' _ _, code, least, hlead', hc.symm ▸ hcode, hc.symm ▸ hn.1⟩
          · cases h
        · cases hcode
  · rintro ⟨hmore, code, least, hlead, hcode, hleast⟩
    have hlength : (rest.take more).length = more := List.length_take_of_le hmore
    rw [hlength] at hlead
    have hvalid : c.toNat.isValidChar := c.valid
    simp only [hlead, hlength, if_true, hcode]
    rw [if_pos (by simpa using ⟨hleast, hvalid⟩), Char.ofNat_toNat]

/-! ### Sources -/

theorem ofBytes_encode (c : Char) (rest : List UInt8) :
    ofBytes (String.utf8EncodeChar c ++ rest) = .char c :: ofBytes rest := by
  have hmax : c.toNat < 0x110000 := by
    rcases c.valid with h | h
    · exact Nat.lt_trans h (by decide)
    · exact h.2
  obtain ⟨b, tail, hencoded, hspells⟩ := spells_encoded hmax
  have hchar : charAt? b (tail ++ rest) = some (c, tail.length) :=
    charAt?_eq_some.mpr ⟨by simp, by rwa [List.take_left]⟩
  rw [utf8EncodeChar_eq, hencoded, List.cons_append, ofBytes, hchar]
  simp only [List.drop_left]

/-- **A source that is made of characters is read again.** -/
theorem ofBytes_ofChars (cs : List Char) : ofBytes (bytes (ofChars cs)) = ofChars cs := by
  induction cs with
  | nil => rw [ofChars, List.map_nil, bytes, List.flatMap_nil, ofBytes]
  | cons c cs ih =>
    have hbytes : bytes (ofChars (c :: cs)) = String.utf8EncodeChar c ++ bytes (ofChars cs) := rfl
    rw [hbytes, ofBytes_encode, ih]
    rfl

/-- **No byte is lost when bytes are read.** -/
theorem bytes_ofBytes (bs : List UInt8) : bytes (ofBytes bs) = bs := by
  fun_induction ofBytes bs with
  | case1 => rfl
  | case2 b rest c more h ih =>
    have hencode : String.utf8EncodeChar c = b :: rest.take more :=
      encoded_of_spells (charAt?_eq_some.mp h).2
    show String.utf8EncodeChar c ++ bytes (ofBytes (rest.drop more)) = _
    rw [hencode, ih, List.cons_append, List.take_append_drop]
  | case3 b rest h ih =>
    show [b] ++ bytes (ofBytes rest) = _
    rw [ih]
    rfl

end KernelForge.SourceText
