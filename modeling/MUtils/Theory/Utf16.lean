import Mathlib

/-!
# UTF-16

`encode` is the sequence of code units of a text. A character up to `0xFFFF` is one unit, any other
one a pair of surrogates: a high one, that has the upper ten bits of what exceeds `0xFFFF`, and a
low one, that has the lower ten. `decode` reads units back and is defined for the well-formed
sequences, which are those that `encode` gives (`decode_eq_some_iff`).
-/

namespace MUtils.Utf16

def IsHigh (u : UInt16) : Prop := 0xD800 ≤ u.toNat ∧ u.toNat < 0xDC00

def IsLow (u : UInt16) : Prop := 0xDC00 ≤ u.toNat ∧ u.toNat < 0xE000

instance (u : UInt16) : Decidable (IsHigh u) := inferInstanceAs (Decidable (_ ∧ _))

instance (u : UInt16) : Decidable (IsLow u) := inferInstanceAs (Decidable (_ ∧ _))

def encodeChar (c : Char) : List UInt16 :=
  if c.toNat < 0x10000 then [.ofNat c.toNat]
  else
    [.ofNat (0xD800 + (c.toNat - 0x10000) / 0x400), .ofNat (0xDC00 + (c.toNat - 0x10000) % 0x400)]

def encode (text : List Char) : List UInt16 := text.flatMap encodeChar

/-- The character of a pair of surrogates. -/
def ofPair (u v : UInt16) : Char :=
  .ofNat (0x10000 + (u.toNat - 0xD800) * 0x400 + (v.toNat - 0xDC00))

/-- The text of the units, unless a surrogate stands alone. -/
def decode : List UInt16 → Option (List Char)
  | [] => some []
  | u :: us =>
    if IsHigh u then
      match us with
      | v :: us => if IsLow v then (decode us).map (ofPair u v :: ·) else none
      | [] => none
    else if IsLow u then none
    else (decode us).map (.ofNat u.toNat :: ·)

variable {u v : UInt16} {us : List UInt16} {c : Char}

theorem toNat_valid (c : Char) : c.toNat < 0xD800 ∨ 0xDFFF < c.toNat ∧ c.toNat < 0x110000 := c.valid

theorem toNat_ofNat_unit (hhigh : ¬IsHigh u) (hlow : ¬IsLow u) :
    (Char.ofNat u.toNat).toNat = u.toNat := by
  have hlt : u.toNat < 0x10000 := u.toNat_lt
  rw [Char.toNat_ofNat, if_pos]
  unfold IsHigh IsLow at *
  unfold Nat.isValidChar
  omega

theorem toNat_ofPair (hhigh : IsHigh u) (hlow : IsLow v) :
    (ofPair u v).toNat = 0x10000 + (u.toNat - 0xD800) * 0x400 + (v.toNat - 0xDC00) := by
  rw [ofPair, Char.toNat_ofNat, if_pos]
  unfold IsHigh IsLow at *
  unfold Nat.isValidChar
  omega

/-- A unit that is not a surrogate is a character. -/
theorem encodeChar_ofNat (hhigh : ¬IsHigh u) (hlow : ¬IsLow u) :
    encodeChar (.ofNat u.toNat) = [u] := by
  rw [encodeChar, toNat_ofNat_unit hhigh hlow, if_pos u.toNat_lt, UInt16.ofNat_toNat]

theorem encodeChar_ofPair (hhigh : IsHigh u) (hlow : IsLow v) :
    encodeChar (ofPair u v) = [u, v] := by
  have hu : 0xD800 + (0x10000 + (u.toNat - 0xD800) * 0x400 + (v.toNat - 0xDC00) - 0x10000) / 0x400 =
      u.toNat := by
    unfold IsHigh IsLow at *
    omega
  have hv : 0xDC00 + (0x10000 + (u.toNat - 0xD800) * 0x400 + (v.toNat - 0xDC00) - 0x10000) % 0x400 =
      v.toNat := by
    unfold IsHigh IsLow at *
    omega
  rw [encodeChar, toNat_ofPair hhigh hlow, if_neg (by omega), hu, hv, UInt16.ofNat_toNat,
    UInt16.ofNat_toNat]

/-- A character is one unit or a pair. -/
theorem char_cases (c : Char) :
    (∃ u, ¬IsHigh u ∧ ¬IsLow u ∧ c = .ofNat u.toNat) ∨
      ∃ u v, IsHigh u ∧ IsLow v ∧ c = ofPair u v := by
  have hvalid := toNat_valid c
  by_cases hlt : c.toNat < 0x10000
  · have hu : (UInt16.ofNat c.toNat).toNat = c.toNat := UInt16.toNat_ofNat_of_lt' hlt
    refine .inl ⟨.ofNat c.toNat, ?_, ?_, ?_⟩
    · rw [IsHigh, hu]
      omega
    · rw [IsLow, hu]
      omega
    · rw [hu, Char.ofNat_toNat]
  · have hhighlt : 0xD800 + (c.toNat - 0x10000) / 0x400 < 0x10000 := by omega
    have hlowlt : 0xDC00 + (c.toNat - 0x10000) % 0x400 < 0x10000 := by omega
    have hu := UInt16.toNat_ofNat_of_lt' hhighlt
    have hv := UInt16.toNat_ofNat_of_lt' hlowlt
    have hhigh : IsHigh (.ofNat (0xD800 + (c.toNat - 0x10000) / 0x400)) := by
      rw [IsHigh, hu]
      omega
    have hlow : IsLow (.ofNat (0xDC00 + (c.toNat - 0x10000) % 0x400)) := by
      rw [IsLow, hv]
      omega
    refine .inr ⟨_, _, hhigh, hlow, Char.toNat_inj.mp ?_⟩
    rw [toNat_ofPair hhigh hlow, hu, hv]
    omega

theorem decode_cons (hhigh : ¬IsHigh u) (hlow : ¬IsLow u) (us : List UInt16) :
    decode (u :: us) = (decode us).map (.ofNat u.toNat :: ·) := by
  cases us <;> simp only [decode, if_neg hhigh, if_neg hlow]

theorem decode_pair (hhigh : IsHigh u) (hlow : IsLow v) (us : List UInt16) :
    decode (u :: v :: us) = (decode us).map (ofPair u v :: ·) := by
  rw [decode, if_pos hhigh, if_pos hlow]

theorem decode_encodeChar_append (c : Char) (us : List UInt16) :
    decode (encodeChar c ++ us) = (decode us).map (c :: ·) := by
  obtain ⟨u, hhigh, hlow, hc⟩ | ⟨u, v, hhigh, hlow, hc⟩ := char_cases c
  · rw [hc, encodeChar_ofNat hhigh hlow]
    exact decode_cons hhigh hlow us
  · rw [hc, encodeChar_ofPair hhigh hlow]
    exact decode_pair hhigh hlow us

theorem decode_encode (text : List Char) : decode (encode text) = some text := by
  induction text with
  | nil => rfl
  | cons c text ih =>
    rw [encode, List.flatMap_cons, decode_encodeChar_append, ← encode, ih, Option.map_some]

theorem encode_of_decode {text : List Char} (h : decode us = some text) : encode text = us := by
  fun_induction decode us generalizing text with
  | case1 =>
    cases h
    rfl
  | case2 u hhigh v us hlow ih =>
    obtain ⟨rest, hrest, rfl⟩ := Option.map_eq_some_iff.mp h
    rw [encode, List.flatMap_cons, encodeChar_ofPair hhigh hlow, ← encode, ih hrest]
    rfl
  | case3 | case4 | case5 => cases h
  | case6 u us hhigh hlow ih =>
    obtain ⟨rest, hrest, rfl⟩ := Option.map_eq_some_iff.mp h
    rw [encode, List.flatMap_cons, encodeChar_ofNat hhigh hlow, ← encode, ih hrest]
    rfl

/-- The well-formed sequences are the encodings of texts. -/
theorem decode_eq_some_iff {text : List Char} : decode us = some text ↔ us = encode text := by
  constructor
  · exact fun h => (encode_of_decode h).symm
  · rintro rfl
    exact decode_encode text

end MUtils.Utf16
