import Mathlib

/-!
# Percent-encoding of bytes

The unreserved characters, the groups that percent-encoded text is made of (`Group`), and the
standard decoder (`percentDecode`). Text that is put together from the encodings of single bytes is
decoded byte by byte (`percentDecode_flatMap`).
-/

namespace MUtils.PercentCoding

/-- The code of `c` lies between those of two characters. -/
def Between (first last : Char) (c : UInt8) : Prop := first.toNat ≤ c.toNat ∧ c.toNat ≤ last.toNat

instance (first last : Char) : DecidablePred (Between first last) :=
  fun _ => inferInstanceAs (Decidable (_ ∧ _))

def Unreserved (c : UInt8) : Prop :=
  Between '0' '9' c ∨ Between 'A' 'Z' c ∨ Between 'a' 'z' c ∨ c = '-'.toUInt8 ∨ c = '_'.toUInt8 ∨
    c = '.'.toUInt8 ∨ c = '~'.toUInt8

instance : DecidablePred Unreserved := fun _ => inferInstanceAs (Decidable (_ ∨ _))

def UpperHex (c : UInt8) : Prop := Between '0' '9' c ∨ Between 'A' 'F' c

instance : DecidablePred UpperHex := fun _ => inferInstanceAs (Decidable (_ ∨ _))

/-- An unreserved character, or `%` with two upper-case hexadecimal digits. -/
inductive Group : List UInt8 → Prop
  | unreserved : Unreserved c → Group [c]
  | escape : UpperHex h → UpperHex l → Group ['%'.toUInt8, h, l]

/-- The value of a hexadecimal digit of either case. -/
def hexValue (c : UInt8) : Option Nat :=
  if Between '0' '9' c then some (c.toNat - '0'.toNat)
  else if Between 'A' 'F' c then some (c.toNat - 'A'.toNat + 10)
  else if Between 'a' 'f' c then some (c.toNat - 'a'.toNat + 10)
  else none

/-- `%` with two hexadecimal digits is the byte with that value, any other byte stands for
itself. -/
def percentDecode : List UInt8 → Option (List UInt8)
  | [] => some []
  | c :: s =>
    if c = '%'.toUInt8 then
      match s with
      | h :: l :: s => do
        let h ← hexValue h
        let l ← hexValue l
        let bytes ← percentDecode s
        return UInt8.ofNat (16 * h + l) :: bytes
      | _ => none
    else do
      let bytes ← percentDecode s
      return c :: bytes

theorem percentDecode_self {c : UInt8} (hc : c ≠ '%'.toUInt8) (s : List UInt8) :
    percentDecode (c :: s) = (percentDecode s).map (c :: ·) := by
  rw [percentDecode.eq_def]
  simp only [if_neg hc]
  cases percentDecode s <;> rfl

theorem percentDecode_escape {h l : UInt8} {a b : Nat} (ha : hexValue h = some a)
    (hb : hexValue l = some b) (s : List UInt8) :
    percentDecode ('%'.toUInt8 :: h :: l :: s) =
      (percentDecode s).map (UInt8.ofNat (16 * a + b) :: ·) := by
  rw [percentDecode.eq_def]
  simp only [if_pos, ha, hb]
  cases percentDecode s <;> rfl

/-- An encoding of single bytes that the decoder undoes. -/
theorem percentDecode_flatMap {encode : UInt8 → List UInt8}
    (h : ∀ c s, percentDecode (encode c ++ s) = (percentDecode s).map (c :: ·))
    (bytes : List UInt8) : percentDecode (bytes.flatMap encode) = some bytes := by
  induction bytes with
  | nil => rfl
  | cons c bytes ih => rw [List.flatMap_cons, h, ih, Option.map_some]

theorem Unreserved.ne_percent {c : UInt8} (hc : Unreserved c) : c ≠ '%'.toUInt8 := by
  rintro rfl
  exact absurd hc (by decide)

/-! ### Hexadecimal digits -/

/-- The upper-case digit with a given value. -/
def hexDigit (n : Nat) : UInt8 := (Nat.digitChar n).toUpper.toUInt8

theorem upperHex_hexDigit {n : Nat} (hn : n < 16) : UpperHex (hexDigit n) := by
  revert n
  decide

theorem hexValue_hexDigit {n : Nat} (hn : n < 16) : hexValue (hexDigit n) = some n := by
  revert n
  decide

/-- The two digits of a byte. -/
def escape (c : UInt8) : List UInt8 :=
  ['%'.toUInt8, hexDigit (c.toNat / 16), hexDigit (c.toNat % 16)]

theorem group_escape (c : UInt8) : Group (escape c) := by
  have := c.toNat_lt
  exact .escape (upperHex_hexDigit (by omega)) (upperHex_hexDigit (by omega))

theorem percentDecode_escape_append (c : UInt8) (s : List UInt8) :
    percentDecode (escape c ++ s) = (percentDecode s).map (c :: ·) := by
  have := c.toNat_lt
  have hvalue : UInt8.ofNat (16 * (c.toNat / 16) + c.toNat % 16) = c := by
    rw [Nat.div_add_mod, UInt8.ofNat_toNat]
  have hdecode := percentDecode_escape (hexValue_hexDigit (show c.toNat / 16 < 16 by omega))
    (hexValue_hexDigit (show c.toNat % 16 < 16 by omega)) s
  rwa [hvalue] at hdecode

end MUtils.PercentCoding
