import Mathlib

/-!
# Machine words

Words are bit vectors. A word read from memory is made of bytes, the lowest one first (`ofBytes`,
`toBytes`). The mixing steps of hash functions, multiplication by an odd constant and `x ^= x >> s`
(`xorShift`), do not lose information.
-/

namespace MUtils
variable {w : Nat}

/-! ### Bytes -/

/-- The word that has the given bytes, the lowest one first. -/
def ofBytes (w : Nat) : List UInt8 → BitVec w
  | [] => 0#w
  | b :: bytes => b.toBitVec.setWidth w ||| (ofBytes w bytes <<< 8)

/-- The lowest `n` bytes of a word, the lowest one first. -/
def toBytes (n : Nat) (x : BitVec w) : List UInt8 :=
  (List.range n).map fun i => ⟨(x >>> (8 * i)).setWidth 8⟩

/-- The bit of a byte sequence at a position counted over all of its bytes. -/
def bitOfBytes (bytes : List UInt8) (i : Nat) : Bool :=
  match bytes[i / 8]? with
  | some b => b.toBitVec.getLsbD (i % 8)
  | none => false

theorem getLsbD_ofBytes (bytes : List UInt8) (i : Nat) :
    (ofBytes w bytes).getLsbD i = (decide (i < w) && bitOfBytes bytes i) := by
  induction bytes generalizing i with
  | nil => simp [ofBytes, bitOfBytes]
  | cons b bytes ih =>
    rw [ofBytes, BitVec.getLsbD_or, BitVec.getLsbD_setWidth, BitVec.getLsbD_shiftLeft, ih]
    by_cases hi : i < 8
    · -- the bit is in the first byte
      simp [bitOfBytes, hi, Nat.div_eq_of_lt hi, Nat.mod_eq_of_lt hi]
    · obtain ⟨j, rfl⟩ := Nat.exists_eq_add_of_le' (Nat.le_of_not_lt hi)
      have hj : j + 8 < w → j < w := by omega
      rw [BitVec.getLsbD_of_ge _ _ (Nat.le_add_left 8 j)]
      by_cases hw : j + 8 < w <;> simp [bitOfBytes, hw, hj]

theorem ofBytes_toBytes {n : Nat} (hw : w ≤ 8 * n) (x : BitVec w) :
    ofBytes w (toBytes n x) = x := by
  apply BitVec.eq_of_getLsbD_eq
  intro i hi
  have hdiv : i / 8 < n := by omega
  have hmod : i % 8 < 8 := Nat.mod_lt i (by decide)
  simp only [getLsbD_ofBytes, bitOfBytes, toBytes, List.getElem?_map, List.getElem?_range hdiv,
    Option.map_some, BitVec.getLsbD_setWidth, BitVec.getLsbD_ushiftRight, Nat.div_add_mod, hi, hmod,
    decide_true, Bool.true_and]

/-- A byte of a word, by a mask. -/
theorem and_shiftRight_ofBytes {bytes : List UInt8} {b : UInt8} {i : Nat} (hw : 8 * (i + 1) ≤ w)
    (hb : bytes[i]? = some b) :
    (ofBytes w bytes &&& (0xFF#w <<< (8 * i))) >>> (8 * i) = b.toBitVec.setWidth w := by
  apply BitVec.eq_of_getLsbD_eq
  intro j hj
  have hmask : (0xFF#w).getLsbD j = decide (j < 8) := by
    rw [BitVec.getLsbD_ofNat, decide_eq_true hj, Bool.true_and]
    exact Nat.testBit_two_pow_sub_one 8 j
  rw [BitVec.getLsbD_ushiftRight, BitVec.getLsbD_and, BitVec.getLsbD_shiftLeft,
    BitVec.getLsbD_setWidth, getLsbD_ofBytes]
  by_cases hlow : j < 8
  · have hdiv : (8 * i + j) / 8 = i := by omega
    have hmod : (8 * i + j) % 8 = j := by omega
    have hlt : 8 * i + j < w := by omega
    simp [bitOfBytes, hdiv, hmod, hlt, hb, hmask, hj, hlow]
  · simp [hlow, hmask, BitVec.getLsbD_of_ge b.toBitVec j (Nat.le_of_not_lt hlow)]

/-- A word that is put together from four bytes. -/
theorem ofBytes_four (a b c d : UInt8) : ofBytes w [a, b, c, d] =
    a.toBitVec.setWidth w ||| b.toBitVec.setWidth w <<< 8 |||
      c.toBitVec.setWidth w <<< 16 ||| d.toBitVec.setWidth w <<< 24 := by
  simp only [ofBytes, BitVec.zero_shiftLeft, BitVec.or_zero, BitVec.shiftLeft_or_distrib,
    ← BitVec.shiftLeft_add, Nat.reduceAdd, BitVec.or_assoc]

theorem length_toBytes (n : Nat) (x : BitVec w) : (toBytes n x).length = n := by
  rw [toBytes, List.length_map, List.length_range]

/-- Byte sequences of the same length that fit into the word are told apart. -/
theorem ofBytes_inj {bytes bytes' : List UInt8} (hlength : bytes.length = bytes'.length)
    (hw : 8 * bytes.length ≤ w) (h : ofBytes w bytes = ofBytes w bytes') : bytes = bytes' := by
  apply List.ext_getElem hlength
  intro k hk hk'
  apply UInt8.toBitVec_inj.mp
  apply BitVec.eq_of_getLsbD_eq
  intro j hj
  have hdiv : (8 * k + j) / 8 = k := by omega
  have hmod : (8 * k + j) % 8 = j := by omega
  have hlt : 8 * k + j < w := by omega
  have hbit := congrArg (·.getLsbD (8 * k + j)) h
  simpa only [getLsbD_ofBytes, bitOfBytes, hdiv, hmod, hlt, decide_true, Bool.true_and,
    List.getElem?_eq_getElem hk, List.getElem?_eq_getElem hk'] using hbit

/-- Bytes do not overlap. -/
theorem ofBytes_concat (bytes : List UInt8) (b : UInt8) :
    ofBytes w (bytes ++ [b]) =
      (b.toBitVec.setWidth w <<< (8 * bytes.length)) ^^^ ofBytes w bytes := by
  apply BitVec.eq_of_getLsbD_eq
  intro i hi
  rw [BitVec.getLsbD_xor, getLsbD_ofBytes, getLsbD_ofBytes, BitVec.getLsbD_shiftLeft,
    BitVec.getLsbD_setWidth]
  rcases Nat.lt_trichotomy (i / 8) bytes.length with h | h | h
  · have hlt : i < 8 * bytes.length := by omega
    simp [bitOfBytes, hlt, List.getElem?_append_left h]
  · have hlt : ¬i < 8 * bytes.length := by omega
    have hmod : i - 8 * bytes.length = i % 8 := by omega
    have hw : i % 8 < w := by omega
    simp [bitOfBytes, hi, hlt, hmod, hw, h]
  · have hlt : ¬i < 8 * bytes.length := by omega
    have hge : 8 ≤ i - 8 * bytes.length := by omega
    simp [bitOfBytes, BitVec.getLsbD_of_ge _ _ hge, List.getElem?_eq_none (Nat.le_of_lt h),
      List.getElem?_append_right (Nat.le_of_lt h), Nat.sub_ne_zero_of_lt h]

/-- Words that have no bit in common. -/
theorem getLsbD_add {x y : BitVec w} (h : ∀ i, (x.getLsbD i && y.getLsbD i) = false) (i : Nat) :
    (x + y).getLsbD i = (x.getLsbD i || y.getLsbD i) := by
  have hand : x &&& y = 0#w := by
    apply BitVec.eq_of_getLsbD_eq
    intro i _
    rw [BitVec.getLsbD_and, h, BitVec.getLsbD_zero]
  rw [BitVec.add_eq_or_of_and_eq_zero _ _ hand, BitVec.getLsbD_or]

/-! ### Mixing -/

/-- `x ^= x >> s`. -/
def xorShift (x : BitVec w) (s : Nat) : BitVec w := x ^^^ (x >>> s)

theorem getLsbD_xorShift (x : BitVec w) (s i : Nat) :
    (xorShift x s).getLsbD i = (x.getLsbD i ^^ x.getLsbD (s + i)) := by
  rw [xorShift, BitVec.getLsbD_xor, BitVec.getLsbD_ushiftRight]

/-- The bits are known from the highest one down. -/
theorem xorShift_inj {x y : BitVec w} {s : Nat} (hs : 0 < s) (h : xorShift x s = xorShift y s) :
    x = y := by
  have hbits : ∀ n i, w ≤ n + i → x.getLsbD i = y.getLsbD i := by
    intro n
    induction n with
    | zero =>
      intro i hi
      rw [BitVec.getLsbD_of_ge x i (by omega), BitVec.getLsbD_of_ge y i (by omega)]
    | succ n ih =>
      intro i hi
      have hbit := congrArg (·.getLsbD i) h
      simp only [getLsbD_xorShift, ih (s + i) (by omega)] at hbit
      exact Bool.xor_left_inj.mp hbit
  exact BitVec.eq_of_getLsbD_eq fun i _ => hbits w i (Nat.le_add_right w i)

/-- A shift by at least half of the word is undone by doing it again. -/
theorem xorShift_xorShift {s : Nat} (hs : w ≤ 2 * s) (x : BitVec w) :
    xorShift (xorShift x s) s = x := by
  apply BitVec.eq_of_getLsbD_eq
  intro i _
  have hhigh : x.getLsbD (s + (s + i)) = false := BitVec.getLsbD_of_ge _ _ (by omega)
  rw [getLsbD_xorShift, getLsbD_xorShift, getLsbD_xorShift, hhigh, Bool.xor_false, Bool.xor_assoc,
    Bool.xor_self, Bool.xor_false]

theorem mul_mul_of_inv {m minv : BitVec w} (hm : m * minv = 1#w) (x : BitVec w) :
    x * m * minv = x := by
  rw [BitVec.mul_assoc, hm, BitVec.mul_one]

theorem mul_right_inj_of_inv {m minv x y : BitVec w} (hm : m * minv = 1#w) (h : x * m = y * m) :
    x = y := by
  rw [← mul_mul_of_inv hm x, h, mul_mul_of_inv hm]

/-! ### Masks -/

/-- The bits inside and outside of a mask make up the word. -/
theorem toNat_and_add_and_not (x mask : BitVec w) :
    (x &&& mask).toNat + (x &&& ~~~mask).toNat = x.toNat := by
  have hdisjoint : (x &&& mask) &&& (x &&& ~~~mask) = 0#w := by
    apply BitVec.eq_of_getLsbD_eq
    intro i hi
    cases hx : x.getLsbD i <;> cases hm : mask.getLsbD i <;> simp [hx, hm]
  rw [← BitVec.toNat_add_of_and_eq_zero hdisjoint, BitVec.add_eq_or_of_and_eq_zero _ _ hdisjoint,
    ← BitVec.and_or_distrib_left, BitVec.or_not_self, BitVec.and_allOnes]

section
variable {a x : BitVec w} {k : Nat}

theorem toNat_sub_one (ha : a.toNat = 2 ^ k) : (a - 1).toNat = 2 ^ k - 1 := by
  have hpos : 1 ≤ 2 ^ k := Nat.one_le_two_pow
  have hlt : 2 ^ k < 2 ^ w := ha ▸ a.isLt
  have hone : (1 : BitVec w).toNat = 1 := Nat.mod_eq_of_lt (hpos.trans_lt hlt)
  have hle : 1 ≤ a := by rwa [BitVec.le_def, hone, ha]
  rw [BitVec.toNat_sub_of_le hle, hone, ha]

/-- The bits below a power of two. -/
theorem toNat_and_sub_one (ha : a.toNat = 2 ^ k) : (x &&& (a - 1)).toNat = x.toNat % 2 ^ k := by
  rw [BitVec.toNat_and, toNat_sub_one ha, Nat.and_two_pow_sub_one_eq_mod]

/-- The bits from a power of two on. -/
theorem toNat_and_not_sub_one (ha : a.toNat = 2 ^ k) :
    (x &&& ~~~(a - 1)).toNat = x.toNat / 2 ^ k * 2 ^ k := by
  have hsum := toNat_and_add_and_not x (a - 1)
  have hdiv := Nat.div_add_mod' x.toNat (2 ^ k)
  rw [toNat_and_sub_one ha] at hsum
  omega

end

end MUtils
