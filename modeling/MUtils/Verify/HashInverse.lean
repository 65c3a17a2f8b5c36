import MUtils.String.MurmurHash

/-!
# The inverse of a hash

`invert_shift_xor` finds the bytes of the word from the highest one down. What it returns has the
bits that the xor with its own shift needs, and there is only one such word (`xorShift_inj`). On
keys of four bytes `murmur_hash` mixes one word into a hash that does not depend on the key, and
each of its steps can be undone.
-/

namespace MUtils

/-! ### Shifts -/

/-- A word with bits in its lowest byte only. -/
def IsByte (x : BitVec 32) : Prop := ∀ i, 8 ≤ i → x.getLsbD i = false

theorem getLsbD_mask (x : BitVec 32) (i : Nat) :
    (x &&& 0xff).getLsbD i = (decide (i < 8) && x.getLsbD i) := by
  have hmask : (0xff : BitVec 32) = BitVec.ofNat 32 (2 ^ 8 - 1) := rfl
  rw [BitVec.getLsbD_and, hmask, BitVec.getLsbD_ofNat, Nat.testBit_two_pow_sub_one]
  by_cases hi : i < 8
  · simp [hi, Nat.lt_trans hi]
  · simp [hi]

theorem isByte_mask (x : BitVec 32) : IsByte (x &&& 0xff) := by
  intro i hi
  rw [getLsbD_mask, decide_eq_false (Nat.not_lt.mpr hi), Bool.false_and]

theorem isByte_high (x : BitVec 32) : IsByte (x >>> 24) := by
  intro i hi
  rw [BitVec.getLsbD_ushiftRight]
  exact BitVec.getLsbD_of_ge _ _ (by omega)

theorem IsByte.xor_shiftRight {x y : BitVec 32} (hx : IsByte x) (hy : IsByte y) (s : Nat) :
    IsByte (x ^^^ (y >>> s)) := by
  intro i hi
  rw [BitVec.getLsbD_xor, BitVec.getLsbD_ushiftRight, hx i hi, hy (s + i) (by omega)]
  rfl

theorem getLsbD_add_byte {x h : BitVec 32} {n : Nat} (hn : n ≤ 24)
    (hx : ∀ i < n + 8, x.getLsbD i = false) (hb : IsByte h) (i : Nat) :
    (x + (h <<< n)).getLsbD i =
      if i < n then false else if i < n + 8 then h.getLsbD (i - n) else x.getLsbD i := by
  have hshift : ∀ i, n + 8 ≤ i → (h <<< n).getLsbD i = false := by
    intro i hi
    rw [BitVec.getLsbD_shiftLeft, hb (i - n) (by omega), Bool.and_false]
  rw [getLsbD_add]
  · split
    · next hlt => simp [hx i (by omega), hlt]
    · split
      · next hge hlt =>
        have hi : i < 32 := by omega
        rw [hx i hlt, Bool.false_or, BitVec.getLsbD_shiftLeft, decide_eq_true hi,
          decide_eq_false hge]
        rfl
      · next hge => rw [hshift i (by omega), Bool.or_false]
  · intro i
    rcases Nat.lt_or_ge i (n + 8) with hi | hi
    · rw [hx i hi, Bool.false_and]
    · rw [hshift i hi, Bool.and_false]

/-- What `invert_shift_xor` finds: four bytes, each from bits of `hs` and of the bytes above it. -/
structure InvertedBytes (hs : BitVec 32) (s : Nat) (h0 h1 h2 h3 : BitVec 32) : Prop where
  isByte0 : IsByte h0
  isByte1 : IsByte h1
  isByte2 : IsByte h2
  isByte3 : IsByte h3
  bit0 : ∀ i, 24 ≤ i → h0.getLsbD (i - 24) = hs.getLsbD i
  bit1 : ∀ i, 16 ≤ i → i < 24 → h1.getLsbD (i - 16) = (hs.getLsbD i ^^ h0.getLsbD (s + i - 24))
  bit2 : ∀ i, 8 ≤ i → i < 16 → h2.getLsbD (i - 8) = (hs.getLsbD i ^^
    if s + i < 24 then h1.getLsbD (s + i - 16) else h0.getLsbD (s + i - 24))
  bit3 : ∀ i < 8, h3.getLsbD i = (hs.getLsbD i ^^
    if s + i < 16 then h2.getLsbD (s + i - 8) else h1.getLsbD (s + i - 16))

theorem InvertedBytes.getLsbD {hs h0 h1 h2 h3 : BitVec 32} {s : Nat}
    (h : InvertedBytes hs s h0 h1 h2 h3) (i : Nat) :
    ((h0 <<< 24) + (h1 <<< 16) + (h2 <<< 8) + h3).getLsbD i =
      if i < 8 then h3.getLsbD i
      else if i < 16 then h2.getLsbD (i - 8)
      else if i < 24 then h1.getLsbD (i - 16)
      else h0.getLsbD (i - 24) := by
  have h0' : ∀ i < 24, (h0 <<< 24).getLsbD i = false := by
    intro i hi
    rw [BitVec.getLsbD_shiftLeft, decide_eq_true hi, Bool.not_true, Bool.and_false, Bool.false_and]
  have h1' := getLsbD_add_byte (by decide) h0' h.isByte1
  have hlow : ∀ i < 16, ((h0 <<< 24) + (h1 <<< 16)).getLsbD i = false := by
    intro i hi
    rw [h1', if_pos hi]
  have h2' := getLsbD_add_byte (by decide) hlow h.isByte2
  have hlow : ∀ i < 8, ((h0 <<< 24) + (h1 <<< 16) + (h2 <<< 8)).getLsbD i = false := by
    intro i hi
    rw [h2', if_pos hi]
  have h3' := getLsbD_add_byte (n := 0) (by decide) hlow h.isByte3 i
  rw [BitVec.shiftLeft_zero, if_neg (Nat.not_lt_zero i), Nat.zero_add, Nat.sub_zero] at h3'
  rw [h3']
  split
  · rfl
  · next h8 =>
    rw [h2', if_neg h8]
    split
    · rfl
    · next h16 =>
      rw [h1', if_neg h16]
      split
      · rfl
      · next h24 =>
        rw [BitVec.getLsbD_shiftLeft, decide_eq_false h24]
        rcases Nat.lt_or_ge i 32 with hi | hi
        · rw [decide_eq_true hi]
          rfl
        · rw [h.isByte0 (i - 24) (by omega), Bool.and_false]

section
variable {s : Nat} (hs8 : 8 ≤ s) (hs16 : s ≤ 16)
include hs8 hs16

/-- A byte that is found from the two above it, `b` being the next one. -/
theorem getLsbD_nextByte {x a b : BitVec 32} (hb : IsByte b) {j : Nat} (hj : j < 8) :
    (((x &&& 0xff) ^^^ (a <<< (16 - s)) ^^^ (b >>> (s - 8))) &&& 0xff).getLsbD j =
      (x.getLsbD j ^^ if s + j < 16 then b.getLsbD (s + j - 8) else a.getLsbD (s + j - 16)) := by
  have hj32 : j < 32 := by omega
  rw [getLsbD_mask, BitVec.getLsbD_xor, BitVec.getLsbD_xor, getLsbD_mask, BitVec.getLsbD_shiftLeft,
    BitVec.getLsbD_ushiftRight, decide_eq_true hj, decide_eq_true hj32, Bool.true_and,
    Bool.true_and, Bool.true_and, Bool.xor_assoc]
  congr 1
  split
  · next hlow =>
    have hshift : j < 16 - s := by omega
    rw [decide_eq_true hshift, Bool.not_true, Bool.false_and, Bool.false_xor]
    congr 1
    omega
  · next hhigh =>
    have hshift : ¬j < 16 - s := by omega
    rw [decide_eq_false hshift, Bool.not_false, Bool.true_and, hb (s - 8 + j) (by omega),
      Bool.xor_false]
    congr 1
    omega

theorem invert_shift_xor_bytes (hs : BitVec 32) :
    ∃ h0 h1 h2 h3, InvertedBytes hs s h0 h1 h2 h3 ∧
      invert_shift_xor hs s = .ok ((h0 <<< 24) + (h1 <<< 16) + (h2 <<< 8) + h3) := by
  have hb0 := isByte_high hs
  have hb1 := (isByte_mask (hs >>> 16)).xor_shiftRight hb0 (s - 8)
  rw [invert_shift_xor, Outcome.assert_pos ⟨hs8, hs16⟩]
  refine ⟨_, _, _, _, ?_, rfl⟩
  refine ⟨hb0, hb1, isByte_mask _, isByte_mask _, ?_, ?_, ?_, ?_⟩
  · intro i hi
    rw [BitVec.getLsbD_ushiftRight, Nat.add_sub_of_le hi]
  · intro i hi hi'
    have hlow : i - 16 < 8 := by omega
    rw [BitVec.getLsbD_xor, getLsbD_mask, BitVec.getLsbD_ushiftRight, BitVec.getLsbD_ushiftRight,
      decide_eq_true hlow, Bool.true_and, Nat.add_sub_of_le hi,
      show s - 8 + (i - 16) = s + i - 24 by omega]
  · intro i hi hi'
    have hcond : s + (i - 8) < 16 ↔ s + i < 24 := by omega
    rw [getLsbD_nextByte hs8 hs16 hb1 (by omega), BitVec.getLsbD_ushiftRight, Nat.add_sub_of_le hi,
      if_congr hcond rfl rfl, show s + (i - 8) - 8 = s + i - 16 by omega,
      show s + (i - 8) - 16 = s + i - 24 by omega]
  · intro i hi
    exact getLsbD_nextByte hs8 hs16 (isByte_mask _) hi

theorem InvertedBytes.xorShift {hs h0 h1 h2 h3 : BitVec 32} (h : InvertedBytes hs s h0 h1 h2 h3) :
    xorShift ((h0 <<< 24) + (h1 <<< 16) + (h2 <<< 8) + h3) s = hs := by
  have hcancel : ∀ a b : Bool, ((a ^^ b) ^^ b) = a := by decide
  apply BitVec.eq_of_getLsbD_eq
  intro i hi
  rw [getLsbD_xorShift, h.getLsbD, h.getLsbD, if_neg (by omega : ¬s + i < 8)]
  -- the byte of `i`, and the bytes that `s + i` can be in
  rcases Nat.lt_or_ge i 8 with h8 | h8
  · rw [if_pos h8, h.bit3 i h8, if_pos (by omega : s + i < 24), hcancel]
  rw [if_neg (Nat.not_lt.mpr h8), if_neg (by omega : ¬s + i < 16)]
  rcases Nat.lt_or_ge i 16 with h16 | h16
  · rw [if_pos h16, h.bit2 i h8 h16, hcancel]
  rw [if_neg (Nat.not_lt.mpr h16), if_neg (by omega : ¬s + i < 24)]
  rcases Nat.lt_or_ge i 24 with h24 | h24
  · rw [if_pos h24, h.bit1 i h16 h24, hcancel]
  · rw [if_neg (Nat.not_lt.mpr h24), h.bit0 i h24, h.isByte0 _ (by omega), Bool.xor_false]

theorem invert_shift_xor_spec (hs : BitVec 32) :
    ∃ h, invert_shift_xor hs s = .ok h ∧ xorShift h s = hs := by
  obtain ⟨h0, h1, h2, h3, hbytes, heq⟩ := invert_shift_xor_bytes hs8 hs16 hs
  exact ⟨_, heq, hbytes.xorShift hs8 hs16⟩

theorem invert_shift_xor_xorShift (x : BitVec 32) :
    invert_shift_xor (xorShift x s) s = .ok x := by
  obtain ⟨h, heq, hh⟩ := invert_shift_xor_spec hs8 hs16 (xorShift x s)
  rw [heq, xorShift_inj (by omega) hh]

end

/-! ### Hashes of four bytes -/

theorem mixWord_inj {w : Nat} {m minv k k' : BitVec w} {r : Nat} (hm : m * minv = 1#w) (hr : 0 < r)
    (h : mixWord m r k = mixWord m r k') : k = k' :=
  mul_right_inj_of_inv hm (xorShift_inj hr (mul_right_inj_of_inv hm h))

namespace murmur_hash

theorem m_mul_minv : m * minv = 1#32 := rfl

theorem minv_mul_m : minv * m = 1#32 := rfl

theorem final_inj {h h' : BitVec 32} (heq : final h = final h') : h = h' :=
  xorShift_inj (by decide) (mul_right_inj_of_inv m_mul_minv (xorShift_inj (by decide) heq))

/-- The hash of a key of one word. -/
def ofWord (seed k : BitVec 32) : BitVec 32 := final ((seed ^^^ 4) * m ^^^ mixWord m r k)

theorem ofWord_inj {seed k k' : BitVec 32} (h : ofWord seed k = ofWord seed k') : k = k' :=
  mixWord_inj m_mul_minv (Nat.succ_pos 23) ((BitVec.xor_right_inj _).mp (final_inj h))

end murmur_hash

open murmur_hash

theorem murmur_hash_word (k seed : BitVec 32) :
    murmur_hash (toBytes 4 k) 4 seed = .ok (ofWord seed k) := by
  have hlength : 4 ≤ (toBytes 4 k).length := Nat.le_of_eq (length_toBytes 4 k).symm
  have htake : (toBytes 4 k).take 4 = toBytes 4 k :=
    List.take_of_length_le (Nat.le_of_eq (length_toBytes 4 k))
  have hloop : loop (seed ^^^ 4) (toBytes 4 k) (4 : BitVec 32).toInt =
      .ok ((seed ^^^ 4) * m ^^^ mixWord m r k, (toBytes 4 k).drop 4, 0) := by
    rw [loop, if_pos (by decide), readWord, if_pos hlength, htake, ofBytes_toBytes (by decide),
      Outcome.ok_bind, loop, if_neg (by decide)]
    rfl
  rw [murmur_hash, hloop]
  rfl

/-- `murmur_hash_inverse` undoes the steps of the hash, the last one first. -/
theorem murmur_hash_inverse_spec (h seed : BitVec 32) :
    ∃ k, murmur_hash_inverse h seed = .ok k ∧ ofWord seed k = h := by
  obtain ⟨h15, heq15, hinv15⟩ := invert_shift_xor_spec (s := 15) (by decide) (by decide) h
  obtain ⟨h13, heq13, hinv13⟩ :=
    invert_shift_xor_spec (s := 13) (by decide) (by decide) (h15 * minv)
  refine ⟨xorShift (((seed ^^^ 4) * m ^^^ h13) * minv) r * minv, ?_, ?_⟩
  · rw [murmur_hash_inverse, heq15, Outcome.ok_bind]
    simp only [heq13, Outcome.ok_bind, Outcome.pure_eq_ok]
  · rw [ofWord, mixWord, mul_mul_of_inv minv_mul_m, xorShift_xorShift (by decide),
      mul_mul_of_inv minv_mul_m, ← BitVec.xor_assoc, BitVec.xor_self, BitVec.zero_xor, final,
      hinv13, mul_mul_of_inv minv_mul_m, hinv15]

/-- **`murmur_hash_inverse` inverts `murmur_hash`** on keys of four bytes, from either side, so that
for each seed the hash is a bijection. The first of the statements is about the step that it rests
on. -/
theorem murmur_hash_inverse_inverts :
    (∀ (x : BitVec 32) (s : Nat), 8 ≤ s → s ≤ 16 → invert_shift_xor (x ^^^ (x >>> s)) s = .ok x) ∧
    ∀ seed : BitVec 32,
      (∀ k, (murmur_hash (toBytes 4 k) 4 seed >>= fun h => murmur_hash_inverse h seed) = .ok k) ∧
      (∀ h, (murmur_hash_inverse h seed >>= fun k => murmur_hash (toBytes 4 k) 4 seed) = .ok h) ∧
      ∃ hash : BitVec 32 → BitVec 32, Function.Bijective hash ∧
        ∀ k, murmur_hash (toBytes 4 k) 4 seed = .ok (hash k) := by
  refine ⟨fun x s hs8 hs16 => invert_shift_xor_xorShift hs8 hs16 x, fun seed => ⟨?_, ?_, ?_⟩⟩
  · intro k
    obtain ⟨k', heq, hk'⟩ := murmur_hash_inverse_spec (ofWord seed k) seed
    rw [murmur_hash_word, Outcome.ok_bind, heq, ofWord_inj hk']
  · intro h
    obtain ⟨k, heq, hk⟩ := murmur_hash_inverse_spec h seed
    rw [heq, Outcome.ok_bind, murmur_hash_word, hk]
  · refine ⟨ofWord seed, ⟨fun _ _ => ofWord_inj, fun h => ?_⟩, fun k => murmur_hash_word k seed⟩
    obtain ⟨k, -, hk⟩ := murmur_hash_inverse_spec h seed
    exact ⟨k, hk⟩

theorem murmur_hash_inverse_inverts_twelve :
    invert_shift_xor (0x12345678 ^^^ (0x12345678 >>> 12)) 12 = .ok 0x12345678 ∧
      (murmur_hash (toBytes 4 (7 : BitVec 32)) 4 0 >>= fun h => murmur_hash_inverse h 0) = .ok 7 :=
  ⟨murmur_hash_inverse_inverts.1 0x12345678 12 (by decide) (by decide),
    (murmur_hash_inverse_inverts.2 0).1 7⟩

end MUtils
