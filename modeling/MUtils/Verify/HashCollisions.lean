import MUtils.Theory.BlockHash
import MUtils.Verify.HashInverse

/-!
# Keys with different hashes

`murmur_hash` and `murmur_hash_64` are hashes over blocks, of four and of eight bytes: their loops
take the full blocks and the `switch` takes what is left. All of their steps can be undone, so that
they are hashes in the sense of `BlockHash`.
-/

namespace MUtils

section
variable {w : Nat} {m minv h h' : BitVec w}

theorem mixTail_eq (m : BitVec w) {data : List UInt8} {n : Nat} (hn : n ≤ data.length)
    (h : BitVec w) : mixTail m data n h = .ok ((h ^^^ ofBytes w (data.take n)) * m) := by
  induction n generalizing h with
  | zero => rw [mixTail, List.take_zero, ofBytes, BitVec.xor_zero]
  | succ n ih =>
    have hlt : n < data.length := hn
    rw [mixTail, List.getElem?_eq_getElem hlt, List.take_succ_eq_append_getElem hlt, ofBytes_concat,
      List.length_take, Nat.min_eq_left (Nat.le_of_lt hlt), ← BitVec.xor_assoc]
    exact ih (Nat.le_of_lt hlt) _

/-- The `switch`, which does nothing when no bytes are left. -/
def takeTail (m : BitVec w) (h : BitVec w) (data : List UInt8) : BitVec w :=
  if data.length = 0 then h else (h ^^^ ofBytes w data) * m

/-- The `switch` and what the functions do after it. -/
theorem switch_eq (m : BitVec w) (final : BitVec w → BitVec w) (h : BitVec w) {data : List UInt8}
    {n : Nat} (hn : data.length = n) :
    (if 0 < n then mixTail m data n h >>= fun h => pure (final h) else pure h >>= fun h =>
      pure (final h)) = .ok (final (takeTail m h data)) := by
  subst hn
  rcases Nat.eq_zero_or_pos data.length with hempty | hpos
  · rw [takeTail, if_pos hempty, if_neg (Nat.not_lt.mpr (Nat.le_of_eq hempty))]
    rfl
  · rw [takeTail, if_neg (Nat.ne_of_gt hpos), if_pos hpos, mixTail_eq m (Nat.le_refl _),
      List.take_length]
    rfl

theorem takeTail_inj (hm : m * minv = 1#w) {data : List UInt8}
    (heq : takeTail m h data = takeTail m h' data) : h = h' := by
  unfold takeTail at heq
  split at heq
  · exact heq
  · exact (BitVec.xor_left_inj _).mp (mul_right_inj_of_inv hm heq)

theorem takeTail_inj_block (hm : m * minv = 1#w) {data data' : List UInt8}
    (hw : 8 * data.length ≤ w) (hlength : data.length = data'.length)
    (heq : takeTail m h data = takeTail m h data') : data = data' := by
  unfold takeTail at heq
  rw [← hlength] at heq
  split at heq
  · next hempty =>
    have hempty' := hlength.symm.trans hempty
    rw [List.eq_nil_of_length_eq_zero hempty, List.eq_nil_of_length_eq_zero hempty']
  · have hword := (BitVec.xor_right_inj _).mp (mul_right_inj_of_inv hm heq)
    exact ofBytes_inj hlength hw hword

theorem readWord_eq {n : Nat} {data : List UInt8} (hn : n ≤ data.length) :
    readWord w n data = .ok (ofBytes w (data.take n)) :=
  if_pos hn

end

/-! ### Four bytes -/

namespace murmur_hash

def blocks (seed : BitVec 32) : BlockHash UInt8 (BitVec 32) (BitVec 32) where
  n := 4
  n_pos := by decide
  init len := seed ^^^ BitVec.ofNat 32 len
  step h b := h * m ^^^ mixWord m r (ofBytes 32 b)
  finish h data := final (takeTail m h data)
  step_inj _ _ _ heq := mul_right_inj_of_inv m_mul_minv ((BitVec.xor_left_inj _).mp heq)
  step_inj_block _ b b' hb hb' heq := by
    have hword := mixWord_inj m_mul_minv (by decide) ((BitVec.xor_right_inj _).mp heq)
    exact ofBytes_inj (hb.trans hb'.symm) (by omega) hword
  finish_inj _ _ _ heq := takeTail_inj m_mul_minv (final_inj heq)
  finish_inj_block _ _ _ hlt hlength heq :=
    takeTail_inj_block m_mul_minv (by omega) hlength (final_inj heq)

theorem loop_eq (seed : BitVec 32) (data : List UInt8) (h : BitVec 32) :
    loop h data data.length =
      .ok ((blocks seed).absorb h data, block 4 data (data.length / 4),
        (data.length % 4 : Nat)) := by
  induction hl : data.length using Nat.strongRecOn generalizing data h with
  | ind len ih =>
    subst hl
    rw [loop]
    rcases Nat.lt_or_ge data.length 4 with hlt | hge
    · rw [if_neg (by omega), (blocks seed).absorb_short hlt, Nat.div_eq_of_lt hlt, block_zero,
        List.take_of_length_le (Nat.le_of_lt hlt), Nat.mod_eq_of_lt hlt]
      rfl
    · have hrest := ih (data.length - 4) (by omega) (data.drop 4)
        (h * m ^^^ mixWord m r (ofBytes 32 (data.take 4))) List.length_drop
      rw [block_drop, ← Nat.div_eq_sub_div (by decide) hge, ← Nat.mod_eq_sub_mod hge,
        Nat.cast_sub hge] at hrest
      rw [if_pos (by omega), readWord_eq hge, Outcome.ok_bind, (blocks seed).absorb_long hge]
      exact hrest

end murmur_hash

open murmur_hash in
theorem murmur_hash_eq {key : List UInt8} (hint : key.length < 2 ^ 31) (seed : BitVec 32) :
    murmur_hash key (.ofNat 32 key.length) seed = .ok ((blocks seed).hash key) := by
  have hlen : (BitVec.ofNat 32 key.length).toInt = key.length := by
    rw [BitVec.toInt_eq_toNat_of_lt] <;> rw [BitVec.toNat_ofNat] <;> omega
  rw [murmur_hash, hlen, loop_eq seed, Outcome.ok_bind]
  simp only [Nat.cast_pos, Int.toNat_natCast]
  exact switch_eq m final _ (length_block_last (by decide) key)

/-! ### Eight bytes -/

namespace murmur_hash_64

def minv : BitVec 64 := 0x5f7a0ea7e59b19bd

theorem m_mul_minv : m * minv = 1#64 := rfl

theorem final_inj {h h' : BitVec 64} (heq : final h = final h') : h = h' :=
  xorShift_inj (by decide) (mul_right_inj_of_inv m_mul_minv (xorShift_inj (by decide) heq))

def blocks (seed : BitVec 64) : BlockHash UInt8 (BitVec 64) (BitVec 64) where
  n := 8
  n_pos := by decide
  init len := seed ^^^ (BitVec.ofNat 32 len).setWidth 64 * m
  step h b := (h ^^^ mixWord m r (ofBytes 64 b)) * m
  finish h data := final (takeTail m h data)
  step_inj _ _ _ heq := (BitVec.xor_left_inj _).mp (mul_right_inj_of_inv m_mul_minv heq)
  step_inj_block _ b b' hb hb' heq := by
    have hmixed := (BitVec.xor_right_inj _).mp (mul_right_inj_of_inv m_mul_minv heq)
    have hword := mixWord_inj m_mul_minv (by decide) hmixed
    exact ofBytes_inj (hb.trans hb'.symm) (by omega) hword
  finish_inj _ _ _ heq := takeTail_inj m_mul_minv (final_inj heq)
  finish_inj_block _ _ _ hlt hlength heq :=
    takeTail_inj_block m_mul_minv (by omega) hlength (final_inj heq)

theorem loop_eq (seed : BitVec 64) (data : List UInt8) (h : BitVec 64) :
    loop h data (data.length / 8) =
      .ok ((blocks seed).absorb h data, block 8 data (data.length / 8)) := by
  induction hn : data.length / 8 generalizing data h with
  | zero =>
    have hlt : data.length < 8 := by omega
    rw [loop, (blocks seed).absorb_short hlt, block_zero,
      List.take_of_length_le (Nat.le_of_lt hlt)]
  | succ n ih =>
    have hge : 8 ≤ data.length := by omega
    have hrest : (data.drop 8).length / 8 = n := by
      rw [List.length_drop]
      omega
    rw [loop, readWord_eq hge, Outcome.ok_bind, (blocks seed).absorb_long hge, ih _ _ hrest,
      block_drop]
    rfl

end murmur_hash_64

open murmur_hash_64 in
theorem murmur_hash_64_eq {key : List UInt8} (huint : key.length < 2 ^ 32) (seed : BitVec 64) :
    murmur_hash_64 key (.ofNat 32 key.length) seed = .ok ((blocks seed).hash key) := by
  have hlen : (BitVec.ofNat 32 key.length).toNat = key.length := by
    rw [BitVec.toNat_ofNat, Nat.mod_eq_of_lt huint]
  rw [murmur_hash_64, hlen, loop_eq seed, Outcome.ok_bind]
  exact switch_eq m final _ (length_block_last (by decide) key)

/-- **Changes within one block change the hash**: keys of the same length that differ, but only
within one aligned block or within the bytes after the last full one, have different hashes, for
every length that an `int`, or a `uint32_t`, can hold. -/
theorem murmur_hashes_ne {a b : List UInt8} {i : Nat} (hlength : a.length = b.length)
    (hne : a ≠ b) :
    (a.length < 2 ^ 31 → AgreeOutside 4 i a b → ∀ seed, ∃ ha hb,
      murmur_hash a (.ofNat 32 a.length) seed = .ok ha ∧
      murmur_hash b (.ofNat 32 b.length) seed = .ok hb ∧ ha ≠ hb) ∧
    (a.length < 2 ^ 32 → AgreeOutside 8 i a b → ∀ seed, ∃ ha hb,
      murmur_hash_64 a (.ofNat 32 a.length) seed = .ok ha ∧
      murmur_hash_64 b (.ofNat 32 b.length) seed = .ok hb ∧ ha ≠ hb) := by
  constructor
  · intro hint h seed
    have hhash := BlockHash.hash_ne (H := murmur_hash.blocks seed) hlength hne h
    exact ⟨_, _, murmur_hash_eq hint seed, murmur_hash_eq (hlength ▸ hint) seed, hhash⟩
  · intro huint h seed
    have hhash := BlockHash.hash_ne (H := murmur_hash_64.blocks seed) hlength hne h
    exact ⟨_, _, murmur_hash_64_eq huint seed, murmur_hash_64_eq (hlength ▸ huint) seed, hhash⟩

/-- A key of one block and a byte. -/
theorem murmur_hashes_ne_tail :
    (∃ ha hb, murmur_hash [1, 2, 3, 4, 5] 5 0 = .ok ha ∧ murmur_hash [1, 2, 3, 4, 6] 5 0 = .ok hb ∧
      ha ≠ hb) ∧
    ∃ ha hb, murmur_hash_64 [1, 2, 3, 4, 5] 5 0 = .ok ha ∧
      murmur_hash_64 [1, 2, 3, 4, 6] 5 0 = .ok hb ∧ ha ≠ hb := by
  have hagree : ∀ j, j ≠ 4 → ([1, 2, 3, 4, 5] : List UInt8)[j]? = [1, 2, 3, 4, 6][j]? := by
    intro j hj
    rcases Nat.lt_or_ge j 4 with hlt | hge
    · interval_cases j <;> rfl
    · rw [List.getElem?_eq_none (by simp; omega), List.getElem?_eq_none (by simp; omega)]
  have hne : ([1, 2, 3, 4, 5] : List UInt8) ≠ [1, 2, 3, 4, 6] := by decide
  constructor
  · exact (murmur_hashes_ne (i := 1) (by rfl) hne).1 (by decide) (fun j hj => hagree j (by omega)) 0
  · exact (murmur_hashes_ne (i := 0) (by rfl) hne).2 (by decide) (fun j hj => hagree j (by omega)) 0

end MUtils
