import MUtils.Math.MathUtils
import MUtils.Theory.Words

/-!
# Alignment

For powers of two, masking the low bits is rounding to a multiple: `AlignUp` is what
`DivideByMultiple` is for every alignment (`align_agrees`).
-/

namespace MUtils

/-! ### Rounding -/

section
variable {b n m : Nat}

theorem isGreatest_round_down (hb : 0 < b) (n : Nat) :
    IsGreatest {m | b ∣ m ∧ m ≤ n} (n / b * b) := by
  refine ⟨⟨Nat.dvd_mul_left b _, Nat.div_mul_le_self n b⟩, ?_⟩
  rintro _ ⟨⟨q, rfl⟩, hle⟩
  rw [Nat.mul_comm b q] at hle ⊢
  exact Nat.mul_le_mul_right b ((Nat.le_div_iff_mul_le hb).mpr hle)

theorem isLeast_round_up (hb : 0 < b) (n : Nat) :
    IsLeast {m | b ∣ m ∧ n ≤ m} ((n + b - 1) / b * b) := by
  rw [← Nat.ceilDiv_eq_add_pred_div]
  refine ⟨⟨Nat.dvd_mul_left b _, ?_⟩, ?_⟩
  · rw [Nat.mul_comm]
    exact (ceilDiv_le_iff_le_mul hb).mp le_rfl
  · rintro _ ⟨⟨q, rfl⟩, hle⟩
    rw [Nat.mul_comm b q]
    exact Nat.mul_le_mul_right b ((ceilDiv_le_iff_le_mul hb).mpr hle)

/-- What is rounded up to itself. -/
theorem dvd_iff_of_isLeast (h : IsLeast {m | b ∣ m ∧ n ≤ m} m) : b ∣ n ↔ m = n := by
  constructor
  · intro hdvd
    exact le_antisymm (h.2 ⟨hdvd, le_rfl⟩) h.1.2
  · rintro rfl
    exact h.1.1

/-- What is rounded down to itself. -/
theorem dvd_iff_of_isGreatest (h : IsGreatest {m | b ∣ m ∧ m ≤ n} m) : b ∣ n ↔ m = n := by
  constructor
  · intro hdvd
    exact le_antisymm h.1.2 (h.2 ⟨hdvd, le_rfl⟩)
  · rintro rfl
    exact h.1.1

end

/-! ### Words -/

variable {v a : BitVec 64} {k : Nat}

theorem toNat_alignDown (ha : a.toNat = 2 ^ k) :
    (AlignDown v a).toNat = v.toNat / 2 ^ k * 2 ^ k := by
  rw [AlignDown, AlignDownWithMask, BitVec.setWidth_eq, BitVec.setWidth_eq,
    toNat_and_not_sub_one ha]

/-- The value that is rounded down when it is to be rounded up. -/
theorem toNat_add_sub_one (ha : a.toNat = 2 ^ k) (hv : v.toNat + a.toNat - 1 < 2 ^ 64) :
    (v + (a - 1)).toNat = v.toNat + 2 ^ k - 1 := by
  have hpos : 1 ≤ 2 ^ k := Nat.one_le_two_pow
  have hsub := toNat_sub_one ha
  rw [BitVec.toNat_add_of_lt (by omega)]
  omega

theorem toNat_alignUp (ha : a.toNat = 2 ^ k) (hv : v.toNat + a.toNat - 1 < 2 ^ 64) :
    (AlignUp v a).toNat = (v.toNat + 2 ^ k - 1) / 2 ^ k * 2 ^ k := by
  rw [AlignUp, AlignUpWithMask, BitVec.setWidth_eq, BitVec.setWidth_eq, toNat_and_not_sub_one ha,
    toNat_add_sub_one ha hv]

theorem isAligned_iff (ha : a.toNat = 2 ^ k) : IsAligned v a ↔ 2 ^ k ∣ v.toNat := by
  rw [IsAligned, BitVec.setWidth_eq, eq_comm, ← BitVec.toNat_inj, toNat_and_sub_one ha,
    Nat.dvd_iff_mod_eq_zero]
  rfl

theorem toNat_divideByMultiple (ha : a.toNat = 2 ^ k) (hv : v.toNat + a.toNat - 1 < 2 ^ 64) :
    (DivideByMultiple v a).toNat = (v.toNat + 2 ^ k - 1) / 2 ^ k := by
  have hassoc : v + a - 1 = v + (a - 1) := add_sub_assoc v a 1
  rw [DivideByMultiple, BitVec.setWidth_eq, BitVec.setWidth_eq, hassoc, BitVec.toNat_udiv,
    toNat_add_sub_one ha hv, ha]

/-- **Alignment by masks is alignment by division.** -/
theorem align_agrees (ha : a.toNat = 2 ^ k) (hv : v.toNat + a.toNat - 1 < 2 ^ 64) :
    IsLeast {m | a.toNat ∣ m ∧ v.toNat ≤ m} (AlignUp v a).toNat ∧
      IsGreatest {m | a.toNat ∣ m ∧ m ≤ v.toNat} (AlignDown v a).toNat ∧
      (IsAligned v a ↔ AlignUp v a = v) ∧ (IsAligned v a ↔ AlignDown v a = v) ∧
      AlignUp v a = DivideByMultiple v a * a := by
  have hpos : 0 < 2 ^ k := Nat.two_pow_pos k
  have hup := isLeast_round_up hpos v.toNat
  have hdown := isGreatest_round_down hpos v.toNat
  rw [← toNat_alignUp ha hv] at hup
  rw [← toNat_alignDown ha] at hdown
  rw [isAligned_iff ha, ← BitVec.toNat_inj, ← BitVec.toNat_inj (x := AlignDown v a), ha]
  refine ⟨hup, hdown, dvd_iff_of_isLeast hup, dvd_iff_of_isGreatest hdown, ?_⟩
  apply BitVec.eq_of_toNat_eq
  rw [BitVec.toNat_mul, toNat_divideByMultiple ha hv, ha, ← toNat_alignUp ha hv,
    Nat.mod_eq_of_lt (AlignUp v a).isLt]

/-- The last word that can be aligned to 16. -/
theorem align_agrees_last :
    AlignUp (0xFFFFFFFFFFFFFFF0#64) 16 = 0xFFFFFFFFFFFFFFF0#64 ∧
      AlignUp (0xFFFFFFFFFFFFFFF0#64) 16 = DivideByMultiple (0xFFFFFFFFFFFFFFF0#64) 16 * 16 :=
  ⟨by decide, (align_agrees (k := 4) rfl (by decide)).2.2.2.2⟩

end MUtils
