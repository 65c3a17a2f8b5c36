import Mathlib

/-!
# Boxes in the plane

A box is a product of two intervals, closed or half-open. Two boxes are the same set just if they
have the same corners or neither has a point. A half-open interval is cut down to another one by
moving both of its ends to the nearest point of the closed interval (`clampTo`).
-/

namespace MUtils
open Set

/-! ### Equal boxes -/

/-- Products of sets that are told apart by `p` and `q` if they have a point. -/
theorem prod_eq_iff {α : Type} {s s' t t' : Set α} {p q : Prop} (hs : s.Nonempty → s = s' → p)
    (ht : t.Nonempty → t = t' → q) (hp : p → s = s') (hq : q → t = t') :
    s ×ˢ t = s' ×ˢ t' ↔ (p ∧ q) ∨ (s ×ˢ t = ∅ ∧ s' ×ˢ t' = ∅) := by
  constructor
  · intro heq
    rcases (s ×ˢ t).eq_empty_or_nonempty with hempty | hne
    · exact .inr ⟨hempty, heq.symm.trans hempty⟩
    · obtain ⟨hss', htt'⟩ := (prod_eq_prod_iff_of_nonempty hne).mp heq
      exact .inl ⟨hs hne.fst hss', ht hne.snd htt'⟩
  · rintro (⟨h, h'⟩ | ⟨hempty, hempty'⟩)
    · rw [hp h, hq h']
    · rw [hempty, hempty']

variable {α : Type} [LinearOrder α] {a a' b b' c c' d d' l r : α}

theorem Ico_eq_Ico_iff (h : a < b) : Ico a b = Ico a' b' ↔ a = a' ∧ b = b' := by
  constructor
  · intro heq
    have h' : a' < b' := nonempty_Ico.mp (heq ▸ nonempty_Ico.mpr h)
    obtain ⟨ha', hb'⟩ := (Ico_subset_Ico_iff h).mp heq.subset
    obtain ⟨ha, hb⟩ := (Ico_subset_Ico_iff h').mp heq.superset
    exact ⟨le_antisymm ha ha', le_antisymm hb' hb⟩
  · rintro ⟨rfl, rfl⟩
    rfl

theorem Ico_prod_eq_iff : Ico a b ×ˢ Ico c d = Ico a' b' ×ˢ Ico c' d' ↔
    ((a = a' ∧ b = b') ∧ c = c' ∧ d = d') ∨ (b ≤ a ∨ d ≤ c) ∧ (b' ≤ a' ∨ d' ≤ c') := by
  have hempty {a b c d : α} : Ico a b ×ˢ Ico c d = ∅ ↔ b ≤ a ∨ d ≤ c := by
    simp only [prod_eq_empty_iff, Ico_eq_empty_iff, not_lt]
  rw [← hempty, ← hempty]
  apply prod_eq_iff
  · exact fun h => (Ico_eq_Ico_iff (nonempty_Ico.mp h)).mp
  · exact fun h => (Ico_eq_Ico_iff (nonempty_Ico.mp h)).mp
  · exact fun h => congrArg₂ Ico h.1 h.2
  · exact fun h => congrArg₂ Ico h.1 h.2

theorem Icc_prod_eq_iff : Icc a b ×ˢ Icc c d = Icc a' b' ×ˢ Icc c' d' ↔
    ((a = a' ∧ b = b') ∧ c = c' ∧ d = d') ∨ (b < a ∨ d < c) ∧ (b' < a' ∨ d' < c') := by
  have hempty {a b c d : α} : Icc a b ×ˢ Icc c d = ∅ ↔ b < a ∨ d < c := by
    simp only [prod_eq_empty_iff, Icc_eq_empty_iff, not_le]
  rw [← hempty, ← hempty]
  apply prod_eq_iff
  · exact fun h => (Icc_eq_Icc_iff (nonempty_Icc.mp h)).mp
  · exact fun h => (Icc_eq_Icc_iff (nonempty_Icc.mp h)).mp
  · exact fun h => congrArg₂ Icc h.1 h.2
  · exact fun h => congrArg₂ Icc h.1 h.2

/-! ### Clamping -/

/-- The point of the interval from `l` to `r` that is nearest to `a`. -/
def clampTo (l r a : α) : α := max l (min a r)

theorem clampTo_le_right (h : l ≤ r) : clampTo l r a ≤ r := max_le h (min_le_right a r)

theorem clampTo_of_le (h : l ≤ r) (ha : a ≤ l) : clampTo l r a = l := by
  rw [clampTo, min_eq_left (ha.trans h), max_eq_left ha]

theorem clampTo_of_ge (h : l ≤ r) (ha : r ≤ a) : clampTo l r a = r := by
  rw [clampTo, min_eq_right ha, max_eq_right h]

theorem clampTo_of_mem (hl : l ≤ a) (hr : a ≤ r) : clampTo l r a = a := by
  rw [clampTo, min_eq_left hr, max_eq_right hl]

end MUtils
