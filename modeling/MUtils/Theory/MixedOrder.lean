import Mathlib

/-!
# Comparisons that switch their key

A comparison that looks at a rank for two elements of the same class, and at a key that no two
elements share for any other two. Each of the two is a fine order, but the laws of a strict weak
order are about three elements, which can mix them: the comparison is a strict weak order exactly
when no element of another class has its key between the keys of two elements of one class whose
ranks stand the other way (`isStrictWeakOrder_iff`).
-/

namespace MUtils.MixedOrder

variable {α ρ κ : Type} [LinearOrder ρ] [LinearOrder κ]
variable {same : α → α → Prop} {rank : α → ρ} {key : α → κ} {a b c : α}

/-- Two elements of the same class are compared by rank, others by key. -/
def Less (same : α → α → Prop) (rank : α → ρ) (key : α → κ) (a b : α) : Prop :=
  same a b ∧ rank a < rank b ∨ ¬same a b ∧ key a < key b

theorem less_of_same (h : same a b) : Less same rank key a b ↔ rank a < rank b := by
  simp [Less, h]

theorem less_of_not_same (h : ¬same a b) : Less same rank key a b ↔ key a < key b := by
  simp [Less, h]

/-- An element with its key between those of two elements of another class finds these in the order
of their ranks. -/
def Unmixed (same : α → α → Prop) (rank : α → ρ) (key : α → κ) : Prop :=
  ∀ a b c, same a b → ¬same a c → key a < key c → key c < key b → rank a < rank b

theorem not_less_self : ¬Less same rank key a a := by
  rintro (⟨-, h⟩ | ⟨-, h⟩)
  · exact lt_irrefl _ h
  · exact lt_irrefl _ h

section
variable (hsymm : ∀ a b, same a b → same b a) (htrans : ∀ a b c, same a b → same b c → same a c)
  (hkey : key.Injective)

include hkey in
theorem key_lt_of_not_lt (hne : a ≠ b) (h : ¬key a < key b) : key b < key a :=
  lt_of_le_of_ne (not_lt.1 h) fun heq => hne (hkey heq.symm)

include hsymm hkey in
/-- Elements are incomparable if they are equal, or of one class and of the same rank. -/
theorem incomp_iff : ¬Less same rank key a b ∧ ¬Less same rank key b a ↔
    a = b ∨ same a b ∧ rank a = rank b := by
  by_cases hab : same a b
  · rw [less_of_same hab, less_of_same (hsymm a b hab), not_lt, not_lt]
    constructor
    · rintro ⟨hle, hge⟩
      exact .inr ⟨hab, le_antisymm hge hle⟩
    · rintro (rfl | ⟨-, heq⟩)
      · exact ⟨le_rfl, le_rfl⟩
      · exact ⟨heq.ge, heq.le⟩
  · rw [less_of_not_same hab, less_of_not_same (mt (hsymm b a) hab), not_lt, not_lt]
    constructor
    · rintro ⟨hle, hge⟩
      exact .inl (hkey (le_antisymm hge hle))
    · rintro (rfl | ⟨h, -⟩)
      · exact ⟨le_rfl, le_rfl⟩
      · exact absurd h hab

include hsymm htrans hkey

theorem less_trans (hmix : Unmixed same rank key) (hab : Less same rank key a b)
    (hbc : Less same rank key b c) : Less same rank key a c := by
  rcases hab with ⟨sab, hab⟩ | ⟨sab, hab⟩ <;> rcases hbc with ⟨sbc, hbc⟩ | ⟨sbc, hbc⟩
  · exact .inl ⟨htrans a b c sab sbc, hab.trans hbc⟩
  · -- `c` is outside of the class of `a` and `b`: were its key below that of `a`, then `b` would
    -- have the lower rank
    have sac : ¬same a c := fun h => sbc (htrans b a c (hsymm a b sab) h)
    rw [less_of_not_same sac]
    by_contra hac
    have hca : key c < key a := by
      apply key_lt_of_not_lt hkey _ hac
      rintro rfl
      exact sbc (hsymm a b sab)
    exact lt_asymm hab (hmix b a c (hsymm a b sab) sbc hbc hca)
  · have sac : ¬same a c := fun h => sab (htrans a c b h (hsymm b c sbc))
    rw [less_of_not_same sac]
    by_contra hac
    have hca : key c < key a := by
      apply key_lt_of_not_lt hkey _ hac
      rintro rfl
      exact sab (hsymm b a sbc)
    exact lt_asymm hbc (hmix c b a (hsymm b c sbc) (mt (hsymm c a) sac) hca hab)
  · -- here `b` stands between `a` and `c`, which may be of one class
    by_cases sac : same a c
    · exact .inl ⟨sac, hmix a c b sac sab hab hbc⟩
    · exact .inr ⟨sac, hab.trans hbc⟩

theorem isStrictWeakOrder_iff :
    IsStrictWeakOrder α (Less same rank key) ↔ Unmixed same rank key := by
  constructor
  · intro order a b c sab sac hac hcb
    have scb : ¬same c b := fun h => sac (htrans a b c sab (hsymm c b h))
    have hab : Less same rank key a b := order.trans a c b
      ((less_of_not_same sac).2 hac) ((less_of_not_same scb).2 hcb)
    exact (less_of_same sab).1 hab
  · intro hmix
    refine { irrefl := fun _ => not_less_self, trans := fun a b c => ?_, incomp_trans := ?_ }
    · exact less_trans hsymm htrans hkey hmix
    · intro a b c hab hbc
      rw [incomp_iff hsymm hkey] at hab hbc ⊢
      rcases hab with rfl | ⟨sab, hab⟩
      · exact hbc
      · rcases hbc with rfl | ⟨sbc, hbc⟩
        · exact .inr ⟨sab, hab⟩
        · exact .inr ⟨htrans a b c sab sbc, hab.trans hbc⟩

end

end MUtils.MixedOrder
