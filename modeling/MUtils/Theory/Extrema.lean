import Mathlib

/-!
# Least and greatest elements of lists

What a running minimum or maximum comes to, and when the value it starts from does not matter. The
facts on maxima are those on minima in the opposite order.
-/

namespace MUtils

variable {α : Type} [LinearOrder α] {a b m : α} {l : List α}

theorem isLeast_cons_min (h : IsLeast {x | x ∈ min a b :: l} m) :
    IsLeast {x | x ∈ b :: a :: l} m := by
  obtain ⟨hmem, hle⟩ := h
  have hmin : m ≤ min a b := hle List.mem_cons_self
  constructor
  · rcases List.mem_cons.mp hmem with rfl | hmem
    · rcases min_choice a b with h | h <;> simp [h]
    · exact List.mem_cons_of_mem _ (List.mem_cons_of_mem _ hmem)
  · intro x hx
    rcases List.mem_cons.mp hx with rfl | hx
    · exact hmin.trans (min_le_right a x)
    rcases List.mem_cons.mp hx with rfl | hx
    · exact hmin.trans (min_le_left x b)
    · exact hle (List.mem_cons_of_mem _ hx)

theorem isGreatest_cons_max (h : IsGreatest {x | x ∈ max a b :: l} m) :
    IsGreatest {x | x ∈ b :: a :: l} m :=
  isLeast_cons_min (α := αᵒᵈ) h

/-- A greater element next to the first does not matter. -/
theorem isLeast_cons_cons (hab : a ≤ b) (h : IsLeast {x | x ∈ a :: l} m) :
    IsLeast {x | x ∈ b :: a :: l} m := by
  apply isLeast_cons_min
  rwa [min_eq_left hab]

theorem isGreatest_cons_cons (hab : b ≤ a) (h : IsGreatest {x | x ∈ a :: l} m) :
    IsGreatest {x | x ∈ b :: a :: l} m :=
  isLeast_cons_cons (α := αᵒᵈ) hab h

theorem isLeast_foldl_min (a : α) (l : List α) : IsLeast {x | x ∈ a :: l} (l.foldl min a) := by
  induction l generalizing a with
  | nil => simp
  | cons b l ih =>
    rw [List.foldl_cons, min_comm a b]
    exact isLeast_cons_min (ih _)

/-- The start value does not matter just if some element is not above it. -/
theorem isLeast_foldl_min_iff : IsLeast {x | x ∈ l} (l.foldl min a) ↔ ∃ x ∈ l, x ≤ a := by
  obtain ⟨hmem, hle⟩ := isLeast_foldl_min a l
  constructor
  · intro h
    exact ⟨_, h.1, hle List.mem_cons_self⟩
  · rintro ⟨x, hx, hxa⟩
    refine ⟨?_, fun y hy => hle (List.mem_cons_of_mem a hy)⟩
    rcases List.mem_cons.mp hmem with heq | hmem
    · have hax := hle (List.mem_cons_of_mem a hx)
      rw [heq] at hax ⊢
      obtain rfl := le_antisymm hax hxa
      exact hx
    · exact hmem

theorem isGreatest_foldl_max_iff : IsGreatest {x | x ∈ l} (l.foldl max a) ↔ ∃ x ∈ l, a ≤ x :=
  isLeast_foldl_min_iff (α := αᵒᵈ)

end MUtils
