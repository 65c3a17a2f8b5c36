import MUtils.Verify.RectIntersection

/-!
# Moving and scaling rectangles

`Adjusted` and `Moved` take the points of a rectangle along. The product with a vector multiplies
one corner by one of its components and the other corner by the other, so that in general it scales
a rectangle only if the components are equal (`transforms_contain_iff`).
-/

namespace MUtils.NRect
open Set

variable {K : Type} [Field K] [LinearOrder K] [IsStrictOrderedRing K] {r : NRect K} {s : NVec2 K}

theorem adjusted_contains (r : NRect K) (d p : NVec2 K) :
    (r.Adjusted d).Contains (p + d) ↔ r.Contains p := by
  simp only [Contains, Adjusted, Adjust, NVec2.add_def, gt_iff_lt, add_le_add_iff_right,
    add_lt_add_iff_right]

omit [LinearOrder K] [IsStrictOrderedRing K] in
theorem moved_eq (r : NRect K) (q : NVec2 K) : r.Moved q = r.Adjusted (q - r.topLeftPx) := by
  simp only [Moved, Move, Adjusted, Adjust, Width, Height, NVec2.sub_def, mk.injEq,
    NVec2.mk.injEq]
  refine ⟨⟨?_, ?_⟩, ?_, ?_⟩ <;> ring

theorem moved_contains (r : NRect K) (q p : NVec2 K) :
    (r.Moved q).Contains (p - r.topLeftPx + q) ↔ r.Contains p := by
  have hshift : p - r.topLeftPx + q = p + (q - r.topLeftPx) := by
    simp only [NVec2.add_def, NVec2.sub_def, NVec2.mk.injEq]
    constructor <;> ring
  rw [moved_eq, hshift, adjusted_contains]

omit [IsStrictOrderedRing K] in
theorem points_mul : (r * s).points =
    Ico (r.Left * s.x) (r.Right * s.y) ×ˢ Ico (r.Top * s.x) (r.Bottom * s.y) := rfl

/-- The points whose images are in the product. -/
theorem scaled_contains (hx : 0 < s.x) (hy : 0 < s.y) (p : NVec2 K) :
    (r * s).Contains ⟨p.x * s.x, p.y * s.y⟩ ↔
      (p.x, p.y) ∈ Ico r.Left (r.Right * s.y / s.x) ×ˢ Ico (r.Top * s.x / s.y) r.Bottom := by
  rw [contains_iff, points_mul]
  simp only [mem_prod, mem_Ico, lt_div_iff₀ hx, div_le_iff₀ hy, mul_le_mul_iff_left₀ hx,
    mul_lt_mul_iff_left₀ hy]

/-- The images are in the product for the points of the rectangle only, if the moved edges are where
they were or there are no points at all. -/
theorem scaled_contains_iff (hr : r.Normalized) (hx : 0 < s.x) (hy : 0 < s.y) :
    (∀ p : NVec2 K, (r * s).Contains ⟨p.x * s.x, p.y * s.y⟩ ↔ r.Contains p) ↔
      s.x = s.y ∨ (r.Right = 0 ∧ r.Top = 0) ∨
        (r.Empty ∧ (r.Right * s.y ≤ r.Left * s.x ∨ r.Bottom * s.y ≤ r.Top * s.x)) := by
  have hright : r.Right * s.y / s.x = r.Right ↔ s.x = s.y ∨ r.Right = 0 := by
    rw [div_eq_iff hx.ne', mul_eq_mul_left_iff, eq_comm]
  have htop : r.Top * s.x / s.y = r.Top ↔ s.x = s.y ∨ r.Top = 0 := by
    rw [div_eq_iff hy.ne', mul_eq_mul_left_iff]
  have hempty : r.points = ∅ ↔ r.Right ≤ r.Left ∨ r.Bottom ≤ r.Top := by
    rw [points, prod_eq_empty_iff, Ico_eq_empty_iff, Ico_eq_empty_iff, not_lt, not_lt]
  simp only [scaled_contains hx hy, contains_iff (r := r)]
  rw [forall_points_iff, points, Ico_prod_eq_iff, hright, htop, div_le_iff₀ hx, le_div_iff₀ hy,
    ← hempty, ← empty_iff hr]
  simp only [true_and, and_true, ← or_and_left, or_assoc, and_comm (b := r.Empty)]

/-- **Containment goes along with moving a rectangle, but with scaling it** just if the factors are
equal, or the edges that get the wrong factor are at zero, or the rectangle is empty and its edges,
each with the factor that it gets, leave no room between them. -/
theorem transforms_contain_iff (hr : r.Normalized) (hx : 0 < s.x) (hy : 0 < s.y) :
    (∀ d p, (r.Adjusted d).Contains (p + d) ↔ r.Contains p) ∧
      (∀ d p : NVec2 K, (r + d).Contains (p + d) ↔ r.Contains p) ∧
      (∀ q p, (r.Moved q).Contains (p - r.topLeftPx + q) ↔ r.Contains p) ∧
      ((∀ p : NVec2 K, (r * s).Contains ⟨p.x * s.x, p.y * s.y⟩ ↔ r.Contains p) ↔
        s.x = s.y ∨ (r.Right = 0 ∧ r.Top = 0) ∨
          (r.Empty ∧ (r.Right * s.y ≤ r.Left * s.x ∨ r.Bottom * s.y ≤ r.Top * s.x))) :=
  ⟨adjusted_contains r, adjusted_contains r, moved_contains r, scaled_contains_iff hr hx hy⟩

/-- A rectangle away from the origin, scaled evenly. -/
theorem transforms_contain_iff_even : ∃ p : NVec2 ℚ,
    ((⟨⟨1, 2⟩, ⟨3, 4⟩⟩ : NRect ℚ) * (⟨2, 2⟩ : NVec2 ℚ)).Contains ⟨p.x * 2, p.y * 2⟩ := by
  have hr : Normalized (⟨⟨1, 2⟩, ⟨3, 4⟩⟩ : NRect ℚ) := ⟨by decide, by decide⟩
  have hiff :=
    (transforms_contain_iff (s := ⟨2, 2⟩) hr (by decide) (by decide)).2.2.2.mpr (.inl rfl)
  exact ⟨⟨2, 3⟩, (hiff ⟨2, 3⟩).mpr (by decide)⟩

/-- With the factors 1 and 2, a point outside of the rectangle goes to one in the product. -/
theorem scaled_not_contains :
    ¬(⟨⟨1, 2⟩, ⟨3, 4⟩⟩ : NRect ℚ).Contains ⟨4, 3⟩ ∧
      ((⟨⟨1, 2⟩, ⟨3, 4⟩⟩ : NRect ℚ) * (⟨1, 2⟩ : NVec2 ℚ)).Contains ⟨4 * 1, 3 * 2⟩ := by
  rw [contains_iff, contains_iff, points_mul]
  norm_num [points, Left, Right, Top, Bottom, TopRight]

end MUtils.NRect
