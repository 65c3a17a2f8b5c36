import MUtils.Math.MathUtils
import MUtils.Theory.Boxes

/-!
# Clipping rectangles

`NRect::Clamp` is the intersection: it moves both corners of a rectangle to the nearest points of
the other one (`clamp_inter`). `RectClip` is not: where it moves the position of a rectangle up it
leaves the size as it was, so that the far edge moves, too (`rectClip_inter_iff`).
-/

namespace MUtils
open Set

/-- Sets of points that are described by predicates. -/
theorem forall_points_iff {K : Type} {s t : Set (K × K)} :
    (∀ p : NVec2 K, (p.x, p.y) ∈ s ↔ (p.x, p.y) ∈ t) ↔ s = t := by
  rw [Set.ext_iff]
  exact ⟨fun h q => h ⟨q.1, q.2⟩, fun h p => h (p.x, p.y)⟩

variable {K : Type} [Field K] [LinearOrder K]

/-! ### `RectClip` -/

/-- A rectangle by position and size, which is not negative. -/
structure HasSize (rect : NVec4 K) : Prop where
  width : 0 ≤ rect.z
  height : 0 ≤ rect.w

/-- The points of a rectangle. -/
def rectPoints (rect : NVec4 K) : Set (K × K) :=
  Icc rect.x (rect.x + rect.z) ×ˢ Icc rect.y (rect.y + rect.w)

theorem rectContains_iff {rect : NVec4 K} {p : NVec2 K} :
    RectContains rect p ↔ (p.x, p.y) ∈ rectPoints rect := Iff.rfl

/-- The edges along one axis. -/
theorem clipAxis_edges (x z clipX clipZ : K) :
    (clipAxis x z clipX clipZ).1 = max x clipX ∧
      (clipAxis x z clipX clipZ).1 + (clipAxis x z clipX clipZ).2 =
        min (max x clipX + z) (clipX + clipZ) := by
  have hx : (if x < clipX then clipX else x) = max x clipX := by
    split
    · next h => rw [max_eq_right h.le]
    · next h => rw [max_eq_left (not_lt.mp h)]
  simp only [clipAxis, hx, true_and]
  split
  · next h =>
    rw [min_eq_right h.le]
    ring
  · next h => rw [min_eq_left (not_lt.mp h)]

theorem rectPoints_clip (rect clip : NVec4 K) : rectPoints (RectClip rect clip) =
    Icc (max rect.x clip.x) (min (max rect.x clip.x + rect.z) (clip.x + clip.z)) ×ˢ
      Icc (max rect.y clip.y) (min (max rect.y clip.y + rect.w) (clip.y + clip.w)) := by
  obtain ⟨hx, hright⟩ := clipAxis_edges rect.x rect.z clip.x clip.z
  obtain ⟨hy, hbottom⟩ := clipAxis_edges rect.y rect.w clip.y clip.w
  exact congrArg₂ (· ×ˢ ·) (congrArg₂ Icc hx hright) (congrArg₂ Icc hy hbottom)

variable [IsStrictOrderedRing K]

/-- The far edge is that of the intersection. -/
theorem clip_edge_iff {x z clipX clipZ : K} :
    min (max x clipX + z) (clipX + clipZ) = min (x + z) (clipX + clipZ) ↔
      clipX ≤ x ∨ clipX + clipZ ≤ x + z := by
  rcases le_or_gt clipX x with hx | hx
  · rw [max_eq_left hx]
    exact iff_of_true rfl (.inl hx)
  rw [max_eq_right hx.le, or_iff_right (not_le.mpr hx)]
  have hlt : x + z < clipX + z := by linarith
  constructor
  · intro heq
    by_contra hnot
    rw [min_eq_left (not_le.mp hnot).le] at heq
    rcases min_choice (clipX + z) (clipX + clipZ) with h | h
    · exact hlt.ne (heq.symm.trans h)
    · exact (not_le.mp hnot).ne (heq.symm.trans h)
  · intro hle
    rw [min_eq_right hle, min_eq_right (hle.trans hlt.le)]

/-- What is clipped along one axis has no point. -/
theorem clip_empty_iff {x z clipX clipZ : K} (hz : 0 ≤ z) (hclipZ : 0 ≤ clipZ) :
    min (max x clipX + z) (clipX + clipZ) < max x clipX ↔ clipX + clipZ < x := by
  rw [min_lt_iff, or_iff_right (not_lt.mpr (le_add_of_nonneg_right hz)), lt_max_iff,
    or_iff_left (not_lt.mpr (le_add_of_nonneg_right hclipZ))]

/-- **`RectClip` is the intersection** just if along each axis the near edge of the rectangle is
inside or the far edge is not, or if the rectangle lies beyond the clip along one of them. -/
theorem rectClip_inter_iff {rect clip : NVec4 K} (hrect : HasSize rect) (hclip : HasSize clip) :
    (∀ p, RectContains (RectClip rect clip) p ↔ RectContains rect p ∧ RectContains clip p) ↔
      ((clip.x ≤ rect.x ∨ clip.x + clip.z ≤ rect.x + rect.z) ∧
        (clip.y ≤ rect.y ∨ clip.y + clip.w ≤ rect.y + rect.w)) ∨
      clip.x + clip.z < rect.x ∨ clip.y + clip.w < rect.y := by
  simp only [rectContains_iff, ← mem_inter_iff]
  rw [forall_points_iff, rectPoints_clip, rectPoints, rectPoints, prod_inter_prod, Icc_inter_Icc,
    Icc_inter_Icc, Icc_prod_eq_iff]
  simp only [true_and, clip_edge_iff, clip_empty_iff hrect.width hclip.width,
    clip_empty_iff hrect.height hclip.height]
  apply or_congr_right
  apply and_iff_left_of_imp
  exact Or.imp (fun h => min_lt_of_right_lt (lt_max_of_lt_left h))
    fun h => min_lt_of_right_lt (lt_max_of_lt_left h)

/-- A clip inside the rectangle. -/
theorem rectClip_inter_iff_inside : HasSize (⟨3, 3, 5, 5⟩ : NVec4 ℚ) ∧
    ∀ p, RectContains (RectClip ⟨3, 3, 5, 5⟩ ⟨4, 4, 2, 2⟩) p ↔
      RectContains (⟨3, 3, 5, 5⟩ : NVec4 ℚ) p ∧ RectContains ⟨4, 4, 2, 2⟩ p := by
  have hrect : HasSize (⟨3, 3, 5, 5⟩ : NVec4 ℚ) := ⟨by decide, by decide⟩
  have hclip : HasSize (⟨4, 4, 2, 2⟩ : NVec4 ℚ) := ⟨by decide, by decide⟩
  refine ⟨hrect, (rectClip_inter_iff hrect hclip).mpr (.inl ⟨.inr ?_, .inr ?_⟩)⟩ <;> norm_num

/-- A clip that starts inside the rectangle and ends outside: the result does, too. -/
theorem rectClip_not_inter :
    RectContains (RectClip ⟨0, 0, 4, 4⟩ ⟨2, 0, 10, 10⟩) (⟨5, 1⟩ : NVec2 ℚ) ∧
      ¬RectContains ⟨0, 0, 4, 4⟩ (⟨5, 1⟩ : NVec2 ℚ) := by
  norm_num [RectContains, RectClip, clipAxis]

/-! ### `NRect::Clamp` -/

namespace NRect

/-- The top left corner is not beyond the bottom right one. -/
structure Normalized (r : NRect K) : Prop where
  x : r.topLeftPx.x ≤ r.bottomRightPx.x
  y : r.topLeftPx.y ≤ r.bottomRightPx.y

structure Within (c r : NRect K) : Prop where
  left : r.Left ≤ c.Left
  right : c.Right ≤ r.Right
  top : r.Top ≤ c.Top
  bottom : c.Bottom ≤ r.Bottom

/-- The rectangles lie side by side or one above the other; they may touch. -/
def Apart (a r : NRect K) : Prop :=
  a.Right ≤ r.Left ∨ r.Right ≤ a.Left ∨ a.Bottom ≤ r.Top ∨ r.Bottom ≤ a.Top

def points (r : NRect K) : Set (K × K) := Ico r.Left r.Right ×ˢ Ico r.Top r.Bottom

omit [Field K] [IsStrictOrderedRing K] in
theorem contains_iff {r : NRect K} {p : NVec2 K} : r.Contains p ↔ (p.x, p.y) ∈ r.points :=
  ⟨fun ⟨hleft, htop, hright, hbottom⟩ => ⟨⟨hleft, hright⟩, htop, hbottom⟩,
    fun ⟨⟨hleft, hright⟩, htop, hbottom⟩ => ⟨hleft, htop, hright, hbottom⟩⟩

/-- The second correction moves the end down to the edge. -/
theorem add_clampSize {x z right : K} (hx : x ≤ right) :
    x + clampSize x z right = min (x + z) right := by
  unfold clampSize
  split
  · next hge => rw [max_eq_right (sub_nonneg.mpr hx), min_eq_right hge, add_sub_cancel]
  · next hlt => rw [min_eq_left (not_le.mp hlt).le]

/-- Both ends go to the nearest points. -/
theorem clampAxis_eq {x z left right : K} (hz : 0 ≤ z) (h : left ≤ right) :
    clampAxis x z left right =
      (clampTo left right x, clampTo left right (x + z) - clampTo left right x) := by
  have hxz : x ≤ x + z := le_add_of_nonneg_right hz
  -- enough that the first correction moves the position and the second one the end
  suffices hstart : (clampStart x z left right).1 = clampTo left right x ∧
      min ((clampStart x z left right).1 + (clampStart x z left right).2) right =
        clampTo left right (x + z) by
    obtain ⟨hpos, hend⟩ := hstart
    have hle : (clampStart x z left right).1 ≤ right := hpos ▸ clampTo_le_right h
    change ((clampStart x z left right).1, clampSize (clampStart x z left right).1
      (clampStart x z left right).2 right) = _
    rw [← hend, ← add_clampSize hle, hpos, add_sub_cancel_left]
  unfold clampStart
  rcases lt_or_ge right x with hright | hright
  · -- beyond the range
    rw [if_pos hright, clampTo_of_ge h hright.le, clampTo_of_ge h (hright.le.trans hxz)]
    exact ⟨rfl, by rw [add_zero, min_self]⟩
  rw [if_neg (not_lt.mpr hright)]
  rcases lt_or_ge x left with hleft | hleft
  · -- before it, and perhaps into it
    rw [if_pos hleft, clampTo_of_le h hleft.le]
    refine ⟨rfl, ?_⟩
    rw [← max_add_add_left, add_zero, add_sub_cancel, clampTo, max_min_distrib_left, max_eq_right h]
  · rw [if_neg (not_lt.mpr hleft), clampTo_of_mem hleft hright, clampTo,
      max_eq_right (le_min (hleft.trans hxz) h)]
    exact ⟨rfl, rfl⟩

variable {a r : NRect K}

/-- Both corners go to the nearest points. -/
theorem clamp_eq (ha : a.Normalized) (hr : r.Normalized) : a.Clamp r =
    ⟨⟨clampTo r.Left r.Right a.Left, clampTo r.Top r.Bottom a.Top⟩,
      ⟨clampTo r.Left r.Right a.Right, clampTo r.Top r.Bottom a.Bottom⟩⟩ := by
  have hright : a.topLeftPx.x + a.Width = a.Right := add_sub_cancel _ _
  have hbottom : a.topLeftPx.y + a.Height = a.Bottom := add_sub_cancel _ _
  have hwidth : 0 ≤ a.Width := sub_nonneg.mpr ha.x
  have hheight : 0 ≤ a.Height := sub_nonneg.mpr ha.y
  have hx : r.Left ≤ r.Right := hr.x
  have hy : r.Top ≤ r.Bottom := hr.y
  rw [Clamp, clampAxis_eq hwidth hx, clampAxis_eq hheight hy, hright, hbottom]
  simp only [add_sub_cancel]
  rfl

omit [IsStrictOrderedRing K] in
/-- A normalised rectangle has no points just if it has no width or no height. -/
theorem empty_iff (hr : r.Normalized) : r.Empty ↔ r.points = ∅ := by
  have hheight : r.Height = 0 ↔ r.Bottom ≤ r.Top := by
    rw [Height, sub_eq_zero]
    exact ⟨fun h => h.le, fun h => le_antisymm h hr.y⟩
  have hwidth : r.Width = 0 ↔ r.Right ≤ r.Left := by
    rw [Width, sub_eq_zero]
    exact ⟨fun h => h.le, fun h => le_antisymm h hr.x⟩
  rw [points, prod_eq_empty_iff, Ico_eq_empty_iff, Ico_eq_empty_iff, not_lt, not_lt, or_comm,
    Empty, hheight, hwidth]

end NRect

end MUtils
