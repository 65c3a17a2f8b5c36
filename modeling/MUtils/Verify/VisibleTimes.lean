import MUtils.Verify.VisibleFrames

/-!
# The times that can be seen

`setTimeRange` widens a range, moves it into the recorded times and clamps what is left. Each step
keeps what the one before it has achieved: a range of at least 1000 keeps its width when it is
moved, and clamping does not shorten a moved range below the recorded span.
-/

namespace MUtils.Profiler
open Outcome

variable {minTime maxTime : Int} {range : NVec2 Int}

theorem widenRange_wide (h : 1000 ≤ range.y - range.x) :
    widenRange minTime maxTime range = .ok range := by
  rw [widenRange, if_neg]
  omega

theorem widenRange_narrow (hspan : 1000 ≤ maxTime - minTime) (h : range.y - range.x < 1000) :
    ∃ x, widenRange minTime maxTime range = .ok ⟨x, x + 1000⟩ ∧ minTime ≤ x ∧
      x + 1000 ≤ maxTime := by
  refine ⟨min (max range.x minTime) (maxTime - 1000), ?_, by omega, by omega⟩
  rw [widenRange, if_pos (.inr h), clamp_eq (by omega)]
  rfl

theorem shiftRange_inside (hx : minTime ≤ range.x) (hy : range.y ≤ maxTime) :
    shiftRange minTime maxTime range = range := by
  rw [shiftRange, if_neg (not_lt.mpr hx), if_neg (not_lt.mpr hy)]

theorem shiftRange_width : (shiftRange minTime maxTime range).y -
    (shiftRange minTime maxTime range).x = range.y - range.x := by
  unfold shiftRange
  split_ifs <;> dsimp only <;> omega

/-- A range that has been moved is at one end of the recorded times. -/
theorem shiftRange_outside (h : ¬(minTime ≤ range.x ∧ range.y ≤ maxTime)) :
    (shiftRange minTime maxTime range).x = minTime ∨
      (shiftRange minTime maxTime range).y = maxTime := by
  unfold shiftRange
  split_ifs with hx hy
  · exact .inl (add_sub_cancel range.x minTime)
  · exact .inr (sub_sub_cancel range.y maxTime)
  · exact absurd ⟨not_lt.mp hx, not_lt.mp hy⟩ h

/-- The clamps take away only what does not fit. -/
theorem clamp_shiftRange (hspan : 1000 ≤ maxTime - minTime) (hwide : 1000 ≤ range.y - range.x) :
    ∃ x y, clamp (shiftRange minTime maxTime range).x minTime maxTime = .ok x ∧
      clamp (shiftRange minTime maxTime range).y minTime maxTime = .ok y ∧
      minTime ≤ x ∧ y ≤ maxTime ∧ 1000 ≤ y - x ∧
      (minTime ≤ range.x → range.y ≤ maxTime → x = range.x ∧ y = range.y) ∧
      (range.y - range.x ≤ maxTime - minTime → y - x = range.y - range.x) := by
  have hle : minTime ≤ maxTime := by omega
  refine ⟨_, _, clamp_eq hle, clamp_eq hle, ?_⟩
  by_cases hinside : minTime ≤ range.x ∧ range.y ≤ maxTime
  · rw [shiftRange_inside hinside.1 hinside.2]
    omega
  · have hwidth := @shiftRange_width minTime maxTime range
    obtain hx | hy := shiftRange_outside hinside
    · omega
    · omega

section
variable {K : Type} [Field K] (regionWidth : K)

/-- The steps after the first one, for a range that this has made wide enough. -/
theorem setTimeRange_of_widenRange {wide : NVec2 Int} (hspan : 1000 ≤ maxTime - minTime)
    (hrange : range.x ≤ range.y) (hwiden : widenRange minTime maxTime range = .ok wide)
    (hwide : 1000 ≤ wide.y - wide.x) :
    ∃ s, setTimeRange minTime maxTime regionWidth range = .ok s ∧
      s.visibleDuration = s.gTimeRange.y - s.gTimeRange.x ∧
      minTime ≤ s.gTimeRange.x ∧ s.gTimeRange.y ≤ maxTime ∧ 1000 ≤ s.visibleDuration ∧
      (minTime ≤ wide.x → wide.y ≤ maxTime → s.gTimeRange = wide) ∧
      (wide.y - wide.x ≤ maxTime - minTime → s.visibleDuration = wide.y - wide.x) := by
  obtain ⟨x, y, hx, hy, hmin, hmax, hduration, hinside, hfits⟩ := clamp_shiftRange hspan hwide
  refine ⟨.ofRange regionWidth ⟨x, y⟩, ?_, rfl, hmin, hmax, hduration, fun hwx hwy => ?_, hfits⟩
  · simp only [setTimeRange, assert_pos hrange.ge, hwiden, hx, hy, assert_pos hduration.ge, ok_bind,
      pure_eq_ok]
  · obtain ⟨rfl, rfl⟩ := hinside hwx hwy
    rfl

/-- The ends of the range are drawn at the ends of the region. -/
theorem xFromTime_ends {s : TimeScale K}
    (hduration : s.visibleDuration = s.gTimeRange.y - s.gTimeRange.x) :
    xFromTime s regionWidth s.gTimeRange.x = 0 ∧ ((s.visibleDuration : K) ≠ 0 →
      xFromTime s regionWidth s.gTimeRange.y = regionWidth) := by
  refine ⟨?_, fun hne => ?_⟩
  · rw [xFromTime, sub_self, Int.cast_zero, zero_mul, zero_div]
  · rw [xFromTime, ← hduration, mul_div_cancel_left₀ regionWidth hne]

/-- **The range is clamped to the recorded times and is never shorter than 1000**; a request that is
long enough is left alone if it lies inside, and keeps its width if it fits. Its ends are drawn at
the ends of the region. -/
theorem setTimeRange_clamps (hspan : 1000 ≤ maxTime - minTime) (hrange : range.x ≤ range.y) :
    ∃ s, setTimeRange minTime maxTime regionWidth range = .ok s ∧
      s.visibleDuration = s.gTimeRange.y - s.gTimeRange.x ∧
      minTime ≤ s.gTimeRange.x ∧ s.gTimeRange.y ≤ maxTime ∧ 1000 ≤ s.visibleDuration ∧
      (1000 ≤ range.y - range.x → minTime ≤ range.x → range.y ≤ maxTime →
        s.gTimeRange = range) ∧
      (1000 < range.y - range.x → range.y - range.x ≤ maxTime - minTime →
        s.visibleDuration = range.y - range.x) ∧
      xFromTime s regionWidth s.gTimeRange.x = 0 ∧ ((s.visibleDuration : K) ≠ 0 →
        xFromTime s regionWidth s.gTimeRange.y = regionWidth) := by
  by_cases hwide : 1000 ≤ range.y - range.x
  · obtain ⟨s, hs, hduration, hmin, hmax, hlong, hinside, hfits⟩ :=
      setTimeRange_of_widenRange regionWidth hspan hrange (widenRange_wide hwide) hwide
    exact ⟨s, hs, hduration, hmin, hmax, hlong, fun _ => hinside, fun _ => hfits,
      xFromTime_ends regionWidth hduration⟩
  · obtain ⟨x, hwiden, -⟩ := widenRange_narrow hspan (not_le.mp hwide)
    have hwidth : 1000 ≤ x + 1000 - x := by omega
    obtain ⟨s, hs, hduration, hmin, hmax, hlong, -⟩ :=
      setTimeRange_of_widenRange regionWidth hspan hrange hwiden hwidth
    exact ⟨s, hs, hduration, hmin, hmax, hlong, fun h => absurd h hwide,
      fun h => absurd h.le hwide, xFromTime_ends regionWidth hduration⟩

/-- A short request near the end, and one that begins before the recording. -/
theorem setTimeRange_clamps_ends :
    (∃ s, setTimeRange 0 5000 (100 : ℚ) ⟨4990, 4995⟩ = .ok s ∧ 1000 ≤ s.visibleDuration) ∧
      ∃ s, setTimeRange 0 5000 (100 : ℚ) ⟨-300, 1700⟩ = .ok s ∧ s.visibleDuration = 2000 := by
  have hspan : (1000 : Int) ≤ 5000 - 0 := by decide
  have hshort : (⟨4990, 4995⟩ : NVec2 Int).x ≤ (⟨4990, 4995⟩ : NVec2 Int).y := by decide
  have hearly : (⟨-300, 1700⟩ : NVec2 Int).x ≤ (⟨-300, 1700⟩ : NVec2 Int).y := by decide
  constructor
  · obtain ⟨s, hs, -, -, -, hlong, -⟩ := setTimeRange_clamps (100 : ℚ) hspan hshort
    exact ⟨s, hs, hlong⟩
  · obtain ⟨s, hs, -, -, -, -, -, hfits, -⟩ := setTimeRange_clamps (100 : ℚ) hspan hearly
    exact ⟨s, hs, hfits (by decide) (by decide)⟩

end

end MUtils.Profiler
