import MUtils.Verify.ProfilerTimes

/-!
# The frames that can be seen

`UpdateVisibleFrameRange` moves two cursors over the frames from where they were left. In a
recording without gaps it reads recorded frames only and shows all frames that overlap the range of
times, wherever the cursors were (`Contiguous.update`). The limit of the cursors is an `int`,
and so is the position behind the last frame: the function works for up to `2 ^ 31` frames, and for
one more if the upper cursor does not end at the last frame that is over
(`UpdateVisibleFrameRange_updates_iff`). What the profiler records has no gaps as long as the clock
does not run backwards (`Run.contiguous`), so that all of it can be shown if the limit for the
frames is an `int` (`Run.updates`).
-/

namespace MUtils.Profiler
open Outcome

variable {Thread : Type} {s : Profiler Thread} {time : Int} {n k f : Nat} {d d' : Display}

/-! ### The loops -/

/-- The loop stops at the limit or at the first frame that does not end before `time`. -/
theorem advance_spec (hsize : f + n ≤ s.gFrameData.size) :
    ∃ reads r, s.advance time n f = .ok (reads, r) ∧ (f ≤ r ∧ r ≤ f + n) ∧
      (∀ g ∈ reads, g < f + n) ∧
      (∀ g, f ≤ g → g < r → (s.frame g).endTime < time) ∧
      (r = f + n ∨ time ≤ (s.frame r).endTime) := by
  induction n generalizing f with
  | zero => exact ⟨[], f, rfl, by omega, by simp, by omega, .inl rfl⟩
  | succ n ih =>
    rw [advance, index_ofNat (by omega), ok_bind]
    split
    · next hend =>
      obtain ⟨reads, r, hok, hr, hreads, hpast, hstop⟩ := @ih (f + 1) (by omega)
      refine ⟨f :: reads, r, by rw [hok]; rfl, by omega, ?_, fun g hfg hgr => ?_, ?_⟩
      · intro g hg
        rcases List.mem_cons.1 hg with rfl | hg
        · omega
        · have := hreads g hg
          omega
      · rcases Nat.eq_or_lt_of_le hfg with rfl | hfg
        · exact hend
        · exact hpast g hfg hgr
      · exact hstop.imp_left fun h => by omega
    · next hend =>
      refine ⟨[f], f, rfl, by omega, ?_, by omega, .inr (Int.not_lt.1 hend)⟩
      intro g hg
      rw [List.mem_singleton.1 hg]
      omega

/-- The loop stops at the first frame or at the last one that does not start after `time`. -/
theorem retreat_spec (hsize : f < s.gFrameData.size) :
    ∃ reads r, s.retreat time f = .ok (reads, r) ∧ r ≤ f ∧ (∀ g ∈ reads, g ≤ f) ∧
      (∀ g, r < g → g ≤ f → time < (s.frame g).startTime) ∧
      (r = 0 ∨ (s.frame r).startTime ≤ time) := by
  induction f with
  | zero => exact ⟨[], 0, rfl, Nat.le_refl _, by simp, by omega, .inl rfl⟩
  | succ f ih =>
    rw [retreat, index_ofNat hsize, ok_bind]
    split
    · next hstart =>
      obtain ⟨reads, r, hok, hr, hreads, hpast, hstop⟩ := ih (by omega)
      refine ⟨(f + 1) :: reads, r, by rw [hok]; rfl, by omega, ?_, fun g hrg hgf => ?_, hstop⟩
      · intro g hg
        rcases List.mem_cons.1 hg with rfl | hg
        · exact Nat.le_refl _
        · exact Nat.le_succ_of_le (hreads g hg)
      · rcases Nat.eq_or_lt_of_le hgf with rfl | hgf
        · exact hstart
        · exact hpast g hrg (Nat.le_of_lt_succ hgf)
    · next hstart =>
      exact ⟨[f + 1], f + 1, rfl, Nat.le_refl _, by simp, by omega, .inr (Int.not_lt.1 hstart)⟩

/-! ### Recordings without gaps -/

/-- Each frame but the last one, which is not over, ends where the next one starts. -/
structure Contiguous (s : Profiler Thread) : Prop where
  recorded : s.gCurrentFrame ≤ s.gFrameData.size
  start_le_end : ∀ f, f + 2 ≤ s.gCurrentFrame → (s.frame f).startTime ≤ (s.frame f).endTime
  end_eq_start : ∀ f, f + 2 ≤ s.gCurrentFrame →
    (s.frame f).endTime = (s.frame (f + 1)).startTime

theorem Contiguous.end_le_start (H : s.Contiguous) {g : Nat} (hfg : f < g)
    (hg : g < s.gCurrentFrame) : (s.frame f).endTime ≤ (s.frame g).startTime := by
  induction g, hfg using Nat.le_induction with
  | base => exact (H.end_eq_start f (by omega)).le
  | succ g hfg ih =>
    have := ih (by omega)
    have := H.start_le_end g (by omega)
    have := H.end_eq_start g (by omega)
    omega

/-- What the function is for: it reads frames that are over, and makes all of these visible that
overlap the range of times. -/
structure Shows (s : Profiler Thread) (d : Display) (reads : List Nat) (d' : Display) : Prop where
  reads_over : ∀ f ∈ reads, f + 2 ≤ s.gCurrentFrame
  first_nonneg : 0 ≤ d'.gVisibleFrames.x
  last_le : d'.gVisibleFrames.y ≤ s.gCurrentFrame - 1
  visible : ∀ f : Nat, f + 2 ≤ s.gCurrentFrame → (s.frame f).startTime < d.gTimeRange.y →
    d.gTimeRange.x < (s.frame f).endTime → d'.gVisibleFrames.x ≤ f ∧ f < d'.gVisibleFrames.y
  others : d' = { d with gVisibleFrames := d'.gVisibleFrames }

theorem limit_eq (h2 : 2 ≤ n) (hn : n ≤ 2 ^ 31 + 1) :
    toInt32 ((n + (2 ^ 32 - 2)) % 2 ^ 32) = (n - 2 : Nat) := by
  unfold toInt32
  split <;> omega

theorem limit_neg (hn : 2 ^ 31 + 2 ≤ n) (hn' : n < 2 ^ 32) :
    toInt32 ((n + (2 ^ 32 - 2)) % 2 ^ 32) < 0 := by
  unfold toInt32
  split <;> omega

theorem clamp_eq {v lo hi : Int} (h : lo ≤ hi) : clamp v lo hi = .ok (min (max v lo) hi) := by
  rw [clamp, assert_pos (Int.not_lt.2 h)]
  rfl

/-- Where the upper cursor ends at the last frame that is over, if there are two of these. -/
def EndsAtLast (s : Profiler Thread) (d : Display) : Prop :=
  (s.frame (s.gCurrentFrame - 2)).startTime < d.gTimeRange.y ∨
    (s.frame (s.gCurrentFrame - 2)).startTime = d.gTimeRange.y ∧
      (s.gCurrentFrame - 2 : Nat) ≤ d.gVisibleFrames.y

/-- The two loops that move the upper cursor from `y₀`, where it is at most `last`. -/
theorem Contiguous.upper (H : s.Contiguous) {y₀ last : Nat} (hlast : last + 2 = s.gCurrentFrame)
    (hy₀ : y₀ ≤ last) (time : Int) : ∃ (reads₁ reads₂ : List Nat) (y₁ y₂ : Nat),
      s.advance time (last - y₀) y₀ = .ok (reads₁, y₁) ∧
      s.retreat time y₁ = .ok (reads₂, y₂) ∧ y₂ ≤ last ∧
      (∀ f ∈ reads₁ ++ reads₂, f ≤ last) ∧
      (∀ f, f ≤ last → (s.frame f).startTime < time → f ≤ y₂) ∧
      (0 < last → (y₂ = last ↔ (s.frame last).startTime < time ∨
        (s.frame last).startTime = time ∧ y₀ = last)) := by
  have hrec := H.recorded
  obtain ⟨reads₁, y₁, hok₁, hy₁, hreads₁, hpast₁, hstop₁⟩ :=
    @advance_spec _ s time (last - y₀) y₀ (by omega)
  obtain ⟨reads₂, y₂, hok₂, hy₂, hreads₂, hpast₂, hstop₂⟩ :=
    @retreat_spec _ s time y₁ (by omega)
  -- above the upper cursor, the frames start at the end of the range or after it
  have habove (f : Nat) (hf : f ≤ last) (hstart : (s.frame f).startTime < time) : f ≤ y₂ := by
    by_contra hlt
    by_cases hf₁ : f ≤ y₁
    · have := hpast₂ f (by omega) hf₁
      omega
    · have hle := H.end_le_start (Nat.not_le.1 hf₁) (by omega : f < s.gCurrentFrame)
      rcases hstop₁ with hstop₁ | hstop₁ <;> omega
  refine ⟨reads₁, reads₂, y₁, y₂, hok₁, hok₂, by omega, ?_, habove, fun hpos => ⟨?_, ?_⟩⟩
  · intro f hf
    rcases List.mem_append.1 hf with hf | hf
    · have := hreads₁ f hf; omega
    · have := hreads₂ f hf; omega
  · rintro rfl
    rcases hstop₂ with hstop₂ | hstop₂
    · omega
    · refine hstop₂.lt_or_eq.imp_right fun heq => ⟨heq, ?_⟩
      -- the frame before it does not end before the range, so the cursor was not moved up
      by_contra hne
      have hbefore := hpast₁ (y₂ - 1) (by omega) (by omega)
      have hjoin := H.end_eq_start (y₂ - 1) (by omega)
      rw [Nat.sub_add_cancel hpos] at hjoin
      omega
  · rintro (hstart | ⟨heq, rfl⟩)
    · have := habove last (Nat.le_refl _) hstart
      omega
    · by_contra hne
      have := hpast₂ y₀ (by omega) (by omega)
      omega

/-- The two loops that move the lower cursor up from the first frame. -/
theorem Contiguous.lower (H : s.Contiguous) {last : Nat} (hlast : last + 2 = s.gCurrentFrame)
    (time : Int) : ∃ (reads₁ reads₂ : List Nat) (x₁ x₂ : Nat),
      s.advance time last 0 = .ok (reads₁, x₁) ∧ s.retreat time x₁ = .ok (reads₂, x₂) ∧
      (∀ f ∈ reads₁ ++ reads₂, f ≤ last) ∧ ∀ f, time < (s.frame f).endTime → x₂ ≤ f := by
  have hrec := H.recorded
  obtain ⟨reads₁, x₁, hok₁, hx₁, hreads₁, hpast₁, -⟩ := @advance_spec _ s time last 0 (by omega)
  obtain ⟨reads₂, x₂, hok₂, hx₂, hreads₂, -⟩ := @retreat_spec _ s time x₁ (by omega)
  refine ⟨reads₁, reads₂, x₁, x₂, hok₁, hok₂, fun f hf => ?_, fun f hend => ?_⟩
  · rcases List.mem_append.1 hf with hf | hf
    · have := hreads₁ f hf; omega
    · have := hreads₂ f hf; omega
  · -- the lower cursor passes frames only that end before the range
    by_contra hlt
    have := hpast₁ f (Nat.zero_le f) (by omega)
    omega

/-- Wherever the cursors were, they end around the frames that overlap the range of times. Only the
last step of the upper one may fail. -/
theorem Contiguous.update (H : s.Contiguous) (h2 : 2 ≤ s.gCurrentFrame)
    (hn : s.gCurrentFrame ≤ 2 ^ 31 + 1) (d : Display) :
    ∃ (reads : List Nat) (x y : Nat), (s.UpdateVisibleFrameRange d = do
        let y ← increment y
        return (reads, { d with gVisibleFrames := ⟨x, y⟩ })) ∧
      (∀ f ∈ reads, f + 2 ≤ s.gCurrentFrame) ∧ y + 2 ≤ s.gCurrentFrame ∧
      (∀ f : Nat, f + 2 ≤ s.gCurrentFrame → (s.frame f).startTime < d.gTimeRange.y →
        d.gTimeRange.x < (s.frame f).endTime → x ≤ f ∧ f ≤ y) ∧
      (2 < s.gCurrentFrame → (y + 2 = s.gCurrentFrame ↔ s.EndsAtLast d)) := by
  obtain ⟨last, hlast⟩ : ∃ last, last + 2 = s.gCurrentFrame := ⟨s.gCurrentFrame - 2, by omega⟩
  have hlast' : s.gCurrentFrame - 2 = last := by omega
  obtain ⟨y₀, hy₀⟩ : ∃ y : Nat, min (max d.gVisibleFrames.y 0) (last : Int) = y :=
    Int.eq_ofNat_of_zero_le (by omega)
  have hx₀ : min (max d.gVisibleFrames.x 0) 0 = 0 := by omega
  obtain ⟨reads₁, reads₂, y₁, y₂, hok₁, hok₂, hy₂, hreads, hupper, hat⟩ :=
    H.upper hlast (by omega : y₀ ≤ last) d.gTimeRange.y
  obtain ⟨reads₃, reads₄, x₁, x₂, hok₃, hok₄, hreads', hlower⟩ := H.lower hlast d.gTimeRange.x
  refine ⟨reads₁ ++ reads₂ ++ reads₃ ++ reads₄, x₂, y₂, ?_, fun f hf => ?_, by omega,
    fun f hf hstart hend => ⟨hlower f hend, hupper f (by omega) hstart⟩, fun h3 => ?_⟩
  · have hdist : ((last : Int) - y₀).toNat = last - y₀ := by omega
    rw [UpdateVisibleFrameRange]
    simp only [if_neg (Nat.not_lt.2 h2), limit_eq h2 hn, hlast', clamp_eq (Int.le_refl 0),
      clamp_eq (Int.natCast_nonneg _), hx₀, hy₀]
    -- one loop after the other: a simp that peels all of them is too deep for the kernel
    rw [ok_bind, ok_bind, hdist, Int.toNat_natCast, hok₁, ok_bind]
    dsimp only
    rw [hok₂, ok_bind]
    dsimp only
    rw [Int.sub_zero, Int.toNat_zero, Int.toNat_natCast, hok₃, ok_bind]
    dsimp only
    rw [hok₄, ok_bind]
  · rw [List.append_assoc, List.mem_append] at hf
    have := hf.elim (hreads f) (hreads' f)
    omega
  · rw [EndsAtLast, hlast', ← hlast, Nat.add_right_cancel_iff, hat (by omega)]
    have hfrom : y₀ = last ↔ (last : Int) ≤ d.gVisibleFrames.y := by omega
    rw [hfrom]

theorem increment_eq {y : Nat} (hy : y + 2 ≤ 2 ^ 31) : increment y = .ok (y + 1 : Int) :=
  if_pos (by omega)

/-- `UpdateVisibleFrameRange` returns, and has done what it is for. -/
def Updates (s : Profiler Thread) (d : Display) : Prop :=
  ∃ reads d', s.UpdateVisibleFrameRange d = .ok (reads, d') ∧ s.Shows d reads d'

/-- The function works unless the position behind the upper cursor overflows. -/
theorem Contiguous.updates_of_increment (H : s.Contiguous) (h2 : 2 ≤ s.gCurrentFrame)
    (hn : s.gCurrentFrame ≤ 2 ^ 31 + 1)
    (hlast : s.gCurrentFrame = 2 ^ 31 + 1 → ¬s.EndsAtLast d) : s.Updates d := by
  obtain ⟨reads, x, y, hok, hreads, hy, hvisible, hat⟩ := H.update h2 hn d
  have hsmall : y + 2 ≤ 2 ^ 31 := by
    by_contra hbig
    have hcount : s.gCurrentFrame = 2 ^ 31 + 1 := by omega
    exact hlast hcount ((hat (by omega)).1 (by omega))
  rw [increment_eq hsmall, ok_bind] at hok
  refine ⟨reads, _, hok, hreads, Int.natCast_nonneg x, ?_, fun f hf hstart hend => ?_, rfl⟩
  · show (y + 1 : Int) ≤ s.gCurrentFrame - 1
    omega
  · obtain ⟨hx, hy⟩ := hvisible f hf hstart hend
    exact ⟨Int.ofNat_le.2 hx, Int.lt_add_one_of_le (Int.ofNat_le.2 hy)⟩

theorem Contiguous.updates (H : s.Contiguous) (h2 : 2 ≤ s.gCurrentFrame)
    (hn : s.gCurrentFrame ≤ 2 ^ 31) (d : Display) : s.Updates d :=
  H.updates_of_increment h2 (by omega) fun heq => absurd heq (by omega)

theorem Clocked.contiguous {T : Instant} (H : s.Clocked T) (hrec : s.Recording)
    (hframes : s.FramesInOrder) : s.Contiguous where
  recorded := hrec.currentFrame_le
  start_le_end f hf := (hframes f hf).trans (H.endTime_eq f hf).ge
  end_eq_start := H.endTime_eq

section
variable [DecidableEq Thread] {h : List (Event Thread)}
  {allowed : List (Event Thread) → Profiler Thread → Thread → Call → Prop}

theorem Run.contiguous (hfinish : ∀ h s t, ¬allowed h s t .finish) (hrun : Run allowed h s)
    (horder : InOrder h) : s.Contiguous := by
  obtain ⟨hclock, hframes⟩ := hrun.clocked_framesInOrder (T := Fin.last _) hfinish horder
    fun e _ => Nat.le_of_lt_succ e.now.isLt
  exact hclock.contiguous (hrun.recording hfinish) hframes

/-- With a limit for the frames that is an `int`, all that the profiler records can be shown. -/
theorem Run.updates (hfinish : ∀ h s t, ¬allowed h s t .finish) (hrun : Run allowed h s)
    (horder : InOrder h) (hmax : s.settings.MaxFrames ≤ 2 ^ 31) (h2 : 2 ≤ s.gCurrentFrame)
    (d : Display) : s.Updates d := by
  have hrec := hrun.recording hfinish
  have hle := hrec.currentFrame_le.trans hrec.frames_le
  exact (hrun.contiguous hfinish horder).updates h2 (hle.trans hmax) d

end

/-- With one frame more, the position behind the last frame that is over overflows. -/
theorem Contiguous.not_updates (H : s.Contiguous) (hn : s.gCurrentFrame = 2 ^ 31 + 1)
    (hlast : s.EndsAtLast d) : ¬s.Updates d := by
  rintro ⟨reads', d', hok', -⟩
  obtain ⟨reads, x, y, hok, -, -, -, hat⟩ := H.update (by omega) hn.le d
  have hy := (hat (by omega)).2 hlast
  rw [hok, increment, if_neg (by omega)] at hok'
  cases hok'

/-- With more frames, the limit of the cursors is negative. -/
theorem UpdateVisibleFrameRange_error (hn : 2 ^ 31 + 2 ≤ s.gCurrentFrame)
    (hn' : s.gCurrentFrame < 2 ^ 32) (d : Display) :
    s.UpdateVisibleFrameRange d = .error (.assertion "!(hi < lo)") := by
  have h2 : ¬s.gCurrentFrame < 2 := by omega
  have hclamp : ∀ v, clamp v 0 (toInt32 ((s.gCurrentFrame + (2 ^ 32 - 2)) % 2 ^ 32)) =
      .error (.assertion "!(hi < lo)") := fun v => by
    rw [clamp, assert_neg (not_not.2 (limit_neg hn hn')), error_bind]
  rw [UpdateVisibleFrameRange]
  simp only [if_neg h2, clamp_eq (Int.le_refl 0), ok_bind, hclamp, error_bind]

/-- A recording of `n` frames, all at the start of the clock. -/
def recordingOf (Thread : Type) (n : Nat) : Profiler Thread :=
  { new with
    gCurrentFrame := n
    gFrameData := ⟨n, fun _ => .default⟩ }

theorem recordingOf_contiguous : (recordingOf Thread n).Contiguous :=
  ⟨Nat.le_refl n, fun _ _ => Int.le_refl 0, fun _ _ => rfl⟩

/-- A range of times around the start of the clock. -/
def aroundStart : Display := ⟨⟨-1, 1⟩, ⟨0, 0⟩, ⟨0, 0⟩⟩

/-- For every recording, every range of times and every position of the cursors. -/
theorem UpdateVisibleFrameRange_updates_iff (H : s.Contiguous) (h2 : 2 ≤ s.gCurrentFrame)
    (hn : s.gCurrentFrame < 2 ^ 32) (d : Display) :
    s.Updates d ↔ s.gCurrentFrame ≤ 2 ^ 31 ∨ s.gCurrentFrame = 2 ^ 31 + 1 ∧
      (d.gTimeRange.y < (s.frame (2 ^ 31 - 1)).startTime ∨
        d.gTimeRange.y = (s.frame (2 ^ 31 - 1)).startTime ∧
          d.gVisibleFrames.y < 2 ^ 31 - 1) := by
  have hends (hcount : s.gCurrentFrame = 2 ^ 31 + 1) : ¬s.EndsAtLast d ↔
      d.gTimeRange.y < (s.frame (2 ^ 31 - 1)).startTime ∨
        d.gTimeRange.y = (s.frame (2 ^ 31 - 1)).startTime ∧ d.gVisibleFrames.y < 2 ^ 31 - 1 := by
    have hlast : s.gCurrentFrame - 2 = 2 ^ 31 - 1 := by omega
    rw [EndsAtLast, hlast]
    omega
  constructor
  · intro hup
    by_contra hnot
    obtain ⟨hbig, hnot⟩ := not_or.1 hnot
    rcases Nat.eq_or_lt_of_le (Nat.not_le.1 hbig) with hcount | hcount
    · have hcount : s.gCurrentFrame = 2 ^ 31 + 1 := hcount.symm
      refine H.not_updates hcount ?_ hup
      by_contra hends'
      exact hnot ⟨hcount, (hends hcount).1 hends'⟩
    · obtain ⟨reads, d', hok, -⟩ := hup
      rw [UpdateVisibleFrameRange_error hcount hn] at hok
      cases hok
  · rintro (hle | ⟨hcount, hrange⟩)
    · exact H.updates h2 hle d
    · exact H.updates_of_increment h2 hcount.le fun _ => (hends hcount).2 hrange

/-- A frame that is over and one that is not, with the cursors far off; and `2 ^ 31 + 1` frames with
a range of times before all of them. -/
theorem UpdateVisibleFrameRange_updates_iff_two :
    (recordingOf Unit 2).Updates ⟨⟨-1, 1⟩, ⟨-7, 100⟩, ⟨0, 0⟩⟩ ∧
      (recordingOf Unit (2 ^ 31 + 1)).Updates ⟨⟨-2, -1⟩, ⟨0, 5⟩, ⟨0, 0⟩⟩ :=
  ⟨(UpdateVisibleFrameRange_updates_iff recordingOf_contiguous (Nat.le_refl 2) (by decide) _).2
      (.inl (by decide)),
    (UpdateVisibleFrameRange_updates_iff recordingOf_contiguous (by decide) (by decide) _).2
      (.inr ⟨rfl, .inl neg_one_lt_zero⟩)⟩

/-- With `2 ^ 31 + 1` frames, all of which overlap the range of times, the position behind the last
one overflows. -/
theorem not_updates_beyond_int :
    (recordingOf Unit (2 ^ 31 + 1)).Contiguous ∧
      ¬(recordingOf Unit (2 ^ 31 + 1)).Updates aroundStart :=
  ⟨recordingOf_contiguous, recordingOf_contiguous.not_updates rfl (.inl Int.one_pos)⟩

end MUtils.Profiler
