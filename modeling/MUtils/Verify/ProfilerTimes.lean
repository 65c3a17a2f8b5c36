import MUtils.Verify.ProfilerScopes

/-!
# Times of sections and frames

With a clock that does not run backwards, the sections of a slot begin in the order of their
entries, the interval of a section lies within that of its parent, and a frame ends when the next
one begins. What a frame lists is enough to find the sections that reach into it: the sections of a
slot up to the listed entry that end after the frame began do not precede the outermost section
around that entry, and a slot that is not listed has no section that begins before the frame ends.
-/

namespace MUtils.Profiler
open Outcome

variable {Thread : Type} {s s' s₁ : Profiler Thread} {now T : Instant} {i j f : Nat}

/-- The times in the recording, up to the reading `T` of the clock. -/
structure Clocked (s : Profiler Thread) (T : Instant) : Prop where
  timer_le : s.gTimer ≤ T
  trees : ∀ j < s.gThreadData.size, (s.slot j).tree.Timed maxTime64 (s.elapsed T)
  startTime_le : ∀ f < s.gCurrentFrame, (s.frame f).startTime ≤ s.elapsed T
  endTime_eq : ∀ f, f + 1 < s.gCurrentFrame → (s.frame f).endTime = (s.frame (f + 1)).startTime
  covers : ∀ f < s.gCurrentFrame, ∀ info ∈ (s.frame f).listing,
    (s.slot info.threadIndex).tree.Covers info.activeEntry (s.frame f).startTime
  /-- A slot that the last frame does not list is empty. -/
  unlisted_last : ∀ f, f + 1 = s.gCurrentFrame → ∀ j < s.gThreadData.size,
    (∀ info ∈ (s.frame f).listing, info.threadIndex ≠ j) → (s.slot j).currentEntry = 0
  /-- The sections of a slot that another frame does not list begin later. -/
  unlisted : ∀ f, f + 1 < s.gCurrentFrame → ∀ j < s.gThreadData.size,
    (∀ info ∈ (s.frame f).listing, info.threadIndex ≠ j) →
    ∀ e < (s.slot j).currentEntry, (s.frame f).endTime ≤ ((s.slot j).tree.node e).start

theorem elapsed_mono (h : T ≤ now) : s.elapsed T ≤ s.elapsed now := by
  have : T.val ≤ now.val := h
  unfold elapsed
  omega

theorem elapsed_le_maxTime64 : s.elapsed now ≤ maxTime64 := by
  have := now.isLt
  unfold elapsed maxTime64
  omega

/-- Of the frames before, `NewFrame` changes at most the end of the last. -/
theorem frame_framed_of_ne {newFrame : Frame} (hf : f ≠ s.gCurrentFrame) :
    ((s.framed now newFrame).frame f).listing = (s.frame f).listing ∧
      ((s.framed now newFrame).frame f).startTime = (s.frame f).startTime ∧
      (f + 1 ≠ s.gCurrentFrame →
        ((s.framed now newFrame).frame f).endTime = (s.frame f).endTime) := by
  rw [frame_framed, if_neg hf]
  split
  · next hlast => exact ⟨rfl, rfl, fun h => absurd hlast h⟩
  · exact ⟨rfl, rfl, fun _ => rfl⟩

theorem frame_framed_self {newFrame : Frame} :
    (s.framed now newFrame).frame s.gCurrentFrame =
      { newFrame with startTime := s.elapsed now } := by
  rw [frame_framed, if_pos rfl]

namespace Clocked

theorem mono (H : s.Clocked T) (h : T ≤ now) : s.Clocked now where
  timer_le := Nat.le_trans H.timer_le h
  trees j hj := (H.trees j hj).mono (elapsed_mono h)
  startTime_le f hf := (H.startTime_le f hf).trans (elapsed_mono h)
  endTime_eq := H.endTime_eq
  covers := H.covers
  unlisted_last := H.unlisted_last
  unlisted := H.unlisted

/-- A change that leaves the trees and the frames alone. -/
theorem congr (H : s.Clocked T) (htimer : s'.gTimer = s.gTimer)
    (hsize : s'.gThreadData.size = s.gThreadData.size)
    (htree : ∀ j, (s'.slot j).tree = (s.slot j).tree) (hframes : s'.gFrameData = s.gFrameData)
    (hcurrent : s'.gCurrentFrame = s.gCurrentFrame) : s'.Clocked T := by
  have helapsed : s'.elapsed T = s.elapsed T := by rw [elapsed, htimer, elapsed]
  have hcur : ∀ j, (s'.slot j).currentEntry = (s.slot j).currentEntry :=
    fun j => congrArg CallTree.size (htree j)
  refine ⟨htimer ▸ H.timer_le, ?_, ?_, ?_, ?_, ?_, ?_⟩
  · simp only [hsize, htree, helapsed]
    exact H.trees
  · simp only [frame, hframes, hcurrent, helapsed]
    exact H.startTime_le
  · simp only [frame, hframes, hcurrent]
    exact H.endTime_eq
  · simp only [frame, hframes, hcurrent, htree]
    exact H.covers
  · simp only [frame, hframes, hcurrent, hsize, hcur]
    exact H.unlisted_last
  · simp only [frame, hframes, hcurrent, hsize, hcur, htree]
    exact H.unlisted

/-- `NewFrame` notes the last entries of the slots. -/
theorem framed (H : s.Clocked now) (hrec : s.Recording) (hp : s.gPaused = false)
    (hlt : s.gCurrentFrame < s.gFrameData.size) {newFrame : Frame}
    (hlist : s.listThreads s.settings.MaxThreads 0 (s.frame s.gCurrentFrame) = .ok newFrame) :
    (s.framed now newFrame).Clocked now := by
  have hactive := listThreads_spec hlist
  have hempty : (s.frame s.gCurrentFrame).listing = [] :=
    List.eq_nil_of_length_eq_zero
      (Frame.length_listing.trans (hrec.unused _ (Nat.le_refl _) hlt))
  have hlisting : newFrame.listing =
      (List.range' 0 s.gThreadData.size).filterMap s.activeInfo := by
    rw [hactive.listing, hempty, (hrec.sized hp).threads]
    rfl
  refine ⟨H.timer_le, H.trees, fun f hf => ?_, fun f hf => ?_, fun f hf info hinfo => ?_,
    fun f hf j hj hnot => ?_, fun f hf j hj hnot e he => ?_⟩
  · change f < s.gCurrentFrame + 1 at hf
    change _ ≤ s.elapsed now
    by_cases hlast : f = s.gCurrentFrame
    · rw [hlast, frame_framed_self]
    · rw [(frame_framed_of_ne hlast).2.1]
      exact H.startTime_le f (by omega)
  · change f + 1 < s.gCurrentFrame + 1 at hf
    by_cases hlast : f + 1 = s.gCurrentFrame
    · rw [hlast, frame_framed_self, frame_framed, if_neg (by omega), if_pos hlast]
    · rw [(frame_framed_of_ne (by omega)).2.2 hlast, (frame_framed_of_ne hlast).2.1]
      exact H.endTime_eq f (by omega)
  · change f < s.gCurrentFrame + 1 at hf
    by_cases hlast : f = s.gCurrentFrame
    · rw [hlast, frame_framed_self] at hinfo ⊢
      change info ∈ newFrame.listing at hinfo
      rw [hlisting, List.mem_filterMap] at hinfo
      obtain ⟨j, hj, hinfo⟩ := hinfo
      obtain ⟨⟨-, hpos⟩, rfl⟩ := activeInfo_eq_some.1 hinfo
      have hj : j < s.gThreadData.size := by simpa using hj
      exact (H.trees j hj).covers (hrec.slots j hj).tree hpos
    · rw [(frame_framed_of_ne hlast).1] at hinfo
      rw [(frame_framed_of_ne hlast).2.1]
      exact H.covers f (by omega) info hinfo
  · change f + 1 = s.gCurrentFrame + 1 at hf
    obtain rfl : f = s.gCurrentFrame := by omega
    rw [frame_framed_self] at hnot
    change ∀ info ∈ newFrame.listing, _ at hnot
    change j < s.gThreadData.size at hj
    change (s.slot j).currentEntry = 0
    by_contra hcur
    cases hinit : (s.slot j).initialized with
    | false => exact hcur ((hrec.slots j hj).idle hinit).1
    | true =>
      refine hnot ⟨j, (s.slot j).currentEntry - 1⟩ ?_ rfl
      rw [hlisting, List.mem_filterMap]
      exact ⟨j, by simpa using hj, activeInfo_eq_some.2 ⟨⟨hinit, Nat.pos_of_ne_zero hcur⟩, rfl⟩⟩
  · change f + 1 < s.gCurrentFrame + 1 at hf
    change e < (s.slot j).currentEntry at he
    rw [(frame_framed_of_ne (by omega)).1] at hnot
    by_cases hlast : f + 1 = s.gCurrentFrame
    · have := H.unlisted_last f hlast j hj hnot
      omega
    · rw [(frame_framed_of_ne (by omega)).2.2 hlast]
      exact H.unlisted f (by omega) j hj hnot e he

/-- The parts of a frame that `PushSectionBase` does not change. -/
theorem times_pushed {szSection szFile : Option String} {color : UInt32} {line : Int} :
    ((s.pushed now i szSection color szFile line).frame f).toRegion = (s.frame f).toRegion := by
  rw [frame_pushed]
  split <;> rfl

theorem mem_listing_pushed {szSection szFile : Option String} {color : UInt32} {line : Int}
    {info : FrameThreadInfo} (hinfo : info ∈ (s.frame f).listing) :
    info ∈ ((s.pushed now i szSection color szFile line).frame f).listing := by
  rw [frame_pushed]
  split
  · rw [Frame.listing_added]
    exact List.mem_append_left _ hinfo
  · exact hinfo

theorem mem_listing_of_pushed {szSection szFile : Option String} {color : UInt32} {line : Int}
    {info : FrameThreadInfo}
    (hinfo : info ∈ ((s.pushed now i szSection color szFile line).frame f).listing) :
    info ∈ (s.frame f).listing ∨ info = ⟨i, 0⟩ := by
  rw [frame_pushed] at hinfo
  split at hinfo
  · rw [Frame.listing_added, List.mem_append, List.mem_singleton] at hinfo
    exact hinfo
  · exact .inl hinfo

theorem pushed {Thread : Type} {s : Profiler Thread} {t : Thread} {szSection szFile : Option String}
    {color : UInt32} {line : Int} (H : s.Clocked now) (hrec : s.Recording) (hr : s.Ready t i) :
    (s.pushed now i szSection color szFile line).Clocked now := by
  have Hi := hrec.slots i hr.lt_size
  have htree : ((s.pushed now i szSection color szFile line).slot i).tree =
      (s.slot i).tree.push maxTime64 (s.elapsed now) := by
    rw [slot_pushed, if_pos rfl, ThreadData.tree_push Hi.top_ne_noParent]
  have hother : ∀ {j}, j ≠ i →
      (s.pushed now i szSection color szFile line).slot j = s.slot j := by
    intro j hj
    rw [slot_pushed, if_neg hj]
  refine ⟨H.timer_le, fun j hj => ?_, fun f hf => ?_, fun f hf => ?_, fun f hf info hinfo => ?_,
    fun f hf j hj hnot => ?_, fun f hf j hj hnot e he => ?_⟩
  · by_cases hji : j = i
    · subst hji
      rw [htree]
      exact (H.trees j hj).push Hi.tree le_rfl elapsed_le_maxTime64
    · rw [hother hji]
      exact H.trees j hj
  · rw [times_pushed]
    exact H.startTime_le f hf
  · rw [times_pushed, times_pushed]
    exact H.endTime_eq f hf
  · rw [times_pushed]
    rcases mem_listing_of_pushed hinfo with hinfo | rfl
    · have hcovers := H.covers f hf info hinfo
      by_cases hji : info.threadIndex = i
      · have hlt := (hrec.listed f hf).active_lt info hinfo
        rw [hji] at hcovers hlt ⊢
        rw [htree]
        exact hcovers.push Hi.tree hlt
      · rw [hother hji]
        exact hcovers
    · -- the slot's first entry is its own outermost section
      intro r e hroot hle _
      rw [htree] at hroot
      have := Hi.tree.push.root_le (Nat.succ_pos _) hroot
      omega
  · have hnot' : ∀ info ∈ (s.frame f).listing, info.threadIndex ≠ j :=
      fun info hinfo => hnot info (mem_listing_pushed hinfo)
    have hempty := H.unlisted_last f hf j hj hnot'
    by_cases hji : j = i
    · subst hji
      -- the first entry of the slot gets it listed
      change f + 1 = s.gCurrentFrame at hf
      refine absurd rfl (hnot ⟨j, 0⟩ ?_)
      rw [frame_pushed, if_pos ⟨⟨hempty, by omega⟩, by omega⟩, Frame.listing_added]
      exact List.mem_append_right _ (List.mem_singleton_self _)
    · rw [hother hji]
      exact hempty
  · have hnot' : ∀ info ∈ (s.frame f).listing, info.threadIndex ≠ j :=
      fun info hinfo => hnot info (mem_listing_pushed hinfo)
    have hlater := H.unlisted f hf j hj hnot'
    rw [times_pushed]
    by_cases hji : j = i
    · subst hji
      rw [htree]
      by_cases hlast : e = (s.slot j).tree.size
      · rw [hlast, CallTree.node_push_self, H.endTime_eq f hf]
        exact H.startTime_le (f + 1) hf
      · rw [CallTree.node_push_of_ne hlast]
        refine hlater e ?_
        rw [slot_pushed, if_pos rfl] at he
        exact Nat.lt_of_le_of_ne (Nat.le_of_lt_succ he) hlast
    · rw [hother hji] at he ⊢
      exact hlater e he

theorem popped {Thread : Type} {s : Profiler Thread} {t : Thread} {e : Nat} (H : s.Clocked now)
    (hrec : s.Recording) (hr : s.Ready t i) (hcan : s.CanPop i e) :
    (s.popped now i e).Clocked now := by
  have Hi := hrec.slots i hr.lt_size
  have htree : ((s.popped now i e).slot i).tree = (s.slot i).tree.pop (s.elapsed now) := by
    rw [slot_popped, if_pos rfl,
      ThreadData.tree_pop hcan.nonempty (hcan.stack_eq hrec hr.lt_size).1]
  have hother : ∀ {j}, j ≠ i → (s.popped now i e).slot j = s.slot j := by
    intro j hj
    rw [slot_popped, if_neg hj]
  have hcur : ∀ j, ((s.popped now i e).slot j).currentEntry = (s.slot j).currentEntry := by
    intro j
    rw [slot_popped]
    split
    · next hji => rw [hji]; rfl
    · rfl
  refine ⟨H.timer_le, fun j hj => ?_, H.startTime_le, H.endTime_eq, fun f hf info hinfo => ?_,
    fun f hf j hj hnot => ?_, fun f hf j hj hnot e' he => ?_⟩
  · by_cases hji : j = i
    · subst hji
      rw [htree]
      exact (H.trees j hj).pop Hi.tree le_rfl elapsed_le_maxTime64
    · rw [hother hji]
      exact H.trees j hj
  · have hcovers := H.covers f hf info hinfo
    by_cases hji : info.threadIndex = i
    · have hlt := (hrec.listed f hf).active_lt info hinfo
      rw [hji] at hcovers hlt ⊢
      rw [htree]
      exact hcovers.pop Hi.tree (H.trees i hr.lt_size) hlt elapsed_le_maxTime64
    · rw [hother hji]
      exact hcovers
  · rw [hcur]
    exact H.unlisted_last f hf j hj hnot
  · rw [hcur] at he
    have hlater := H.unlisted f hf j hj hnot e' he
    by_cases hji : j = i
    · subst hji
      rw [htree, CallTree.node_pop]
      exact hlater
    · rw [hother hji]
      exact hlater

variable [DecidableEq Thread] {t : Thread}

/-- A new generation begins at time 0, without sections and frames. -/
theorem restarted {settings : ProfileSettings} {request : Bool} :
    (s.restarted t now settings request).Clocked now := by
  have hsize : ∀ j, ((s.restarted t now settings request).slot j).tree.size = 0 := by
    intro j
    rw [slot_restarted]
    rfl
  have hstack : ∀ j, ((s.restarted t now settings request).slot j).tree.stack = [] := by
    intro j
    rw [slot_restarted]
    rfl
  refine ⟨Nat.le_refl _, fun j _ => ?_, fun f hf => absurd hf (Nat.not_lt_zero f),
    fun f hf => absurd hf (Nat.not_lt_zero _), fun f hf => absurd hf (Nat.not_lt_zero f),
    fun f hf => absurd hf (Nat.succ_ne_zero f), fun f hf => absurd hf (Nat.not_lt_zero _)⟩
  have hnone : ∀ {e}, ¬e < ((s.restarted t now settings request).slot j).tree.size := by
    rw [hsize]
    exact Nat.not_lt_zero _
  exact ⟨fun _ he => absurd he hnone, fun he => absurd he hnone,
    fun he => by simp [hstack] at he, fun he => absurd he hnone, fun he => absurd he hnone,
    fun he => absurd he hnone⟩

theorem quiet (H : s.Clocked now) (hrec : s.Recording) (hq : Quiet t now s s') :
    s'.Clocked now := by
  have hsame := hq.sameTrees hrec
  cases hq with
  | flags | limit | use | change | region =>
    exact H.congr rfl hsame.size hsame.tree rfl rfl
  | frame hp _ hlt hlist => exact H.framed hrec hp hlt hlist

theorem atomic (H : s.Clocked now) (hrec : s.Recording) (h : Atomic t now s s') :
    s'.Clocked now := by
  cases h with
  | quiet hq => exact H.quiet hrec hq
  | start => exact .restarted
  | push hr hcan => exact H.pushed hrec hr
  | pop hr hcan => exact H.popped hrec hr hcan

omit [DecidableEq Thread] in
theorem new : (new : Profiler Thread).Clocked T where
  timer_le := Nat.zero_le _
  trees _ hj := absurd hj (Nat.not_lt_zero _)
  startTime_le _ hf := absurd hf (Nat.not_lt_zero _)
  endTime_eq _ hf := absurd hf (Nat.not_lt_zero _)
  covers _ hf := absurd hf (Nat.not_lt_zero _)
  unlisted_last f hf := absurd hf (Nat.succ_ne_zero f)
  unlisted _ hf := absurd hf (Nat.not_lt_zero _)

end Clocked

/-- No frame starts before the one that precedes it. -/
def FramesInOrder (s : Profiler Thread) : Prop :=
  ∀ f, f + 1 < s.gCurrentFrame → (s.frame f).startTime ≤ (s.frame (f + 1)).startTime

theorem FramesInOrder.framed (H : s.FramesInOrder) (hclock : s.Clocked now) {newFrame : Frame} :
    (s.framed now newFrame).FramesInOrder := by
  intro f hf
  change f + 1 < s.gCurrentFrame + 1 at hf
  rw [(frame_framed_of_ne (by omega)).2.1]
  by_cases hlast : f + 1 = s.gCurrentFrame
  · rw [hlast, frame_framed_self]
    exact hclock.startTime_le f (by omega)
  · rw [(frame_framed_of_ne hlast).2.1]
    exact H f (by omega)

theorem FramesInOrder.atomic [DecidableEq Thread] {t : Thread} (H : s.FramesInOrder)
    (hclock : s.Clocked now) (h : Atomic t now s s') : s'.FramesInOrder := by
  cases h with
  | quiet hq =>
    cases hq with
    | flags | limit | use | change | region => exact H
    | frame => exact H.framed hclock
  | start => exact fun f hf => absurd hf (Nat.not_lt_zero _)
  | push =>
    intro f hf
    rw [Clocked.times_pushed, Clocked.times_pushed]
    exact H f hf
  | pop => exact H

/-- The clock does not run backwards. -/
def InOrder (h : List (Event Thread)) : Prop := h.Pairwise fun e e' => e'.now ≤ e.now

section
variable [DecidableEq Thread] {h : List (Event Thread)}
  {allowed : List (Event Thread) → Profiler Thread → Thread → Call → Prop}

theorem Run.clocked_framesInOrder (hfinish : ∀ h s t, ¬allowed h s t .finish)
    (hrun : Run allowed h s) (horder : InOrder h) (hT : ∀ e ∈ h, e.now ≤ T) :
    s.Clocked T ∧ s.FramesInOrder := by
  induction hrun generalizing T with
  | new => exact ⟨.new, fun f hf => absurd hf (Nat.not_lt_zero _)⟩
  | @call h s t c now m s' hrun hallowed hcall ih =>
    obtain ⟨hle, horder⟩ := List.pairwise_cons.1 horder
    obtain ⟨hclock, hframes⟩ := ih horder hle
    have hc : c ≠ .finish := by
      rintro rfl
      exact hfinish _ _ _ hallowed
    have hnow := perform_preserves
      (P := fun s => s.SlotsHeld ∧ s.Recording ∧ s.Clocked now ∧ s.FramesInOrder)
      (fun s s' ⟨hheld, hrec, hclock, hframes⟩ h =>
        ⟨hheld.atomic h, hrec.atomic hheld h, hclock.atomic hrec h, hframes.atomic hclock h⟩)
      (fun hfin => absurd hfin hc) hcall
      ⟨hrun.slotsHeld, hrun.recording hfinish, hclock, hframes⟩
    exact ⟨hnow.2.2.1.mono (hT _ List.mem_cons_self), hnow.2.2.2⟩

/-- In every run without `Finish` in which the clock does not run backwards. -/
theorem Run.clocked (hfinish : ∀ h s t, ¬allowed h s t .finish) (hrun : Run allowed h s)
    (horder : InOrder h) (hT : ∀ e ∈ h, e.now ≤ T) : s.Clocked T :=
  (hrun.clocked_framesInOrder hfinish horder hT).1

end

end MUtils.Profiler
