import MUtils.Theory.CallTree
import MUtils.Verify.ProfilerSlots

/-!
# What the profiler records

The entries of a slot with its stack are a call tree (`ThreadData.tree`), to which
`PushSectionBase` and `PopSection` add calls and their ends. `Recording` is the invariant of all
runs without `Finish`: the buffers are as long as the settings say and the counters are within
them, every slot holds a valid call tree, and a frame lists each slot at most once, with an entry
that has been recorded.
-/

namespace MUtils.Profiler
open Outcome

/-! ### Slots as call trees -/

def ProfilerEntry.node (entry : ProfilerEntry) : CallNode Int where
  parent := if entry.parent = noParent then none else some entry.parent
  level := entry.level
  start := entry.startTime
  stop := entry.endTime

/-- The lower `n` elements of an entry stack, the topmost first. -/
def openEntries (entryStack : Vec Nat) : Nat → List Nat
  | 0 => []
  | n + 1 => entryStack.get n :: openEntries entryStack n

def ThreadData.tree (td : ThreadData) : CallTree Int where
  size := td.currentEntry
  node e := (td.entries.get e).node
  stack := openEntries td.entryStack td.callStackDepth

theorem openEntries_set {entryStack : Vec Nat} {n k e : Nat} (h : n ≤ k) :
    openEntries (entryStack.set k e) n = openEntries entryStack n := by
  induction n with
  | zero => rfl
  | succ n ih => rw [openEntries, openEntries, Vec.get_set_of_ne (by omega), ih (by omega)]

theorem head?_openEntries {entryStack : Vec Nat} {n : Nat} :
    (openEntries entryStack n).head? = if 0 < n then some (entryStack.get (n - 1)) else none := by
  cases n <;> simp [openEntries]

theorem length_openEntries {entryStack : Vec Nat} {n : Nat} :
    (openEntries entryStack n).length = n := by
  induction n with
  | zero => rfl
  | succ n ih => rw [openEntries, List.length_cons, ih]

variable {td : ThreadData} {szSection szFile : Option String} {color : UInt32} {line : Int}
  {startTime endTime : Int} {e : Nat}

theorem ThreadData.top_mem (hpos : 0 < td.callStackDepth) :
    td.entryStack.get (td.callStackDepth - 1) ∈ td.tree.stack := by
  apply List.mem_of_head?
  rw [tree, head?_openEntries, if_pos hpos]

/-- `PushSectionBase` begins a call. -/
theorem ThreadData.tree_push
    (hparent : 0 < td.callStackDepth → td.entryStack.get (td.callStackDepth - 1) ≠ noParent) :
    (td.push szSection color szFile line startTime).tree = td.tree.push maxTime64 startTime := by
  simp only [tree, push, CallTree.push, CallTree.mk.injEq, true_and]
  refine ⟨funext fun e => ?_, ?_⟩
  · by_cases he : e = td.currentEntry
    · subst he
      rw [Vec.get_set_self, Function.update_self, head?_openEntries, length_openEntries]
      by_cases hpos : 0 < td.callStackDepth
      · simp [ProfilerEntry.node, hpos, hparent hpos]
      · simp [ProfilerEntry.node, hpos]
    · rw [Vec.get_set_of_ne he, Function.update_of_ne he]
  · rw [openEntries, Vec.get_set_self, openEntries_set (Nat.le_refl _)]

/-- `PopSection` ends the innermost call. -/
theorem ThreadData.tree_pop (hpos : 0 < td.callStackDepth)
    (htop : td.entryStack.get (td.callStackDepth - 1) = e) :
    (td.pop e endTime).tree = td.tree.pop endTime := by
  obtain ⟨n, hn⟩ : ∃ n, td.callStackDepth = n + 1 := ⟨td.callStackDepth - 1, by omega⟩
  rw [hn, Nat.add_sub_cancel] at htop
  simp only [tree, pop, CallTree.pop, hn, openEntries, Nat.add_sub_cancel, CallTree.mk.injEq,
    true_and, and_true]
  refine funext fun e' => ?_
  by_cases he : e' = e
  · subst he
    rw [Vec.get_modify_self, htop, Function.update_self]
    rfl
  · rw [Vec.get_modify_of_ne he, htop, Function.update_of_ne he]

/-! ### A slot -/

/-- The buffers of a slot are as long as the settings say, and hold a call tree. -/
structure ThreadData.Valid (settings : ProfileSettings) (td : ThreadData) : Prop where
  entries_size : td.entries.size = settings.MaxEntriesPerThread
  entryStack_size : td.entryStack.size = 50
  currentEntry_le : td.currentEntry ≤ settings.MaxEntriesPerThread
  callStackDepth_le : td.callStackDepth ≤ 50
  szSection_ne : ∀ {e}, e < td.currentEntry → (td.entries.get e).szSection ≠ none
  tree : td.tree.Valid
  idle : td.initialized = false → td.currentEntry = 0 ∧ td.callStackDepth = 0

namespace ThreadData.Valid
variable {settings : ProfileSettings} {i : Nat}

/-- An entry on the stack has been recorded, so its index is not that of no parent. -/
theorem top_lt (H : td.Valid settings) (hpos : 0 < td.callStackDepth) :
    td.entryStack.get (td.callStackDepth - 1) < td.currentEntry :=
  H.tree.stack_lt (top_mem hpos)

theorem top_ne_noParent (H : td.Valid settings) (hpos : 0 < td.callStackDepth) :
    td.entryStack.get (td.callStackDepth - 1) ≠ noParent := by
  have hlt := H.top_lt hpos
  have hle := H.currentEntry_le
  have hfits := settings.fits.2.2.1
  unfold noParent
  omega

theorem initSlot : (initSlot settings i td).Valid settings where
  entries_size := rfl
  entryStack_size := rfl
  currentEntry_le := Nat.zero_le _
  callStackDepth_le := Nat.zero_le _
  szSection_ne he := absurd he (Nat.not_lt_zero _)
  tree := ⟨fun he => absurd he (Nat.not_lt_zero _), fun he => absurd he List.not_mem_nil, trivial,
    fun hr => by simp [ThreadData.tree, Profiler.initSlot, openEntries] at hr⟩
  idle _ := ⟨rfl, rfl⟩

/-- A slot that is given out has no entries. -/
theorem use (H : td.Valid settings) (hcur : td.currentEntry = 0) :
    ThreadData.Valid settings { td with currentEntry := 0, initialized := true } := by
  have htd : { td with currentEntry := 0, initialized := true } =
      { td with initialized := true } := by simp [hcur]
  rw [htd]
  exact ⟨H.entries_size, H.entryStack_size, H.currentEntry_le, H.callStackDepth_le, H.szSection_ne,
    H.tree, fun h => absurd h (by simp)⟩

theorem push (H : td.Valid settings) (hinit : td.initialized = true)
    (hentries : td.currentEntry < td.entries.size)
    (hstack : td.callStackDepth < td.entryStack.size) (hsection : szSection ≠ none) :
    (td.push szSection color szFile line startTime).Valid settings where
  entries_size := H.entries_size
  entryStack_size := H.entryStack_size
  currentEntry_le := by
    rw [H.entries_size] at hentries
    exact hentries
  callStackDepth_le := by
    rw [H.entryStack_size] at hstack
    exact hstack
  szSection_ne {e} he := by
    simp only [ThreadData.push] at he ⊢
    by_cases hlast : e = td.currentEntry
    · rw [hlast, Vec.get_set_self]
      exact hsection
    · rw [Vec.get_set_of_ne hlast]
      exact H.szSection_ne (by omega)
  tree := by
    rw [tree_push H.top_ne_noParent]
    exact H.tree.push
  idle h := by
    change td.initialized = false at h
    simp [hinit] at h

theorem pop (H : td.Valid settings) (hpos : 0 < td.callStackDepth)
    (htop : td.entryStack.get (td.callStackDepth - 1) = e) : (td.pop e endTime).Valid settings where
  entries_size := H.entries_size
  entryStack_size := H.entryStack_size
  currentEntry_le := H.currentEntry_le
  callStackDepth_le := Nat.le_trans (Nat.sub_le _ _) H.callStackDepth_le
  szSection_ne {e'} he := by
    have hne := H.szSection_ne he
    simp only [ThreadData.pop, Vec.get_modify]
    split
    · next h => rw [← h]; exact hne
    · exact hne
  tree := by
    rw [tree_pop hpos htop]
    exact H.tree.pop
  idle h := by
    have := (H.idle h).2
    omega

end ThreadData.Valid

/-! ### Frames -/

/-- The slots that a frame lists, with the entries that were active. -/
def Frame.listing (frame : Frame) : List FrameThreadInfo :=
  (List.range frame.frameThreadCount).map frame.frameThreads.get

theorem Frame.length_listing {frame : Frame} : frame.listing.length = frame.frameThreadCount := by
  simp [listing]

theorem Frame.listing_added {frame : Frame} {info : FrameThreadInfo} :
    (frame.added info).listing = frame.listing ++ [info] := by
  simp only [listing, added, List.range_succ, List.map_append, List.map_cons, List.map_nil,
    Vec.get_set_self, List.append_cancel_right_eq]
  refine List.map_congr_left fun k hk => ?_
  rw [Vec.get_set_of_ne]
  have := List.mem_range.1 hk
  omega

variable {Thread : Type} {s s' : Profiler Thread} {now : Instant} {i j f : Nat}

/-- What `NewFrame` notes about slot `j`. -/
def activeInfo (s : Profiler Thread) (j : Nat) : Option FrameThreadInfo :=
  if (s.slot j).initialized ∧ 0 < (s.slot j).currentEntry then
    some ⟨j, (s.slot j).currentEntry - 1⟩
  else none

theorem activeInfo_eq_some {info : FrameThreadInfo} :
    s.activeInfo j = some info ↔ ((s.slot j).initialized = true ∧ 0 < (s.slot j).currentEntry) ∧
      info = ⟨j, (s.slot j).currentEntry - 1⟩ := by
  unfold activeInfo
  split
  · next h =>
    simp only [Option.some.injEq, h, and_self, true_and]
    exact eq_comm
  · next h => simp only [reduceCtorEq, h, false_and]

/-- The loop of `NewFrame` lists the slots that have entries. -/
structure ListsActive (s : Profiler Thread) (k n : Nat) (frame frame' : Frame) : Prop where
  region : frame'.toRegion = frame.toRegion
  size : frame'.frameThreads.size = frame.frameThreads.size
  listing : frame'.listing = frame.listing ++ (List.range' k n).filterMap s.activeInfo

theorem listThreads_spec {n k : Nat} {frame frame' : Frame}
    (h : s.listThreads n k frame = .ok frame') : ListsActive s k n frame frame' := by
  induction n generalizing k frame with
  | zero =>
    cases h
    exact ⟨rfl, rfl, by simp⟩
  | succ n ih =>
    obtain ⟨-, h⟩ := index_bind_eq_ok.1 h
    simp only at h
    split at h
    · next hactive =>
      obtain ⟨frame₁, hadd, h⟩ := bind_eq_ok.1 h
      obtain ⟨-, hadd⟩ := index_bind_eq_ok.1 hadd
      cases hadd
      obtain ⟨hregion, hsize, hlisting⟩ := ih h
      refine ⟨hregion, hsize, ?_⟩
      have hinfo : s.activeInfo k = some ⟨k, (s.slot k).currentEntry - 1⟩ :=
        activeInfo_eq_some.2 ⟨hactive, rfl⟩
      rw [hlisting, Frame.listing_added, List.range'_succ, List.filterMap_cons_some hinfo,
        List.append_assoc]
      rfl
    · next hactive =>
      obtain ⟨hregion, hsize, hlisting⟩ := ih h
      refine ⟨hregion, hsize, ?_⟩
      have hinfo : s.activeInfo k = none := if_neg hactive
      rw [hlisting, List.range'_succ, List.filterMap_cons_none hinfo]

/-- There is room for all slots. -/
theorem listThreads_ok {n k : Nat} {frame : Frame} (hsize : k + n ≤ s.gThreadData.size)
    (hroom : frame.frameThreadCount + n ≤ frame.frameThreads.size) :
    ∃ frame', s.listThreads n k frame = .ok frame' := by
  induction n generalizing k frame with
  | zero => exact ⟨frame, rfl⟩
  | succ n ih =>
    rw [listThreads, index_ofNat (by omega), ok_bind]
    dsimp only
    have hrest : k + 1 + n ≤ s.gThreadData.size := by omega
    split
    · rw [Frame.add, index_ofNat (by omega)]
      apply ih hrest
      simp only [Frame.added, Vec.size_set]
      omega
    · exact ih hrest (by omega)

/-- The data of frame `f`. -/
abbrev frame (s : Profiler Thread) (f : Nat) : Frame := s.gFrameData.get f

theorem frame_pushed :
    (s.pushed now i szSection color szFile line).frame f =
      if ((s.slot i).currentEntry = 0 ∧ 0 < s.gCurrentFrame) ∧ f = s.gCurrentFrame - 1 then
        (s.frame f).added ⟨i, 0⟩
      else s.frame f := by
  simp only [pushed, frame]
  by_cases h : (s.slot i).currentEntry = 0 ∧ 0 < s.gCurrentFrame
  · rw [if_pos h, Vec.get_modify]
    by_cases hf : f = s.gCurrentFrame - 1
    · rw [if_pos hf, if_pos ⟨h, hf⟩, hf]
    · rw [if_neg hf, if_neg fun h' => hf h'.2]
  · rw [if_neg h, if_neg fun h' => h h'.1]

theorem size_frames_pushed :
    (s.pushed now i szSection color szFile line).gFrameData.size = s.gFrameData.size := by
  simp only [pushed]
  split <;> rfl

theorem size_frames_framed {newFrame : Frame} :
    (s.framed now newFrame).gFrameData.size = s.gFrameData.size := by
  simp only [framed]
  split <;> rfl

theorem frame_framed {newFrame : Frame} :
    (s.framed now newFrame).frame f =
      if f = s.gCurrentFrame then { newFrame with startTime := s.elapsed now }
      else if f + 1 = s.gCurrentFrame then { s.frame f with endTime := s.elapsed now }
      else s.frame f := by
  simp only [framed, frame]
  by_cases hf : f = s.gCurrentFrame
  · subst hf
    split
    · rw [Vec.get_modify_of_ne (by omega), Vec.get_set_self, if_pos rfl]
    · rw [Vec.get_set_self, if_pos rfl]
  · rw [if_neg hf]
    split
    · rw [Vec.get_modify]
      by_cases hlast : f = s.gCurrentFrame - 1
      · rw [if_pos hlast, if_pos (by omega), Vec.get_set_of_ne (by omega), hlast]
      · rw [if_neg hlast, if_neg (by omega), Vec.get_set_of_ne hf]
    · rw [Vec.get_set_of_ne hf, if_neg (by omega)]

/-- The frame lists each slot at most once, with an entry that has been recorded. -/
structure Lists (s : Profiler Thread) (frame : Frame) : Prop where
  nodup : (frame.listing.map (·.threadIndex)).Nodup
  lt_size : ∀ info ∈ frame.listing, info.threadIndex < s.gThreadData.size
  active_lt : ∀ info ∈ frame.listing, info.activeEntry < (s.slot info.threadIndex).currentEntry

namespace Lists
variable {frame : Frame}

theorem mono (H : s.Lists frame) (hsize : s.gThreadData.size ≤ s'.gThreadData.size)
    (hcur : ∀ j, (s.slot j).currentEntry ≤ (s'.slot j).currentEntry) : s'.Lists frame where
  nodup := H.nodup
  lt_size info hinfo := Nat.lt_of_lt_of_le (H.lt_size info hinfo) hsize
  active_lt info hinfo := Nat.lt_of_lt_of_le (H.active_lt info hinfo) (hcur _)

/-- A slot without entries is not listed. -/
theorem ne_of_empty (H : s.Lists frame) (hempty : (s.slot i).currentEntry = 0)
    {info : FrameThreadInfo} (hinfo : info ∈ frame.listing) : info.threadIndex ≠ i := by
  rintro rfl
  have := H.active_lt info hinfo
  omega

/-- The frame has no more entries than there are slots, and less if one is not listed. -/
theorem count_le (H : s.Lists frame) : frame.frameThreadCount ≤ s.gThreadData.size := by
  have hsub : frame.listing.map (·.threadIndex) ⊆ List.range s.gThreadData.size := by
    intro k hk
    obtain ⟨info, hinfo, rfl⟩ := List.mem_map.1 hk
    exact List.mem_range.2 (H.lt_size info hinfo)
  have := (List.Nodup.subperm H.nodup hsub).length_le
  simpa [Frame.length_listing] using this

theorem count_lt (H : s.Lists frame) (hi : i < s.gThreadData.size)
    (hnot : ∀ info ∈ frame.listing, info.threadIndex ≠ i) :
    frame.frameThreadCount < s.gThreadData.size := by
  have hsub : i :: frame.listing.map (·.threadIndex) ⊆ List.range s.gThreadData.size := by
    intro k hk
    rcases List.mem_cons.1 hk with rfl | hk
    · exact List.mem_range.2 hi
    · obtain ⟨info, hinfo, rfl⟩ := List.mem_map.1 hk
      exact List.mem_range.2 (H.lt_size info hinfo)
  have hnodup : (i :: frame.listing.map (·.threadIndex)).Nodup := by
    refine List.nodup_cons.2 ⟨fun hi => ?_, H.nodup⟩
    obtain ⟨info, hinfo, h⟩ := List.mem_map.1 hi
    exact hnot info hinfo h
  have := (List.Nodup.subperm hnodup hsub).length_le
  rw [List.length_cons, List.length_map, Frame.length_listing, List.length_range] at this
  exact this

/-- A slot that is not listed is added. -/
theorem added (H : s.Lists frame) (hi : i < s.gThreadData.size)
    (hnot : ∀ info ∈ frame.listing, info.threadIndex ≠ i)
    (hpos : 0 < (s.slot i).currentEntry) : s.Lists (frame.added ⟨i, 0⟩) := by
  have hmem : ∀ info ∈ (frame.added ⟨i, 0⟩).listing, info ∈ frame.listing ∨ info = ⟨i, 0⟩ := by
    intro info hinfo
    rwa [Frame.listing_added, List.mem_append, List.mem_singleton] at hinfo
  refine ⟨?_, fun info hinfo => ?_, fun info hinfo => ?_⟩
  · rw [Frame.listing_added, List.map_append]
    refine List.nodup_append.2 ⟨H.nodup, List.nodup_singleton _, fun k hk k' hk' => ?_⟩
    obtain ⟨info, hinfo, rfl⟩ := List.mem_map.1 hk
    rw [List.mem_singleton.1 hk']
    exact hnot info hinfo
  · rcases hmem info hinfo with hinfo | rfl
    · exact H.lt_size info hinfo
    · exact hi
  · rcases hmem info hinfo with hinfo | rfl
    · exact H.active_lt info hinfo
    · exact hpos

/-- The frame that `NewFrame` fills. -/
theorem active {frame' : Frame} (h : ListsActive s 0 s.gThreadData.size frame frame')
    (hempty : frame.frameThreadCount = 0) : s.Lists frame' := by
  have hlisting : frame'.listing = (List.range' 0 s.gThreadData.size).filterMap s.activeInfo := by
    rw [h.listing, List.eq_nil_of_length_eq_zero (Frame.length_listing.trans hempty)]
    rfl
  have hmem : ∀ info ∈ frame'.listing, ∃ j < s.gThreadData.size, s.activeInfo j = some info := by
    intro info hinfo
    rw [hlisting, List.mem_filterMap] at hinfo
    obtain ⟨j, hj, hinfo⟩ := hinfo
    exact ⟨j, by simpa using hj, hinfo⟩
  refine ⟨?_, fun info hinfo => ?_, fun info hinfo => ?_⟩
  · rw [hlisting, List.map_filterMap]
    refine List.Nodup.filterMap (fun a a' k hk hk' => ?_) List.nodup_range'
    obtain ⟨info, hinfo, rfl⟩ := Option.map_eq_some_iff.1 (Option.mem_def.1 hk)
    obtain ⟨info', hinfo', heq⟩ := Option.map_eq_some_iff.1 (Option.mem_def.1 hk')
    rw [(activeInfo_eq_some.1 hinfo).2, (activeInfo_eq_some.1 hinfo').2] at heq
    exact heq.symm
  · obtain ⟨j, hj, hinfo⟩ := hmem info hinfo
    rw [(activeInfo_eq_some.1 hinfo).2]
    exact hj
  · obtain ⟨j, hj, hinfo⟩ := hmem info hinfo
    obtain ⟨⟨-, hpos⟩, rfl⟩ := activeInfo_eq_some.1 hinfo
    exact Nat.sub_lt hpos Nat.one_pos

end Lists

/-! ### The recording -/

/-- The buffers have the sizes of the settings. -/
structure Sized (s : Profiler Thread) : Prop where
  threads : s.gThreadData.size = s.settings.MaxThreads
  frames : s.gFrameData.size = s.settings.MaxFrames
  regions : s.gRegionData.size = s.settings.MaxRegions

/-- The buffers before the first `Init` are empty, which is why their sizes can be smaller than
those of the settings while the profiler is paused. -/
structure Recording (s : Profiler Thread) : Prop where
  threads_le : s.gThreadData.size ≤ s.settings.MaxThreads
  frames_le : s.gFrameData.size ≤ s.settings.MaxFrames
  regions_le : s.gRegionData.size ≤ s.settings.MaxRegions
  sized : s.gPaused = false → s.Sized
  slots : ∀ j < s.gThreadData.size, (s.slot j).Valid s.settings
  currentFrame_le : s.gCurrentFrame ≤ s.gFrameData.size
  currentRegion_le : s.gCurrentRegion ≤ s.gRegionData.size
  frameThreads_size : ∀ f < s.gFrameData.size,
    (s.frame f).frameThreads.size = s.gThreadData.size
  unused : ∀ f, s.gCurrentFrame ≤ f → f < s.gFrameData.size → (s.frame f).frameThreadCount = 0
  listed : ∀ f < s.gCurrentFrame, s.Lists (s.frame f)
  /-- No section has been recorded since the last `Init`. -/
  restarting : s.gRestarting = true → ∀ j < s.gThreadData.size, (s.slot j).callStackDepth = 0

namespace Recording

/-- A change that leaves the slots and the frames alone. -/
theorem congr (H : s.Recording) (hsettings : s'.settings = s.settings)
    (hp : s'.gPaused = false → s.gPaused = false) (hthreads : s'.gThreadData = s.gThreadData)
    (hframes : s'.gFrameData = s.gFrameData) (hcurrent : s'.gCurrentFrame = s.gCurrentFrame)
    (hregions : s'.gRegionData.size = s.gRegionData.size)
    (hregion : s'.gCurrentRegion ≤ s.gRegionData.size)
    (hrestarting : s'.gRestarting = s.gRestarting) : s'.Recording where
  threads_le := by rw [hthreads, hsettings]; exact H.threads_le
  frames_le := by rw [hframes, hsettings]; exact H.frames_le
  regions_le := by rw [hregions, hsettings]; exact H.regions_le
  sized h := by
    obtain ⟨h₁, h₂, h₃⟩ := H.sized (hp h)
    exact ⟨by rw [hthreads, hsettings, h₁], by rw [hframes, hsettings, h₂],
      by rw [hregions, hsettings, h₃]⟩
  slots := by
    simp only [slot, hthreads, hsettings]
    exact H.slots
  currentFrame_le := by rw [hframes, hcurrent]; exact H.currentFrame_le
  currentRegion_le := by rw [hregions]; exact hregion
  frameThreads_size := by
    simp only [frame, hthreads, hframes]
    exact H.frameThreads_size
  unused := by
    simp only [frame, hcurrent, hframes]
    exact H.unused
  listed f hf := by
    simp only [frame, hframes]
    rw [hcurrent] at hf
    refine (H.listed f hf).mono ?_ fun j => ?_
    · exact Nat.le_of_eq (by rw [hthreads])
    · exact Nat.le_of_eq (by rw [slot, slot, hthreads])
  restarting := by
    simp only [slot, hthreads, hrestarting]
    exact H.restarting

/-- A change of the slots that adds no entries. -/
theorem modify (H : s.Recording) {g : ThreadData → ThreadData}
    (hvalid : i < s.gThreadData.size → (g (s.slot i)).Valid s.settings)
    (hcur : (g (s.slot i)).currentEntry = (s.slot i).currentEntry)
    (hdepth : s.gRestarting = true →
      (g (s.slot i)).callStackDepth = (s.slot i).callStackDepth) :
    Recording { s with gThreadData := s.gThreadData.modify i g } := by
  refine ⟨H.threads_le, H.frames_le, H.regions_le, fun hp => ?_, fun j hj => ?_,
    H.currentFrame_le, H.currentRegion_le, H.frameThreads_size, H.unused, fun f hf => ?_,
    fun hrest j hj => ?_⟩
  · exact ⟨(H.sized hp).threads, (H.sized hp).frames, (H.sized hp).regions⟩
  · rw [slot_modify]
    split
    · next h => exact hvalid (h ▸ hj)
    · exact H.slots j hj
  · refine (H.listed f hf).mono (Nat.le_refl _) fun j => ?_
    rw [slot_modify]
    split
    · next h => exact Nat.le_of_eq (by rw [h, hcur])
    · exact Nat.le_refl _
  · rw [slot_modify]
    split
    · next h => exact (hdepth hrest).trans (h ▸ H.restarting hrest j hj)
    · exact H.restarting hrest j hj

theorem framed (H : s.Recording) (hp : s.gPaused = false)
    (hlt : s.gCurrentFrame < s.gFrameData.size) {newFrame : Frame}
    (hlist : s.listThreads s.settings.MaxThreads 0 (s.frame s.gCurrentFrame) = .ok newFrame) :
    (s.framed now newFrame).Recording := by
  have hactive := listThreads_spec hlist
  rw [← (H.sized hp).threads] at hactive
  have hlists : s.Lists newFrame := .active hactive (H.unused _ (Nat.le_refl _) hlt)
  refine ⟨H.threads_le, ?_, H.regions_le, fun hp => ?_, H.slots, ?_, H.currentRegion_le,
    fun f hf => ?_, fun f hf hsize => ?_, fun f hf => ?_, H.restarting⟩
  · rw [size_frames_framed]
    exact H.frames_le
  · exact ⟨(H.sized hp).threads, size_frames_framed.trans (H.sized hp).frames,
      (H.sized hp).regions⟩
  · rw [size_frames_framed]
    exact hlt
  · rw [size_frames_framed] at hf
    rw [frame_framed]
    split
    · exact hactive.size.trans (H.frameThreads_size _ hlt)
    · split
      · exact H.frameThreads_size f hf
      · exact H.frameThreads_size f hf
  · rw [size_frames_framed] at hsize
    change s.gCurrentFrame + 1 ≤ f at hf
    rw [frame_framed, if_neg (by omega), if_neg (by omega)]
    exact H.unused f (by omega) hsize
  · change f < s.gCurrentFrame + 1 at hf
    rw [frame_framed]
    split
    · exact ⟨hlists.nodup, hlists.lt_size, hlists.active_lt⟩
    · have Hf := H.listed f (by omega)
      split
      · exact ⟨Hf.nodup, Hf.lt_size, Hf.active_lt⟩
      · exact ⟨Hf.nodup, Hf.lt_size, Hf.active_lt⟩

variable [DecidableEq Thread] {t : Thread}

theorem restarted {settings : ProfileSettings} {request : Bool} :
    (s.restarted t now settings request).Recording where
  threads_le := Nat.le_refl _
  frames_le := Nat.le_refl _
  regions_le := Nat.le_refl _
  sized _ := ⟨rfl, rfl, rfl⟩
  slots j _ := by
    rw [slot_restarted]
    exact .initSlot
  currentFrame_le := Nat.zero_le _
  currentRegion_le := Nat.zero_le _
  frameThreads_size _ _ := rfl
  unused _ _ _ := rfl
  listed _ hf := absurd hf (Nat.not_lt_zero _)
  restarting _ j _ := by
    rw [slot_restarted]
    rfl

theorem useSlot (H : s.Recording) (hfree : s.Free i) : (s.useSlot t i).Recording := by
  obtain ⟨hcur, hdepth⟩ := (H.slots i hfree.lt_size).idle hfree.free
  have hsame : ∀ j, ((s.useSlot t i).slot j).currentEntry = (s.slot j).currentEntry := by
    intro j
    rw [slot_useSlot]
    split
    · next h => rw [h, hcur]
    · rfl
  refine ⟨H.threads_le, H.frames_le, H.regions_le, fun hp => ?_, fun j hj => ?_,
    H.currentFrame_le, H.currentRegion_le, H.frameThreads_size, H.unused, fun f hf => ?_,
    fun hrest j hj => ?_⟩
  · exact ⟨(H.sized hp).threads, (H.sized hp).frames, (H.sized hp).regions⟩
  · rw [slot_useSlot]
    split
    · exact (H.slots i hfree.lt_size).use hcur
    · exact H.slots j hj
  · exact (H.listed f hf).mono (Nat.le_refl _) fun j => Nat.le_of_eq (hsame j).symm
  · rw [slot_useSlot]
    split
    · exact hdepth
    · exact H.restarting hrest j hj

omit [DecidableEq Thread] in
theorem pushed (H : s.Recording) (hheld : s.SlotsHeld) (hr : s.Ready t i)
    (hcan : s.CanPush i szSection szFile) :
    (s.pushed now i szSection color szFile line).Recording := by
  have hmono : ∀ j, (s.slot j).currentEntry ≤
      ((s.pushed now i szSection color szFile line).slot j).currentEntry := by
    intro j
    rw [slot_pushed]
    split
    · next h => rw [h]; exact Nat.le_succ _
    · exact Nat.le_refl _
  have hcount : ∀ f, f ≠ s.gCurrentFrame - 1 ∨ s.gCurrentFrame = 0 →
      (s.pushed now i szSection color szFile line).frame f = s.frame f := by
    intro f hf
    rw [frame_pushed, if_neg (by omega)]
  refine ⟨H.threads_le, ?_, H.regions_le, fun hp => ?_, fun j hj => ?_, ?_, H.currentRegion_le,
    fun f hf => ?_, fun f hf hsize => ?_, fun f hf => ?_,
    fun hrest => absurd hrest (by simp [Profiler.pushed])⟩
  · rw [size_frames_pushed]
    exact H.frames_le
  · exact ⟨(H.sized hp).threads, size_frames_pushed.trans (H.sized hp).frames,
      (H.sized hp).regions⟩
  · rw [slot_pushed]
    split
    · exact (H.slots i hr.lt_size).push (hheld.initialized hr.owns hr.lt_size) hcan.entries
        hcan.entryStack hcan.section_
    · exact H.slots j hj
  · rw [size_frames_pushed]
    exact H.currentFrame_le
  · rw [size_frames_pushed] at hf
    rw [frame_pushed]
    split
    · exact H.frameThreads_size f hf
    · exact H.frameThreads_size f hf
  · rw [size_frames_pushed] at hsize
    change s.gCurrentFrame ≤ f at hf
    rw [hcount f (by omega)]
    exact H.unused f hf hsize
  · have Hf := H.listed f hf
    rw [frame_pushed]
    split
    · next h =>
      have Hf' : (s.pushed now i szSection color szFile line).Lists (s.frame f) :=
        Hf.mono (Nat.le_refl _) hmono
      refine Hf'.added hr.lt_size (fun info hinfo => Hf.ne_of_empty h.1.1 hinfo) ?_
      rw [slot_pushed, if_pos rfl]
      exact Nat.succ_pos _
    · exact Hf.mono (Nat.le_refl _) hmono

theorem quiet (H : s.Recording) (h : Quiet t now s s') : s'.Recording := by
  cases h with
  | flags hp => exact H.congr rfl hp rfl rfl rfl rfl H.currentRegion_le rfl
  | limit => exact H.congr rfl id rfl rfl rfl rfl H.currentRegion_le rfl
  | use _ _ hfree => exact H.useSlot hfree
  | @change i g _ _ _ hg =>
    obtain ⟨hidden, name, hg⟩ := hg (s.slot i)
    refine H.modify (fun hi => ?_) (by rw [hg]) fun _ => by rw [hg]
    have Hi := H.slots i hi
    rw [hg]
    exact ⟨Hi.entries_size, Hi.entryStack_size, Hi.currentEntry_le, Hi.callStackDepth_le,
      Hi.szSection_ne, Hi.tree, Hi.idle⟩
  | region _ hlt hsize hle => exact H.congr rfl id rfl rfl rfl hsize (Nat.le_trans hle hlt) rfl
  | frame hp _ hlt hlist => exact H.framed hp hlt hlist

theorem atomic (H : s.Recording) (hheld : s.SlotsHeld) (h : Atomic t now s s') :
    s'.Recording := by
  cases h with
  | quiet h => exact H.quiet h
  | start => exact .restarted
  | push hr hcan => exact H.pushed hheld hr hcan
  | pop hr hcan =>
    refine H.modify (fun hi => ?_) rfl fun hrest => absurd hrest (by simp [hcan.started])
    have Hi := H.slots _ hi
    have hlt := Hi.top_lt hcan.nonempty
    have hle := Hi.currentEntry_le
    have hfits := s.settings.fits.2.2.1
    exact Hi.pop hcan.nonempty ((toInt32_eq_iff (by omega)).1 hcan.top).1

omit [DecidableEq Thread] in
theorem new : (new : Profiler Thread).Recording where
  threads_le := Nat.zero_le _
  frames_le := Nat.zero_le _
  regions_le := Nat.zero_le _
  sized hp := absurd hp (by simp [Profiler.new])
  slots _ hj := absurd hj (Nat.not_lt_zero _)
  currentFrame_le := Nat.le_refl _
  currentRegion_le := Nat.le_refl _
  frameThreads_size _ hf := absurd hf (Nat.not_lt_zero _)
  unused _ _ hf := absurd hf (Nat.not_lt_zero _)
  listed _ hf := absurd hf (Nat.not_lt_zero _)
  restarting _ _ hj := absurd hj (Nat.not_lt_zero _)

end Recording

/-- In every run without `Finish`. -/
theorem Run.recording [DecidableEq Thread]
    {allowed : List (Event Thread) → Profiler Thread → Thread → Call → Prop}
    {h : List (Event Thread)} (hfinish : ∀ h s t, ¬allowed h s t .finish)
    (hrun : Run allowed h s) : s.Recording := by
  have H := hrun.preserves (P := fun s => s.SlotsHeld ∧ s.Recording) ⟨.new, .new⟩
    (fun t now s s' H h => ⟨H.1.atomic h, H.2.atomic H.1 h⟩)
    fun h s t hallowed => absurd hallowed (hfinish h s t)
  exact H.2

end MUtils.Profiler
