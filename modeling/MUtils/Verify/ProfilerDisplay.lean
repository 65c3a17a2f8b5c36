import MUtils.Verify.ProfilerTimes

/-!
# What the profiler shows of a frame

`ShowProfile` does not search the sections that reach into a frame. It starts from the entry that
the frame lists for a slot, climbs to the outermost section around it, steps back as long as
sections end after the frame began, and shows what follows. `Run.shows_overlapping` proves that it
misses none of the sections in the frame but the one that was begun last.
-/

namespace MUtils.Profiler
open Outcome

variable {td : ThreadData} {settings : ProfileSettings} {e r n : Nat}

/-! ### The loops -/

theorem parent_tree (hp : (td.entries.get e).parent ≠ noParent) :
    (td.tree.node e).parent = some (td.entries.get e).parent := if_neg hp

theorem parent_tree_none (hp : (td.entries.get e).parent = noParent) :
    (td.tree.node e).parent = none := if_pos hp

/-- The first loop ends at the outermost section. -/
theorem ThreadData.Valid.climb (H : td.Valid settings) (he : e < td.currentEntry) (hn : e < n) :
    ∃ reads r, td.climb n e = .ok (reads, r) ∧ td.tree.Root e r ∧ ∀ d ∈ reads, d ≤ e := by
  induction n generalizing e with
  | zero => omega
  | succ n ih =>
    have hsize : e < td.entries.size := by
      rw [H.entries_size]
      exact Nat.lt_of_lt_of_le he H.currentEntry_le
    rw [ThreadData.climb, index_ofNat hsize, ok_bind]
    by_cases hp : (td.entries.get e).parent = noParent
    · rw [if_pos hp]
      exact ⟨[e], e, rfl, .top (parent_tree_none hp), fun d hd => by simp_all⟩
    · rw [if_neg hp]
      have hlt := H.tree.parent_lt he (parent_tree hp)
      obtain ⟨reads, r, hclimb, hroot, hreads⟩ := ih (Nat.lt_trans hlt he) (by omega)
      rw [hclimb, ok_bind]
      refine ⟨e :: reads, r, rfl, .up (parent_tree hp) hroot, fun d hd => ?_⟩
      rcases List.mem_cons.1 hd with rfl | hd
      · exact Nat.le_refl _
      · exact Nat.le_trans (hreads d hd) (Nat.le_of_lt hlt)

/-- The second loop goes back. -/
theorem ThreadData.stepBack_ok (frameStart : Int) (hsize : e < td.entries.size) :
    ∃ reads b, td.stepBack frameStart e = .ok (reads, b) ∧ b ≤ e ∧ ∀ d ∈ reads, d ≤ e := by
  induction e with
  | zero => exact ⟨[], 0, rfl, Nat.le_refl _, fun d hd => by simp at hd⟩
  | succ e ih =>
    rw [stepBack, index_ofNat hsize, ok_bind]
    split
    · obtain ⟨reads, b, hback, hb, hreads⟩ := ih (by omega)
      rw [hback, ok_bind]
      refine ⟨_, b, rfl, by omega, fun d hd => ?_⟩
      rcases List.mem_cons.1 hd with rfl | hd
      · exact Nat.le_refl _
      · exact Nat.le_succ_of_le (hreads d hd)
    · exact ⟨_, _, rfl, Nat.le_refl _, fun d hd => by simp_all⟩

/-- The third loop shows every section that it comes to before one that begins too late. -/
theorem ThreadData.showFrom_ok (frameEnd : Int) (hsize : e + n ≤ td.entries.size) :
    ∃ reads shown, td.showFrom frameEnd n e = .ok (reads, shown) ∧ (∀ d ∈ reads, d < e + n) ∧
      ∀ d, e ≤ d → d < e + n →
        (∀ d', e ≤ d' → d' ≤ d → (td.entries.get d').startTime < frameEnd) → d ∈ shown := by
  induction n generalizing e with
  | zero => exact ⟨[], [], rfl, fun d hd => by simp at hd, fun d _ _ => by omega⟩
  | succ n ih =>
    rw [showFrom, index_ofNat (by omega), ok_bind]
    split
    · obtain ⟨reads, shown, hshow, hreads, hshown⟩ := ih (by omega : e + 1 + n ≤ td.entries.size)
      rw [hshow, ok_bind]
      refine ⟨_, _, rfl, fun d hd => ?_, fun d hed hd hbefore => ?_⟩
      · rcases List.mem_cons.1 hd with rfl | hd
        · omega
        · have := hreads d hd
          omega
      · rcases Nat.eq_or_lt_of_le hed with rfl | hed
        · exact List.mem_cons_self
        · refine List.mem_cons_of_mem _ (hshown d hed (by omega) fun d' hd' => ?_)
          exact hbefore d' (by omega)
    · next hlate =>
      refine ⟨_, _, rfl, fun d hd => ?_, fun d hed _ hbefore => ?_⟩
      · have : d = e := by simpa using hd
        omega
      · exact absurd (hbefore e (Nat.le_refl e) hed) hlate

/-- The interval of the section overlaps that of the frame. -/
def Overlaps (entry : ProfilerEntry) (frame : Frame) : Prop :=
  entry.startTime < frame.endTime ∧ frame.startTime < entry.endTime

/-- From an entry that covers the frame, the walk reads only recorded entries and shows all that
overlap the frame but the last. -/
theorem ThreadData.Valid.walk {frame : Frame} {a : Nat} {T : Int} (H : td.Valid settings)
    (Ht : td.tree.Timed maxTime64 T) (ha : a < td.currentEntry)
    (hcovers : td.tree.Covers a frame.startTime) :
    ∃ reads shown, td.walk frame a = .ok (reads, shown) ∧ (∀ d ∈ reads, d < td.currentEntry) ∧
      ∀ e, e + 1 < td.currentEntry → Overlaps (td.entries.get e) frame → e ∈ shown := by
  have hle : td.currentEntry ≤ td.entries.size := by
    rw [H.entries_size]
    exact H.currentEntry_le
  have hfits := settings.fits.2.2.1
  have hcurrent := H.currentEntry_le
  obtain ⟨climbed, r, hclimb, hroot, hclimbed⟩ :=
    H.climb ha (n := td.entries.size + 1) (by omega)
  have hra := H.tree.root_le ha hroot
  obtain ⟨passed, b, hback, hbr, hpassed⟩ :=
    td.stepBack_ok frame.startTime (e := r) (by omega)
  have hlast : (td.currentEntry + (2 ^ 32 - 1)) % 2 ^ 32 = td.currentEntry - 1 := by omega
  have hroom : b + (td.currentEntry - 1 - b) = td.currentEntry - 1 := by omega
  obtain ⟨reads, shown, hshow, hreads, hshown⟩ := td.showFrom_ok frame.endTime (e := b)
    (n := td.currentEntry - 1 - b) (by omega)
  refine ⟨climbed ++ passed ++ reads, shown, ?_, fun d hd => ?_, fun e he hoverlap => ?_⟩
  · rw [ThreadData.walk, hclimb, ok_bind]
    simp only [hback, ok_bind, hlast, hshow, pure_eq_ok]
  · rcases List.mem_append.1 hd with hd | hd
    · rcases List.mem_append.1 hd with hd | hd
      · have := hclimbed d hd
        omega
      · have := hpassed d hd
        omega
    · have := hreads d hd
      omega
  · -- the sections that reach into the frame do not precede the outermost one
    have hre : r ≤ e := by
      by_cases hea : e ≤ a
      · exact hcovers r e hroot hea hoverlap.2
      · omega
    refine hshown e (by omega) (by omega) fun d hbd hde => ?_
    have hstart : (td.entries.get d).startTime ≤ (td.entries.get e).startTime :=
      Ht.start_mono hde (Nat.lt_of_succ_lt he)
    exact Int.lt_of_le_of_lt hstart hoverlap.1

/-! ### The slots of a frame -/

/-- What is drawn of the slot: only recorded entries are read, and unless the slot is hidden, all
but the last that overlap the frame are shown. -/
structure Complete (td : ThreadData) (frame : Frame) (drawn : Drawn) : Prop where
  reads_lt : ∀ e ∈ drawn.reads, e < td.currentEntry
  shown : td.hidden = false → ∀ e, e + 1 < td.currentEntry → Overlaps (td.entries.get e) frame →
    e ∈ drawn.shown

variable {Thread : Type} {s : Profiler Thread} {T : Instant} {f : Nat} {info : FrameThreadInfo}

theorem showThread_ok (hrec : s.Recording) (H : s.Clocked T) (hf : f < s.gCurrentFrame)
    (hinfo : info ∈ (s.frame f).listing) :
    ∃ drawn, s.showThread (s.frame f) info = .ok drawn ∧ drawn.slot = info.threadIndex ∧
      Complete (s.slot info.threadIndex) (s.frame f) drawn := by
  have hi := (hrec.listed f hf).lt_size info hinfo
  have hactive := (hrec.listed f hf).active_lt info hinfo
  have Hi := hrec.slots _ hi
  rw [showThread, index_ofNat hi, ok_bind]
  dsimp only
  by_cases hhidden : (s.slot info.threadIndex).hidden = true
  · rw [if_pos hhidden]
    exact ⟨_, rfl, rfl, fun e he => by simp at he, fun h => by simp [hhidden] at h⟩
  · have hinit : (s.slot info.threadIndex).initialized = true := by
      by_contra hinit
      have := (Hi.idle (by simpa using hinit)).1
      omega
    obtain ⟨reads, shown, hwalk, hreads, hshown⟩ :=
      Hi.walk (H.trees _ hi) hactive (H.covers f hf info hinfo)
    rw [if_neg hhidden, assert_pos hinit, ok_bind, hwalk, ok_bind]
    exact ⟨_, rfl, rfl, hreads, fun _ => hshown⟩

/-- The loop over the slots draws each of them. -/
theorem showThreads_ok {frame : Frame} {k : Nat} (hsize : k + n ≤ frame.frameThreads.size)
    (hok : ∀ k', k ≤ k' → k' < k + n →
      ∃ drawn, s.showThread frame (frame.frameThreads.get k') = .ok drawn) :
    ∃ result, s.showThreads frame n k = .ok result ∧
      (∀ drawn ∈ result, ∃ k', k ≤ k' ∧ k' < k + n ∧
        s.showThread frame (frame.frameThreads.get k') = .ok drawn) ∧
      ∀ k', k ≤ k' → k' < k + n →
        ∃ drawn ∈ result, s.showThread frame (frame.frameThreads.get k') = .ok drawn := by
  induction n generalizing k with
  | zero => exact ⟨[], rfl, fun _ hd => by simp at hd, fun k' _ _ => by omega⟩
  | succ n ih =>
    obtain ⟨drawn, hdrawn⟩ := hok k (Nat.le_refl k) (by omega)
    obtain ⟨result, hresult, hfrom, hall⟩ := ih (by omega : k + 1 + n ≤ frame.frameThreads.size)
      fun k' hk hk' => hok k' (by omega) (by omega)
    rw [showThreads, index_ofNat (by omega), ok_bind, hdrawn, ok_bind, hresult, ok_bind]
    refine ⟨drawn :: result, rfl, fun d hd => ?_, fun k' hk hk' => ?_⟩
    · rcases List.mem_cons.1 hd with rfl | hd
      · exact ⟨k, Nat.le_refl k, by omega, hdrawn⟩
      · obtain ⟨k', hk, hk', h⟩ := hfrom d hd
        exact ⟨k', by omega, by omega, h⟩
    · rcases Nat.eq_or_lt_of_le hk with rfl | hk
      · exact ⟨drawn, List.mem_cons_self, hdrawn⟩
      · obtain ⟨d, hd, h⟩ := hall k' hk (by omega)
        exact ⟨d, List.mem_cons_of_mem _ hd, h⟩

theorem Frame.mem_listing {frame : Frame} :
    info ∈ frame.listing ↔ ∃ k < frame.frameThreadCount, frame.frameThreads.get k = info := by
  simp [listing]

/-- In every run without `Finish` in which the clock does not run backwards: `ShowProfile` draws
every frame before the last without reading past the recorded entries, and shows each section that
overlaps the frame, unless its slot is hidden or it is the last of its slot. -/
theorem Run.shows_overlapping [DecidableEq Thread]
    {allowed : List (Event Thread) → Profiler Thread → Thread → Call → Prop}
    {h : List (Event Thread)} (hfinish : ∀ h s t, ¬allowed h s t .finish) (hrun : Run allowed h s)
    (horder : InOrder h) (hf : f + 2 ≤ s.gCurrentFrame) :
    ∃ result, s.showFrame f = .ok result ∧
      (∀ drawn ∈ result, ∀ e ∈ drawn.reads, e < (s.slot drawn.slot).currentEntry) ∧
      ∀ j < s.gThreadData.size, (s.slot j).hidden = false →
        ∀ e, e + 1 < (s.slot j).currentEntry → Overlaps ((s.slot j).entries.get e) (s.frame f) →
          ∃ drawn ∈ result, drawn.slot = j ∧ e ∈ drawn.shown := by
  have hrec := hrun.recording hfinish
  have hf' : f < s.gCurrentFrame := by omega
  have hsize : f < s.gFrameData.size := Nat.lt_of_lt_of_le hf' hrec.currentFrame_le
  have H : s.Clocked ⟨2 ^ 63 - 1, by decide⟩ :=
    hrun.clocked hfinish horder fun e _ => Nat.le_of_lt_succ e.now.isLt
  have hdrawn : ∀ k < (s.frame f).frameThreadCount, ∃ drawn,
      s.showThread (s.frame f) ((s.frame f).frameThreads.get k) = .ok drawn ∧
        drawn.slot = ((s.frame f).frameThreads.get k).threadIndex ∧
        Complete (s.slot drawn.slot) (s.frame f) drawn := by
    intro k hk
    obtain ⟨drawn, hok, hslot, hcomplete⟩ :=
      showThread_ok hrec H hf' (Frame.mem_listing.2 ⟨k, hk, rfl⟩)
    exact ⟨drawn, hok, hslot, hslot ▸ hcomplete⟩
  have hroom : 0 + (s.frame f).frameThreadCount ≤ (s.frame f).frameThreads.size := by
    rw [Nat.zero_add, hrec.frameThreads_size f hsize]
    exact (hrec.listed f hf').count_le
  obtain ⟨result, hresult, hfrom, hall⟩ := showThreads_ok (s := s) hroom fun k _ hk => by
    obtain ⟨drawn, hok, -⟩ := hdrawn k (by omega)
    exact ⟨drawn, hok⟩
  refine ⟨result, ?_, fun drawn hmem => ?_, fun j hj hhidden e he hoverlap => ?_⟩
  · rw [showFrame, index_ofNat hsize, ok_bind]
    exact hresult
  · obtain ⟨k, -, hk, hok⟩ := hfrom drawn hmem
    obtain ⟨drawn', hok', -, hcomplete⟩ := hdrawn k (by omega)
    obtain rfl := Except.ok.inj (hok.symm.trans hok')
    exact hcomplete.reads_lt
  · by_cases hlisted : ∃ info ∈ (s.frame f).listing, info.threadIndex = j
    · obtain ⟨info, hinfo, rfl⟩ := hlisted
      obtain ⟨k, hk, rfl⟩ := Frame.mem_listing.1 hinfo
      obtain ⟨drawn, hmem, hok⟩ := hall k (Nat.zero_le k) (by omega)
      obtain ⟨drawn', hok', hslot, hcomplete⟩ := hdrawn k hk
      obtain rfl := Except.ok.inj (hok.symm.trans hok')
      rw [hslot] at hcomplete
      exact ⟨drawn, hmem, hslot, hcomplete.shown hhidden e he hoverlap⟩
    · -- the sections of a slot that is not listed begin after the frame
      push Not at hlisted
      have hlater : (s.frame f).endTime ≤ ((s.slot j).entries.get e).startTime :=
        H.unlisted f (by omega) j hj hlisted e (by omega)
      exact absurd hoverlap.1 (Int.not_lt.2 hlater)

/-- A section that was begun before the first frame and is still open. -/
theorem Run.shows_overlapping_outer : ∃ (s : Profiler Unit) (result : List Drawn),
    s.showFrame 0 = .ok result ∧ ∃ drawn ∈ result, drawn.slot = 1 ∧ 0 ∈ drawn.shown := by
  obtain ⟨h, s, hcalls, horder, hframes, hsize, hcur, hhidden, hoverlap⟩ :
      ∃ (h : List (Event Unit)) (s : Profiler Unit),
        performAll [] .new [
          ((), 0, .setProfileSettings ⟨2, 20, 8, 4, 4, by decide⟩),
          ((), 1, .pushSection (some "outer") 0 (some "main.cpp") 1),
          ((), 2, .newFrame),
          ((), 3, .pushSection (some "inner") 0 (some "main.cpp") 2),
          ((), 4, .newFrame)] = .ok (h, s) ∧ InOrder h ∧ 2 ≤ s.gCurrentFrame ∧
        1 < s.gThreadData.size ∧ 1 < (s.slot 1).currentEntry ∧ (s.slot 1).hidden = false ∧
        Overlaps ((s.slot 1).entries.get 0) (s.frame 0) :=
    ⟨_, _, rfl, by simp [InOrder], by decide, by decide, by decide, rfl, by decide, by decide⟩
  have hrun : Run (fun _ _ _ c => c ≠ .finish) h s := Run.of_performAll .new (by simp) hcalls
  obtain ⟨result, hshow, -, hall⟩ := Run.shows_overlapping (by simp) hrun horder hframes
  exact ⟨s, result, hshow, hall 1 hsize hhidden 0 hcur hoverlap⟩

end MUtils.Profiler
