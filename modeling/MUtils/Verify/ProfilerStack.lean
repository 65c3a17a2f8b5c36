import MUtils.Verify.ProfilerProgress

/-!
# The call stack of a slot

`PushSectionBase` asserts that a slot has less than `MaxCallStack` sections open, but `Init` gives
every slot a stack of 50 entries, whatever the settings are. In every run, `PopSection` stays within
the stack; `PushSectionBase` does so exactly if `MaxCallStack` is at most 50, or the thread has less
than 50 scopes open that were recorded since the last reset, or nothing is recorded
(`Run.entryStack_in_range_iff`).
-/

namespace MUtils.Profiler
open Outcome

variable {Thread : Type} [DecidableEq Thread] {s s' s₁ : Profiler Thread} {t : Thread}
  {now : Instant} {i : Nat} {h : List (Event Thread)}
  {szSection szFile : Option String} {color : UInt32} {line : Int}

/-! ### The sizes of the buffers -/

/-- The buffers of a slot are as `Init` made them, and the stack has not outgrown its own. -/
structure ThreadData.Buffers (settings : ProfileSettings) (td : ThreadData) : Prop where
  entries_size : td.entries.size = settings.MaxEntriesPerThread
  entryStack_size : td.entryStack.size = 50
  callStackDepth_le : td.callStackDepth ≤ 50

/-- Unlike `Recording`, this is kept by `Finish`, which leaves no slot. -/
def Buffered (s : Profiler Thread) : Prop :=
  ∀ j < s.gThreadData.size, (s.slot j).Buffers s.settings

namespace Buffered

omit [DecidableEq Thread] in
theorem modify {f : ThreadData → ThreadData} (H : s.Buffered)
    (hf : (s.slot i).Buffers s.settings → (f (s.slot i)).Buffers s.settings) :
    Buffered { s with gThreadData := s.gThreadData.modify i f } := by
  intro j hj
  rw [slot_modify]
  split
  · next hji => exact hf (H i (hji ▸ hj))
  · exact H j hj

theorem useSlot (H : s.Buffered) : (s.useSlot t i).Buffered :=
  H.modify fun Hi => ⟨Hi.entries_size, Hi.entryStack_size, Hi.callStackDepth_le⟩

theorem acquire (H : s.Buffered) (ha : Acquire s t i s₁) : s₁.Buffered := by
  cases ha with
  | owned => exact H
  | fresh => exact H.useSlot

theorem quiet (H : s.Buffered) (hstep : Quiet t now s s') : s'.Buffered := by
  cases hstep with
  | flags | limit | region | frame => exact H
  | use => exact H.useSlot
  | change _ _ _ hf =>
    refine H.modify fun Hi => ?_
    obtain ⟨hidden, name, hf⟩ := hf (s.slot _)
    rw [hf]
    exact ⟨Hi.entries_size, Hi.entryStack_size, Hi.callStackDepth_le⟩

theorem atomic (H : s.Buffered) (hstep : Atomic t now s s') : s'.Buffered := by
  cases hstep with
  | quiet hstep => exact H.quiet hstep
  | start =>
    intro j _
    rw [slot_restarted]
    exact ⟨rfl, rfl, Nat.zero_le _⟩
  | push _ hcan =>
    refine H.modify fun Hi => ⟨Hi.entries_size, Hi.entryStack_size, ?_⟩
    have := hcan.entryStack
    rw [Hi.entryStack_size] at this
    exact this
  | pop =>
    refine H.modify fun Hi => ⟨Hi.entries_size, Hi.entryStack_size, ?_⟩
    exact Nat.le_trans (Nat.sub_le _ _) Hi.callStackDepth_le

end Buffered

theorem Run.buffered {allowed : List (Event Thread) → Profiler Thread → Thread → Call → Prop}
    (hrun : Run allowed h s) : s.Buffered := by
  refine hrun.preserves ?_ (fun _ _ _ _ => Buffered.atomic) ?_
  · exact fun j hj => absurd hj (Nat.not_lt_zero j)
  · exact fun _ _ _ _ _ j hj => absurd hj (Nat.not_lt_zero j)

/-! ### Which calls leave the stack -/

/-- An index that is outside of the stack of a slot. -/
def stackFault (e : Fault) : Prop := e = .outOfRange "entryStack"

theorem index_avoids_stack {k : Int} {size : Nat} {container : String}
    (h : container ≠ "entryStack") : Avoids stackFault (index k size container) :=
  avoids_index fun _ => by simp [stackFault, h]

theorem assert_avoids_stack {p : Prop} [Decidable p] {expr : String} :
    Avoids stackFault (assert p expr) :=
  avoids_assert fun _ => by simp [stackFault]

theorem initThreadFrom_avoids_stack {n k : Nat} :
    Avoids stackFault (s.initThreadFrom t n k) := by
  induction n generalizing k with
  | zero => exact avoids_error.2 (by simp [stackFault])
  | succ n ih =>
    refine (index_avoids_stack (by decide)).bind fun k _ => ?_
    split
    · exact ih
    · exact avoids_ok

theorem GetThreadData_avoids_stack : Avoids stackFault (s.GetThreadData t) := by
  unfold GetThreadData
  extract_lets s' lookUp
  have hlookUp : ∀ s, Avoids stackFault (lookUp s) := fun s =>
    (index_avoids_stack (by decide)).bind fun _ _ => avoids_ok
  split
  · exact initThreadFrom_avoids_stack.bind fun _ _ => hlookUp _
  · exact hlookUp _

omit [DecidableEq Thread] in
theorem Buffered.popEntry_avoids (H : s.Buffered) (hi : i < s.gThreadData.size)
    (hpos : 0 < (s.slot i).callStackDepth) : Avoids stackFault (s.popEntry now i) := by
  have Hi := H i hi
  have hlast : ((s.slot i).callStackDepth : Int) - 1 = ((s.slot i).callStackDepth - 1 : Nat) := by
    omega
  have hlt : (s.slot i).callStackDepth - 1 < (s.slot i).entryStack.size := by
    rw [Hi.entryStack_size]
    have := Hi.callStackDepth_le
    omega
  simp only [popEntry, hlast, index_ofNat hlt, ok_bind]
  refine (index_avoids_stack (by decide)).bind fun _ _ => ?_
  exact assert_avoids_stack.bind fun _ _ => avoids_ok

theorem Buffered.PopSection_avoids (H : s.Buffered) : Avoids stackFault (s.PopSection t now) := by
  refine (whenRecording_avoids_iff fun _ => GetThreadData_avoids_stack).2 fun i s₁ ha hr => ?_
  split
  · exact avoids_ok
  · split
    · exact avoids_ok
    · next hpos => exact (H.acquire ha).popEntry_avoids hr.lt_size (Nat.not_le.1 hpos)

omit [DecidableEq Thread] in
theorem Buffered.entries_lt (H : s.Buffered) (hr : s.Ready t i) :
    (s.slot i).currentEntry < (s.slot i).entries.size := by
  have hlt := hr.not_full
  simp only [Full, not_or, Nat.not_le] at hlt
  rw [(H i hr.lt_size).entries_size]
  exact hlt.1

omit [DecidableEq Thread] in
theorem Buffered.pushEntry_error (H : s.Buffered) (hr : s.Ready t i)
    (hdepth : 50 ≤ (s.slot i).callStackDepth) :
    s.pushEntry now szSection color szFile line i = .error (.outOfRange "entryStack") := by
  have hsize := (H i hr.lt_size).entryStack_size
  have hout : ((s.slot i).entryStack.size : Int) ≤ (s.slot i).callStackDepth := by omega
  rw [pushEntry, index_ofNat (H.entries_lt hr), ok_bind, index_error (.inr hout), error_bind]

omit [DecidableEq Thread] in
/-- The first access to the stack decides. -/
theorem Buffered.pushEntry_avoids_iff (H : s.Buffered) (hr : s.Ready t i) :
    Avoids stackFault (s.pushEntry now szSection color szFile line i) ↔
      (s.slot i).callStackDepth < 50 := by
  by_cases hdepth : (s.slot i).callStackDepth < 50
  · have hstack : (s.slot i).callStackDepth < (s.slot i).entryStack.size := by
      rw [(H i hr.lt_size).entryStack_size]
      exact hdepth
    refine iff_of_true ?_ hdepth
    rw [pushEntry, index_ofNat (H.entries_lt hr), ok_bind, index_ofNat hstack, ok_bind]
    refine (ThreadData.checkParent_avoids (by simp [stackFault])).bind fun _ _ => ?_
    refine assert_avoids_stack.bind fun _ _ => assert_avoids_stack.bind fun _ _ => ?_
    refine (listFirstEntry_avoids ?_ ?_).bind fun _ _ => avoids_ok
    · simp [stackFault]
    · simp [stackFault]
  · rw [H.pushEntry_error hr (Nat.not_lt.1 hdepth), avoids_error]
    simp [stackFault, hdepth]

theorem Buffered.PushSectionBase_avoids_iff (H : s.Buffered) :
    Avoids stackFault (s.PushSectionBase t now szSection color szFile line) ↔
      ∀ i s₁, Acquire s t i s₁ → s₁.Ready t i →
        (s₁.slot i).callStackDepth < s₁.settings.MaxCallStack →
        (s₁.slot i).callStackDepth < 50 := by
  refine (whenRecording_avoids_iff fun _ => GetThreadData_avoids_stack).trans ?_
  refine forall_congr' fun i => forall_congr' fun s₁ => forall_congr' fun ha =>
    forall_congr' fun hr => ?_
  by_cases hcall : (s₁.slot i).callStackDepth < s₁.settings.MaxCallStack
  · rw [assert_pos hcall, ok_bind, if_neg (by simp [hr.unpaused]),
      (H.acquire ha).pushEntry_avoids_iff hr]
    exact ⟨fun hlt _ => hlt, fun hlt => hlt hcall⟩
  · rw [assert_neg hcall, error_bind, avoids_error]
    simp [stackFault, hcall]

/-! ### Open scopes -/

/-- What holds in every run: after `Finish` there is no slot until the next generation, and
otherwise the stacks hold the scopes that were recorded. -/
structure Tracked (h : List (Event Thread)) (s : Profiler Thread) : Prop where
  held : s.SlotsHeld
  generation_le : ∀ {t m}, some m ∈ scopes h t → m.generation ≤ s.gProfilerGeneration
  live : 0 < s.gThreadData.size → s.Recording ∧ Matched h s

namespace Tracked
variable {c : Call} {m : Option Mark}

theorem new : Tracked [] (new : Profiler Thread) :=
  ⟨.new, fun hm => absurd hm List.not_mem_nil, fun hpos => absurd hpos (Nat.lt_irrefl 0)⟩

theorem finish (H : Tracked h s) : Tracked (⟨t, now, .finish, none⟩ :: h) s.Finish where
  held := H.held.finish
  generation_le hm := by
    rw [scopes_cons_of_not_isSection rfl] at hm
    exact H.generation_le hm
  live hpos := absurd hpos (Nat.lt_irrefl 0)

theorem quiets_held (hheld : s.SlotsHeld) (hq : Relation.ReflTransGen (Quiet t now) s s') :
    s'.SlotsHeld ∧ s'.gThreadData.size = s.gThreadData.size ∧
      s'.gProfilerGeneration = s.gProfilerGeneration := by
  induction hq with
  | refl => exact ⟨hheld, rfl, rfl⟩
  | tail _ hq ih =>
    obtain ⟨hheld, hsame⟩ := ih
    refine ⟨hheld.quiet hq, ?_⟩
    cases hq <;> exact hsame

/-- Without slots nothing is recorded, and there is no slot to be given out. -/
theorem performed_empty (H : Tracked h s) (hempty : ¬0 < s.gThreadData.size)
    (hp : Performed t now s c m s') : Tracked (⟨t, now, c, m⟩ :: h) s' := by
  have hquiet {s' : Profiler Thread} (hq : Relation.ReflTransGen (Quiet t now) s s') :
      Tracked (⟨t, now, c, none⟩ :: h) s' := by
    obtain ⟨hheld, hsize, hgen⟩ := quiets_held H.held hq
    refine ⟨hheld, fun hm => ?_, fun hpos => absurd (hsize ▸ hpos) hempty⟩
    rw [hgen]
    rcases mem_scopes_cons hm with hm | hm
    · cases hm
    · exact H.generation_le hm
  have hnone {s₁ : Profiler Thread} {i : Nat} (hq : Relation.ReflTransGen (Quiet t now) s s₁)
      (hr : s₁.Ready t i) : False :=
    hempty ((quiets_held H.held hq).2.1 ▸ Nat.zero_lt_of_lt hr.lt_size)
  cases hp with
  | start request hc =>
    have hmatched : Matched (⟨t, now, c, none⟩ :: h)
        (s.restarted t now (c.settings s) request) :=
      (Matched.restarted H.generation_le H.held).cons_of_not_isSection (Call.isSection_of_starts hc)
    exact ⟨H.held.restarted, hmatched.generation_le, fun _ => ⟨.restarted, hmatched⟩⟩
  | quiet _ hq | drop _ hq => exact hquiet hq
  | push hq hr | skip hq hr | pop hq hr => exact (hnone hq hr).elim

theorem call (H : Tracked h s) (hcall : perform t now c s = .ok (m, s')) :
    Tracked (⟨t, now, c, m⟩ :: h) s' := by
  by_cases hc : c = .finish
  · subst hc
    cases hcall
    exact H.finish
  have hp := perform_cases hc hcall
  by_cases hpos : 0 < s.gThreadData.size
  · obtain ⟨hrec, hmatched⟩ := H.live hpos
    have hmatched' := hmatched.performed H.held hrec hp
    have hkeeps := perform_preserves (P := fun s => s.SlotsHeld ∧ s.Recording)
      (fun s s' H h => ⟨H.1.atomic h, H.2.atomic H.1 h⟩) (fun heq => absurd heq hc) hcall
      ⟨H.held, hrec⟩
    exact ⟨hkeeps.1, hmatched'.generation_le, fun _ => ⟨hkeeps.2, hmatched'⟩⟩
  · exact H.performed_empty hpos hp

/-- A thread that records has as many entries on its stack as scopes that were recorded. -/
theorem callStackDepth_eq (H : Tracked h s) (hr : s.Ready t i) :
    (s.slot i).callStackDepth = (recorded h t s.gProfilerGeneration).length := by
  obtain ⟨-, hmatched⟩ := H.live (Nat.zero_lt_of_lt hr.lt_size)
  rw [hmatched.recorded_eq hr.unpaused, openMarks_of_owns hr.owns, List.length_map,
    ThreadData.tree, length_openEntries]

theorem PushSectionBase_avoids_iff (H : Tracked h s) (Hb : s.Buffered) :
    Avoids stackFault (s.PushSectionBase t now szSection color szFile line) ↔
      s.settings.MaxCallStack ≤ 50 ∨ (recorded h t s.gProfilerGeneration).length < 50 ∨
        ∀ i, ¬s.Ready t i := by
  rw [Hb.PushSectionBase_avoids_iff]
  constructor
  · intro havoids
    by_contra hnot
    obtain ⟨hmax, hopen, hready⟩ := by simpa only [not_or, not_forall, not_not] using hnot
    obtain ⟨i, hr⟩ := hready
    have hle := (Hb i hr.lt_size).callStackDepth_le
    have hlt := havoids i s (.owned hr.owns hr.lt_size) hr (by omega)
    rw [H.callStackDepth_eq hr] at hlt
    exact hopen hlt
  · intro hcond i s₁ ha hr hlt
    cases ha with
    | owned =>
      rcases hcond with hmax | hopen | hready
      · exact Nat.lt_of_lt_of_le hlt hmax
      · rwa [H.callStackDepth_eq hr]
      · exact absurd hr (hready i)
    | fresh _ hfree =>
      -- a slot that is given out has an empty stack
      have hrec := (H.live (Nat.zero_lt_of_lt hfree.lt_size)).1
      rw [slot_useSlot, if_pos rfl]
      exact ((hrec.slots i hfree.lt_size).idle hfree.free).2.trans_lt (by decide)

end Tracked

theorem Run.tracked {allowed : List (Event Thread) → Profiler Thread → Thread → Call → Prop}
    (hrun : Run allowed h s) : Tracked h s := by
  induction hrun with
  | new => exact .new
  | call _ _ hcall ih => exact ih.call hcall

/-! ### A run with many open sections -/

/-- A call stack of more than 50 sections. -/
def deep : ProfileSettings := ⟨2, 51, 51, 1, 1, by decide⟩

/-- One thread has `k` sections open. -/
structure Deep (k : Nat) (h : List (Event Unit)) (s : Profiler Unit) : Prop where
  run : Run (Permitted {()}) h s
  settings : s.settings = deep
  unpaused : s.gPaused = false
  owns : s.Owns () 1
  currentEntry : (s.slot 1).currentEntry = k
  callStackDepth : (s.slot 1).callStackDepth = k
  currentFrame : s.gCurrentFrame = 0
  currentRegion : s.gCurrentRegion = 0
  scopes_length : (scopes h ()).length = k

namespace Deep
variable {k : Nat} {h : List (Event Unit)} {s : Profiler Unit}

theorem zero : ∃ h s, Deep 0 h s := by
  obtain ⟨h, s, hrun, hsettings, hp, ho, hcur, hdepth, hframe, hregion, hclosed⟩ :=
    exists_named deep ⟨_, _, _, rfl⟩
  exact ⟨h, s, hrun.mono Nested.toPermitted, hsettings, hp, ho, hcur, hdepth, hframe, hregion,
    by rw [hclosed]; rfl⟩

theorem ready (H : Deep k h s) (hk : k ≤ 50) : s.Ready () 1 := by
  refine ⟨H.unpaused, H.owns, H.run.sound.enrolled.lt_size H.unpaused H.owns, ?_⟩
  simp only [Full, H.settings, H.currentEntry, H.currentFrame, H.currentRegion, deep]
  omega

theorem succ (H : Deep k h s) (hk : k < 50) : ∃ h s, Deep (k + 1) h s := by
  have hr := H.ready (Nat.le_of_lt hk)
  have hrec := H.run.sound.recording
  have hcan : s.CanPush 1 (some "section") (some "main.cpp") := by
    refine ⟨hrec.room hr (by rw [H.callStackDepth]; exact hk), ?_,
      (hrec.slots 1 hr.lt_size).top_lt, by simp, by simp⟩
    rw [H.callStackDepth, H.settings]
    exact Nat.lt_succ_of_lt hk
  have hperm : Permitted {()} h s () (.pushSection (some "section") 0 (some "main.cpp") 1) := by
    refine ⟨by simp, by simp, by simp [Call.starts], fun _ => ?_, by simp⟩
    rw [H.scopes_length]
    exact hk
  have hcall : perform () 0 (.pushSection (some "section") 0 (some "main.cpp") 1) s = _ :=
    (PushSectionBase_ready (.owned hr.owns hr.lt_size) hr).2 ⟨hcan, rfl, rfl⟩
  refine ⟨_, _, H.run.call hperm hcall, H.settings, H.unpaused, H.owns, ?_, ?_, H.currentFrame,
    H.currentRegion, ?_⟩
  · rw [slot_pushed, if_pos rfl, ThreadData.push, H.currentEntry]
  · rw [slot_pushed, if_pos rfl, ThreadData.push, H.callStackDepth]
  · rw [scopes_push, if_pos rfl, List.length_cons, H.scopes_length]

theorem exists_deep (hk : k ≤ 50) : ∃ h s, Deep k h s := by
  induction k with
  | zero => exact zero
  | succ k ih =>
    obtain ⟨h, s, H⟩ := ih (Nat.le_of_succ_le hk)
    exact H.succ hk

end Deep

/-- For every run, whatever the settings were, and every call that may come next: the scopes that
count are those that the thread has open and that were recorded since the last reset. -/
theorem Run.entryStack_in_range_iff (hrun : Run (fun _ _ _ _ => True) h s) (t : Thread)
    (now : Instant) (szSection : Option String) (color : UInt32) (szFile : Option String)
    (line : Int) :
    Avoids stackFault (s.PopSection t now) ∧
    (Avoids stackFault (s.PushSectionBase t now szSection color szFile line) ↔
      s.settings.MaxCallStack ≤ 50 ∨ (recorded h t s.gProfilerGeneration).length < 50 ∨
        ∀ i, ¬s.Ready t i) :=
  ⟨hrun.buffered.PopSection_avoids, hrun.tracked.PushSectionBase_avoids_iff hrun.buffered⟩

/-- A call stack of more than 50 sections, with 49 of them open. -/
theorem Run.entryStack_in_range_iff_deep : ∃ (h : List (Event Unit)) (s : Profiler Unit),
    50 < s.settings.MaxCallStack ∧ (recorded h () s.gProfilerGeneration).length = 49 ∧
      Avoids stackFault (s.PushSectionBase () 0 (some "section") 0 (some "main.cpp") 1) := by
  obtain ⟨h, s, H⟩ := Deep.exists_deep (k := 49) (by decide)
  have hopen : (recorded h () s.gProfilerGeneration).length = 49 := by
    rw [← H.run.tracked.callStackDepth_eq (H.ready (by decide)), H.callStackDepth]
  refine ⟨h, s, by rw [H.settings]; decide, hopen, ?_⟩
  have hrun : Run (fun _ _ _ _ => True) h s := H.run.mono fun _ => trivial
  refine (hrun.entryStack_in_range_iff () 0 (some "section") 0 (some "main.cpp") 1).2.mpr ?_
  exact .inr (.inl (by rw [hopen]; decide))

/-- With 50 sections open, the assert lets one more section begin. -/
theorem Run.entryStack_outside : ∃ (h : List (Event Unit)) (s : Profiler Unit),
    Run (fun _ _ _ _ => True) h s ∧ (s.slot 1).callStackDepth < s.settings.MaxCallStack ∧
      s.PushSectionBase () 0 (some "section") 0 (some "main.cpp") 1 =
        .error (.outOfRange "entryStack") := by
  obtain ⟨h, s, H⟩ := Deep.exists_deep (Nat.le_refl 50)
  have hr := H.ready (Nat.le_refl 50)
  have hcall : (s.slot 1).callStackDepth < s.settings.MaxCallStack := by
    rw [H.callStackDepth, H.settings]
    decide
  refine ⟨h, s, H.run.mono fun _ => trivial, hcall, ?_⟩
  rw [PushSectionBase, whenRecording_ready (.owned hr.owns hr.lt_size) hr, assert_pos hcall,
    ok_bind, if_neg (by simp [hr.unpaused])]
  exact H.run.buffered.pushEntry_error hr H.callStackDepth.ge

end MUtils.Profiler
