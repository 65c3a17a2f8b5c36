import MUtils.Time.Profiler

/-!
# What a call of the profiler can do

`Call` is the public functions, `perform` one call, and `Run` the sequences of calls that return.
A call is a sequence of a few elementary changes of the state (`Atomic`): a pause, a new generation,
a slot given out, an entry pushed or closed, a frame or a region. `perform_atomic` shows this once
for all calls, so an invariant of runs is an invariant of the elementary changes.
-/

namespace MUtils.Profiler
open Outcome

/-- The functions of the header, of which `ShowProfile` is its own section around `updatePause`. -/
inductive Call where
  | setProfileSettings (settings : ProfileSettings)
  | init
  | newFrame
  | nameThread (pszName : String)
  | setPaused (pause : Bool)
  | beginRegion
  | endRegion
  | setRegionLimit (maxTimeNs : UInt64)
  | pushSection (szSection : Option String) (color : UInt32) (szFile : Option String) (line : Int)
  | popSection
  | updatePause (pressed : Bool)
  | hideThread
  | finish

variable {Thread : Type} [DecidableEq Thread]

/-- One call by the thread `t` at the time `now`, with the entry that it wrote. -/
def perform (t : Thread) (now : Instant) :
    Call → Profiler Thread → Outcome (Option Mark × Profiler Thread)
  | .setProfileSettings settings, s => do return (none, ← s.SetProfileSettings t now settings)
  | .init, s => do return (none, ← s.Init t now)
  | .newFrame, s => do return (none, ← s.NewFrame t now)
  | .nameThread pszName, s => do return (none, ← s.NameThread t pszName)
  | .setPaused pause, s => .ok (none, s.SetPaused pause)
  | .beginRegion, s => s.BeginRegion t now
  | .endRegion, s => s.EndRegion t now
  | .setRegionLimit maxTimeNs, s => .ok (none, s.SetRegionLimit maxTimeNs)
  | .pushSection szSection color szFile line, s =>
    s.PushSectionBase t now szSection color szFile line
  | .popSection, s => s.PopSection t now
  | .updatePause pressed, s => do return (none, ← s.updatePause t now pressed)
  | .hideThread, s => do return (none, ← s.HideThread t)
  | .finish, s => .ok (none, s.Finish)

/-- A call that was made. -/
structure Event (Thread : Type) where
  thread : Thread
  now : Instant
  call : Call
  mark : Option Mark

/-- The runs of calls that `allowed` lets through: `h` is the calls made so far, the latest
first. -/
inductive Run (allowed : List (Event Thread) → Profiler Thread → Thread → Call → Prop) :
    List (Event Thread) → Profiler Thread → Prop
  | new : Run allowed [] .new
  | call : Run allowed h s → allowed h s t c → perform t now c s = .ok (m, s') →
      Run allowed (⟨t, now, c, m⟩ :: h) s'

/-- Makes calls one after another. -/
def performAll (h : List (Event Thread)) (s : Profiler Thread) :
    List (Thread × Instant × Call) → Outcome (List (Event Thread) × Profiler Thread)
  | [] => .ok (h, s)
  | (t, now, c) :: calls => do
    let (m, s) ← perform t now c s
    performAll (⟨t, now, c, m⟩ :: h) s calls

theorem Run.of_performAll {allowed : List (Event Thread) → Profiler Thread → Thread → Call → Prop}
    {h h' : List (Event Thread)} {s s' : Profiler Thread} {calls : List (Thread × Instant × Call)}
    (hrun : Run allowed h s) (hcalls : ∀ x ∈ calls, ∀ h s, allowed h s x.1 x.2.2)
    (hperform : performAll h s calls = .ok (h', s')) : Run allowed h' s' := by
  induction calls generalizing h s with
  | nil =>
    cases hperform
    exact hrun
  | cons x calls ih =>
    obtain ⟨⟨m, s₁⟩, hcall, hperform⟩ := bind_eq_ok.1 hperform
    refine ih (hrun.call (hcalls x List.mem_cons_self h s) hcall) (fun y hy => ?_) hperform
    exact hcalls y (List.mem_cons_of_mem _ hy)

/-! ### Elementary changes -/

/-- The data of slot `j`. -/
abbrev slot (s : Profiler Thread) (j : Nat) : ThreadData := s.gThreadData.get j

/-- The thread `t` was given slot `j` in the current generation. -/
def Owns (s : Profiler Thread) (t : Thread) (j : Nat) : Prop :=
  s.gGenerationTLS t = s.gProfilerGeneration ∧ s.gThreadIndexTLS t = j

/-- The thread `t` has to be given a slot. -/
def Unregistered (s : Profiler Thread) (t : Thread) : Prop :=
  s.gGenerationTLS t = s.gProfilerGeneration → s.gThreadIndexTLS t = -1

/-- Slot `i` is the first that is free. -/
structure Free (s : Profiler Thread) (i : Nat) : Prop where
  lt_size : i < s.gThreadData.size
  lt_max : i < s.settings.MaxThreads
  free : (s.slot i).initialized = false
  before : ∀ k < i, (s.slot k).initialized

/-- `s₁` is the state in which `t` has its slot `i`: it had it before, or it is given the first
slot that is free, whose index has to be an `int`. -/
inductive Acquire (s : Profiler Thread) (t : Thread) : Nat → Profiler Thread → Prop
  | owned : s.Owns t i → i < s.gThreadData.size → Acquire s t i s
  | fresh : s.Unregistered t → s.Free i → i < 2 ^ 31 → Acquire s t i (s.useSlot t i)

/-- `CheckEndState` finds a full buffer. -/
def Full (s : Profiler Thread) (i : Nat) : Prop :=
  s.settings.MaxEntriesPerThread ≤ (s.slot i).currentEntry ∨
    s.settings.MaxFrames ≤ s.gCurrentFrame ∨ s.settings.MaxRegions ≤ s.gCurrentRegion

instance (s : Profiler Thread) (i : Nat) : Decidable (s.Full i) :=
  inferInstanceAs (Decidable (_ ∨ _))

/-- The thread `t` may write to its slot `i`. -/
structure Ready (s : Profiler Thread) (t : Thread) (i : Nat) : Prop where
  unpaused : s.gPaused = false
  owns : s.Owns t i
  lt_size : i < s.gThreadData.size
  not_full : ¬s.Full i

/-- The ways in which a function that records can return. -/
inductive Recorded (s : Profiler Thread) (t : Thread)
    (body : Nat → Profiler Thread → Outcome (Option Mark × Profiler Thread)) :
    Option Mark → Profiler Thread → Prop
  | paused : s.gPaused = true → Recorded s t body none s
  | full : s.gPaused = false → Acquire s t i s₁ → s₁.Full i → Recorded s t body none s₁.pause
  | ready : Acquire s t i s₁ → s₁.Ready t i → body i s₁ = .ok (m, s') → Recorded s t body m s'

/-- An entry is pushed on the stack of slot `i`; the slot's first entry is listed in the last
frame. -/
def pushed (s : Profiler Thread) (now : Instant) (i : Nat) (szSection : Option String)
    (color : UInt32) (szFile : Option String) (line : Int) : Profiler Thread :=
  { s with
    gThreadData := s.gThreadData.modify i (·.push szSection color szFile line (s.elapsed now))
    gFrameData :=
      if (s.slot i).currentEntry = 0 ∧ 0 < s.gCurrentFrame then
        s.gFrameData.modify (s.gCurrentFrame - 1) (·.added ⟨i, 0⟩)
      else s.gFrameData
    gRestarting := false }

/-- There is room for an entry in slot `i`, and for the slot in the last frame if it has to be
listed there. -/
structure Room (s : Profiler Thread) (i : Nat) : Prop where
  entries : (s.slot i).currentEntry < (s.slot i).entries.size
  entryStack : (s.slot i).callStackDepth < (s.slot i).entryStack.size
  frame : (s.slot i).currentEntry = 0 → 0 < s.gCurrentFrame →
    s.gCurrentFrame - 1 < s.gFrameData.size ∧
      (s.gFrameData.get (s.gCurrentFrame - 1)).frameThreadCount <
        (s.gFrameData.get (s.gCurrentFrame - 1)).frameThreads.size

/-- What has to hold for `PushSectionBase` to write to slot `i`. -/
structure CanPush (s : Profiler Thread) (i : Nat) (szSection szFile : Option String) : Prop
    extends Room s i where
  callStack : (s.slot i).callStackDepth < s.settings.MaxCallStack
  parent : 0 < (s.slot i).callStackDepth →
    (s.slot i).entryStack.get ((s.slot i).callStackDepth - 1) < (s.slot i).currentEntry
  file : szFile ≠ none
  section_ : szSection ≠ none

/-- The entry `e` on top of the stack of slot `i` is closed. -/
def popped (s : Profiler Thread) (now : Instant) (i e : Nat) : Profiler Thread :=
  { s with gThreadData := s.gThreadData.modify i (·.pop e (s.elapsed now)) }

/-- What has to hold for `PopSection` to close the entry `e` of slot `i`. -/
structure CanPop (s : Profiler Thread) (i e : Nat) : Prop where
  started : s.gRestarting = false
  nonempty : 0 < (s.slot i).callStackDepth
  entryStack : (s.slot i).callStackDepth - 1 < (s.slot i).entryStack.size
  top : toInt32 ((s.slot i).entryStack.get ((s.slot i).callStackDepth - 1)) = e
  entries : e < (s.slot i).entries.size
  section_ : ((s.slot i).entries.get e).szSection ≠ none

/-- The frame `frame` is begun. -/
def framed (s : Profiler Thread) (now : Instant) (frame : Frame) : Profiler Thread :=
  let frames := s.gFrameData.set s.gCurrentFrame { frame with startTime := s.elapsed now }
  { s with
    gFrameData :=
      if 0 < s.gCurrentFrame then
        frames.modify (s.gCurrentFrame - 1) fun last => { last with endTime := s.elapsed now }
      else frames
    gCurrentFrame := s.gCurrentFrame + 1 }

/-- A new generation has begun, with the given settings. -/
def restarted (s : Profiler Thread) (t : Thread) (now : Instant) (settings : ProfileSettings)
    (request : Bool) : Profiler Thread :=
  { started t now { s with settings } with gRequestPause := request }

/-- The elementary changes that write no section and begin no generation. -/
inductive Quiet (t : Thread) (now : Instant) (s : Profiler Thread) : Profiler Thread → Prop
  | flags : (paused = false → s.gPaused = false) →
      Quiet t now s { s with gPaused := paused, gRequestPause := request }
  | limit : Quiet t now s { s with gRegionTimeLimit := maxTimeNs }
  | use : s.gPaused = false → s.Unregistered t → s.Free i → i < 2 ^ 31 →
      Quiet t now s (s.useSlot t i)
  | change {f : ThreadData → ThreadData} : s.gPaused = false → s.Owns t i →
      i < s.gThreadData.size → (∀ td, ∃ hidden name, f td = { td with hidden, name }) →
      Quiet t now s { s with gThreadData := s.gThreadData.modify i f }
  | region {regions : Vec Region} : s.gCurrentRegion < s.settings.MaxRegions →
      s.gCurrentRegion < s.gRegionData.size → regions.size = s.gRegionData.size →
      current ≤ s.gCurrentRegion + 1 →
      Quiet t now s { s with gRegionData := regions, gCurrentRegion := current }
  | frame {frame : Frame} : s.gPaused = false → s.gCurrentFrame < s.settings.MaxFrames →
      s.gCurrentFrame < s.gFrameData.size →
      s.listThreads s.settings.MaxThreads 0 (s.gFrameData.get s.gCurrentFrame) = .ok frame →
      Quiet t now s (s.framed now frame)

/-- The elementary changes that a call of the thread `t` is made of. -/
inductive Atomic (t : Thread) (now : Instant) (s : Profiler Thread) : Profiler Thread → Prop
  | quiet : Quiet t now s s' → Atomic t now s s'
  | start (settings : ProfileSettings) (request : Bool) : 0 < settings.MaxThreads →
      Atomic t now s (s.restarted t now settings request)
  | push : s.Ready t i → s.CanPush i szSection szFile →
      Atomic t now s (s.pushed now i szSection color szFile line)
  | pop : s.Ready t i → s.CanPop i e → Atomic t now s (s.popped now i e)

def Call.isSection : Call → Bool
  | .pushSection .. | .popSection => true
  | _ => false

/-- The calls that can begin a generation. -/
def Call.starts : Call → Bool
  | .setProfileSettings _ | .init | .updatePause _ => true
  | _ => false

/-- The settings with which a call would begin a generation. -/
def Call.settings (s : Profiler Thread) : Call → ProfileSettings
  | .setProfileSettings settings => settings
  | _ => s.settings

/-- What a call other than `Finish` does: it begins a generation; it makes changes that concern no
section; it drops a section because the profiler is or gets paused; or it begins a section, finds
none to end, or ends one. -/
inductive Performed (t : Thread) (now : Instant) (s : Profiler Thread) :
    Call → Option Mark → Profiler Thread → Prop
  | start (request : Bool) : c.starts = true → 0 < (c.settings s).MaxThreads →
      Performed t now s c none (s.restarted t now (c.settings s) request)
  | quiet : c.isSection = false → Relation.ReflTransGen (Quiet t now) s s' →
      Performed t now s c none s'
  | drop : c.isSection = true → Relation.ReflTransGen (Quiet t now) s s' → s'.gPaused = true →
      Performed t now s c none s'
  | push : Relation.ReflTransGen (Quiet t now) s s₁ → s₁.Ready t i →
      s₁.CanPush i szSection szFile →
      Performed t now s (.pushSection szSection color szFile line)
        (some ⟨s₁.gProfilerGeneration, i, (s₁.slot i).currentEntry⟩)
        (s₁.pushed now i szSection color szFile line)
  | skip : Relation.ReflTransGen (Quiet t now) s s₁ → s₁.Ready t i →
      s₁.gRestarting = true ∨ (s₁.slot i).callStackDepth = 0 → Performed t now s .popSection none s₁
  | pop : Relation.ReflTransGen (Quiet t now) s s₁ → s₁.Ready t i → s₁.CanPop i e →
      Performed t now s .popSection (some ⟨s₁.gProfilerGeneration, i, e⟩) (s₁.popped now i e)

variable {s s' s₁ : Profiler Thread} {t t' : Thread} {now : Instant} {m : Option Mark} {i j : Nat}
  {szSection szFile : Option String} {color : UInt32} {line : Int}

/-! ### What the elementary changes do to a slot -/

omit [DecidableEq Thread] in
theorem slot_modify {f : ThreadData → ThreadData} :
    slot { s with gThreadData := s.gThreadData.modify i f } j =
      if j = i then f (s.slot i) else s.slot j := by
  simp [slot, Vec.get_modify]

theorem slot_useSlot :
    (s.useSlot t i).slot j =
      if j = i then { s.slot i with currentEntry := 0, initialized := true } else s.slot j := by
  simp [useSlot, slot, Vec.get_modify]

omit [DecidableEq Thread] in
theorem slot_pushed :
    (s.pushed now i szSection color szFile line).slot j =
      if j = i then (s.slot i).push szSection color szFile line (s.elapsed now) else s.slot j := by
  simp [pushed, slot, Vec.get_modify]

omit [DecidableEq Thread] in
theorem slot_popped {e : Nat} :
    (s.popped now i e).slot j =
      if j = i then (s.slot i).pop e (s.elapsed now) else s.slot j := by
  simp [popped, slot, Vec.get_modify]

/-- `Init` clears every slot and reserves the first. -/
theorem slot_started :
    (s.started t now).slot j = initSlot s.settings j
      ((s.gThreadData.resize s.settings.MaxThreads .default).get j) := by
  by_cases hj : j = 0
  · subst hj
    simp [started, slot, initSlot]
  · simp [started, slot, Vec.get_modify, hj]

theorem slot_restarted {settings : ProfileSettings} {request : Bool} :
    (s.restarted t now settings request).slot j =
      initSlot settings j ((s.gThreadData.resize settings.MaxThreads .default).get j) := by
  change (started t now { s with settings }).slot j = _
  rw [slot_started]

/-! ### Slots -/

omit [DecidableEq Thread] in
theorem Owns.unique (h : s.Owns t i) (h' : s.Owns t j) : i = j := by
  exact_mod_cast h.2.symm.trans h'.2

omit [DecidableEq Thread] in
theorem Unregistered.not_owns (h : s.Unregistered t) : ¬s.Owns t j := by
  intro hj
  have := h hj.1
  have := hj.2
  omega

theorem toInt32_of_lt {n : Nat} (h : n < 2 ^ 31) : toInt32 n = n := if_pos h

theorem toInt32_of_le {n : Nat} (h : 2 ^ 31 ≤ n) : toInt32 n = n - 2 ^ 32 :=
  if_neg (Nat.not_lt.2 h)

theorem toInt32_eq_iff {n e : Nat} (hn : n < 2 ^ 32) : toInt32 n = e ↔ n = e ∧ n < 2 ^ 31 := by
  unfold toInt32
  split <;> omega

theorem useSlot_owns (hi : i < 2 ^ 31) : (s.useSlot t i).Owns t i := by
  simp [Owns, useSlot, toInt32_of_lt hi]

theorem Acquire.owns (h : Acquire s t i s₁) : s₁.Owns t i := by
  cases h with
  | owned h => exact h
  | fresh _ _ hi => exact useSlot_owns hi

theorem Acquire.lt_size (h : Acquire s t i s₁) : i < s₁.gThreadData.size := by
  cases h with
  | owned _ h => exact h
  | fresh _ h => exact h.lt_size

theorem Acquire.paused (h : Acquire s t i s₁) : s₁.gPaused = s.gPaused := by
  cases h <;> rfl

theorem initThreadFrom_iff {n k : Nat} : s.initThreadFrom t n k = .ok s' ↔
    ∃ i, k ≤ i ∧ i < k + n ∧ i < s.gThreadData.size ∧ (s.slot i).initialized = false ∧
      (∀ j, k ≤ j → j < i → (s.slot j).initialized) ∧ s' = s.useSlot t i := by
  induction n generalizing k with
  | zero =>
    simp only [initThreadFrom, reduceCtorEq, false_iff, not_exists]
    omega
  | succ n ih =>
    rw [initThreadFrom, bind_eq_ok]
    constructor
    · rintro ⟨j, hj, h⟩
      obtain ⟨hk, hlt⟩ := index_eq_ok.1 hj
      obtain rfl : k = j := by exact_mod_cast hk
      split at h
      · next hinit =>
        obtain ⟨i, hki, hin, hsize, hfree, hbefore, rfl⟩ := ih.1 h
        refine ⟨i, by omega, by omega, hsize, hfree, fun j hkj hji => ?_, rfl⟩
        rcases Nat.eq_or_lt_of_le hkj with rfl | hkj
        · exact hinit
        · exact hbefore j hkj hji
      · next hfree =>
        cases h
        exact ⟨k, by omega, by omega, hlt, by simpa using hfree, by omega, rfl⟩
    · rintro ⟨i, hki, hin, hsize, hfree, hbefore, rfl⟩
      refine ⟨k, index_ofNat (by omega), ?_⟩
      rcases Nat.eq_or_lt_of_le hki with rfl | hki
      · rw [if_neg (by simp [hfree])]
      · rw [if_pos (hbefore k (Nat.le_refl k) hki), ih]
        exact ⟨i, by omega, by omega, hsize, hfree, fun j hkj hji => hbefore j (by omega) hji, rfl⟩

theorem InitThread_iff : s.InitThread t = .ok s' ↔ ∃ i, s.Free i ∧ s' = s.useSlot t i := by
  rw [InitThread, initThreadFrom_iff]
  constructor
  · rintro ⟨i, -, hmax, hsize, hfree, hbefore, rfl⟩
    exact ⟨i, ⟨hsize, by omega, hfree, fun k => hbefore k (Nat.zero_le k)⟩, rfl⟩
  · rintro ⟨i, ⟨hsize, hmax, hfree, hbefore⟩, rfl⟩
    exact ⟨i, Nat.zero_le i, by omega, hsize, hfree, fun k _ => hbefore k, rfl⟩

/-- `InitThread` does not look at the index that the thread had. -/
theorem initThreadFrom_forget {x : Int} {n k : Nat} :
    initThreadFrom { s with gThreadIndexTLS := Function.update s.gThreadIndexTLS t x } t n k =
      s.initThreadFrom t n k := by
  induction n generalizing k with
  | zero => rfl
  | succ n ih =>
    simp only [initThreadFrom, ih]
    simp [useSlot, Function.update_idem]

theorem GetThreadData_owned (h : s.Owns t i) (hi : i < s.gThreadData.size) :
    s.GetThreadData t = .ok (i, s) := by
  have hne : ¬((i : Int) = -1) := by omega
  simp [GetThreadData, h.1, h.2, hne, index_ofNat hi]

/-- A thread without a slot goes to `InitThread`. -/
theorem GetThreadData_unregistered (h : s.Unregistered t) :
    s.GetThreadData t = (do
      let s' ← s.InitThread t
      let i ← index (s'.gThreadIndexTLS t) s'.gThreadData.size "gThreadData"
      return (i, s')) := by
  by_cases hgen : s.gGenerationTLS t = s.gProfilerGeneration
  · simp [GetThreadData, hgen, h hgen]
  · simp only [GetThreadData, hgen, ne_eq, not_false_eq_true, if_true, Function.update_self,
      InitThread, initThreadFrom_forget]

/-- `InitThread` finds a slot, but the index that the thread remembers is negative. -/
theorem GetThreadData_negative (h : s.Unregistered t) (hfree : s.Free i) (hi : 2 ^ 31 ≤ i) :
    s.GetThreadData t = .error (.outOfRange "gThreadData") := by
  have hlt := Nat.lt_trans hfree.lt_max s.settings.fits.1
  have hidx : (s.useSlot t i).gThreadIndexTLS t = i - 2 ^ 32 :=
    (Function.update_self ..).trans (toInt32_of_le hi)
  rw [GetThreadData_unregistered h, InitThread_iff.2 ⟨i, hfree, rfl⟩, ok_bind, hidx,
    index_error (by omega), error_bind]

theorem GetThreadData_iff : s.GetThreadData t = .ok (i, s') ↔ Acquire s t i s' := by
  constructor
  · intro h
    by_cases hreg : s.Unregistered t
    · rw [GetThreadData_unregistered hreg] at h
      obtain ⟨s₁, hinit, h⟩ := bind_eq_ok.1 h
      obtain ⟨k, hk, h⟩ := bind_eq_ok.1 h
      cases h
      obtain ⟨j, hfree, rfl⟩ := InitThread_iff.1 hinit
      obtain ⟨hk, -⟩ := index_eq_ok.1 hk
      have hfits := s.settings.fits.1
      obtain ⟨rfl, hint⟩ := (toInt32_eq_iff (Nat.lt_trans hfree.lt_max hfits)).1
        ((Function.update_self ..).symm.trans hk)
      exact .fresh hreg hfree hint
    · obtain ⟨hgen, hidx⟩ := Classical.not_imp.1 hreg
      simp only [GetThreadData, hgen, hidx, ne_eq, not_true_eq_false, if_false, ok_bind,
        bind_eq_ok] at h
      obtain ⟨k, hk, h⟩ := h
      cases h
      obtain ⟨hk, hlt⟩ := index_eq_ok.1 hk
      exact .owned ⟨hgen, hk⟩ hlt
  · intro h
    cases h with
    | owned h hi => exact GetThreadData_owned h hi
    | fresh h hfree hint =>
      rw [GetThreadData_unregistered h, InitThread_iff.2 ⟨i, hfree, rfl⟩]
      have hi : i < (s.useSlot t i).gThreadData.size := hfree.lt_size
      simp [(useSlot_owns hint).2, index_ofNat hi]

/-! ### Recording -/

omit [DecidableEq Thread] in
theorem CheckEndState_eq (hidx : s.gThreadIndexTLS t = i) (hi : i < s.gThreadData.size) :
    s.CheckEndState t = .ok (if s.Full i then (true, s.pause) else (s.gPaused, s)) := by
  simp only [CheckEndState, hidx, index_ofNat hi, ok_bind, Full]
  by_cases h₁ : s.settings.MaxEntriesPerThread ≤ (s.slot i).currentEntry <;>
    by_cases h₂ : s.settings.MaxFrames ≤ s.gCurrentFrame <;>
    by_cases h₃ : s.settings.MaxRegions ≤ s.gCurrentRegion <;>
    simp [h₁, h₂, h₃, pause, pure, Except.pure]

variable {body : Nat → Profiler Thread → Outcome (Option Mark × Profiler Thread)}

theorem whenRecording_full (hp : s.gPaused = false) (ha : Acquire s t i s₁) (hf : s₁.Full i) :
    s.whenRecording t body = .ok (none, s₁.pause) := by
  simp [whenRecording, hp, GetThreadData_iff.2 ha, CheckEndState_eq ha.owns.2 ha.lt_size, hf]

theorem whenRecording_ready (ha : Acquire s t i s₁) (hr : s₁.Ready t i) :
    s.whenRecording t body = body i s₁ := by
  have hp : s.gPaused = false := ha.paused.symm.trans hr.unpaused
  simp [whenRecording, hp, GetThreadData_iff.2 ha, CheckEndState_eq ha.owns.2 ha.lt_size,
    hr.not_full, hr.unpaused]

theorem whenRecording_iff :
    s.whenRecording t body = .ok (m, s') ↔ Recorded s t body m s' := by
  constructor
  · intro h
    cases hp : s.gPaused with
    | true =>
      simp only [whenRecording, hp, if_true] at h
      cases h
      exact .paused hp
    | false =>
      obtain ⟨⟨i, s₁⟩, hget, -⟩ :=
        bind_eq_ok.1 (show (s.GetThreadData t >>= _) = .ok (m, s') by
          simpa only [whenRecording, hp, Bool.false_eq_true, if_false] using h)
      have ha := GetThreadData_iff.1 hget
      by_cases hf : s₁.Full i
      · rw [whenRecording_full hp ha hf] at h
        cases h
        exact .full hp ha hf
      · have hr : s₁.Ready t i := ⟨ha.paused.trans hp, ha.owns, ha.lt_size, hf⟩
        rw [whenRecording_ready ha hr] at h
        exact .ready ha hr h
  · intro h
    cases h with
    | paused h => simp [whenRecording, h]
    | full hp ha hf => exact whenRecording_full hp ha hf
    | ready ha hr h => rw [whenRecording_ready ha hr, h]

omit [DecidableEq Thread] in
theorem listFirstEntry_iff :
    s.listFirstEntry i = .ok s' ↔
      ((s.slot i).currentEntry = 1 → 0 < s.gCurrentFrame →
        s.gCurrentFrame - 1 < s.gFrameData.size ∧
          (s.gFrameData.get (s.gCurrentFrame - 1)).frameThreadCount <
            (s.gFrameData.get (s.gCurrentFrame - 1)).frameThreads.size) ∧
      s' = { s with
        gFrameData :=
          if (s.slot i).currentEntry = 1 ∧ 0 < s.gCurrentFrame then
            s.gFrameData.modify (s.gCurrentFrame - 1) (·.added ⟨i, 0⟩)
          else s.gFrameData } := by
  by_cases hfirst : (s.slot i).currentEntry = 1 ∧ 0 < s.gCurrentFrame
  · obtain ⟨hone, hpos⟩ := hfirst
    have hlast : (s.gCurrentFrame : Int) - 1 = (s.gCurrentFrame - 1 : Nat) := by omega
    simp only [listFirstEntry, hone, hpos, and_self, if_true, hlast, index_bind_eq_ok, Frame.add,
      bind_assoc, pure_eq_ok, ok_bind, Except.ok.injEq, forall_const, Vec.modify, and_assoc]
    simp [eq_comm]
  · have himp : (s.slot i).currentEntry = 1 → ¬0 < s.gCurrentFrame :=
      fun h₁ h₂ => hfirst ⟨h₁, h₂⟩
    simp only [listFirstEntry, hfirst, if_false, Except.ok.injEq]
    constructor
    · rintro rfl
      exact ⟨fun h₁ h₂ => absurd h₂ (himp h₁), rfl⟩
    · exact fun h => h.2.symm

theorem ThreadData.checkParent_eq_ok {td : ThreadData} {u : Unit} :
    td.checkParent = .ok u ↔
      (0 < td.callStackDepth → td.entryStack.get (td.callStackDepth - 1) < td.currentEntry) := by
  unfold checkParent
  split <;> simp_all

omit [DecidableEq Thread] in
theorem pushEntry_iff (hcall : (s.slot i).callStackDepth < s.settings.MaxCallStack) :
    s.pushEntry now szSection color szFile line i = .ok (m, s') ↔
      s.CanPush i szSection szFile ∧
        m = some ⟨s.gProfilerGeneration, i, (s.slot i).currentEntry⟩ ∧
        s' = s.pushed now i szSection color szFile line := by
  simp only [pushEntry, index_bind_eq_ok, assert_bind_eq_ok,
    bind_eq_ok (x := ThreadData.checkParent _), ThreadData.checkParent_eq_ok,
    bind_eq_ok (x := listFirstEntry _ _), listFirstEntry_iff, slot, Vec.get_modify_self,
    ThreadData.push, Nat.add_eq_right, exists_const, and_assoc, exists_and_left, exists_eq_left,
    pure_eq_ok, Except.ok.injEq, Prod.mk.injEq]
  constructor
  · rintro ⟨hentries, hstack, hparent, hfile, hsection, hframe, rfl, rfl⟩
    exact ⟨⟨⟨hentries, hstack, hframe⟩, hcall, hparent, hfile, hsection⟩, rfl, rfl⟩
  · rintro ⟨⟨⟨hentries, hstack, hframe⟩, -, hparent, hfile, hsection⟩, rfl, rfl⟩
    exact ⟨hentries, hstack, hparent, hfile, hsection, hframe, rfl, rfl⟩

theorem PushSectionBase_ready (ha : Acquire s t i s₁) (hr : s₁.Ready t i) :
    s.PushSectionBase t now szSection color szFile line = .ok (m, s') ↔
      s₁.CanPush i szSection szFile ∧
        m = some ⟨s₁.gProfilerGeneration, i, (s₁.slot i).currentEntry⟩ ∧
        s' = s₁.pushed now i szSection color szFile line := by
  rw [PushSectionBase, whenRecording_ready ha hr, assert_bind_eq_ok,
    if_neg (by simp [hr.unpaused])]
  constructor
  · rintro ⟨hcall, h⟩
    exact (pushEntry_iff hcall).1 h
  · intro h
    exact ⟨h.1.callStack, (pushEntry_iff h.1.callStack).2 h⟩

omit [DecidableEq Thread] in
theorem popEntry_iff (hpos : 0 < (s.slot i).callStackDepth) (hr : s.gRestarting = false) :
    s.popEntry now i = .ok (m, s') ↔
      ∃ e, s.CanPop i e ∧ m = some ⟨s.gProfilerGeneration, i, e⟩ ∧ s' = s.popped now i e := by
  have hlast : ((s.slot i).callStackDepth : Int) - 1 = ((s.slot i).callStackDepth - 1 : Nat) := by
    omega
  simp only [popEntry, hlast, index_bind_eq_ok, bind_eq_ok (x := index (toInt32 _) _ _),
    index_eq_ok, assert_bind_eq_ok, pure_eq_ok, Except.ok.injEq, Prod.mk.injEq]
  constructor
  · rintro ⟨hstack, e, ⟨htop, hentries⟩, hsection, rfl, rfl⟩
    exact ⟨e, ⟨hr, hpos, hstack, htop, hentries, hsection⟩, rfl, rfl⟩
  · rintro ⟨e, ⟨-, -, hstack, htop, hentries, hsection⟩, rfl, rfl⟩
    exact ⟨hstack, e, ⟨htop, hentries⟩, hsection, rfl, rfl⟩

theorem PopSection_ready (ha : Acquire s t i s₁) (hr : s₁.Ready t i) :
    s.PopSection t now = .ok (m, s') ↔
      ((s₁.gRestarting = true ∨ (s₁.slot i).callStackDepth = 0) ∧ m = none ∧ s' = s₁) ∨
      ∃ e, s₁.CanPop i e ∧ m = some ⟨s₁.gProfilerGeneration, i, e⟩ ∧ s' = s₁.popped now i e := by
  rw [PopSection, whenRecording_ready ha hr]
  by_cases hskip : s₁.gRestarting = true ∨ (s₁.slot i).callStackDepth = 0
  · have hcannot : ∀ e, ¬s₁.CanPop i e := by
      intro e hcan
      have := hcan.started
      have := hcan.nonempty
      rcases hskip with h | h
      · simp_all
      · omega
    have hbody : (if s₁.gRestarting || s₁.gPaused then .ok (none, s₁)
        else if (s₁.gThreadData.get i).callStackDepth ≤ 0 then .ok (none, s₁)
        else s₁.popEntry now i) = Except.ok (none, s₁) := by
      rcases hskip with h | h <;> simp [h]
    rw [hbody]
    constructor
    · intro h
      cases h
      exact .inl ⟨hskip, rfl, rfl⟩
    · rintro (⟨-, rfl, rfl⟩ | ⟨e, hcan, -⟩)
      · rfl
      · exact absurd hcan (hcannot e)
  · obtain ⟨hrest, hdepth⟩ := not_or.1 hskip
    replace hrest : s₁.gRestarting = false := by simpa using hrest
    have hpos : 0 < (s₁.slot i).callStackDepth := Nat.pos_of_ne_zero hdepth
    rw [if_neg (by simp [hrest, hr.unpaused]), if_neg (Nat.not_le.2 hpos), popEntry_iff hpos hrest]
    simp [hskip]

/-! ### The other calls -/

theorem Init_iff :
    s.Init t now = .ok s' ↔ 0 < s.settings.MaxThreads ∧ s' = s.started t now := by
  have h : s.Init t now = index (0 : Nat) s.settings.MaxThreads "gThreadData" >>= fun _ =>
    .ok (s.started t now) := rfl
  rw [h, index_bind_eq_ok, Except.ok.injEq, eq_comm (a := s')]

theorem Reset_iff :
    s.Reset t now = .ok s' ↔ 0 < s.settings.MaxThreads ∧ s' = s.started t now := by
  have h : started t now { s with gThreadIndexTLS := Function.update s.gThreadIndexTLS t (-1) } =
      s.started t now := by simp [started]
  rw [Reset, Init_iff, h]

theorem SetProfileSettings_iff {settings : ProfileSettings} :
    s.SetProfileSettings t now settings = .ok s' ↔
      0 < settings.MaxThreads ∧ s' = started t now { s with settings } :=
  Reset_iff

theorem changeThread_iff {f : ThreadData → ThreadData} :
    s.changeThread t f = .ok s' ↔
      (s.gPaused = true ∧ s' = s) ∨ (s.gPaused = false ∧ ∃ i s₁, Acquire s t i s₁ ∧
        s' = { s₁ with gThreadData := s₁.gThreadData.modify i f }) := by
  by_cases hp : s.gPaused = true
  · simp [changeThread, hp, eq_comm (a := s')]
  · simp [changeThread, hp, bind_eq_ok, GetThreadData_iff, eq_comm (a := s')]

omit [DecidableEq Thread] in
theorem beginFrame_iff :
    s.beginFrame now = .ok s' ↔ s.gCurrentFrame < s.gFrameData.size ∧ ∃ frame,
      s.listThreads s.settings.MaxThreads 0 (s.gFrameData.get s.gCurrentFrame) = .ok frame ∧
        s' = s.framed now frame := by
  simp only [beginFrame, index_bind_eq_ok, bind_eq_ok (x := listThreads _ _ _ _), pure_eq_ok,
    Except.ok.injEq, eq_comm (b := s'), framed]

omit [DecidableEq Thread] in
theorem NewFrame_eq (hp : s.gPaused = false) (hidx : s.gThreadIndexTLS t = i)
    (hi : i < s.gThreadData.size) :
    s.NewFrame t now = if s.Full i then .ok s.pause else s.beginFrame now := by
  by_cases hf : s.Full i <;> simp [NewFrame, hp, CheckEndState_eq hidx hi, hf]

omit [DecidableEq Thread] in
theorem NewFrame_cases (h : s.NewFrame t now = .ok s') :
    (s.gPaused = true ∧ s' = s) ∨
    (s.gPaused = false ∧ ∃ i : Nat, s.gThreadIndexTLS t = i ∧ i < s.gThreadData.size ∧
      ((s.Full i ∧ s' = s.pause) ∨ (¬s.Full i ∧ s.beginFrame now = .ok s'))) := by
  cases hp : s.gPaused with
  | true =>
    simp only [NewFrame, hp, if_true] at h
    cases h
    exact .inl ⟨rfl, rfl⟩
  | false =>
    obtain ⟨_, hend, -⟩ :=
      bind_eq_ok.1 (show (s.CheckEndState t >>= _) = .ok s' by
        simpa only [NewFrame, hp, Bool.false_eq_true, if_false] using h)
    obtain ⟨i, hi, -⟩ := bind_eq_ok.1 hend
    obtain ⟨hidx, hlt⟩ := index_eq_ok.1 hi
    refine .inr ⟨rfl, i, hidx, hlt, ?_⟩
    rw [NewFrame_eq hp hidx hlt] at h
    split at h
    · next hf =>
      cases h
      exact .inl ⟨hf, rfl⟩
    · next hf => exact .inr ⟨hf, h⟩

theorem applyPause_cases {pause : Bool} (h : s.applyPause t now pause = .ok s') :
    s' = s.pause ∨
      (0 < s.settings.MaxThreads ∧ s' = s.restarted t now s.settings false) := by
  cases pause with
  | true =>
    cases h
    exact .inl rfl
  | false =>
    obtain ⟨_, hreset, h⟩ := bind_eq_ok.1 (show (s.Reset t now >>= _) = .ok s' from h)
    cases h
    obtain ⟨hpos, rfl⟩ := Reset_iff.1 hreset
    exact .inr ⟨hpos, rfl⟩

theorem updatePause_cases {pressed : Bool} (h : s.updatePause t now pressed = .ok s') :
    s' = s ∨ s' = s.pause ∨
      (0 < s.settings.MaxThreads ∧ s' = s.restarted t now s.settings false) := by
  simp only [updatePause] at h
  split at h
  · exact .inr (applyPause_cases h)
  · cases h
    exact .inl rfl

/-! ### Calls as elementary changes -/

theorem Acquire.quiet (hp : s.gPaused = false) (h : Acquire s t i s₁) :
    Relation.ReflTransGen (Quiet t now) s s₁ := by
  cases h with
  | owned => exact .refl
  | fresh hreg hfree hi => exact .single (.use hp hreg hfree hi)

theorem Recorded.cases_quiet (now : Instant) (h : Recorded s t body m s') :
    (m = none ∧ Relation.ReflTransGen (Quiet t now) s s' ∧ s'.gPaused = true) ∨
      ∃ i s₁, Relation.ReflTransGen (Quiet t now) s s₁ ∧ Acquire s t i s₁ ∧ s₁.Ready t i ∧
        body i s₁ = .ok (m, s') := by
  cases h with
  | paused hp => exact .inl ⟨rfl, .refl, hp⟩
  | full hp ha => exact .inl ⟨rfl, (ha.quiet hp).tail (.flags (by simp)), rfl⟩
  | ready ha hr h =>
    have hp : s.gPaused = false := ha.paused.symm.trans hr.unpaused
    exact .inr ⟨_, _, ha.quiet hp, ha, hr, h⟩

theorem changeThread_quiet {f : ThreadData → ThreadData} (h : s.changeThread t f = .ok s')
    (hf : ∀ td, ∃ hidden name, f td = { td with hidden, name }) :
    Relation.ReflTransGen (Quiet t now) s s' := by
  obtain ⟨-, rfl⟩ | ⟨hp, i, s₁, ha, rfl⟩ := changeThread_iff.1 h
  · exact .refl
  · exact (ha.quiet hp).tail (.change (ha.paused.trans hp) ha.owns ha.lt_size hf)

omit [DecidableEq Thread] in
theorem Ready.region_lt (hr : s.Ready t i) : s.gCurrentRegion < s.settings.MaxRegions := by
  have := hr.not_full
  simp only [Full] at this
  omega

/-- Every call but `Finish`, which takes the slots away. -/
theorem perform_cases {c : Call} (hc : c ≠ .finish) (h : perform t now c s = .ok (m, s')) :
    Performed t now s c m s' := by
  cases c with
  | setProfileSettings settings =>
    obtain ⟨_, h, h'⟩ := bind_eq_ok.1 h
    cases h'
    obtain ⟨hpos, rfl⟩ := SetProfileSettings_iff.1 h
    exact .start s.gRequestPause rfl hpos
  | init =>
    obtain ⟨_, h, h'⟩ := bind_eq_ok.1 h
    cases h'
    obtain ⟨hpos, rfl⟩ := Init_iff.1 h
    exact .start s.gRequestPause rfl hpos
  | newFrame =>
    obtain ⟨_, h, h'⟩ := bind_eq_ok.1 h
    cases h'
    obtain ⟨-, rfl⟩ | ⟨hp, i, hidx, hi, ⟨-, rfl⟩ | ⟨hf, h⟩⟩ := NewFrame_cases h
    · exact .quiet rfl .refl
    · exact .quiet rfl (.single (.flags (by simp)))
    · obtain ⟨hlt, frame, hlist, rfl⟩ := beginFrame_iff.1 h
      exact .quiet rfl (.single (.frame hp (by simp only [Full] at hf; omega) hlt hlist))
  | nameThread pszName =>
    obtain ⟨_, h, h'⟩ := bind_eq_ok.1 h
    cases h'
    exact .quiet rfl (changeThread_quiet h fun td => ⟨td.hidden, pszName, rfl⟩)
  | setPaused pause =>
    cases h
    unfold SetPaused
    split
    · exact .quiet rfl (.single (.flags id))
    · exact .quiet rfl .refl
  | beginRegion =>
    rw [perform, BeginRegion, whenRecording_iff] at h
    obtain ⟨rfl, hquiet, -⟩ | ⟨i, s₁, hquiet, -, hr, h⟩ := h.cases_quiet now
    · exact .quiet rfl hquiet
    · obtain ⟨hlt, h⟩ := index_bind_eq_ok.1 h
      cases h
      exact .quiet rfl (hquiet.tail (.region hr.region_lt hlt rfl (by omega)))
  | endRegion =>
    rw [perform, EndRegion, whenRecording_iff] at h
    obtain ⟨rfl, hquiet, -⟩ | ⟨i, s₁, hquiet, -, hr, h⟩ := h.cases_quiet now
    · exact .quiet rfl hquiet
    · obtain ⟨hlt, h⟩ := index_bind_eq_ok.1 h
      cases h
      exact .quiet rfl (hquiet.tail (.region hr.region_lt hlt rfl (by omega)))
  | setRegionLimit maxTimeNs =>
    cases h
    exact .quiet rfl (.single .limit)
  | pushSection szSection color szFile line =>
    rw [perform] at h
    have hrec := h
    rw [PushSectionBase, whenRecording_iff] at hrec
    obtain ⟨rfl, hquiet, hp⟩ | ⟨i, s₁, hquiet, ha, hr, -⟩ := hrec.cases_quiet now
    · exact .drop rfl hquiet hp
    · obtain ⟨hcan, rfl, rfl⟩ := (PushSectionBase_ready ha hr).1 h
      exact .push hquiet hr hcan
  | popSection =>
    rw [perform] at h
    have hrec := h
    rw [PopSection, whenRecording_iff] at hrec
    obtain ⟨rfl, hquiet, hp⟩ | ⟨i, s₁, hquiet, ha, hr, -⟩ := hrec.cases_quiet now
    · exact .drop rfl hquiet hp
    · obtain ⟨hskip, rfl, rfl⟩ | ⟨e, hcan, rfl, rfl⟩ := (PopSection_ready ha hr).1 h
      · exact .skip hquiet hr hskip
      · exact .pop hquiet hr hcan
  | updatePause pressed =>
    obtain ⟨_, h, h'⟩ := bind_eq_ok.1 h
    cases h'
    obtain rfl | rfl | ⟨hpos, rfl⟩ := updatePause_cases h
    · exact .quiet rfl .refl
    · exact .quiet rfl (.single (.flags (by simp)))
    · exact .start false rfl hpos
  | hideThread =>
    obtain ⟨_, h, h'⟩ := bind_eq_ok.1 h
    cases h'
    exact .quiet rfl (changeThread_quiet h fun td => ⟨true, td.name, rfl⟩)
  | finish => exact absurd rfl hc

theorem Call.isSection_of_starts {c : Call} (hc : c.starts = true) : c.isSection = false := by
  cases c <;> first | rfl | cases hc

theorem perform_atomic {c : Call} (hc : c ≠ .finish) (h : perform t now c s = .ok (m, s')) :
    Relation.ReflTransGen (Atomic t now) s s' := by
  have hlift : ∀ {s s' : Profiler Thread}, Relation.ReflTransGen (Quiet t now) s s' →
      Relation.ReflTransGen (Atomic t now) s s' := by
    intro s s' h
    induction h with
    | refl => exact .refl
    | tail _ hquiet ih => exact ih.tail (.quiet hquiet)
  cases perform_cases hc h with
  | start request _ hpos => exact .single (.start _ request hpos)
  | quiet _ hquiet => exact hlift hquiet
  | drop _ hquiet => exact hlift hquiet
  | push hquiet hr hcan => exact (hlift hquiet).tail (.push hr hcan)
  | skip hquiet => exact hlift hquiet
  | pop hquiet hr hcan => exact (hlift hquiet).tail (.pop hr hcan)

/-- A property that the elementary changes keep is kept by a call. -/
theorem perform_preserves {c : Call} {P : Profiler Thread → Prop}
    (hatomic : ∀ s s', P s → Atomic t now s s' → P s')
    (hfinish : c = .finish → P s → P s.Finish)
    (h : perform t now c s = .ok (m, s')) (hs : P s) : P s' := by
  by_cases hc : c = .finish
  · subst hc
    cases h
    exact hfinish rfl hs
  · replace h := perform_atomic hc h
    induction h with
    | refl => exact hs
    | tail _ hstep ih => exact hatomic _ _ ih hstep

/-- A property of the start that the elementary changes keep holds in every run. -/
theorem Run.preserves {allowed : List (Event Thread) → Profiler Thread → Thread → Call → Prop}
    {h : List (Event Thread)} {P : Profiler Thread → Prop} (hnew : P .new)
    (hatomic : ∀ t now s s', P s → Atomic t now s s' → P s')
    (hfinish : ∀ h s t, allowed h s t .finish → P s → P s.Finish)
    (hrun : Run allowed h s) : P s := by
  induction hrun with
  | new => exact hnew
  | call _ hallowed hcall ih =>
    apply perform_preserves (hatomic _ _) _ hcall ih
    rintro rfl hs
    exact hfinish _ _ _ hallowed hs

end MUtils.Profiler
