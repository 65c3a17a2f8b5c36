import MUtils.Theory.Vec

/-!
# The profiler of `profiler.cpp`

Threads record sections of code into slots of `gThreadData`, with a stack of open sections per slot,
and mark frames and regions. A thread finds its slot through two thread-local variables, an index
and the generation in which the index was given out; `Init` starts a new generation and clears all
slots. Every public function is one atomic step of the thread `t` that calls it, at the reading
`now` of the clock.

The names of frames and regions are left out, and so is the state of the display except for what
`UpdateVisibleFrameRange` uses (`Display`) and `setTimeRange` sets (`TimeScale`); counters of slots,
entries, frames and regions are natural numbers below the limits of the settings, which fit in
32 bits. The 64-bit generation counter is a natural number too.

`ShowProfile` is the scope that it records itself in, around the handling of the pause button
(`updatePause`) and the drawing, which reads the recording and changes only the display
(`showFrame`).
-/

namespace MUtils.Profiler
open Outcome

/-- A reading of the clock, in nanoseconds. -/
abbrev Instant := Fin (2 ^ 63)

/-- `std::numeric_limits<int64_t>::max()` -/
def maxTime64 : Int := 2 ^ 63 - 1

/-- The parent of an outermost entry. -/
def noParent : Nat := 0xFFFFFFFF

structure ProfilerEntry where
  szSection : Option String
  szFile : Option String
  line : Int
  color : UInt32
  level : Nat
  startTime : Int
  endTime : Int
  parent : Nat

/-- All bytes zero. -/
def ProfilerEntry.zero : ProfilerEntry := ⟨none, none, 0, 0, 0, 0, 0, 0⟩

structure FrameThreadInfo where
  threadIndex : Nat
  activeEntry : Nat

structure Region where
  startTime : Int
  endTime : Int

structure Frame extends Region where
  frameThreadCount : Nat
  frameThreads : Vec FrameThreadInfo

def Frame.default : Frame := ⟨⟨0, 0⟩, 0, .empty ⟨0, 0⟩⟩

structure ThreadData where
  initialized : Bool
  callStackDepth : Nat
  maxLevel : Nat
  minTime : Int
  maxTime : Int
  currentEntry : Nat
  hidden : Bool
  name : String
  entries : Vec ProfilerEntry
  entryStack : Vec Nat

def ThreadData.default : ThreadData :=
  ⟨false, 0, 0, 0, 0, 0, false, "", .empty .zero, .empty 0⟩

structure ProfileSettings where
  MaxThreads : Nat
  MaxCallStack : Nat
  MaxEntriesPerThread : Nat
  MaxFrames : Nat
  MaxRegions : Nat
  /-- The fields are of type `uint32_t`. -/
  fits : MaxThreads < 2 ^ 32 ∧ MaxCallStack < 2 ^ 32 ∧ MaxEntriesPerThread < 2 ^ 32 ∧
    MaxFrames < 2 ^ 32 ∧ MaxRegions < 2 ^ 32

def ProfileSettings.default : ProfileSettings := ⟨120, 20, 100000, 10000, 10000, by decide⟩

end Profiler

open Profiler in
/-- The variables of the profiler, of which the two last are thread-local. -/
structure Profiler (Thread : Type) where
  settings : ProfileSettings
  /-- `gTimer.startTime` -/
  gTimer : Instant
  gPaused : Bool
  gRequestPause : Bool
  gRestarting : Bool
  gProfilerGeneration : Nat
  gThreadData : Vec ThreadData
  gFrameData : Vec Frame
  gRegionData : Vec Region
  gCurrentFrame : Nat
  gCurrentRegion : Nat
  gRegionTimeLimit : UInt64
  gThreadIndexTLS : Thread → Int
  gGenerationTLS : Thread → Int

namespace Profiler
open Outcome

/-- Before the first call: paused, and without any data. -/
def new : Profiler Thread where
  settings := .default
  gTimer := 0
  gPaused := true
  gRequestPause := false
  gRestarting := true
  gProfilerGeneration := 0
  gThreadData := .empty .default
  gFrameData := .empty .default
  gRegionData := .empty ⟨0, 0⟩
  gCurrentFrame := 0
  gCurrentRegion := 0
  gRegionTimeLimit := 0
  gThreadIndexTLS _ := -1
  gGenerationTLS _ := -1

/-- `timer_get_elapsed(gTimer)` -/
def elapsed (s : Profiler Thread) (now : Instant) : Int := now.val - s.gTimer.val

/-! ### Starting a generation -/

/-- What `Init` does to slot `i`. -/
def initSlot (settings : ProfileSettings) (i : Nat) (td : ThreadData) : ThreadData :=
  { td with
    initialized := i == 0
    maxLevel := 0
    minTime := maxTime64
    maxTime := 0
    currentEntry := 0
    name := "Thread " ++ toString i
    entries := ⟨settings.MaxEntriesPerThread, fun _ => .zero⟩
    entryStack := td.entryStack.resize 50 0
    callStackDepth := 0 }

/-- What `Init` does to a frame. -/
def initFrame (settings : ProfileSettings) (frame : Frame) : Frame :=
  { frame with
    frameThreads := ⟨settings.MaxThreads, fun _ => ⟨0, 0⟩⟩
    frameThreadCount := 0 }

variable {Thread : Type} [DecidableEq Thread]

/-- The state after `Init`. The thread that calls it is given slot 0, under generation 0. -/
def started (t : Thread) (now : Instant) (s : Profiler Thread) : Profiler Thread :=
  { s with
    gThreadData := ((s.gThreadData.resize s.settings.MaxThreads .default).mapIdx
      (initSlot s.settings)).modify 0 fun td => { td with initialized := true }
    gProfilerGeneration := s.gProfilerGeneration + 1
    gFrameData := (s.gFrameData.resize s.settings.MaxFrames .default).mapIdx
      fun _ => initFrame s.settings
    gRegionData := s.gRegionData.resize s.settings.MaxRegions ⟨0, 0⟩
    gThreadIndexTLS := Function.update s.gThreadIndexTLS t 0
    gGenerationTLS := Function.update s.gGenerationTLS t 0
    gRestarting := true
    gCurrentFrame := 0
    gCurrentRegion := 0
    gTimer := now
    gPaused := false }

/-- `Init`; `gThreadData[0]` has to be there. -/
def Init (t : Thread) (now : Instant) (s : Profiler Thread) : Outcome (Profiler Thread) := do
  let _ ← index 0 s.settings.MaxThreads "gThreadData"
  return s.started t now

def Reset (t : Thread) (now : Instant) (s : Profiler Thread) : Outcome (Profiler Thread) :=
  Init t now { s with gThreadIndexTLS := Function.update s.gThreadIndexTLS t (-1) }

def SetProfileSettings (t : Thread) (now : Instant) (settings : ProfileSettings)
    (s : Profiler Thread) : Outcome (Profiler Thread) :=
  Reset t now { s with settings }

/-- `Finish` clears the slots. -/
def Finish (s : Profiler Thread) : Profiler Thread :=
  { s with gThreadData := .empty .default }

/-! ### Slots -/

/-- The conversion of a `uint32_t` to `int`. -/
def toInt32 (n : Nat) : Int := if n < 2 ^ 31 then n else (n : Int) - 2 ^ 32

/-- Slot `i` is given to the thread `t`. -/
def useSlot (s : Profiler Thread) (t : Thread) (i : Nat) : Profiler Thread :=
  { s with
    gThreadIndexTLS := Function.update s.gThreadIndexTLS t (toInt32 i)
    gGenerationTLS := Function.update s.gGenerationTLS t s.gProfilerGeneration
    gThreadData :=
      s.gThreadData.modify i fun td => { td with currentEntry := 0, initialized := true } }

/-- The loop of `InitThread` from slot `i` on, with `n` slots to go. -/
def initThreadFrom (s : Profiler Thread) (t : Thread) : Nat → Nat → Outcome (Profiler Thread)
  | 0, _ => .error (.assertion "false && \"Every thread slots are used!\"")
  | n + 1, i => do
    let i ← index i s.gThreadData.size "gThreadData"
    if (s.gThreadData.get i).initialized then initThreadFrom s t n (i + 1) else .ok (s.useSlot t i)

def InitThread (s : Profiler Thread) (t : Thread) : Outcome (Profiler Thread) :=
  s.initThreadFrom t s.settings.MaxThreads 0

/-- `GetThreadData` returns the index of the slot it points to. -/
def GetThreadData (s : Profiler Thread) (t : Thread) : Outcome (Nat × Profiler Thread) := do
  let s :=
    if s.gGenerationTLS t ≠ s.gProfilerGeneration then
      { s with gThreadIndexTLS := Function.update s.gThreadIndexTLS t (-1) }
    else s
  let s ← if s.gThreadIndexTLS t = -1 then s.InitThread t else .ok s
  let i ← index (s.gThreadIndexTLS t) s.gThreadData.size "gThreadData"
  return (i, s)

def pause (s : Profiler Thread) : Profiler Thread :=
  { s with gPaused := true, gRequestPause := true }

/-- `CheckEndState` pauses when a buffer is full. -/
def CheckEndState (s : Profiler Thread) (t : Thread) : Outcome (Bool × Profiler Thread) := do
  let i ← index (s.gThreadIndexTLS t) s.gThreadData.size "gThreadData"
  let s :=
    if s.settings.MaxEntriesPerThread ≤ (s.gThreadData.get i).currentEntry then s.pause else s
  let s := if s.settings.MaxFrames ≤ s.gCurrentFrame then s.pause else s
  let s := if s.settings.MaxRegions ≤ s.gCurrentRegion then s.pause else s
  return (s.gPaused, s)

/-! ### Sections -/

/-- The entry that a call wrote, which the source does not return. -/
structure Mark where
  generation : Nat
  slot : Nat
  entry : Nat
  deriving DecidableEq

/-- The start of the functions that record: nothing while paused; the slot of the thread; nothing
when a buffer is full. -/
def whenRecording (t : Thread) (s : Profiler Thread)
    (body : Nat → Profiler Thread → Outcome (Option Mark × Profiler Thread)) :
    Outcome (Option Mark × Profiler Thread) := do
  if s.gPaused then return (none, s)
  let (i, s) ← s.GetThreadData t
  let (ended, s) ← s.CheckEndState t
  if ended then return (none, s)
  body i s

/-- The slot after an entry has been written and pushed on the stack. -/
def ThreadData.push (td : ThreadData) (szSection : Option String) (color : UInt32)
    (szFile : Option String) (line : Int) (startTime : Int) : ThreadData :=
  let parent :=
    if 0 < td.callStackDepth then td.entryStack.get (td.callStackDepth - 1) else noParent
  let entry : ProfilerEntry :=
    { szSection, szFile, line, color, level := td.callStackDepth, startTime,
      endTime := maxTime64, parent }
  { td with
    entries := td.entries.set td.currentEntry entry
    entryStack := td.entryStack.set td.callStackDepth td.currentEntry
    callStackDepth := td.callStackDepth + 1
    currentEntry := td.currentEntry + 1
    maxLevel := max td.maxLevel (td.callStackDepth + 1)
    minTime := min startTime td.minTime
    maxTime := max startTime td.maxTime }

/-- The check of the parent of the next entry. -/
def ThreadData.checkParent (td : ThreadData) : Outcome Unit :=
  if 0 < td.callStackDepth then
    assert (td.entryStack.get (td.callStackDepth - 1) < td.currentEntry)
      "profilerEntry->parent < threadData->currentEntry"
  else .ok ()

/-- The frame after `frame.frameThreads[frame.frameThreadCount++] = info`. -/
def Frame.added (frame : Frame) (info : FrameThreadInfo) : Frame :=
  { frame with
    frameThreads := frame.frameThreads.set frame.frameThreadCount info
    frameThreadCount := frame.frameThreadCount + 1 }

def Frame.add (frame : Frame) (info : FrameThreadInfo) : Outcome Frame := do
  let _ ← index frame.frameThreadCount frame.frameThreads.size "frameThreads"
  return frame.added info

/-- A thread that begins during a frame is added to the frame. -/
def listFirstEntry (s : Profiler Thread) (i : Nat) : Outcome (Profiler Thread) :=
  let td := s.gThreadData.get i
  if td.currentEntry = 1 ∧ 0 < s.gCurrentFrame then do
    let f ← index (s.gCurrentFrame - 1) s.gFrameData.size "gFrameData"
    let frame ← (s.gFrameData.get f).add ⟨i, td.currentEntry - 1⟩
    return { s with gFrameData := s.gFrameData.set f frame }
  else .ok s

/-- The part of `PushSectionBase` that writes an entry to slot `i`. -/
def pushEntry (now : Instant) (szSection : Option String) (color : UInt32)
    (szFile : Option String) (line : Int) (i : Nat) (s : Profiler Thread) :
    Outcome (Option Mark × Profiler Thread) := do
  let td := s.gThreadData.get i
  let _ ← index td.currentEntry td.entries.size "entries"
  let _ ← index td.callStackDepth td.entryStack.size "entryStack"
  td.checkParent
  assert (szFile ≠ none) "szFile != NULL && \"No file string specified\""
  assert (szSection ≠ none) "szSection != NULL && \"No section name specified\""
  let s := { s with gThreadData :=
    s.gThreadData.modify i (·.push szSection color szFile line (s.elapsed now)) }
  let s ← s.listFirstEntry i
  return (some ⟨s.gProfilerGeneration, i, td.currentEntry⟩, { s with gRestarting := false })

def PushSectionBase (t : Thread) (now : Instant) (szSection : Option String) (color : UInt32)
    (szFile : Option String) (line : Int) (s : Profiler Thread) :
    Outcome (Option Mark × Profiler Thread) :=
  s.whenRecording t fun i s => do
    assert ((s.gThreadData.get i).callStackDepth < s.settings.MaxCallStack)
      "threadData->callStackDepth < settings.MaxCallStack && \"Might need to make call stack bigger!\""
    if s.gPaused then return (none, s)
    s.pushEntry now szSection color szFile line i

/-- The slot after the entry `e` on top of its stack has been closed. -/
def ThreadData.pop (td : ThreadData) (e : Nat) (endTime : Int) : ThreadData :=
  { td with
    callStackDepth := td.callStackDepth - 1
    entries := td.entries.modify e fun entry => { entry with endTime }
    maxTime := max endTime td.maxTime }

/-- The part of `PopSection` that closes an entry of slot `i`. -/
def popEntry (now : Instant) (i : Nat) (s : Profiler Thread) :
    Outcome (Option Mark × Profiler Thread) := do
  let td := s.gThreadData.get i
  let k ← index (td.callStackDepth - 1) td.entryStack.size "entryStack"
  let entryIndex := toInt32 (td.entryStack.get k)
  let e ← index entryIndex td.entries.size "entries"
  assert ((td.entries.get e).szSection ≠ none) "profilerEntry->szSection != nullptr"
  return (some ⟨s.gProfilerGeneration, i, e⟩,
    { s with gThreadData := s.gThreadData.modify i (·.pop e (s.elapsed now)) })

def PopSection (t : Thread) (now : Instant) (s : Profiler Thread) :
    Outcome (Option Mark × Profiler Thread) :=
  s.whenRecording t fun i s =>
    if s.gRestarting || s.gPaused then .ok (none, s)
    else if (s.gThreadData.get i).callStackDepth ≤ 0 then .ok (none, s)
    else s.popEntry now i

/-! ### Threads -/

/-- `HideThread` and `NameThread` change the slot of the thread. -/
def changeThread (t : Thread) (f : ThreadData → ThreadData) (s : Profiler Thread) :
    Outcome (Profiler Thread) := do
  if s.gPaused then return s
  let (i, s) ← s.GetThreadData t
  return { s with gThreadData := s.gThreadData.modify i f }

def HideThread (t : Thread) (s : Profiler Thread) : Outcome (Profiler Thread) :=
  s.changeThread t fun td => { td with hidden := true }

def NameThread (t : Thread) (pszName : String) (s : Profiler Thread) : Outcome (Profiler Thread) :=
  s.changeThread t fun td => { td with name := pszName }

/-! ### Regions and frames -/

def BeginRegion (t : Thread) (now : Instant) (s : Profiler Thread) :
    Outcome (Option Mark × Profiler Thread) :=
  s.whenRecording t fun _ s => do
    let r ← index s.gCurrentRegion s.gRegionData.size "gRegionData"
    return (none, { s with
      gRegionData :=
        s.gRegionData.modify r fun region => { region with startTime := s.elapsed now } })

def EndRegion (t : Thread) (now : Instant) (s : Profiler Thread) :
    Outcome (Option Mark × Profiler Thread) :=
  s.whenRecording t fun _ s => do
    let r ← index s.gCurrentRegion s.gRegionData.size "gRegionData"
    return (none, { s with
      gRegionData := s.gRegionData.modify r fun region => { region with endTime := s.elapsed now }
      gCurrentRegion := s.gCurrentRegion + 1 })

def SetRegionLimit (maxTimeNs : UInt64) (s : Profiler Thread) : Profiler Thread :=
  { s with gRegionTimeLimit := maxTimeNs }

/-- The loop of `NewFrame` over the slots from `i` on, with `n` to go. -/
def listThreads (s : Profiler Thread) : Nat → Nat → Frame → Outcome Frame
  | 0, _, frame => .ok frame
  | n + 1, i, frame => do
    let i ← index i s.gThreadData.size "gThreadData"
    let thread := s.gThreadData.get i
    let frame ←
      if thread.initialized ∧ 0 < thread.currentEntry then
        frame.add ⟨i, thread.currentEntry - 1⟩
      else .ok frame
    listThreads s n (i + 1) frame

/-- The part of `NewFrame` that writes the frame. -/
def beginFrame (now : Instant) (s : Profiler Thread) : Outcome (Profiler Thread) := do
  let f ← index s.gCurrentFrame s.gFrameData.size "gFrameData"
  let frame ← s.listThreads s.settings.MaxThreads 0 (s.gFrameData.get f)
  let frame := { frame with startTime := s.elapsed now }
  let frames := s.gFrameData.set f frame
  let frames :=
    if 0 < s.gCurrentFrame then
      frames.modify (s.gCurrentFrame - 1) fun last => { last with endTime := frame.startTime }
    else frames
  return { s with gFrameData := frames, gCurrentFrame := s.gCurrentFrame + 1 }

/-- `NewFrame` does not ask for the slot of the thread before `CheckEndState` reads it. -/
def NewFrame (t : Thread) (now : Instant) (s : Profiler Thread) : Outcome (Profiler Thread) := do
  if s.gPaused then return s
  let (ended, s) ← s.CheckEndState t
  if ended then return s
  s.beginFrame now

/-! ### Pausing -/

def SetPaused (pause : Bool) (s : Profiler Thread) : Profiler Thread :=
  if s.gPaused ≠ pause then { s with gRequestPause := pause } else s

/-- `ShowProfile` resets the profiler before it lifts a pause. -/
def applyPause (t : Thread) (now : Instant) (pause : Bool) (s : Profiler Thread) :
    Outcome (Profiler Thread) := do
  let s ← if pause then .ok s else s.Reset t now
  return { s with gPaused := pause, gRequestPause := pause }

/-- How `ShowProfile` handles a requested pause and its button, which is `pressed`. -/
def updatePause (t : Thread) (now : Instant) (pressed : Bool) (s : Profiler Thread) :
    Outcome (Profiler Thread) :=
  let changed := s.gPaused ≠ s.gRequestPause
  let pause := if changed then s.gRequestPause else s.gPaused
  let changed := changed ∨ pressed
  let pause := if pressed then !pause else pause
  if changed then s.applyPause t now pause else .ok s

/-- `ShowProfile` in a window that is `visible`, apart from the drawing. -/
def ShowProfile (t : Thread) (now : Instant) (visible pressed : Bool) (color : UInt32)
    (s : Profiler Thread) : Outcome (Profiler Thread) := do
  if !visible then return s
  let (_, s) ← s.PushSectionBase t now (some "Profile_UI") color (some "profiler.cpp") 817
  let s ← s.updatePause t now pressed
  let (_, s) ← s.PopSection t now
  return s

/-! ### Drawing -/

/-- The loop that walks up the stack from entry `e`, with the entries that it reads and the one it
ends at. With more steps than entries it does not end. -/
def ThreadData.climb (td : ThreadData) : Nat → Nat → Outcome (List Nat × Nat)
  | 0, _ => .error .diverged
  | n + 1, e => do
    let e ← index e td.entries.size "entries"
    if (td.entries.get e).parent = noParent then .ok ([e], e)
    else
      let (reads, r) ← td.climb n (td.entries.get e).parent
      return (e :: reads, r)

/-- The loop that steps back to find entries that began before the frame. -/
def ThreadData.stepBack (td : ThreadData) (frameStart : Int) : Nat → Outcome (List Nat × Nat)
  | 0 => .ok ([], 0)
  | e + 1 => do
    let _ ← index (e + 1 : Nat) td.entries.size "entries"
    if frameStart < (td.entries.get (e + 1)).endTime then
      let (reads, r) ← td.stepBack frameStart e
      return ((e + 1) :: reads, r)
    else .ok ([e + 1], e + 1)

/-- The loop that shows the `n` entries from `e` on, up to the first that begins after the frame:
the entries that it reads, and those that it passes to `showEntry`. -/
def ThreadData.showFrom (td : ThreadData) (frameEnd : Int) :
    Nat → Nat → Outcome (List Nat × List Nat)
  | 0, _ => .ok ([], [])
  | n + 1, e => do
    let e ← index e td.entries.size "entries"
    if (td.entries.get e).startTime < frameEnd then
      let (reads, shown) ← td.showFrom frameEnd n (e + 1)
      return (e :: reads, e :: shown)
    else .ok ([e], [])

/-- The walk over the entries of a slot for a frame with the given active entry. The subtraction is
that of `uint32_t`. -/
def ThreadData.walk (td : ThreadData) (frame : Frame) (activeEntry : Nat) :
    Outcome (List Nat × List Nat) := do
  let (climbed, e) ← td.climb (td.entries.size + 1) activeEntry
  let (passed, e) ← td.stepBack frame.startTime e
  let last := (td.currentEntry + (2 ^ 32 - 1)) % 2 ^ 32
  let (reads, shown) ← td.showFrom frame.endTime (last - e) e
  return (climbed ++ passed ++ reads, shown)

/-- What is drawn of a slot. -/
structure Drawn where
  slot : Nat
  reads : List Nat
  shown : List Nat

def showThread (s : Profiler Thread) (frame : Frame) (info : FrameThreadInfo) : Outcome Drawn := do
  let i ← index info.threadIndex s.gThreadData.size "gThreadData"
  let td := s.gThreadData.get i
  if td.hidden then return ⟨i, [], []⟩
  assert td.initialized "threadData.initialized"
  let (reads, shown) ← td.walk frame info.activeEntry
  return ⟨i, reads, shown⟩

/-- The loop over the slots that the frame lists from `k` on, with `n` to go. -/
def showThreads (s : Profiler Thread) (frame : Frame) : Nat → Nat → Outcome (List Drawn)
  | 0, _ => .ok []
  | n + 1, k => do
    let k ← index k frame.frameThreads.size "frameThreads"
    let drawn ← s.showThread frame (frame.frameThreads.get k)
    return drawn :: (← showThreads s frame n (k + 1))

/-- What `ShowProfile` draws of the sections in frame `f`. -/
def showFrame (s : Profiler Thread) (f : Nat) : Outcome (List Drawn) := do
  let f ← index f s.gFrameData.size "gFrameData"
  s.showThreads (s.gFrameData.get f) (s.gFrameData.get f).frameThreadCount 0

/-! ### The visible frames -/

structure NVec2 (α : Type) where
  x : α
  y : α

/-- The variables of the display that `UpdateVisibleFrameRange` uses. -/
structure Display where
  gTimeRange : NVec2 Int
  gVisibleFrames : NVec2 Int
  gFrameCandleRange : NVec2 Float

/-- `std::clamp`, which requires that `hi` is not below `lo`. -/
def clamp (v lo hi : Int) : Outcome Int := do
  assert (¬hi < lo) "!(hi < lo)"
  return min (max v lo) hi

/-- `++` on an `int32_t`. -/
def increment (v : Int) : Outcome Int :=
  if v < 2 ^ 31 - 1 then .ok (v + 1) else .error .overflow

/-- The loops that move a cursor up from frame `f`, past frames that end before `time`, with `n`
frames below the limit to go: the frames that the loop reads, and the one it ends at. -/
def advance (s : Profiler Thread) (time : Int) : Nat → Nat → Outcome (List Nat × Nat)
  | 0, f => .ok ([], f)
  | n + 1, f => do
    let f ← index f s.gFrameData.size "gFrameData"
    if (s.gFrameData.get f).endTime < time then
      let (reads, r) ← s.advance time n (f + 1)
      return (f :: reads, r)
    else .ok ([f], f)

/-- The loops that move a cursor down, past frames that start after `time`. -/
def retreat (s : Profiler Thread) (time : Int) : Nat → Outcome (List Nat × Nat)
  | 0 => .ok ([], 0)
  | f + 1 => do
    let _ ← index (f + 1 : Nat) s.gFrameData.size "gFrameData"
    if time < (s.gFrameData.get (f + 1)).startTime then
      let (reads, r) ← s.retreat time f
      return ((f + 1) :: reads, r)
    else .ok ([f + 1], f + 1)

/-- Also returns the frames that it reads. The subtraction is that of `uint32_t`. -/
def UpdateVisibleFrameRange (s : Profiler Thread) (d : Display) : Outcome (List Nat × Display) := do
  let d :=
    if s.gCurrentFrame < 2 then
      { d with gVisibleFrames := ⟨0, 0⟩, gFrameCandleRange := ⟨0, 0⟩ }
    else d
  let frameRangeLimits : NVec2 Int := ⟨0, toInt32 ((s.gCurrentFrame + (2 ^ 32 - 2)) % 2 ^ 32)⟩
  let x ← clamp d.gVisibleFrames.x 0 frameRangeLimits.x
  let y ← clamp d.gVisibleFrames.y 0 frameRangeLimits.y
  let (reads₁, y) ← s.advance d.gTimeRange.y (frameRangeLimits.y - y).toNat y.toNat
  let (reads₂, y) ← s.retreat d.gTimeRange.y y
  let (reads₃, x) ← s.advance d.gTimeRange.x (frameRangeLimits.y - x).toNat x.toNat
  let (reads₄, x) ← s.retreat d.gTimeRange.x x
  let y ← increment y
  return (reads₁ ++ reads₂ ++ reads₃ ++ reads₄, { d with gVisibleFrames := ⟨x, y⟩ })

/-! ### The visible times -/

/-- What `setTimeRange` assigns. Times are exact integers, and what is computed from them in
floating point is in a field. -/
structure TimeScale (K : Type) where
  gTimeRange : NVec2 Int
  visibleDuration : Int
  pixelsPerTime : K
  timePerPixels : K

/-- The first step of `setTimeRange`: a range of less than 1000 is widened. -/
def widenRange (minTime maxTime : Int) (range : NVec2 Int) : Outcome (NVec2 Int) :=
  if range.y < range.x ∨ range.y - range.x < 1000 then do
    let x ← clamp range.x minTime (maxTime - 1000)
    return ⟨x, x + 1000⟩
  else .ok range

/-- The second step: a range that sticks out is moved inside. -/
def shiftRange (minTime maxTime : Int) (range : NVec2 Int) : NVec2 Int :=
  if range.x < minTime then
    let diff := minTime - range.x
    ⟨range.x + diff, range.y + diff⟩
  else if range.y > maxTime then
    let diff := range.y - maxTime
    ⟨range.x - diff, range.y - diff⟩
  else range

section
variable {K : Type} [Field K]

/-- The assignments at the end of `setTimeRange`. -/
def TimeScale.ofRange (regionWidth : K) (range : NVec2 Int) : TimeScale K :=
  let visibleDuration := range.y - range.x
  let pixelsPerTime := regionWidth / visibleDuration
  { gTimeRange := range, visibleDuration, pixelsPerTime, timePerPixels := 1 / pixelsPerTime }

/-- The lambda of `ShowProfile`, with the times and the width of the region that it captures. -/
def setTimeRange (minTime maxTime : Int) (regionWidth : K) (range : NVec2 Int) :
    Outcome (TimeScale K) := do
  assert (range.y ≥ range.x) "range.y >= range.x"
  let range ← widenRange minTime maxTime range
  let range := shiftRange minTime maxTime range
  let x ← clamp range.x minTime maxTime
  let y ← clamp range.y minTime maxTime
  assert (y - x ≥ 1000) "(range.y - range.x) >= 1000"
  return .ofRange regionWidth ⟨x, y⟩

def xFromTime (scale : TimeScale K) (regionWidth : K) (time : Int) : K :=
  ((time - scale.gTimeRange.x : Int) * regionWidth) / scale.visibleDuration

end

end Profiler

end MUtils
