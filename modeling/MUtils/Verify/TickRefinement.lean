import MUtils.Verify.TickExclusion
import MUtils.Verify.TickUpdates

/-!
# The counters as two steps of a tick

`TimeProvider.Step` has the two reads of a tick as one step and all its stores as another, and a
setter as a third. Every run of the threads is such a run as far as the counters are concerned, with
the same setters and as many ticks: the lock keeps the stores of a tick together, and a `SetBeat`
between the two reads can as well come after them.
-/

namespace MUtils.TickThread

variable {β C U : Type}

namespace TickPc

/-- What the tick thread has read of both counters, until it has stored both. -/
def read : TickPc β C → Option (β × UInt32)
  | .lock l _ | .entered l | .loop l _ _ | .nested l _ _ _ _ _ | .storeFrame l | .storeBeat l =>
    some (l.beat, l.frame)
  | _ => none

/-- Between the two reads: the beat that has been read. -/
def readBeat : TickPc β C → Option β
  | .loadFrame _ _ beat => some beat
  | _ => none

/-- The beat that has been stored as the last one, before the stores of the counters. -/
def lastBeat : TickPc β C → Option β
  | .loop l _ _ | .nested l _ _ _ _ _ | .storeFrame l | .storeBeat l => some l.beat
  | _ => none

/-- Between the two stores: the frame that has been stored. -/
def storedFrame : TickPc β C → Option UInt32
  | .storeBeat l => some (l.frame + 1)
  | _ => none

theorem read_resume {l : Locals β} {range left : List C} {calls : List (Call β C)} :
    (resume l range left calls).read = some (l.beat, l.frame) ∧
      (resume l range left calls).readBeat = none ∧
      (resume l range left calls).lastBeat = some l.beat ∧
      (resume l range left calls).storedFrame = none := by
  cases calls <;> exact ⟨rfl, rfl, rfl, rfl⟩

theorem storedFrame_of_not_holds {pc : TickPc β C} (h : pc.holds = false) :
    pc.storedFrame = none := by
  cases pc with
  | storeBeat l => cases h
  | _ => rfl

end TickPc

/-- The tick thread is not between two reads or two stores. -/
def TickPc.settled (pc : TickPc β C) : Prop :=
  pc.readBeat = none ∧ pc.lastBeat = none ∧ pc.storedFrame = none

/-- What `SetBeat` has set the beat to, the latest first. -/
def setBeats : List (Event β C U) → List β
  | [] => []
  | .exec _ (.SetBeat beat) .body :: h => beat :: setBeats h
  | _ :: h => setBeats h

def setFrames : List (Event β C U) → List UInt32
  | [] => []
  | .exec _ (.SetFrame frame) .body :: h => frame :: setFrames h
  | _ :: h => setFrames h

def rounds : List (Event β C U) → Nat
  | [] => 0
  | .round :: h => rounds h + 1
  | _ :: h => rounds h

theorem counters_exec {h : List (Event β C U)} {t : Option U} {c : Call β C} {place : CallPc}
    (hplace : place ≠ .body) :
    setBeats (.exec t c place :: h) = setBeats h ∧ setFrames (.exec t c place :: h) = setFrames h ∧
      rounds (.exec t c place :: h) = rounds h := by
  cases place with
  | body => exact absurd rfl hplace
  | _ => cases c <;> exact ⟨rfl, rfl, rfl⟩

end MUtils.TickThread

namespace MUtils.TimeProvider

variable {β : Type}

def setBeats : List (Action β) → List β
  | [] => []
  | .setBeat beat :: h => beat :: setBeats h
  | _ :: h => setBeats h

def setFrames : List (Action β) → List UInt32
  | [] => []
  | .setFrame frame :: h => frame :: setFrames h
  | _ :: h => setFrames h

def stores : List (Action β) → Nat
  | [] => 0
  | .store :: h => stores h + 1
  | _ :: h => stores h

theorem setBeats_append (beats : List β) (h : List (Action β)) :
    setBeats (beats.map .setBeat ++ h) = beats ++ setBeats h ∧
      setFrames (beats.map .setBeat ++ h) = setFrames h ∧
      stores (beats.map .setBeat ++ h) = stores h := by
  induction beats with
  | nil => exact ⟨rfl, rfl, rfl⟩
  | cons beat beats ih =>
    refine ⟨?_, ih.2.1, ih.2.2⟩
    rw [List.map_cons, List.cons_append, setBeats, ih.1, List.cons_append]

variable [Add β] [One β] {tp₀ tp : TimeProvider β} {h : List (Action β)}

/-- Any step may be taken. -/
abbrev AnyRun (tp₀ : TimeProvider β) : List (Action β) → TimeProvider β → Prop :=
  Run (fun _ _ => True) tp₀

/-- Setters that have been put off. -/
theorem AnyRun.setBeats (hrun : AnyRun tp₀ h tp) (beats : List β) :
    AnyRun tp₀ (beats.map .setBeat ++ h) { tp with m_beat := beats.headD tp.m_beat } := by
  induction beats with
  | nil => exact hrun
  | cons beat beats ih => exact .step ih trivial .setBeat

end MUtils.TimeProvider

namespace MUtils.TickThread

open TimeProvider (Action AnyRun)

variable {β C U : Type} [Add β] [One β]

/-- The counters of the time provider. -/
def System.counters (s : System β C U) : TimeProvider β :=
  ⟨s.m_beat, s.m_frame, s.m_lastBeat, none⟩

/-- The threads and the counters after their events, with the `SetBeat`s that have been put off. -/
structure Refines (s₀ : System β C U) (h : List (Event β C U)) (s : System β C U)
    (hc : List (Action β)) (tp : TimeProvider β) (pending : List β) : Prop where
  run : AnyRun s₀.counters hc tp
  tick : tp.tick = s.tick.read
  beat : s.m_beat = pending.headD tp.m_beat
  frame : s.m_frame = s.tick.storedFrame.getD tp.m_frame
  last : s.m_lastBeat = s.tick.lastBeat.getD tp.m_lastBeat
  read : s.tick.readBeat = none → pending = []
  window : ∀ beat, s.tick.readBeat = some beat → tp.m_beat = beat
  beats : setBeats h = pending ++ TimeProvider.setBeats hc
  frames : setFrames h = TimeProvider.setFrames hc
  rounds : rounds h = TimeProvider.stores hc

namespace Refines

variable {s₀ s s' : System β C U} {h : List (Event β C U)} {hc : List (Action β)}
  {tp : TimeProvider β} {pending : List β} {e : Event β C U}

/-- The counters do not see the step. -/
theorem congr (hr : Refines s₀ h s hc tp pending) (hread : s'.tick.read = s.tick.read)
    (hreadBeat : s'.tick.readBeat = s.tick.readBeat)
    (hlastBeat : s'.tick.lastBeat = s.tick.lastBeat)
    (hstored : s'.tick.storedFrame = s.tick.storedFrame)
    (hdata : s'.m_beat = s.m_beat ∧ s'.m_frame = s.m_frame ∧ s'.m_lastBeat = s.m_lastBeat)
    (he : setBeats (e :: h) = setBeats h ∧ setFrames (e :: h) = setFrames h ∧
      TickThread.rounds (e :: h) = TickThread.rounds h) :
    Refines s₀ (e :: h) s' hc tp pending where
  run := hr.run
  tick := by rw [hread, hr.tick]
  beat := by rw [hdata.1, hr.beat]
  frame := by rw [hdata.2.1, hstored, hr.frame]
  last := by rw [hdata.2.2, hlastBeat, hr.last]
  read hs := hr.read (hreadBeat ▸ hs)
  window beat hs := hr.window beat (hreadBeat ▸ hs)
  beats := by rw [he.1, hr.beats]
  frames := by rw [he.2.1, hr.frames]
  rounds := by rw [he.2.2, hr.rounds]

theorem start (hinit : Initial s₀) : Refines s₀ [] s₀ [] s₀.counters [] where
  run := .start rfl
  tick := by rw [hinit.tick]; rfl
  beat := rfl
  frame := by rw [hinit.tick]; rfl
  last := by rw [hinit.tick]; rfl
  read _ := rfl
  window beat hs := by rw [hinit.tick] at hs; cases hs
  beats := rfl
  frames := rfl
  rounds := rfl

theorem setBeat (hr : Refines s₀ h s hc tp pending) {t : Option U} {beat : β} {s' : System β C U}
    (hs' : s'.tick = s.tick ∧ s'.m_beat = beat ∧ s'.m_frame = s.m_frame ∧
      s'.m_lastBeat = s.m_lastBeat) :
    ∃ hc' tp' pending', Refines s₀ (.exec t (.SetBeat beat) .body :: h) s' hc' tp' pending' := by
  obtain ⟨htick, hbeat, hframe, hlast⟩ := hs'
  cases hread : s.tick.readBeat with
  | none =>
    obtain rfl := hr.read hread
    refine ⟨.setBeat beat :: hc, tp.SetBeat beat, [], .step hr.run trivial .setBeat, ?_, hbeat, ?_,
      ?_, fun _ => rfl, ?_, ?_, hr.frames, hr.rounds⟩
    · rw [htick, ← hr.tick]; rfl
    · rw [htick, hframe, hr.frame]; rfl
    · rw [htick, hlast, hr.last]; rfl
    · rw [htick, hread]; nofun
    · exact congrArg (beat :: ·) hr.beats
  | some beat' =>
    refine ⟨hc, tp, beat :: pending, hr.run, ?_, hbeat, ?_, ?_, ?_, ?_, ?_, hr.frames, hr.rounds⟩
    · rw [htick, hr.tick]
    · rw [htick, hframe, hr.frame]
    · rw [htick, hlast, hr.last]
    · rw [htick, hread]; nofun
    · rw [htick]; exact hr.window
    · exact congrArg (beat :: ·) hr.beats

theorem setFrame (hr : Refines s₀ h s hc tp pending) (hstored : s.tick.storedFrame = none)
    {t : Option U} {frame : UInt32} {s' : System β C U}
    (hs' : s'.tick = s.tick ∧ s'.m_beat = s.m_beat ∧ s'.m_frame = frame ∧
      s'.m_lastBeat = s.m_lastBeat) :
    ∃ hc' tp' pending', Refines s₀ (.exec t (.SetFrame frame) .body :: h) s' hc' tp' pending' := by
  obtain ⟨htick, hbeat, hframe, hlast⟩ := hs'
  refine ⟨.setFrame frame :: hc, tp.SetFrame frame, pending, .step hr.run trivial .setFrame, ?_,
    ?_, ?_, ?_, ?_, ?_, hr.beats, congrArg (frame :: ·) hr.frames, hr.rounds⟩
  · rw [htick, ← hr.tick]; rfl
  · rw [hbeat, hr.beat]; rfl
  · rw [htick, hstored, hframe]; rfl
  · rw [htick, hlast, hr.last]; rfl
  · rw [htick]; exact hr.read
  · rw [htick]; exact hr.window

/-- The second read, and then the `SetBeat`s that have come since the first. -/
theorem loadFrame (hr : Refines s₀ h s hc tp pending) {startTime nextTime : Nat} {beat : β}
    (ht : s.tick = .loadFrame startTime nextTime beat) :
    ∃ hc' tp' pending', Refines s₀ (.internal :: h)
      { s with tick := .lock ⟨startTime, nextTime, beat, s.m_frame⟩ (.first 0) } hc' tp'
      pending' := by
  have htick : tp.tick = none := by rw [hr.tick, ht]; rfl
  have hbeat : tp.m_beat = beat := hr.window beat (by rw [ht]; rfl)
  have hframe : s.m_frame = tp.m_frame := by rw [hr.frame, ht]; rfl
  obtain ⟨hbeats, hframes, hstores⟩ := TimeProvider.setBeats_append pending (.load :: hc)
  refine ⟨_, _, [], AnyRun.setBeats (.step hr.run trivial (.load htick)) pending, ?_,
    hr.beat, hframe, ?_, fun _ => rfl, nofun, ?_, ?_, ?_⟩
  · simp only [TimeProvider.load, TickPc.read, hbeat, hframe]
  · rw [hr.last, ht]; rfl
  · rw [hbeats]; exact hr.beats
  · rw [hframes]; exact hr.frames
  · rw [hstores]; exact hr.rounds

variable [DecidableEq C] [DecidableEq U] {env : Env β C} {owner : Option (Option U)} {u : U}

theorem exec (hr : Refines s₀ h s hc tp pending) (ho : Owned s owner) {c : Call β C}
    {place : CallPc} {next : Option CallPc} (hu : s.user u = .inCall c place)
    (hcall : s.callStep env c place = (next, s')) :
    ∃ hc' tp' pending', Refines s₀ (.exec (some u) c place :: h)
      (s'.setUser u (next.elim .idle (.inCall c))) hc' tp' pending' := by
  have hquiet (hplace : place ≠ .body) :=
    counters_exec (h := h) (t := some u) (c := c) hplace
  obtain ⟨_, rfl, -, -, rfl⟩ | ⟨_, rfl, -, -, rfl⟩ | ⟨rfl, -, rfl⟩ | ⟨rfl, -, rfl⟩ :=
    System.callStep_cases hcall
  · exact ⟨hc, tp, pending, hr.congr rfl rfl rfl rfl ⟨rfl, rfl, rfl⟩ (hquiet (by simp))⟩
  · exact ⟨hc, tp, pending, hr.congr rfl rfl rfl rfl ⟨rfl, rfl, rfl⟩ (hquiet (by simp))⟩
  · have hfree : s.holds none = false :=
      ho.not_holds (t := some u) (by simp only [System.holds, hu]; rfl) (Option.some_ne_none u).symm
    cases c with
    | SetBeat beat => exact hr.setBeat ⟨rfl, rfl, rfl, rfl⟩
    | SetFrame frame =>
      exact hr.setFrame (TickPc.storedFrame_of_not_holds hfree) ⟨rfl, rfl, rfl, rfl⟩
    | _ =>
      exact ⟨hc, tp, pending, hr.congr rfl rfl rfl rfl ⟨rfl, rfl, rfl⟩ ⟨rfl, rfl, rfl⟩⟩
  · exact ⟨hc, tp, pending, hr.congr rfl rfl rfl rfl ⟨rfl, rfl, rfl⟩ (hquiet (by simp))⟩

theorem step (hr : Refines s₀ h s hc tp pending) (ho : Owned s owner) (hstep : Step env s e s') :
    ∃ hc' tp' pending', Refines s₀ (e :: h) s' hc' tp' pending' := by
  have hsame {s'' : System β C U} (htick : s''.tick = s.tick ∨ s''.tick.read = s.tick.read ∧
      s''.tick.readBeat = s.tick.readBeat ∧ s''.tick.lastBeat = s.tick.lastBeat ∧
      s''.tick.storedFrame = s.tick.storedFrame)
      (hdata : s''.m_beat = s.m_beat ∧ s''.m_frame = s.m_frame ∧ s''.m_lastBeat = s.m_lastBeat)
      (he : setBeats (e :: h) = setBeats h ∧ setFrames (e :: h) = setFrames h ∧
        TickThread.rounds (e :: h) = TickThread.rounds h) :
      ∃ hc' tp' pending', Refines s₀ (e :: h) s'' hc' tp' pending' := by
    obtain htick | ⟨h₁, h₂, h₃, h₄⟩ := htick
    · exact ⟨hc, tp, pending, hr.congr (by rw [htick]) (by rw [htick]) (by rw [htick])
        (by rw [htick]) hdata he⟩
    · exact ⟨hc, tp, pending, hr.congr h₁ h₂ h₃ h₄ hdata he⟩
  cases hstep with
  | exec hu hcall => exact hr.exec ho hu hcall
  | loadFrame ht => exact hr.loadFrame ht
  | loadBeat ht =>
    obtain rfl := hr.read (by rw [ht]; rfl)
    refine ⟨hc, tp, [], hr.run, ?_, hr.beat, ?_, ?_, fun _ => rfl, ?_, hr.beats, hr.frames,
      hr.rounds⟩
    · rw [hr.tick, ht]; rfl
    · rw [hr.frame, ht]; rfl
    · rw [hr.last, ht]; rfl
    · rintro beat ⟨⟩
      exact hr.beat.symm
  | entered ht hrange =>
    obtain rfl := hr.read (by rw [ht]; rfl)
    refine ⟨hc, tp, [], hr.run, ?_, hr.beat, ?_, rfl, fun _ => rfl, nofun, hr.beats, hr.frames,
      hr.rounds⟩
    · rw [hr.tick, ht]; rfl
    · rw [hr.frame, ht]; rfl
  | storeFrame ht =>
    obtain rfl := hr.read (by rw [ht]; rfl)
    refine ⟨hc, tp, [], hr.run, ?_, hr.beat, rfl, ?_, fun _ => rfl, nofun, hr.beats, hr.frames,
      hr.rounds⟩
    · rw [hr.tick, ht]; rfl
    · rw [hr.last, ht]; rfl
  | @storeBeat l ht =>
    obtain rfl := hr.read (by rw [ht]; rfl)
    have htick : tp.tick = some (l.beat, l.frame) := by rw [hr.tick, ht]; rfl
    refine ⟨.store :: hc, .store l.beat l.frame, [], .step hr.run trivial (.store htick), rfl, rfl,
      ?_, ?_, fun _ => rfl, nofun, hr.beats, hr.frames, congrArg (· + 1) hr.rounds⟩
    · rw [hr.frame, ht]; rfl
    · rw [hr.last, ht]; rfl
  | @nested _ _ _ c _ _ _ _ ht hcall =>
    obtain ⟨pc, rfl, rfl, rfl⟩ := ho.nested ht hcall
    refine hsame (.inr ?_) ⟨rfl, rfl, rfl⟩ (counters_exec nofun)
    rw [ht]
    exact ⟨rfl, rfl, rfl, rfl⟩
  | tick ht _ =>
    refine hsame (.inr ?_) ⟨rfl, rfl, rfl⟩ ⟨rfl, rfl, rfl⟩
    rw [ht]
    exact TickPc.read_resume
  | @lock _ _ next _ ht _ =>
    refine hsame (.inr ?_) ⟨rfl, rfl, rfl⟩ ⟨rfl, rfl, rfl⟩
    rw [ht]
    cases next <;> exact ⟨rfl, rfl, rfl, rfl⟩
  | testQuit ht =>
    refine hsame (.inr ?_) ⟨rfl, rfl, rfl⟩ ⟨rfl, rfl, rfl⟩
    rw [ht]
    dsimp only
    split <;> exact ⟨rfl, rfl, rfl, rfl⟩
  | joined _ ht =>
    refine hsame (.inr ?_) ⟨rfl, rfl, rfl⟩ ⟨rfl, rfl, rfl⟩
    obtain ht | ht := ht <;>
    · rw [ht]
      exact ⟨rfl, rfl, rfl, rfl⟩
  | spawned _ ht | readClock _ ht | ticked ht _ | unlock ht | wake _ ht _ =>
    refine hsame (.inr ?_) ⟨rfl, rfl, rfl⟩ ⟨rfl, rfl, rfl⟩
    rw [ht]
    exact ⟨rfl, rfl, rfl, rfl⟩
  | invoke _ | invokeStart _ | clearQuit _ | invokeEnd _ | setQuit _ | invalidIterator _ _ =>
    exact hsame (.inl rfl) ⟨rfl, rfl, rfl⟩ ⟨rfl, rfl, rfl⟩

end Refines

variable {s₀ s : System β C U} {h : List (Event β C U)} [DecidableEq C] [DecidableEq U]
  {env : Env β C}

/-- Every run of the threads is a run of the two-step model: outside the reads and the stores of a
tick its counters are those of a run of that model with the same `SetBeat`s and `SetFrame`s in their
orders, and with a tick for each round. -/
theorem run_refines_two_steps (hinit : Initial s₀) (hrun : Run env s₀ h s)
    (hsettled : s.tick.settled) :
    ∃ hc tp, AnyRun s₀.counters hc tp ∧
      tp.m_beat = s.m_beat ∧ tp.m_frame = s.m_frame ∧ tp.m_lastBeat = s.m_lastBeat ∧
      tp.tick = s.tick.read ∧
      TimeProvider.setBeats hc = setBeats h ∧ TimeProvider.setFrames hc = setFrames h ∧
      TimeProvider.stores hc = rounds h := by
  have hrefines : ∃ hc tp pending, Refines s₀ h s hc tp pending := by
    refine hrun.invariant (I := fun h s => ∃ hc tp pending, Refines s₀ h s hc tp pending)
      ⟨[], _, [], .start hinit⟩ ?_
    rintro h s₁ e s₂ hrun ⟨hc, tp, pending, hr⟩ hstep
    obtain ⟨owner, ho⟩ := (Run.safe hinit hrun).owned
    exact hr.step ho hstep
  obtain ⟨hc, tp, pending, hr⟩ := hrefines
  obtain ⟨hread, hlast, hstored⟩ := hsettled
  obtain rfl := hr.read hread
  refine ⟨hc, tp, hr.run, hr.beat.symm, ?_, ?_, hr.tick, hr.beats.symm, hr.frames.symm,
    hr.rounds.symm⟩
  · rw [hr.frame, hstored]
    rfl
  · rw [hr.last, hlast]
    rfl

theorem run_refines_two_steps_round : ∃ h s, Run plainEnv fresh h s ∧ rounds h = 1 ∧
    ∃ hc tp, AnyRun fresh.counters hc tp ∧
      tp.m_beat = s.m_beat ∧ tp.m_frame = s.m_frame ∧ tp.m_lastBeat = s.m_lastBeat ∧
      tp.tick = s.tick.read ∧
      TimeProvider.setBeats hc = setBeats h ∧ TimeProvider.setFrames hc = setFrames h ∧
      TimeProvider.stores hc = rounds h := by
  obtain ⟨l, s, hrun, ht⟩ := exists_round
  have hsettled : s.tick.settled := by
    rw [ht]
    exact ⟨rfl, rfl, rfl⟩
  exact ⟨_, s, hrun, rfl, run_refines_two_steps initial_fresh hrun hsettled⟩

end MUtils.TickThread
