import MUtils.Theory.Trace
import MUtils.Thread.SpinMutex

/-!
# The threads of `time_provider.cpp`

The tick thread of `StartThread` runs beside any number of threads that call the methods of the time
provider. A step is what one of them does to memory that others see: a turn of a lock, a load or a
store, or the code under a lock that only the time provider's own fields see. The `Tick` of a
consumer may call methods itself; which ones is a parameter (`Env.Tick`).

`StartThread` of a time provider whose thread has not been joined ends the program: a thread that is
about to make such a thread has no step. The handle of the thread is taken to be used by one thread
at a time. What the profiler is told is left out, and so are the getters.
-/

namespace MUtils.TickThread

/-- A method that takes the lock. -/
inductive Call (β C : Type) where
  | RegisterConsumer (pConsumer : C)
  | UnRegisterConsumer (pConsumer : C)
  | SetTempo (tempo quantum : β)
  | SetBeat (beat : β)
  | SetFrame (frame : UInt32)

structure Env (β C : Type) where
  /-- `(uint64_t)(60000000.0 / tempo)` -/
  perBeat : β → Nat
  /-- The methods that the `Tick` of a consumer calls. -/
  Tick : C → List (Call β C)

/-- Where a thread is in a method that takes the lock. -/
inductive CallPc where
  | lock (pc : LockPc)
  | body
  | unlock

def CallPc.start : CallPc := .lock (.first 0)

/-- The locals of the tick thread. Times are in microseconds. -/
structure Locals (β : Type) where
  startTime : Nat
  nextTime : Nat
  beat : β
  frame : UInt32

/-- Where the tick thread is. -/
inductive TickPc (β C : Type) where
  /-- There is no thread that could be joined. -/
  | absent
  | top
  | loadBeat (startTime nextTime : Nat)
  | loadFrame (startTime nextTime : Nat) (beat : β)
  | lock (l : Locals β) (pc : LockPc)
  | entered (l : Locals β)
  /-- In the loop over the consumers: all of them, and those still to be ticked. -/
  | loop (l : Locals β) (range left : List C)
  /-- In a call that a consumer makes from its `Tick`, with those that it makes after this one. -/
  | nested (l : Locals β) (range left : List C) (c : Call β C) (place : CallPc)
    (more : List (Call β C))
  | storeFrame (l : Locals β)
  | storeBeat (l : Locals β)
  | unlock (l : Locals β)
  | testQuit (l : Locals β)
  | sleep (l : Locals β)
  | finished

/-- Where a thread that calls methods is. -/
inductive UserPc (β C : Type) where
  | idle
  | inCall (c : Call β C) (place : CallPc)
  /-- `StartThread`, before the store and before the thread is made. -/
  | clearQuit
  | spawn
  /-- `EndThread`, before the store and before the join. -/
  | setQuit
  | join

structure System (β C U : Type) where
  m_consumers : Finset C
  m_spin_mutex : audio_spin_mutex
  m_quitTimer : Bool
  m_quantum : β
  m_tempo : β
  m_beat : β
  m_frame : UInt32
  m_lastTime : Nat
  m_lastBeat : β
  m_timePerBeat : Nat
  tick : TickPc β C
  user : U → UserPc β C

inductive Event (β C U : Type) where
  | invoke (u : U) (c : Call β C)
  /-- A step in a method: of a thread, or of the tick thread. -/
  | exec (t : Option U) (c : Call β C) (place : CallPc)
  | invokeStart (u : U)
  | clearQuit (u : U)
  | spawned (u : U)
  | invokeEnd (u : U)
  | setQuit (u : U)
  | joined (u : U)
  /-- `consumer->Tick()` -/
  | tick (pConsumer : C)
  /-- The tick thread goes on with an iterator of a set that has changed. -/
  | invalidIterator
  /-- The stores of a round of ticks are done. -/
  | round
  | internal

variable {β C U : Type} [DecidableEq U]

namespace System

def setUser (s : System β C U) (u : U) (pc : UserPc β C) : System β C U :=
  { s with user := Function.update s.user u pc }

@[simp] theorem setUser_self {s : System β C U} {u : U} {pc : UserPc β C} :
    (s.setUser u pc).user u = pc := Function.update_self ..

theorem setUser_of_ne {s : System β C U} {u v : U} {pc : UserPc β C} (h : v ≠ u) :
    (s.setUser u pc).user v = s.user v := Function.update_of_ne h ..

variable [DecidableEq C]

/-- What a method does under the lock. -/
def perform (env : Env β C) (s : System β C U) : Call β C → System β C U
  | .RegisterConsumer c => { s with m_consumers := insert c s.m_consumers }
  | .UnRegisterConsumer c => { s with m_consumers := s.m_consumers.erase c }
  | .SetTempo tempo quantum =>
    { s with m_quantum := quantum, m_tempo := tempo, m_timePerBeat := env.perBeat tempo }
  | .SetBeat beat => { s with m_beat := beat }
  | .SetFrame frame => { s with m_frame := frame }

/-- One step in a method: where it is afterwards, if it has not returned. -/
def callStep (env : Env β C) (s : System β C U) (c : Call β C) :
    CallPc → Option CallPc × System β C U
  | .lock pc =>
    match s.m_spin_mutex.lockTurn pc with
    | (none, m) => (some .body, { s with m_spin_mutex := m })
    | (some pc, m) => (some (.lock pc), { s with m_spin_mutex := m })
  | .body => (some .unlock, s.perform env c)
  | .unlock => (none, { s with m_spin_mutex := s.m_spin_mutex.unlock })

variable {env : Env β C} {s s' : System β C U} {c : Call β C} {place : CallPc}
  {next : Option CallPc}

omit [DecidableEq U]

theorem callStep_lock_free {pc : LockPc} (h : s.m_spin_mutex.flag = false) :
    s.callStep env c (.lock pc) = (some .body, { s with m_spin_mutex := { flag := true } }) := by
  simp only [callStep, audio_spin_mutex.lockTurn_free h]

theorem callStep_cases (h : s.callStep env c place = (next, s')) :
    (∃ pc, place = .lock pc ∧ s.m_spin_mutex.flag = false ∧ next = some .body ∧
      s' = { s with m_spin_mutex := { flag := true } }) ∨
    (∃ pc, place = .lock pc ∧ s.m_spin_mutex.flag = true ∧
      next = some (.lock (audio_spin_mutex.nextTurn pc)) ∧ s' = s) ∨
    (place = .body ∧ next = some .unlock ∧ s' = s.perform env c) ∨
    (place = .unlock ∧ next = none ∧ s' = { s with m_spin_mutex := { flag := false } }) := by
  cases place with
  | lock pc =>
    cases hflag : s.m_spin_mutex.flag with
    | false =>
      rw [callStep_lock_free hflag, Prod.mk.injEq] at h
      exact .inl ⟨pc, rfl, rfl, h.1.symm, h.2.symm⟩
    | true =>
      simp only [callStep, audio_spin_mutex.lockTurn_taken hflag, Prod.mk.injEq] at h
      exact .inr (.inl ⟨pc, rfl, rfl, h.1.symm, h.2.symm⟩)
  | body =>
    obtain ⟨hnext, hs⟩ := Prod.mk.inj h
    exact .inr (.inr (.inl ⟨rfl, hnext.symm, hs.symm⟩))
  | unlock =>
    obtain ⟨hnext, hs⟩ := Prod.mk.inj h
    exact .inr (.inr (.inr ⟨rfl, hnext.symm, hs.symm⟩))

@[simp] theorem perform_tick : (s.perform env c).tick = s.tick := by cases c <;> rfl

@[simp] theorem perform_user : (s.perform env c).user = s.user := by cases c <;> rfl

@[simp] theorem perform_m_spin_mutex : (s.perform env c).m_spin_mutex = s.m_spin_mutex := by
  cases c <;> rfl

@[simp] theorem perform_m_quitTimer : (s.perform env c).m_quitTimer = s.m_quitTimer := by
  cases c <;> rfl

/-- A step of a method moves no other thread. -/
theorem callStep_frame (h : s.callStep env c place = (next, s')) :
    s'.tick = s.tick ∧ s'.user = s.user ∧ s'.m_quitTimer = s.m_quitTimer := by
  obtain ⟨_, _, _, _, rfl⟩ | ⟨_, _, _, _, rfl⟩ | ⟨_, _, rfl⟩ | ⟨_, _, rfl⟩ := callStep_cases h
  · exact ⟨rfl, rfl, rfl⟩
  · exact ⟨rfl, rfl, rfl⟩
  · exact ⟨perform_tick, perform_user, perform_m_quitTimer⟩
  · exact ⟨rfl, rfl, rfl⟩

/-- Only its code under the lock can change the consumers. -/
theorem callStep_m_consumers (h : s.callStep env c place = (next, s')) :
    (place = .body ∧ s' = s.perform env c) ∨
      (place ≠ .body ∧ s'.m_consumers = s.m_consumers) := by
  obtain ⟨_, rfl, _, _, rfl⟩ | ⟨_, rfl, _, _, rfl⟩ | ⟨rfl, _, rfl⟩ | ⟨rfl, _, rfl⟩ :=
    callStep_cases h
  · exact .inr ⟨nofun, rfl⟩
  · exact .inr ⟨nofun, rfl⟩
  · exact .inl ⟨rfl, rfl⟩
  · exact .inr ⟨nofun, rfl⟩

end System

/-- The set of consumers is gone through in some order. -/
def Enumerates (range : List C) (consumers : Finset C) : Prop :=
  range.Nodup ∧ ∀ c, c ∈ range ↔ c ∈ consumers

/-- The tick thread goes on: with calls of the consumer that it has ticked, or with the loop. -/
def TickPc.resume (l : Locals β) (range left : List C) : List (Call β C) → TickPc β C
  | [] => .loop l range left
  | c :: more => .nested l range left c .start more

variable [DecidableEq C] [Add β] [One β]

inductive Step (env : Env β C) (s : System β C U) : Event β C U → System β C U → Prop
  | invoke : s.user u = .idle → Step env s (.invoke u c) (s.setUser u (.inCall c .start))
  | exec : s.user u = .inCall c place → s.callStep env c place = (next, s') →
      Step env s (.exec (some u) c place) (s'.setUser u (next.elim .idle (.inCall c)))
  | invokeStart : s.user u = .idle → Step env s (.invokeStart u) (s.setUser u .clearQuit)
  | clearQuit : s.user u = .clearQuit →
      Step env s (.clearQuit u) ({ s with m_quitTimer := false }.setUser u .spawn)
  /-- The thread is made, and from here on runs beside the rest of `StartThread`. That rest changes
  nothing that is modelled, and is part of this step. -/
  | spawned : s.user u = .spawn → s.tick = .absent →
      Step env s (.spawned u) ({ s with tick := .top }.setUser u .idle)
  | invokeEnd : s.user u = .idle → Step env s (.invokeEnd u) (s.setUser u .setQuit)
  | setQuit : s.user u = .setQuit →
      Step env s (.setQuit u) ({ s with m_quitTimer := true }.setUser u .join)
  | joined : s.user u = .join → s.tick = .finished ∨ s.tick = .absent →
      Step env s (.joined u) ({ s with tick := .absent }.setUser u .idle)
  | readClock (now : Nat) : s.tick = .top →
      Step env s .internal { s with tick := .loadBeat now (now + s.m_timePerBeat) }
  | loadBeat : s.tick = .loadBeat startTime nextTime →
      Step env s .internal { s with tick := .loadFrame startTime nextTime s.m_beat }
  | loadFrame : s.tick = .loadFrame startTime nextTime beat →
      Step env s .internal
        { s with tick := .lock ⟨startTime, nextTime, beat, s.m_frame⟩ (.first 0) }
  | lock : s.tick = .lock l pc → s.m_spin_mutex.lockTurn pc = (next, m) →
      Step env s .internal { s with m_spin_mutex := m, tick := next.elim (.entered l) (.lock l) }
  | entered : s.tick = .entered l → Enumerates range s.m_consumers →
      Step env s .internal
        { s with m_lastTime := l.startTime, m_lastBeat := l.beat, tick := .loop l range range }
  | tick : s.tick = .loop l range (c :: left) → Enumerates range s.m_consumers →
      Step env s (.tick c) { s with tick := .resume l range left (env.Tick c) }
  | ticked : s.tick = .loop l range [] → Enumerates range s.m_consumers →
      Step env s .internal { s with tick := .storeFrame l }
  | invalidIterator : s.tick = .loop l range left → ¬Enumerates range s.m_consumers →
      Step env s .invalidIterator s
  | nested : s.tick = .nested l range left c place more →
      s.callStep env c place = (next, s') →
      Step env s (.exec none c place)
        { s' with
          tick := next.elim (.resume l range left more) (.nested l range left c · more) }
  | storeFrame : s.tick = .storeFrame l →
      Step env s .internal { s with m_frame := l.frame + 1, tick := .storeBeat l }
  | storeBeat : s.tick = .storeBeat l →
      Step env s .round { s with m_beat := l.beat + 1, tick := .unlock l }
  | unlock : s.tick = .unlock l →
      Step env s .internal { s with m_spin_mutex := s.m_spin_mutex.unlock, tick := .testQuit l }
  | testQuit : s.tick = .testQuit l →
      Step env s .internal { s with tick := if s.m_quitTimer then .finished else .sleep l }
  /-- `sleep_until`, and around the loop again. -/
  | wake (now : Nat) : s.tick = .sleep l → l.nextTime ≤ now →
      Step env s .internal { s with tick := .top }

/-- As the constructor leaves it. -/
structure Initial (s : System β C U) : Prop where
  consumers : s.m_consumers = ∅
  mutex : s.m_spin_mutex.flag = false
  tick : s.tick = .absent
  user : ∀ u, s.user u = .idle

/-- A run, with its events. -/
abbrev Run (env : Env β C) (s₀ : System β C U) : List (Event β C U) → System β C U → Prop :=
  Steps (Step env) s₀

end MUtils.TickThread
