import MUtils.Callback.Scheduler

/-!
# Runs of the scheduler

A callback is called only if the scheduler has been started and neither stopped nor triggered since
then (`FiresOnStart`, `run_sound`). After the callback, `scheduler_update` sets the state to
`Triggered`, whatever the callback has set it to. So a scheduler that its callback has started again
never calls back, and the state is the one that the callback has left just if the callback left it
alone (`scheduler_rearms_iff`).
-/

namespace MUtils.scheduler
open Outcome

variable {Seconds Callback : Type} [One Seconds]

/-- A call that the program makes, which for an update has what callbacks would do in it. -/
inductive Call (Seconds Callback : Type) where
  | control (c : Control Seconds Callback)
  | update (now : Int) (effect : Callback → List (Control Seconds Callback))

inductive Event where
  | started
  | stopped
  | fired
  deriving DecidableEq

def Event.ofControl : Control Seconds Callback → Event
  | .start .. => .started
  | .stop => .stopped

/-- What happens in an update, where the callback does what `effect` says. -/
def updateEvents (effect : Callback → List (Control Seconds Callback)) :
    Option Callback → List Event
  | none => []
  | some callback => .fired :: (effect callback).map .ofControl

variable (reached : UInt64 → Seconds → Bool)

/-- A call, with what has happened so far. -/
def perform (s : scheduler Seconds Callback × List Event) :
    Call Seconds Callback → Outcome (scheduler Seconds Callback × List Event)
  | .control c => .ok (s.1.control c, s.2 ++ [.ofControl c])
  | .update now effect => do
    let (sched, called) ← scheduler_update reached effect s.1 now
    return (sched, s.2 ++ updateEvents effect called)

/-- The calls of a program, from a new scheduler on. -/
def run (calls : List (Call Seconds Callback)) :
    Outcome (scheduler Seconds Callback × List Event) := calls.foldlM (perform reached) ({}, [])

/-- In the run, an update calls back. The callback makes the calls `cs`, and the update takes the
scheduler from `sched` to `sched'`. -/
def FiresIn (calls : List (Call Seconds Callback)) (sched : scheduler Seconds Callback)
    (cs : List (Control Seconds Callback)) (sched' : scheduler Seconds Callback) : Prop :=
  ∃ part now effect events callback, part ++ [.update now effect] <+: calls ∧
    run reached part = .ok (sched, events) ∧
    scheduler_update reached effect sched now = .ok (sched', some callback) ∧
    cs = effect callback

/-- The update leaves the scheduler as the callback has set it with the calls `cs`: in the same
state, and if it was started last, it calls back once the new timeout is reached. -/
structure LeftAsSet (sched : scheduler Seconds Callback) (cs : List (Control Seconds Callback))
    (sched' : scheduler Seconds Callback) : Prop where
  state : sched'.state = (cs.foldl control sched).state
  refires : ∀ start seconds callback, cs.getLast? = some (.start start seconds callback) →
    ∀ now effect, reached (timer_get_elapsed ⟨start⟩ now) seconds →
      ∃ sched'', scheduler_update reached effect sched' now = .ok (sched'', some callback)

/-- Every time that the callback fires, the last thing that happened was a start. -/
def FiresOnStart (events : List Event) : Prop :=
  ∀ before after, events = before ++ .fired :: after → before.getLast? = some .started

variable {reached} {calls : List (Call Seconds Callback)}
  {sched sched' : scheduler Seconds Callback}
  {cs : List (Control Seconds Callback)} {events events' : List Event} {now : Int}
  {effect : Callback → List (Control Seconds Callback)}

/-! ### Events -/

theorem FiresOnStart.append (h : FiresOnStart events) (hnot : .fired ∉ events') :
    FiresOnStart (events ++ events') := by
  intro before after hcut
  rcases List.append_eq_append_iff.mp hcut with ⟨mid, rfl, rfl⟩ | ⟨mid, rfl, hmid⟩
  · exact absurd (List.mem_append_right _ List.mem_cons_self) hnot
  · cases mid with
    | nil =>
      rw [List.nil_append] at hmid
      exact absurd (hmid ▸ List.mem_cons_self) hnot
    | cons e mid =>
      obtain ⟨rfl, -⟩ := List.cons.inj hmid
      exact h before mid rfl

theorem FiresOnStart.fired (h : FiresOnStart events) (hlast : events.getLast? = some .started) :
    FiresOnStart (events ++ [.fired]) := by
  intro before after hcut
  rcases List.eq_nil_or_concat' after with rfl | ⟨after, e, rfl⟩
  · obtain ⟨rfl, -⟩ := List.append_inj' hcut rfl
    exact hlast
  · have hcut' : events ++ [.fired] = (before ++ .fired :: after) ++ [e] := by simpa using hcut
    exact h before after (List.append_inj_left' hcut' rfl)

omit [One Seconds] in
theorem fired_not_mem_controls (cs : List (Control Seconds Callback)) :
    Event.fired ∉ cs.map .ofControl := by
  intro hmem
  obtain ⟨c, -, hc⟩ := List.mem_map.mp hmem
  cases c <;> cases hc

/-! ### Steps -/

/-- What an update does that calls back. -/
theorem update_fires {callback : Callback}
    (h : scheduler_update reached effect sched now = .ok (sched', some callback)) :
    sched.state = .Started ∧
      sched' = { (effect callback).foldl control sched with state := .Triggered } := by
  unfold scheduler_update at h
  split at h
  · cases h
  · next hstate =>
    refine ⟨not_not.mp hstate, ?_⟩
    split at h
    · split at h
      · cases h
      · cases h
        rfl
    · cases h

/-- A started scheduler that is due calls back. -/
theorem update_due {callback : Callback} (hstate : sched.state = .Started)
    (hcallback : sched.callback = some callback)
    (hdue : reached (timer_get_elapsed sched.cb_timer now) sched.timeout) :
    scheduler_update reached effect sched now =
      .ok ({ (effect callback).foldl control sched with state := .Triggered }, some callback) := by
  rw [scheduler_update, if_neg (not_not.mpr hstate), if_pos hdue]
  simp only [hcallback]

/-- Otherwise nothing happens. -/
theorem update_idle (h : ¬(sched.state = .Started ∧
      reached (timer_get_elapsed sched.cb_timer now) sched.timeout)) :
    scheduler_update reached effect sched now = .ok (sched, none) := by
  unfold scheduler_update
  split
  · rfl
  · next hstate => exact if_neg fun hdue => h ⟨not_not.mp hstate, hdue⟩

/-- A started scheduler has a callback, and starting it was the last thing that happened. -/
structure Sound (s : scheduler Seconds Callback × List Event) : Prop where
  callback : s.1.state = .Started → ∃ callback, s.1.callback = some callback
  last : s.1.state = .Started → s.2.getLast? = some .started
  fires : FiresOnStart s.2

theorem Sound.new : Sound (({}, []) : scheduler Seconds Callback × List Event) where
  callback h := nomatch h
  last h := nomatch h
  fires before after hcut := by simp at hcut

theorem Sound.perform {s : scheduler Seconds Callback × List Event} (h : Sound s)
    (call : Call Seconds Callback) : ∃ s', perform reached s call = .ok s' ∧ Sound s' := by
  obtain ⟨sched, events⟩ := s
  cases call with
  | control c =>
    refine ⟨_, rfl, ?_⟩
    have hfires := h.fires.append (fired_not_mem_controls [c])
    cases c with
    | start now seconds callback =>
      exact ⟨fun _ => ⟨callback, rfl⟩, fun _ => List.getLast?_concat, hfires⟩
    | stop => exact ⟨nofun, nofun, hfires⟩
  | update now effect =>
    by_cases hdue : sched.state = .Started ∧
      reached (timer_get_elapsed sched.cb_timer now) sched.timeout
    · obtain ⟨callback, hcallback⟩ := h.callback hdue.1
      have hfired := (h.fires.fired (h.last hdue.1)).append
        (fired_not_mem_controls (effect callback))
      rw [List.append_assoc] at hfired
      rw [scheduler.perform, update_due hdue.1 hcallback hdue.2]
      have htriggered : SchedulerState.Triggered ≠ .Started := nofun
      exact ⟨_, rfl, fun h => absurd h htriggered, fun h => absurd h htriggered, hfired⟩
    · refine ⟨(sched, events), ?_, h⟩
      rw [scheduler.perform, update_idle hdue]
      simp [updateEvents]

/-- No call throws. -/
theorem run_sound (calls : List (Call Seconds Callback)) :
    ∃ s, run reached calls = .ok s ∧ Sound s := by
  induction calls using List.reverseRecOn with
  | nil => exact ⟨_, rfl, .new⟩
  | append_singleton calls call ih =>
    obtain ⟨s, hs, hsound⟩ := ih
    obtain ⟨s', hs', hsound'⟩ : ∃ s', scheduler.perform reached s call = .ok s' ∧ Sound s' :=
      hsound.perform call
    refine ⟨s', ?_, hsound'⟩
    rw [run, List.foldlM_append, ← run, hs, ok_bind, List.foldlM_cons, hs']
    rfl

theorem control_state_ne (hcs : cs ≠ []) : (cs.foldl control sched).state ≠ .Triggered := by
  obtain ⟨cs, c, rfl⟩ := (List.eq_nil_or_concat' cs).resolve_left hcs
  rw [List.foldl_append, List.foldl_cons, List.foldl_nil]
  cases c <;> exact nofun

/-- **A callback fires once for a start, and never while the scheduler is stopped; but what it sets
is overwritten**: every update leaves the scheduler as the callback has set it just if no callback
starts or stops it. -/
theorem scheduler_rearms_iff (calls : List (Call Seconds Callback)) :
    (∃ sched events, run reached calls = .ok (sched, events) ∧ FiresOnStart events) ∧
    ((∀ sched cs sched', FiresIn reached calls sched cs sched' → cs ≠ [] →
        LeftAsSet reached sched cs sched') ↔
      ∀ sched cs sched', FiresIn reached calls sched cs sched' → cs = []) := by
  constructor
  · obtain ⟨s, hrun, hsound⟩ := run_sound calls
    exact ⟨s.1, s.2, hrun, hsound.fires⟩
  constructor
  · intro hleft sched cs sched' hfires
    by_contra hcs
    have hstate := (hleft sched cs sched' hfires hcs).state
    obtain ⟨part, now, effect, events, callback, -, -, hupdate, rfl⟩ := hfires
    rw [(update_fires hupdate).2] at hstate
    exact control_state_ne hcs hstate.symm
  · intro hnone sched cs sched' hfires hcs
    exact absurd (hnone sched cs sched' hfires) hcs

/-! A timeout and a callback that starts the scheduler again. -/

/-- Timeouts in nanoseconds. -/
def reachedExactly (elapsed : UInt64) (timeout : Nat) : Bool := timeout ≤ elapsed.toNat

/-- The update leaves the scheduler triggered, and the next one does not call back although its
timeout is over. -/
theorem scheduler_not_rearmed :
    FiresIn reachedExactly
      [.control (.start 0 1 ()), .update 1 fun _ => [.start 1 1 ()]]
      ⟨some (), ⟨0⟩, 1, .Started⟩ [.start 1 1 ()] ⟨some (), ⟨1⟩, 1, .Triggered⟩ ∧
    ¬LeftAsSet reachedExactly ⟨some (), ⟨0⟩, 1, .Started⟩ [.start 1 1 ()]
      ⟨some (), ⟨1⟩, 1, .Triggered⟩ ∧
    run reachedExactly
      [.control (.start 0 1 ()), .update 1 fun _ => [.start 1 1 ()], .update 2 fun _ => []] =
      .ok (⟨some (), ⟨1⟩, 1, .Triggered⟩, [.started, .fired, .started]) := by
  refine ⟨⟨[.control (.start 0 1 ())], 1, fun _ => [.start 1 1 ()], [.started], (), ?_, rfl, rfl,
    rfl⟩, fun h => ?_, rfl⟩
  · exact List.prefix_rfl
  · cases h.state

end MUtils.scheduler
