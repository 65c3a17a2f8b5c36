import MUtils.Time.TimeProvider

/-!
# What becomes of a set beat or frame

A setter that runs between the two steps of a tick is overwritten by the second one. In runs where
no setter does that, the counter is what it was last set to plus the ticks since then
(`Run.counters_eq`, for both counters at once).
-/

namespace MUtils.TimeProvider

variable {β α : Type} [Add β] [One β] [Add α] [One α]

/-- A run from `tp₀` in which every step is `allowed`, with the steps taken, the latest first. -/
inductive Run (allowed : TimeProvider β → Action β → Prop) (tp₀ : TimeProvider β) :
    List (Action β) → TimeProvider β → Prop
  | start : tp₀.tick = none → Run allowed tp₀ [] tp₀
  | step : Run allowed tp₀ h tp → allowed tp a → Step tp a tp' → Run allowed tp₀ (a :: h) tp'

/-- A counter of the time provider: where it is, what the tick thread has read of it, and which
steps set it. -/
structure Counter (β α : Type) [Add β] [One β] [Add α] [One α] where
  get : TimeProvider β → α
  read : β × UInt32 → α
  set : Action β → Option α
  set_load : set .load = none
  set_store : set .store = none
  read_load : ∀ tp, read (tp.m_beat, tp.m_frame) = get tp
  get_load : ∀ tp, get tp.load = get tp
  get_store : ∀ beat frame, get (.store beat frame) = read (beat, frame) + 1
  get_setBeat : ∀ tp beat, get (tp.SetBeat beat) = (set (.setBeat beat)).getD (get tp)
  get_setFrame : ∀ tp frame, get (tp.SetFrame frame) = (set (.setFrame frame)).getD (get tp)

def beatCounter : Counter β β where
  get tp := tp.m_beat
  read t := t.1
  set
    | .setBeat beat => some beat
    | _ => none
  set_load := rfl
  set_store := rfl
  read_load _ := rfl
  get_load _ := rfl
  get_store _ _ := rfl
  get_setBeat _ _ := rfl
  get_setFrame _ _ := rfl

def frameCounter : Counter β UInt32 where
  get tp := tp.m_frame
  read t := t.2
  set
    | .setFrame frame => some frame
    | _ => none
  set_load := rfl
  set_store := rfl
  read_load _ := rfl
  get_load _ := rfl
  get_store _ _ := rfl
  get_setBeat _ _ := rfl
  get_setFrame _ _ := rfl

/-- The value that the counter was last set to, or its first value. -/
def latest (c : Counter β α) (tp₀ : TimeProvider β) : List (Action β) → α
  | [] => c.get tp₀
  | a :: h => (c.set a).getD (latest c tp₀ h)

/-- The ticks that have stored since the counter was last set. -/
def ticksSince (c : Counter β α) : List (Action β) → Nat
  | [] => 0
  | .store :: h => ticksSince c h + 1
  | a :: h => if (c.set a).isSome then 0 else ticksSince c h

/-- The counter as the setters and the ticks should have left it. -/
def expected (c : Counter β α) (tp₀ : TimeProvider β) (h : List (Action β)) : α :=
  (· + 1)^[ticksSince c h] (latest c tp₀ h)

/-- No setter of the counter runs between the two steps of a tick. -/
def Undisturbed (c : Counter β α) (tp : TimeProvider β) (a : Action β) : Prop :=
  (c.set a).isSome → tp.tick = none

variable {c : Counter β α} {tp₀ tp tp' : TimeProvider β} {a : Action β} {h : List (Action β)}

theorem expected_store : expected c tp₀ (.store :: h) = expected c tp₀ h + 1 := by
  rw [expected, ticksSince, Function.iterate_succ_apply', latest, c.set_store, Option.getD_none,
    expected]

theorem expected_of_ne_store (ha : a ≠ .store) :
    expected c tp₀ (a :: h) = (c.set a).getD (expected c tp₀ h) := by
  have hticks : ticksSince c (a :: h) = if (c.set a).isSome then 0 else ticksSince c h := by
    cases a with
    | store => exact (ha rfl).elim
    | load | setBeat | setFrame => rfl
  rw [expected, hticks, latest]
  cases c.set a with
  | none => rfl
  | some v => rfl

/-- The counter is as expected, and a tick that has begun has read it as it is. -/
structure Exact (c : Counter β α) (tp₀ : TimeProvider β) (h : List (Action β))
    (tp : TimeProvider β) : Prop where
  get : c.get tp = expected c tp₀ h
  read : ∀ t ∈ tp.tick, c.read t = c.get tp

theorem Exact.step (H : Exact c tp₀ h tp) (hstep : Step tp a tp') (ha : Undisturbed c tp a) :
    Exact c tp₀ (a :: h) tp' := by
  cases hstep with
  | load htick =>
    refine ⟨?_, ?_⟩
    · rw [c.get_load, expected_of_ne_store (a := .load) nofun, c.set_load, Option.getD_none, H.get]
    · rintro t ⟨⟩
      rw [c.read_load, c.get_load]
  | @store beat frame htick =>
    refine ⟨?_, nofun⟩
    rw [c.get_store, expected_store, H.read _ htick, H.get]
  | @setBeat beat =>
    refine ⟨?_, fun t ht => ?_⟩
    · rw [c.get_setBeat, expected_of_ne_store (a := .setBeat beat) nofun, H.get]
    · rw [c.get_setBeat]
      cases hset : c.set (.setBeat beat) with
      | none => exact H.read t ht
      | some v => rw [SetBeat, ha (by simp [hset])] at ht; cases ht
  | @setFrame frame =>
    refine ⟨?_, fun t ht => ?_⟩
    · rw [c.get_setFrame, expected_of_ne_store (a := .setFrame frame) nofun, H.get]
    · rw [c.get_setFrame]
      cases hset : c.set (.setFrame frame) with
      | none => exact H.read t ht
      | some v => rw [SetFrame, ha (by simp [hset])] at ht; cases ht

theorem Run.exact (hrun : Run (Undisturbed c) tp₀ h tp) : Exact c tp₀ h tp := by
  induction hrun with
  | start htick => exact ⟨rfl, fun t ht => by rw [htick] at ht; cases ht⟩
  | step _ ha hstep ih => exact ih.step hstep ha

/-- As long as no `SetBeat` runs between the two steps of a tick the beat is the one last set plus
the ticks since then, and likewise for the frame. -/
theorem Run.counters_eq :
    (Run (Undisturbed beatCounter) tp₀ h tp → tp.m_beat = expected beatCounter tp₀ h) ∧
    (Run (Undisturbed frameCounter) tp₀ h tp → tp.m_frame = expected frameCounter tp₀ h) :=
  ⟨fun hrun => hrun.exact.get, fun hrun => hrun.exact.get⟩

/-- Beats are integers here; nothing has ticked or been set. -/
def atZero : TimeProvider Int := { m_beat := 0, m_frame := 0, m_lastBeat := 0, tick := none }

theorem Run.counters_eq_tick_after_set :
    ∃ tp, Run (Undisturbed beatCounter) atZero [.store, .load, .setBeat 10] tp ∧
      tp.m_beat = expected beatCounter atZero [.store, .load, .setBeat 10] := by
  have hstart : Run (Undisturbed beatCounter) atZero [] atZero := .start rfl
  have hset := hstart.step (a := .setBeat 10) (fun _ => rfl) .setBeat
  have hload := hset.step (fun h => Bool.noConfusion h) (.load rfl)
  have htick := hload.step (fun h => Bool.noConfusion h) (.store rfl)
  exact ⟨_, htick, Run.counters_eq.1 htick⟩

/-- A beat set while a tick is between its two steps is lost: the beat is 1 and should be 11. -/
theorem Run.setBeat_lost :
    ∃ tp, Run (fun _ _ => True) atZero [.store, .setBeat 10, .load] tp ∧ tp.m_beat = 1 ∧
      expected beatCounter atZero [.store, .setBeat 10, .load] = 11 := by
  have hstart : Run (fun _ _ => True) atZero [] atZero := .start rfl
  have hset := (hstart.step trivial (.load rfl)).step (a := .setBeat 10) trivial .setBeat
  exact ⟨_, hset.step trivial (.store rfl), rfl, rfl⟩

end MUtils.TimeProvider
