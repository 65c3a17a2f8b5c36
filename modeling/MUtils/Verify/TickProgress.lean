import MUtils.Verify.TickExclusion

/-!
# How the threads of the time provider get on

A thread that is in a method can return from it in every state that a run reaches, unless a consumer
calls a method of the time provider from its `Tick`. The tick thread has the lock then, and waits
for it without end; so does every other thread that calls such a method. `EndThread` can not stop a
round: the tick thread looks at the flag between rounds only, and after its first one.
-/

namespace MUtils.TickThread

variable {β C U : Type}

/-- A method is begun, or waits for the lock. -/
def Event.waits : Event β C U → Bool
  | .invoke _ _ | .invokeStart _ | .clearQuit _ | .invokeEnd _ | .setQuit _ => true
  | .exec _ _ (.lock _) => true
  | _ => false

/-- The tick thread is in a call that a consumer has made. -/
def TickPc.inConsumer : TickPc β C → Bool
  | .nested _ _ _ _ _ _ => true
  | _ => false

section Deadlock

variable {s s' s₀ : System β C U} {h h' : List (Event β C U)} {e : Event β C U} {u : U}

theorem holds_of_inConsumer (ht : s.tick.inConsumer = true) : s.holds none = true := by
  cases htick : s.tick <;> simp_all [TickPc.inConsumer, System.holds, TickPc.holds]

theorem inConsumer_resume {l : Locals β} {range left : List C} {calls : List (Call β C)} :
    (TickPc.resume l range left calls).inConsumer = !calls.isEmpty := by
  cases calls <;> rfl

variable [DecidableEq C] [DecidableEq U] [Add β] [One β] {env : Env β C}
  {owner : Option (Option U)}

theorem stuck_step (ho : Owned s owner) (ht : s.tick.inConsumer = true)
    (hstep : Step env s e s') : s'.tick.inConsumer = true ∧ e.waits = true := by
  have hholds := holds_of_inConsumer ht
  cases hstep with
  | @exec u c place next s₁ hu hcall =>
    obtain ⟨htick, -, -⟩ := System.callStep_frame hcall
    refine ⟨by simpa only [System.setUser, htick] using ht, ?_⟩
    cases place with
    | lock pc => rfl
    | _ =>
      -- Two threads would have the lock.
      have hnot : s.holds (some u) = false := ho.not_holds hholds (Option.some_ne_none u)
      simp only [System.holds, hu] at hnot
      cases hnot
  | nested htick hcall =>
    obtain ⟨pc, rfl, rfl, rfl⟩ := ho.nested htick hcall
    exact ⟨rfl, rfl⟩
  | invoke _ | invokeStart _ | clearQuit _ | invokeEnd _ | setQuit _ => exact ⟨ht, rfl⟩
  | spawned _ htick | readClock _ htick | loadBeat htick | loadFrame htick | lock htick _
  | entered htick _ | tick htick _ | ticked htick _ | invalidIterator htick _
  | storeFrame htick | storeBeat htick | unlock htick | testQuit htick | wake _ htick _ =>
    rw [htick] at ht
    cases ht
  | joined _ htick =>
    obtain htick | htick := htick <;>
    · rw [htick] at ht
      cases ht

/-- From then on methods are begun, and none returns. -/
theorem stuck_run (ho : Owned s owner) (ht : s.tick.inConsumer = true) (hrun : Run env s h s') :
    ∀ e ∈ h, e.waits = true := by
  have hinv : s'.tick.inConsumer = true ∧ (∃ owner, Owned s' owner) ∧ ∀ e ∈ h, e.waits = true := by
    refine hrun.invariant (I := fun h s => s.tick.inConsumer = true ∧ (∃ owner, Owned s owner) ∧
      ∀ e ∈ h, e.waits = true) ⟨ht, ⟨owner, ho⟩, nofun⟩ ?_
    rintro h s₁ e s₂ - ⟨ht, ⟨owner, ho⟩, hh⟩ hstep
    obtain ⟨ht', he⟩ := stuck_step ho ht hstep
    exact ⟨ht', ho.step hstep, List.forall_mem_cons.mpr ⟨he, hh⟩⟩
  exact hinv.2.2

theorem step_of_waits {c : Call β C} {place : CallPc} (he : e.waits = true)
    (hu : s.user u = .inCall c place) (hstep : Step env s e s') :
    ∃ place', s'.user u = .inCall c place' := by
  have hset {v : U} {pc : UserPc β C} (hv : s.user v ≠ .inCall c place) :
      (s.setUser v pc).user u = .inCall c place := by
    rw [System.setUser_of_ne, hu]
    rintro rfl
    exact hv hu
  cases hstep with
  | @exec v c' place' next s₁ hv hcall =>
    obtain ⟨-, huser, -⟩ := System.callStep_frame hcall
    by_cases huv : u = v
    · subst huv
      rw [hu] at hv
      cases hv
      obtain ⟨_, rfl, -, rfl, -⟩ | ⟨_, rfl, -, rfl, -⟩ | ⟨rfl, -⟩ | ⟨rfl, -⟩ :=
        System.callStep_cases hcall
      · exact ⟨_, System.setUser_self⟩
      · exact ⟨_, System.setUser_self⟩
      · cases he
      · cases he
    · refine ⟨place, ?_⟩
      rw [System.setUser_of_ne huv, huser, hu]
  | nested _ hcall =>
    obtain ⟨-, huser, -⟩ := System.callStep_frame hcall
    exact ⟨place, by simpa only [huser] using hu⟩
  | invoke hv | invokeStart hv | clearQuit hv | invokeEnd hv | setQuit hv =>
    exact ⟨place, hset (by rw [hv]; nofun)⟩
  | _ => cases he

end Deadlock

/-! ## Returning from a method -/

section Return

variable {s s' s₀ : System β C U} {h h' : List (Event β C U)} {e : Event β C U} {u v : U}
  [DecidableEq C] [DecidableEq U] [Add β] [One β] {env : Env β C} {c : Call β C}

/-- The lock can be given back without `u` moving. -/
def CanFree (env : Env β C) (s : System β C U) (u : U) : Prop :=
  ∃ h s', Run env s h s' ∧ s'.m_spin_mutex.flag = false ∧ s'.user u = s.user u

/-- `u` can return from its method, and the lock is free then. -/
def CanReturn (env : Env β C) (s : System β C U) (u : U) : Prop :=
  ∃ h s', Run env s h s' ∧ s'.m_spin_mutex.flag = false ∧ s'.user u = .idle ∧
    ∀ v, v ≠ u → s'.user v = s.user v

theorem canReturn_of_unlock (hu : s.user u = .inCall c .unlock) : CanReturn env s u := by
  refine ⟨_, _, .single (.exec hu rfl), rfl, System.setUser_self, fun v hv => ?_⟩
  exact System.setUser_of_ne hv

/-- A step of `u` alone. -/
theorem CanReturn.of_step (hstep : Step env s e s') (hothers : ∀ v, v ≠ u → s'.user v = s.user v)
    (hreturn : CanReturn env s' u) : CanReturn env s u := by
  obtain ⟨h, s'', hrun, hflag, hidle, huser⟩ := hreturn
  refine ⟨_, s'', (Steps.single hstep).trans hrun, hflag, hidle, fun v hv => ?_⟩
  rw [huser v hv, hothers v hv]

theorem canReturn_of_body (hu : s.user u = .inCall c .body) : CanReturn env s u := by
  refine .of_step (.exec hu rfl) (fun v hv => ?_) (canReturn_of_unlock (c := c) ?_)
  · rw [System.setUser_of_ne hv, System.perform_user]
  · exact System.setUser_self

theorem canReturn_of_lock {pc : LockPc} (hu : s.user u = .inCall c (.lock pc))
    (hflag : s.m_spin_mutex.flag = false) : CanReturn env s u := by
  refine .of_step (.exec hu (System.callStep_lock_free hflag)) (fun v hv => ?_)
    (canReturn_of_body (c := c) ?_)
  · exact System.setUser_of_ne hv
  · exact System.setUser_self

theorem canReturn_of_holds {place : CallPc} (hu : s.user u = .inCall c place)
    (hplace : place.holds = true) : CanReturn env s u := by
  cases place with
  | lock pc => cases hplace
  | body => exact canReturn_of_body hu
  | unlock => exact canReturn_of_unlock hu

theorem CanFree.of_step (hstep : Step env s e s') (huser : s'.user = s.user)
    (hfree : CanFree env s' u) : CanFree env s u := by
  obtain ⟨h, s'', hrun, hflag, hu⟩ := hfree
  exact ⟨_, s'', (Steps.single hstep).trans hrun, hflag, by rw [hu, huser]⟩

theorem canFree_of_storeFrame {l : Locals β} (ht : s.tick = .storeFrame l) : CanFree env s u := by
  refine .of_step (.storeFrame ht) rfl (.of_step (.storeBeat rfl) rfl ?_)
  exact ⟨_, _, .single (.unlock rfl), rfl, rfl⟩

/-- The tick thread goes through the consumers that are left. -/
theorem canFree_of_loop {l : Locals β} {range left : List C} (hcalls : ∀ c, env.Tick c = [])
    (ht : s.tick = .loop l range left) (hrange : Enumerates range s.m_consumers) :
    CanFree env s u := by
  induction left generalizing s with
  | nil => exact .of_step (.ticked ht hrange) rfl (canFree_of_storeFrame rfl)
  | cons c left ih =>
    refine .of_step (.tick ht hrange) rfl (ih ?_ hrange)
    rw [hcalls c]
    rfl

theorem canFree_of_tick (hcalls : ∀ c, env.Tick c = []) (hsafe : Safe h s)
    (hholds : s.tick.holds = true) (hconsumer : s.tick.inConsumer = false) :
    CanFree env s u := by
  have hround := hsafe.round
  cases ht : s.tick with
  | entered l =>
    have hrange : Enumerates s.m_consumers.toList s.m_consumers :=
      ⟨s.m_consumers.nodup_toList, fun _ => Finset.mem_toList⟩
    exact .of_step (.entered ht hrange) rfl (canFree_of_loop hcalls rfl hrange)
  | loop l range left =>
    simp only [RoundInv, ht] at hround
    exact canFree_of_loop hcalls ht hround.2
  | storeFrame l => exact canFree_of_storeFrame ht
  | storeBeat l =>
    refine .of_step (.storeBeat ht) rfl ?_
    exact ⟨_, _, .single (.unlock rfl), rfl, rfl⟩
  | unlock l => exact ⟨_, _, .single (.unlock ht), rfl, rfl⟩
  | nested => simp [ht, TickPc.inConsumer] at hconsumer
  | _ => simp [ht, TickPc.holds] at hholds

theorem inConsumer_step (hcalls : ∀ c, env.Tick c = []) (ht : s.tick.inConsumer = false)
    (hstep : Step env s e s') : s'.tick.inConsumer = false := by
  cases hstep with
  | exec _ hcall =>
    obtain ⟨htick, -, -⟩ := System.callStep_frame hcall
    simpa only [System.setUser, htick] using ht
  | @lock _ _ next _ _ _ => cases next <;> rfl
  | @tick _ _ c _ _ _ =>
    dsimp only
    rw [inConsumer_resume, hcalls c]
    rfl
  | nested htick _ =>
    rw [htick] at ht
    cases ht
  | testQuit _ =>
    dsimp only
    split <;> rfl
  | invoke _ | invokeStart _ | clearQuit _ | invokeEnd _ | setQuit _ | invalidIterator _ _ =>
    exact ht
  | _ => rfl

/-- Whoever has the lock can give it back. -/
theorem Safe.canReturn (hsafe : Safe h s) (hcalls : ∀ c, env.Tick c = [])
    (hconsumer : s.tick.inConsumer = false) {place : CallPc} (hu : s.user u = .inCall c place) :
    ∃ h' s', Run env s h' s' ∧ s'.user u = .idle := by
  cases hplace : place.holds with
  | true =>
    have hreturn : CanReturn env s u := canReturn_of_holds hu hplace
    obtain ⟨h', s', hrun, -, hidle, -⟩ := hreturn
    exact ⟨h', s', hrun, hidle⟩
  | false =>
    obtain ⟨pc, rfl⟩ : ∃ pc, place = .lock pc := by
      cases place with
      | lock pc => exact ⟨pc, rfl⟩
      | _ => cases hplace
    obtain ⟨owner, ho⟩ := hsafe.owned
    have hfree : CanFree env s u := by
      match owner, ho with
      | none, ho => exact ⟨[], s, .refl, ho.flag, rfl⟩
      | some none, ho => exact canFree_of_tick hcalls hsafe ((ho.holds none).mpr rfl) hconsumer
      | some (some v), ho =>
        have hv := (ho.holds (some v)).mpr rfl
        simp only [System.holds] at hv
        cases hpc : s.user v with
        | inCall c' place' =>
          rw [hpc] at hv
          have hreturn : CanReturn env s v := canReturn_of_holds hpc hv
          obtain ⟨h, s', hrun, hflag, -, hothers⟩ := hreturn
          refine ⟨h, s', hrun, hflag, hothers u ?_⟩
          rintro rfl
          rw [hu] at hpc
          cases hpc
          cases hv
        | _ =>
          rw [hpc] at hv
          cases hv
    obtain ⟨h₁, s₁, hrun₁, hflag, hu₁⟩ := hfree
    have hreturn : CanReturn env s₁ u := canReturn_of_lock (hu₁.trans hu) hflag
    obtain ⟨h₂, s₂, hrun₂, -, hidle, -⟩ := hreturn
    exact ⟨_, s₂, hrun₁.trans hrun₂, hidle⟩

/-- Every call of a method can return, in every state that a run reaches, if and only if no consumer
calls a method from its `Tick`. -/
theorem run_calls_return_iff (hinit : Initial s₀) (u₀ : U) :
    (∀ h s u c place, Run env s₀ h s → s.user u = .inCall c place →
      ∃ h' s', Run env s h' s' ∧ s'.user u = .idle) ↔ ∀ c, env.Tick c = [] := by
  constructor
  · intro hreturns c
    by_contra hc
    obtain ⟨l, s, hrun, ht, hidle, -⟩ := exists_tick env hinit u₀ c
    have ht : s.tick.inConsumer = true := by
      rw [ht, inConsumer_resume]
      simpa using hc
    have hcalled := hrun.tail (.invoke (c := .SetFrame 0) hidle)
    obtain ⟨h', s', hrun', hidle'⟩ := hreturns _ _ u₀ _ _ hcalled System.setUser_self
    obtain ⟨owner, ho⟩ := (Run.safe hinit hcalled).owned
    have hwaits := stuck_run ho ht hrun'
    have hinside : ∃ place, s'.user u₀ = .inCall (.SetFrame 0) place := by
      refine hrun'.invariant (I := fun h s => (∀ e ∈ h, e.waits = true) →
        ∃ place, s.user u₀ = .inCall (.SetFrame 0) place) (fun _ => ⟨_, System.setUser_self⟩) ?_
        hwaits
      intro h s e s' _ ih hstep hh
      obtain ⟨place, hu⟩ := ih fun e he => hh e (List.mem_cons_of_mem _ he)
      exact step_of_waits (hh e List.mem_cons_self) hu hstep
    obtain ⟨place, hu⟩ := hinside
    rw [hidle'] at hu
    cases hu
  · intro hcalls h s u c place hrun hu
    refine (hrun.safe hinit).canReturn hcalls ?_ hu
    refine hrun.preserves (P := fun s => s.tick.inConsumer = false)
      (fun ht hstep => inConsumer_step hcalls ht hstep) ?_
    rw [hinit.tick]
    rfl

theorem run_calls_return_iff_plain :
    (∀ h s u c place, Run plainEnv fresh h s → s.user u = .inCall c place →
      ∃ h' s', Run plainEnv s h' s' ∧ s'.user u = .idle) ↔ ∀ c, plainEnv.Tick c = [] :=
  run_calls_return_iff initial_fresh ()

end Return

/-! ## The end of the tick thread -/

section EndThread

def Event.isRound : Event β C U → Bool
  | .round => true
  | _ => false

def Event.isTick [DecidableEq C] (c : C) : Event β C U → Bool
  | .tick c' => c' = c
  | _ => false

/-- `StartThread` is at work. -/
def Event.isStart : Event β C U → Bool
  | .clearQuit _ | .spawned _ => true
  | _ => false

/-- The rounds that the tick thread still does when it has been told to quit. -/
def TickPc.roundsLeft : TickPc β C → Nat
  | .absent | .unlock _ | .testQuit _ | .finished => 0
  | _ => 1

/-- How often it still ticks `c`. -/
def TickPc.ticksLeft [DecidableEq C] (c : C) : TickPc β C → Nat
  | .loop _ _ left | .nested _ _ left _ _ _ => left.count c
  | .absent | .storeFrame _ | .storeBeat _ | .unlock _ | .testQuit _ | .finished => 0
  | _ => 1

variable {s s' s₀ : System β C U} {h h₁ h₂ : List (Event β C U)} {e : Event β C U} {u : U}

theorem roundsLeft_le_one (pc : TickPc β C) : pc.roundsLeft ≤ 1 := by
  cases pc <;> simp [TickPc.roundsLeft]

theorem roundsLeft_resume {l : Locals β} {range left : List C} {calls : List (Call β C)} :
    (TickPc.resume l range left calls).roundsLeft = 1 := by
  cases calls <;> rfl

variable [DecidableEq C]

theorem ticksLeft_resume {l : Locals β} {range left : List C} {calls : List (Call β C)} {c : C} :
    (TickPc.resume l range left calls).ticksLeft c = left.count c := by
  cases calls <;> rfl

theorem RoundInv.ticksLeft_le_one (hinv : RoundInv h s) (c : C) : s.tick.ticksLeft c ≤ 1 := by
  have hloop {range left : List C}
      (hrange : range = ticksSince h ++ left ∧ Enumerates range s.m_consumers) :
      left.count c ≤ 1 := by
    have hnodup := hrange.2.1
    rw [hrange.1] at hnodup
    exact List.nodup_iff_count_le_one.mp hnodup.of_append_right c
  unfold RoundInv at hinv
  cases ht : s.tick with
  | loop l range left =>
    simp only [ht] at hinv
    exact hloop hinv
  | nested l range left call place more =>
    simp only [ht] at hinv
    exact hloop hinv
  | _ => simp [TickPc.ticksLeft]

variable [DecidableEq U] [Add β] [One β] {env : Env β C}

/-- Every round and every tick is one of those that were left. -/
theorem quit_step (hquit : s.m_quitTimer = true) (he : e.isStart = false)
    (hstep : Step env s e s') :
    s'.m_quitTimer = true ∧ e.isRound.toNat + s'.tick.roundsLeft ≤ s.tick.roundsLeft ∧
      ∀ c, (e.isTick c).toNat + s'.tick.ticksLeft c ≤ s.tick.ticksLeft c := by
  cases hstep with
  | exec _ hcall =>
    obtain ⟨htick, -, hquit'⟩ := System.callStep_frame hcall
    refine ⟨hquit'.trans hquit, ?_, fun c => ?_⟩ <;>
    simp [System.setUser, htick, Event.isRound, Event.isTick]
  | @nested _ _ _ _ _ _ next s₁ ht hcall =>
    obtain ⟨-, -, hquit'⟩ := System.callStep_frame hcall
    refine ⟨hquit'.trans hquit, ?_, fun c => ?_⟩
    · rw [ht]
      cases next with
      | none =>
        rw [Option.elim_none, roundsLeft_resume]
        exact le_rfl
      | some place => exact le_rfl
    · rw [ht]
      cases next with
      | none =>
        rw [Option.elim_none, ticksLeft_resume]
        exact (Nat.zero_add _).le
      | some place => exact (Nat.zero_add _).le
  | @tick _ _ c' left ht _ =>
    refine ⟨hquit, ?_, fun c => ?_⟩
    · rw [ht, roundsLeft_resume]
      exact le_rfl
    · have hcount : ((c' :: left).count c) = left.count c + (decide (c' = c)).toNat := by
        rw [List.count_cons]
        by_cases hc : c' = c <;> simp [hc]
      rw [ht, ticksLeft_resume]
      exact (Nat.add_comm _ _).trans_le hcount.ge
  | entered ht hrange =>
    refine ⟨hquit, ?_, fun c => ?_⟩
    · simp [ht, Event.isRound, TickPc.roundsLeft]
    · simpa [ht, Event.isTick, TickPc.ticksLeft] using
        List.nodup_iff_count_le_one.mp hrange.1 c
  | @lock _ _ next _ ht _ =>
    cases next <;>
    simp [ht, hquit, Event.isRound, Event.isTick, TickPc.roundsLeft, TickPc.ticksLeft]
  | joined _ ht =>
    obtain ht | ht := ht <;>
    simp [ht, hquit, System.setUser, Event.isRound, Event.isTick, TickPc.roundsLeft,
      TickPc.ticksLeft]
  | clearQuit _ | spawned _ _ => cases he
  | readClock _ ht | loadBeat ht | loadFrame ht | ticked ht _ | storeFrame ht | storeBeat ht
  | unlock ht | testQuit ht | wake _ ht _ =>
    simp [ht, hquit, Event.isRound, Event.isTick, TickPc.roundsLeft, TickPc.ticksLeft]
  | _ => simp [hquit, System.setUser, Event.isRound, Event.isTick]

/-- When `EndThread` has stored its flag, and no `StartThread` is at work, one more round can end at
most, and no consumer is ticked more than once. -/
theorem run_one_round_after_quit (hinit : Initial s₀)
    (hrun : Run env s₀ (h₂ ++ .setQuit u :: h₁) s) (hstart : ∀ e ∈ h₂, e.isStart = false) :
    h₂.countP Event.isRound ≤ 1 ∧ ∀ c, h₂.countP (Event.isTick c) ≤ 1 := by
  obtain ⟨s₁, s₂, hrun₁, hquit, hrun₂⟩ := hrun.cut_at
  have hround := (Run.safe hinit (hrun₁.tail hquit)).round
  have hquit₂ : s₂.m_quitTimer = true := by
    cases hquit
    rfl
  have hinv : s.m_quitTimer = true ∧ h₂.countP Event.isRound + s.tick.roundsLeft ≤ 1 ∧
      ∀ c, h₂.countP (Event.isTick c) + s.tick.ticksLeft c ≤ 1 := by
    refine hrun₂.invariant (I := fun h s => (∀ e ∈ h, e.isStart = false) →
      s.m_quitTimer = true ∧ h.countP Event.isRound + s.tick.roundsLeft ≤ 1 ∧
        ∀ c, h.countP (Event.isTick c) + s.tick.ticksLeft c ≤ 1) ?_ ?_ hstart
    · intro _
      simp only [List.countP_nil, Nat.zero_add]
      exact ⟨hquit₂, roundsLeft_le_one _, hround.ticksLeft_le_one⟩
    · intro h s e s' _ ih hstep hh
      obtain ⟨he, hh⟩ := List.forall_mem_cons.mp hh
      obtain ⟨hq, hrounds, hticks⟩ := ih hh
      obtain ⟨hq', hrounds', hticks'⟩ := quit_step hq he hstep
      simp only [List.countP_cons]
      refine ⟨hq', ?_, fun c => ?_⟩
      · cases hr : e.isRound <;> simp only [hr, Bool.toNat_true, Bool.toNat_false] at hrounds' <;>
        grind
      · have := hticks c
        have := hticks' c
        cases hr : e.isTick c <;> simp only [hr, Bool.toNat_true, Bool.toNat_false] at this <;>
        grind
  exact ⟨by omega, fun c => by have := hinv.2.2 c; omega⟩

theorem run_one_round_after_quit_one : ∃ h₁ s,
    Run plainEnv fresh ([.round, .internal, .internal] ++ .setQuit () :: h₁) s ∧
    [Event.round, .internal, .internal].countP
      (Event.isRound : Event Nat Unit Unit → Bool) ≤ 1 ∧
    ∀ c, [Event.round, .internal, .internal].countP
      (Event.isTick c : Event Nat Unit Unit → Bool) ≤ 1 := by
  obtain ⟨l, s, hrun, ht, hu, hconsumers⟩ := exists_tick plainEnv initial_fresh () ()
  have hquit : Run plainEnv fresh _ _ :=
    (hrun.tail (.invokeEnd hu)).tail (.setQuit System.setUser_self)
  have hrange : Enumerates [()] s.m_consumers := by
    rw [hconsumers]
    exact ⟨List.nodup_singleton (), fun c => by simp⟩
  have hround := ((hquit.tail (.ticked ht hrange)).tail (.storeFrame rfl)).tail (.storeBeat rfl)
  exact ⟨_, _, hround, run_one_round_after_quit initial_fresh hround (by simp [Event.isStart])⟩

/-- A thread has been made and has not been joined since. -/
def Alive : List (Event β C U) → Prop
  | [] => False
  | .spawned _ :: _ => True
  | .joined _ :: _ => False
  | _ :: h => Alive h

/-- A round has ended since the last thread was made. -/
def RoundDone : List (Event β C U) → Prop
  | [] => False
  | .round :: _ => True
  | .spawned _ :: _ => False
  | _ :: h => RoundDone h

/-- Behind the stores of a round. -/
def TickPc.afterRound : TickPc β C → Bool
  | .unlock _ | .testQuit _ | .sleep _ | .finished => true
  | _ => false

structure Lifetime (h : List (Event β C U)) (s : System β C U) : Prop where
  alive : s.tick ≠ .absent ↔ Alive h
  done : s.tick.afterRound = true → RoundDone h

omit [DecidableEq C] [DecidableEq U] [Add β] [One β] in
theorem Lifetime.congr (hlife : Lifetime h s) (halive : Alive (e :: h) ↔ Alive h)
    (hdone : RoundDone (e :: h) ↔ RoundDone h) (habsent : s'.tick = .absent ↔ s.tick = .absent)
    (hafter : s'.tick.afterRound = true → s.tick.afterRound = true) : Lifetime (e :: h) s' where
  alive := by rw [ne_eq, habsent, halive]; exact hlife.alive
  done hs' := hdone.mpr (hlife.done (hafter hs'))

omit [DecidableEq C] [DecidableEq U] [Add β] [One β] in
theorem resume_ne_absent {l : Locals β} {range left : List C} {calls : List (Call β C)} :
    TickPc.resume l range left calls ≠ .absent ∧
      (TickPc.resume l range left calls).afterRound = false := by
  cases calls <;> exact ⟨nofun, rfl⟩

theorem Lifetime.step (hlife : Lifetime h s) (hstep : Step env s e s') : Lifetime (e :: h) s' := by
  cases hstep with
  | exec _ hcall =>
    obtain ⟨htick, -, -⟩ := System.callStep_frame hcall
    exact hlife.congr .rfl .rfl (by simp [System.setUser, htick]) (by simp [System.setUser, htick])
  | spawned _ _ =>
    exact ⟨⟨fun _ => trivial, fun _ => by simp [System.setUser]⟩, (absurd · Bool.false_ne_true)⟩
  | joined _ _ => exact ⟨⟨fun hne => absurd rfl hne, False.elim⟩, (absurd · Bool.false_ne_true)⟩
  | @lock _ _ next _ ht _ =>
    cases next <;> exact hlife.congr .rfl .rfl (by simp [ht]) (absurd · Bool.false_ne_true)
  | tick ht _ =>
    exact hlife.congr .rfl .rfl (by simp [ht, resume_ne_absent]) (by simp [resume_ne_absent])
  | @nested _ _ _ _ _ _ next _ ht _ =>
    cases next with
    | none =>
      exact hlife.congr .rfl .rfl (by simp [ht, resume_ne_absent]) (by simp [resume_ne_absent])
    | some => exact hlife.congr .rfl .rfl (by simp [ht]) (absurd · Bool.false_ne_true)
  | storeBeat ht =>
    have halive := hlife.alive.mp (by simp [ht])
    exact ⟨⟨fun _ => halive, fun _ => by simp⟩, fun _ => trivial⟩
  | testQuit ht =>
    refine hlife.congr .rfl .rfl ?_ (by rw [ht]; exact fun _ => rfl)
    rw [ht]
    dsimp only
    split <;> simp
  | readClock _ ht | loadBeat ht | loadFrame ht | entered ht _ | ticked ht _ | storeFrame ht
  | unlock ht | wake _ ht _ =>
    exact hlife.congr .rfl .rfl (by simp [ht]) (by simp [ht, TickPc.afterRound])
  | _ => exact hlife.congr .rfl .rfl .rfl id

theorem Run.lifetime (hinit : Initial s₀) (hrun : Run env s₀ h s) : Lifetime h s := by
  refine hrun.invariant ⟨?_, ?_⟩ fun _ hlife hstep => hlife.step hstep
  · simp [hinit.tick, Alive]
  · simp [hinit.tick, TickPc.afterRound]

/-- Consumers are ticked only between the creation of the thread in a `StartThread`, which may still
be at work, and the join of the `EndThread` that follows it; and however soon that `EndThread`
comes, a whole round lies between them. -/
theorem run_thread_lifetime (hinit : Initial s₀) (hrun : Run env s₀ (e :: h) s) :
    (∀ c, e = .tick c → Alive h) ∧ (e = .round → Alive h) ∧
      (∀ u, e = .joined u → Alive h → RoundDone h) := by
  cases hrun with
  | tail hrun hstep =>
    have hlife := Run.lifetime hinit hrun
    refine ⟨?_, ?_, ?_⟩
    · rintro c rfl
      cases hstep with
      | tick ht _ => exact hlife.alive.mp (by rw [ht]; nofun)
    · rintro rfl
      cases hstep with
      | storeBeat ht => exact hlife.alive.mp (by rw [ht]; nofun)
    · rintro u rfl halive
      cases hstep with
      | joined _ ht =>
        obtain ht | ht := ht
        · exact hlife.done (by rw [ht]; rfl)
        · exact absurd ht (hlife.alive.mpr halive)

theorem run_thread_lifetime_tick : ∃ h s, Run plainEnv fresh (.tick () :: h) s ∧ Alive h := by
  obtain ⟨l, s, hrun, -⟩ := exists_tick plainEnv initial_fresh () ()
  exact ⟨_, s, hrun, (run_thread_lifetime initial_fresh hrun).1 () rfl⟩

end EndThread

end MUtils.TickThread
