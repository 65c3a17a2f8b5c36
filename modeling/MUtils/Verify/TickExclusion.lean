import MUtils.Time.TickThread

/-!
# The lock of the time provider

Whatever the threads do and in whatever order, one of them at most is between its `lock` and its
`unlock`, and the flag of the lock is set when one is. The tick thread is there while it goes
through the consumers, so that the set does not change under its iterator: every round ticks each
registered consumer once. For the same reason a consumer is not ticked any more when its
`UnRegisterConsumer` has returned.
-/

namespace MUtils.TickThread

variable {β C U : Type}

/-! ## What a thread does when the others wait -/

section Runs

/-- The events of a method, the latest first. -/
def callEvents (u : U) (c : Call β C) : List (Event β C U) :=
  [.exec (some u) c .unlock, .exec (some u) c .body, .exec (some u) c .start, .invoke u c]

/-- Those of `StartThread` and of the new thread, up to the lock. -/
def startEvents (u : U) : List (Event β C U) :=
  [.internal, .internal, .internal, .internal, .spawned u, .clearQuit u, .invokeStart u]

variable [DecidableEq C] [DecidableEq U] [Add β] [One β] {env : Env β C} {s : System β C U} {u : U}

theorem exists_call (env : Env β C) (c : Call β C) (hu : s.user u = .idle)
    (hflag : s.m_spin_mutex.flag = false) :
    ∃ s', Run env s (callEvents u c) s' ∧ s'.user u = .idle ∧ s'.m_spin_mutex.flag = false ∧
      s'.tick = s.tick ∧ s'.m_consumers = (s.perform env c).m_consumers := by
  have hlock : Run env s _ _ := (Steps.single (.invoke (c := c) hu)).tail
    (.exec System.setUser_self (System.callStep_lock_free hflag))
  refine ⟨_, (hlock.tail (.exec System.setUser_self rfl)).tail (.exec System.setUser_self rfl),
    System.setUser_self, rfl, ?_, ?_⟩
  · exact System.perform_tick
  · cases c <;> rfl

theorem exists_start (env : Env β C) (hu : s.user u = .idle)
    (hflag : s.m_spin_mutex.flag = false) (ht : s.tick = .absent) :
    ∃ l s', Run env s (startEvents u) s' ∧ s'.user u = .idle ∧ s'.tick = .entered l ∧
      s'.m_consumers = s.m_consumers := by
  have hinvoked : Run env s _ _ := .single (.invokeStart hu)
  have hcleared := hinvoked.tail (.clearQuit System.setUser_self)
  have hspawned := hcleared.tail (.spawned System.setUser_self ht)
  have hloaded := ((hspawned.tail (.readClock 0 rfl)).tail (.loadBeat rfl)).tail (.loadFrame rfl)
  exact ⟨_, _, hloaded.tail (.lock rfl (audio_spin_mutex.lockTurn_free hflag)),
    System.setUser_self, rfl, rfl⟩

/-- A consumer is registered, and the first round reaches it. -/
theorem exists_tick (env : Env β C) (hinit : Initial s) (u : U) (c : C) :
    ∃ l s', Run env s
        (.tick c :: .internal :: startEvents u ++ callEvents u (.RegisterConsumer c)) s' ∧
      s'.tick = .resume l [c] [] (env.Tick c) ∧ s'.user u = .idle ∧ s'.m_consumers = {c} := by
  obtain ⟨s₁, hrun₁, hu₁, hflag₁, ht₁, hconsumers₁⟩ :=
    exists_call env (.RegisterConsumer c) (hinit.user u) hinit.mutex
  obtain ⟨l, s₂, hrun₂, hu₂, ht₂, hconsumers₂⟩ :=
    exists_start env hu₁ hflag₁ (ht₁.trans hinit.tick)
  have hconsumers : s₂.m_consumers = {c} := by
    rw [hconsumers₂, hconsumers₁, System.perform, hinit.consumers]
    rfl
  have hrange : Enumerates [c] s₂.m_consumers := by
    rw [hconsumers]
    exact ⟨List.nodup_singleton c, fun c' => by simp⟩
  exact ⟨l, _, ((hrun₁.trans hrun₂).tail (.entered ht₂ hrange)).tail (.tick rfl hrange), rfl, hu₂,
    hconsumers⟩

end Runs

/-! ## Who has the lock -/

def CallPc.holds : CallPc → Bool
  | .lock _ => false
  | .body => true
  | .unlock => true

def UserPc.holds : UserPc β C → Bool
  | .inCall _ place => place.holds
  | _ => false

def TickPc.holds : TickPc β C → Bool
  | .entered _ => true
  | .loop _ _ _ => true
  | .nested _ _ _ _ _ _ => true
  | .storeFrame _ => true
  | .storeBeat _ => true
  | .unlock _ => true
  | _ => false

/-- The tick thread has got the lock a second time. -/
def TickPc.reentered : TickPc β C → Bool
  | .nested _ _ _ _ place _ => place.holds
  | _ => false

/-- The thread is between a `lock` and its `unlock`. The tick thread is `none`. -/
def System.holds (s : System β C U) : Option U → Bool
  | none => s.tick.holds
  | some u => (s.user u).holds

@[simp] theorem CallPc.holds_start : CallPc.start.holds = false := rfl

@[simp] theorem TickPc.holds_resume {l : Locals β} {range left : List C}
    {calls : List (Call β C)} : (TickPc.resume l range left calls).holds = true := by
  cases calls <;> rfl

@[simp] theorem TickPc.reentered_resume {l : Locals β} {range left : List C}
    {calls : List (Call β C)} : (TickPc.resume l range left calls).reentered = false := by
  cases calls <;> rfl

/-- The lock as seen from outside: a thread has it, or none has it. -/
structure Owned (s : System β C U) (owner : Option (Option U)) : Prop where
  flag : s.m_spin_mutex.flag = owner.isSome
  holds : ∀ t, s.holds t = true ↔ owner = some t
  once : s.tick.reentered = false

namespace Owned

variable {s s' : System β C U} {owner : Option (Option U)} {u : U}

theorem free_of_flag (h : Owned s owner) (hflag : s.m_spin_mutex.flag = false) :
    owner = none := by
  rw [h.flag] at hflag
  exact Option.not_isSome_iff_eq_none.mp (by simp [hflag])

theorem flag_of_holds (h : Owned s owner) {t : Option U} (ht : s.holds t = true) :
    s.m_spin_mutex.flag = true := by
  rw [h.flag, (h.holds t).mp ht]
  rfl

theorem not_holds (h : Owned s owner) {t t' : Option U} (ht : s.holds t = true) (hne : t' ≠ t) :
    s.holds t' = false := by
  rw [← Bool.not_eq_true, h.holds t', (h.holds t).mp ht]
  exact fun heq => hne (Option.some.inj heq).symm

/-- Steps in which nobody takes or gives back the lock. -/
theorem congr (h : Owned s owner) (hflag : s'.m_spin_mutex = s.m_spin_mutex)
    (hholds : ∀ t, s'.holds t = s.holds t) (honce : s'.tick.reentered = false) :
    Owned s' owner where
  flag := by rw [hflag, h.flag]
  holds t := by rw [hholds t, h.holds t]
  once := honce

theorem congr_tick (h : Owned s owner) (hflag : s'.m_spin_mutex = s.m_spin_mutex)
    (huser : s'.user = s.user) (htick : s'.tick.holds = s.tick.holds)
    (honce : s'.tick.reentered = false) : Owned s' owner := by
  refine h.congr hflag (fun t => ?_) honce
  cases t with
  | none => exact htick
  | some u => simp only [System.holds, huser]

theorem initial (hinit : Initial s) : Owned s none where
  flag := hinit.mutex
  holds t := by
    cases t with
    | none => simp [System.holds, hinit.tick, TickPc.holds]
    | some u => simp [System.holds, hinit.user u, UserPc.holds]
  once := by
    rw [hinit.tick]
    rfl

variable [DecidableEq U]

theorem holds_setUser {pc : UserPc β C} {t : Option U} :
    (s.setUser u pc).holds t = if t = some u then pc.holds else s.holds t := by
  cases t with
  | none => rfl
  | some v =>
    simp only [System.holds, System.setUser, Function.update_apply, Option.some.injEq]
    split <;> rfl

theorem congr_user (h : Owned s owner) {pc : UserPc β C} (hpc : pc.holds = (s.user u).holds) :
    Owned (s.setUser u pc) owner := by
  refine h.congr rfl (fun t => ?_) h.once
  rw [holds_setUser]
  split
  case isTrue ht => rw [ht, hpc]; rfl
  case isFalse => rfl

/-- A thread that gets the lock was without it, and so was every other one. -/
theorem acquire (h : Owned s owner) (hfree : s.m_spin_mutex.flag = false) {t : Option U}
    (hflag : s'.m_spin_mutex.flag = true) (hself : s'.holds t = true)
    (hothers : ∀ t', t' ≠ t → s'.holds t' = s.holds t') (honce : s'.tick.reentered = false) :
    Owned s' (some t) where
  flag := hflag
  holds t' := by
    obtain rfl := h.free_of_flag hfree
    by_cases ht : t' = t
    · simp only [ht, hself]
    · rw [hothers t' ht, h.holds t']
      simp [Ne.symm ht]
  once := honce

theorem release (h : Owned s owner) {t : Option U} (hheld : s.holds t = true)
    (hflag : s'.m_spin_mutex.flag = false) (hself : s'.holds t = false)
    (hothers : ∀ t', t' ≠ t → s'.holds t' = s.holds t') (honce : s'.tick.reentered = false) :
    Owned s' none where
  flag := hflag
  holds t' := by
    by_cases ht : t' = t
    · simp [ht, hself]
    · rw [hothers t' ht, h.holds t', (h.holds t).mp hheld]
      simp [Ne.symm ht]
  once := honce

variable [DecidableEq C] {env : Env β C}

/-- The steps of a thread in a method. -/
theorem exec (h : Owned s owner) {c : Call β C} {place : CallPc} {next : Option CallPc}
    (hu : s.user u = .inCall c place) (hstep : s.callStep env c place = (next, s')) :
    ∃ owner', Owned (s'.setUser u (next.elim .idle (.inCall c))) owner' := by
  have hheld : s.holds (some u) = place.holds := by simp only [System.holds, hu, UserPc.holds]
  obtain ⟨_, rfl, hflag, rfl, rfl⟩ | ⟨_, rfl, _, rfl, rfl⟩ | ⟨rfl, rfl, rfl⟩ | ⟨rfl, rfl, rfl⟩ :=
    System.callStep_cases hstep
  · refine ⟨some (some u), h.acquire hflag rfl ?_ (fun t' ht' => ?_) h.once⟩
    · rw [holds_setUser, if_pos rfl]
      rfl
    · rw [holds_setUser, if_neg ht']
      cases t' <;> rfl
  · exact ⟨owner, h.congr_user (by rw [hu]; rfl)⟩
  · refine ⟨owner, congr_user ?_ ?_⟩
    · exact h.congr_tick System.perform_m_spin_mutex System.perform_user
        (by rw [System.perform_tick]) (by rw [System.perform_tick, h.once])
    · rw [System.perform_user, hu]
      rfl
  · refine ⟨none, h.release (t := some u) hheld rfl ?_ (fun t' ht' => ?_) h.once⟩
    · rw [holds_setUser, if_pos rfl]
      rfl
    · rw [holds_setUser, if_neg ht']
      cases t' <;> rfl

omit [DecidableEq U] in
/-- The tick thread in a call of a consumer: it has the lock that the call waits for. -/
theorem nested {l : Locals β} {range left : List C} {c : Call β C} {place : CallPc}
    {more : List (Call β C)} {next : Option CallPc} (h : Owned s owner)
    (ht : s.tick = .nested l range left c place more)
    (hstep : s.callStep env c place = (next, s')) :
    ∃ pc, place = .lock pc ∧ next = some (.lock (audio_spin_mutex.nextTurn pc)) ∧ s' = s := by
  have hflag := h.flag_of_holds (t := none) (by simp only [System.holds, ht, TickPc.holds])
  have honce := h.once
  rw [ht] at honce
  obtain ⟨_, rfl, hfree, rfl, rfl⟩ | ⟨pc, rfl, _, rfl, rfl⟩ | ⟨rfl, _⟩ | ⟨rfl, _⟩ :=
    System.callStep_cases hstep
  · rw [hflag] at hfree
    cases hfree
  · exact ⟨pc, rfl, rfl, rfl⟩
  · cases honce
  · cases honce

variable [Add β] [One β] {e : Event β C U}

theorem step (h : Owned s owner) (hstep : Step env s e s') : ∃ owner', Owned s' owner' := by
  cases hstep with
  | invoke hu => exact ⟨owner, h.congr_user (by rw [hu]; rfl)⟩
  | exec hu hcall => exact h.exec hu hcall
  | invokeStart hu => exact ⟨owner, h.congr_user (by rw [hu]; rfl)⟩
  | clearQuit hu =>
    refine ⟨owner, congr_user ?_ (by rw [hu]; rfl)⟩
    exact h.congr_tick rfl rfl rfl h.once
  | spawned hu ht =>
    refine ⟨owner, congr_user ?_ (by rw [hu]; rfl)⟩
    exact h.congr_tick rfl rfl (by rw [ht]; rfl) rfl
  | invokeEnd hu => exact ⟨owner, h.congr_user (by rw [hu]; rfl)⟩
  | setQuit hu =>
    refine ⟨owner, congr_user ?_ (by rw [hu]; rfl)⟩
    exact h.congr_tick rfl rfl rfl h.once
  | joined hu ht =>
    refine ⟨owner, congr_user ?_ (by rw [hu]; rfl)⟩
    cases ht with
    | inl ht => exact h.congr_tick rfl rfl (by rw [ht]; rfl) rfl
    | inr ht => exact h.congr_tick rfl rfl (by rw [ht]) rfl
  | readClock _ ht => exact ⟨owner, h.congr_tick rfl rfl (by rw [ht]; rfl) rfl⟩
  | loadBeat ht => exact ⟨owner, h.congr_tick rfl rfl (by rw [ht]; rfl) rfl⟩
  | loadFrame ht => exact ⟨owner, h.congr_tick rfl rfl (by rw [ht]; rfl) rfl⟩
  | lock ht hlock =>
    cases hflag : s.m_spin_mutex.flag with
    | false =>
      rw [audio_spin_mutex.lockTurn_free hflag, Prod.mk.injEq] at hlock
      obtain ⟨rfl, rfl⟩ := hlock
      refine ⟨some none, h.acquire hflag rfl rfl (fun t' ht' => ?_) rfl⟩
      cases t' with
      | none => exact absurd rfl ht'
      | some => rfl
    | true =>
      rw [audio_spin_mutex.lockTurn_taken hflag, Prod.mk.injEq] at hlock
      obtain ⟨rfl, rfl⟩ := hlock
      exact ⟨owner, h.congr_tick rfl rfl (by rw [ht]; rfl) rfl⟩
  | entered ht _ => exact ⟨owner, h.congr_tick rfl rfl (by rw [ht]; rfl) rfl⟩
  | tick ht _ =>
    refine ⟨owner, h.congr_tick rfl rfl ?_ TickPc.reentered_resume⟩
    rw [ht]
    exact TickPc.holds_resume
  | ticked ht _ => exact ⟨owner, h.congr_tick rfl rfl (by rw [ht]; rfl) rfl⟩
  | invalidIterator _ _ => exact ⟨owner, h⟩
  | nested ht hcall =>
    obtain ⟨pc, rfl, rfl, rfl⟩ := h.nested ht hcall
    exact ⟨owner, h.congr_tick rfl rfl (by rw [ht]; rfl) rfl⟩
  | storeFrame ht => exact ⟨owner, h.congr_tick rfl rfl (by rw [ht]; rfl) rfl⟩
  | storeBeat ht => exact ⟨owner, h.congr_tick rfl rfl (by rw [ht]; rfl) rfl⟩
  | unlock ht =>
    refine ⟨none, h.release (t := none) (by simp only [System.holds, ht, TickPc.holds]) rfl rfl
      (fun t' ht' => ?_) rfl⟩
    cases t' with
    | none => exact absurd rfl ht'
    | some => rfl
  | testQuit ht =>
    refine ⟨owner, h.congr_tick rfl rfl ?_ ?_⟩
    · rw [ht]
      dsimp only
      split <;> rfl
    · dsimp only
      split <;> rfl
  | wake _ ht _ => exact ⟨owner, h.congr_tick rfl rfl (by rw [ht]; rfl) rfl⟩

end Owned

/-! ## The set of consumers -/

section Consumers

/-- The consumers that have been ticked in a history since its last round, in their order. -/
def ticksSince : List (Event β C U) → List C
  | [] => []
  | .round :: _ => []
  | .tick c :: h => ticksSince h ++ [c]
  | _ :: h => ticksSince h

/-- The last of the two methods that has been at work on `c` was `RegisterConsumer`. -/
def Registered (c : C) : List (Event β C U) → Prop
  | [] => False
  | .exec _ (.RegisterConsumer c') .body :: h => c = c' ∨ Registered c h
  | .exec _ (.UnRegisterConsumer c') .body :: h => c ≠ c' ∧ Registered c h
  | _ :: h => Registered c h

/-- The consumers that are ticked are those of the set, from the lock on. -/
def RoundInv (h : List (Event β C U)) (s : System β C U) : Prop :=
  match s.tick with
  | .loop _ range left => range = ticksSince h ++ left ∧ Enumerates range s.m_consumers
  | .nested _ range left _ _ _ => range = ticksSince h ++ left ∧ Enumerates range s.m_consumers
  | .storeFrame _ => Enumerates (ticksSince h) s.m_consumers
  | .storeBeat _ => Enumerates (ticksSince h) s.m_consumers
  | _ => ticksSince h = []

variable {h h₁ h₂ : List (Event β C U)} {s s' s₀ : System β C U} {e : Event β C U}

theorem roundInv_resume {l : Locals β} {range left : List C} {calls : List (Call β C)}
    (htick : s.tick = .resume l range left calls) :
    RoundInv h s ↔ range = ticksSince h ++ left ∧ Enumerates range s.m_consumers := by
  cases calls <;> simp only [RoundInv, htick, TickPc.resume]

theorem roundInv_of_not_holds (htick : s.tick.holds = false) :
    RoundInv h s ↔ ticksSince h = [] := by
  unfold RoundInv
  cases ht : s.tick <;> simp_all [TickPc.holds]

theorem RoundInv.congr (hinv : RoundInv h s) (hticks : ticksSince (e :: h) = ticksSince h)
    (htick : s'.tick = s.tick) (hconsumers : s'.m_consumers = s.m_consumers) :
    RoundInv (e :: h) s' := by
  unfold RoundInv at hinv ⊢
  rw [htick, hconsumers, hticks]
  exact hinv

theorem registered_exec {c : C} {t : Option U} {call : Call β C} {place : CallPc}
    (hplace : place ≠ .body) : Registered c (.exec t call place :: h) ↔ Registered c h := by
  cases place with
  | body => exact absurd rfl hplace
  | _ => cases call <;> rfl

theorem registered_of_append {c : C} (hreg : Registered c (h₂ ++ h₁)) (hnot : ¬Registered c h₁) :
    ∃ t, .exec t (.RegisterConsumer c) .body ∈ h₂ := by
  induction h₂ with
  | nil => exact absurd hreg hnot
  | cons e h₂ ih =>
    by_cases he : ∃ t, e = .exec t (.RegisterConsumer c) .body
    · obtain ⟨t, rfl⟩ := he
      exact ⟨t, List.mem_cons_self⟩
    · have hreg : Registered c (h₂ ++ h₁) := by
        rw [List.cons_append] at hreg
        unfold Registered at hreg
        grind
      obtain ⟨t, ht⟩ := ih hreg
      exact ⟨t, List.mem_cons_of_mem _ ht⟩

variable [DecidableEq C] {env : Env β C}

theorem mem_perform_iff {c : C} {t : Option U} {call : Call β C}
    (hmem : c ∈ s.m_consumers ↔ Registered c h) :
    c ∈ (s.perform env call).m_consumers ↔ Registered c (.exec t call .body :: h) := by
  cases call with
  | RegisterConsumer c' => simp only [System.perform, Finset.mem_insert, hmem, Registered]
  | UnRegisterConsumer c' =>
    simp only [System.perform, Finset.mem_erase, hmem, Registered, ne_eq]
  | _ => exact hmem

variable [DecidableEq U] [Add β] [One β] {owner : Option (Option U)}

theorem RoundInv.step (hinv : RoundInv h s) (ho : Owned s owner) (hstep : Step env s e s') :
    RoundInv (e :: h) s' ∧ e ≠ .invalidIterator := by
  cases hstep with
  | @exec u c place next s₁ hu hcall =>
    refine ⟨?_, nofun⟩
    obtain ⟨htick, -, -⟩ := System.callStep_frame hcall
    obtain ⟨rfl, rfl⟩ | ⟨-, hconsumers⟩ := System.callStep_m_consumers hcall
    · -- The thread has the lock, so the tick thread is not in a round.
      have hfree : s.holds none = false :=
        ho.not_holds (t := some u) (by simp only [System.holds, hu]; rfl) nofun
      exact (roundInv_of_not_holds (by simpa [System.setUser, System.holds] using hfree)).mpr
        ((roundInv_of_not_holds hfree).mp hinv)
    · exact hinv.congr rfl htick hconsumers
  | spawned _ ht =>
    simp only [RoundInv, ht] at hinv
    exact ⟨hinv, nofun⟩
  | joined _ ht =>
    obtain ht | ht := ht <;>
    · simp only [RoundInv, ht] at hinv
      exact ⟨hinv, nofun⟩
  | @lock l pc next m ht hlock =>
    simp only [RoundInv, ht] at hinv
    cases next <;> exact ⟨hinv, nofun⟩
  | entered ht hrange =>
    simp only [RoundInv, ht] at hinv
    refine ⟨⟨?_, hrange⟩, nofun⟩
    simp only [ticksSince, hinv, List.nil_append]
  | tick ht hrange =>
    simp only [RoundInv, ht] at hinv
    refine ⟨(roundInv_resume rfl).mpr ⟨?_, hrange⟩, nofun⟩
    simpa only [ticksSince, List.append_assoc, List.singleton_append] using hinv.1
  | ticked ht hrange =>
    simp only [RoundInv, ht, List.append_nil] at hinv
    rw [hinv.1] at hrange
    exact ⟨hrange, nofun⟩
  | invalidIterator ht hrange =>
    simp only [RoundInv, ht] at hinv
    exact absurd hinv.2 hrange
  | nested ht hcall =>
    obtain ⟨pc, rfl, rfl, rfl⟩ := ho.nested ht hcall
    simp only [RoundInv, ht] at hinv
    exact ⟨hinv, nofun⟩
  | storeBeat ht => exact ⟨rfl, nofun⟩
  | testQuit ht =>
    simp only [RoundInv, ht] at hinv
    refine ⟨(roundInv_of_not_holds ?_).mpr hinv, nofun⟩
    dsimp only
    split <;> rfl
  | readClock _ ht | loadBeat ht | loadFrame ht | storeFrame ht | unlock ht | wake _ ht _ =>
    simp only [RoundInv, ht] at hinv
    exact ⟨hinv, nofun⟩
  | invoke _ | invokeStart _ | clearQuit _ | invokeEnd _ | setQuit _ =>
    exact ⟨hinv.congr rfl rfl rfl, nofun⟩

theorem registered_step (hmem : ∀ c, c ∈ s.m_consumers ↔ Registered c h) (ho : Owned s owner)
    (hstep : Step env s e s') (c : C) : c ∈ s'.m_consumers ↔ Registered c (e :: h) := by
  cases hstep with
  | exec hu hcall =>
    obtain ⟨rfl, rfl⟩ | ⟨hplace, hconsumers⟩ := System.callStep_m_consumers hcall
    · exact mem_perform_iff (hmem c)
    · rw [registered_exec hplace, ← hmem c, ← hconsumers]
      rfl
  | nested ht hcall =>
    obtain ⟨pc, rfl, rfl, rfl⟩ := ho.nested ht hcall
    have hplace : CallPc.lock pc ≠ .body := nofun
    exact (hmem c).trans (registered_exec hplace).symm
  | _ => exact hmem c

/-- A thread that is about to return from `UnRegisterConsumer` still has the lock. -/
theorem unregistered_step
    (hgone : ∀ u c, s.user u = .inCall (.UnRegisterConsumer c) .unlock → c ∉ s.m_consumers)
    (ho : Owned s owner) (hstep : Step env s e s') (u : U) (c : C)
    (hu : s'.user u = .inCall (.UnRegisterConsumer c) .unlock) : c ∉ s'.m_consumers := by
  have hset {pc : UserPc β C} {v : U}
      (hv : (s.setUser v pc).user u = .inCall (.UnRegisterConsumer c) .unlock)
      (hpc : pc ≠ .inCall (.UnRegisterConsumer c) .unlock) : c ∉ s.m_consumers := by
    simp only [System.setUser, Function.update_apply] at hv
    split at hv
    · exact absurd hv hpc
    · exact hgone u c hv
  cases hstep with
  | @exec v call place next s₁ hv hcall =>
    obtain ⟨_, rfl, -, rfl, rfl⟩ | ⟨_, rfl, -, rfl, rfl⟩ | ⟨rfl, rfl, rfl⟩ | ⟨rfl, rfl, rfl⟩ :=
      System.callStep_cases hcall
    · exact hset hu nofun
    · exact hset hu nofun
    · simp only [System.setUser, Function.update_apply, System.perform_user] at hu
      split at hu
      case isTrue huv =>
        cases hu
        exact Finset.notMem_erase c s.m_consumers
      case isFalse huv =>
        -- Two threads would have the lock.
        have hnot : s.holds (some u) = false := ho.not_holds (t := some v)
          (by simp only [System.holds, hv]; rfl) (fun heq => huv (Option.some.inj heq))
        simp only [System.holds, hu] at hnot
        cases hnot
    · exact hset hu nofun
  | nested ht hcall =>
    obtain ⟨pc, rfl, rfl, rfl⟩ := ho.nested ht hcall
    exact hgone u c hu
  | invoke _ | invokeStart _ | clearQuit _ | spawned _ _ | invokeEnd _ | setQuit _ | joined _ _ =>
    exact hset hu nofun
  | _ => exact hgone u c hu

/-- What holds after every run. -/
structure Safe (h : List (Event β C U)) (s : System β C U) : Prop where
  owned : ∃ owner, Owned s owner
  round : RoundInv h s
  registered : ∀ c, c ∈ s.m_consumers ↔ Registered c h
  unregistered : ∀ u c, s.user u = .inCall (.UnRegisterConsumer c) .unlock → c ∉ s.m_consumers
  valid : .invalidIterator ∉ h

theorem Safe.step (hsafe : Safe h s) (hstep : Step env s e s') : Safe (e :: h) s' := by
  obtain ⟨owner, ho⟩ := hsafe.owned
  obtain ⟨hround, he⟩ := hsafe.round.step ho hstep
  refine ⟨ho.step hstep, hround, registered_step hsafe.registered ho hstep,
    unregistered_step hsafe.unregistered ho hstep, ?_⟩
  rw [List.mem_cons, not_or]
  exact ⟨he.symm, hsafe.valid⟩

theorem Run.safe (hinit : Initial s₀) (hrun : Run env s₀ h s) : Safe h s := by
  refine hrun.invariant ⟨⟨none, .initial hinit⟩, ?_, fun c => ?_, fun u c hu => ?_,
    List.not_mem_nil⟩ fun _ hsafe hstep => hsafe.step hstep
  · simp only [RoundInv, hinit.tick, ticksSince]
  · simp only [hinit.consumers, Finset.notMem_empty, Registered]
  · rw [hinit.user u] at hu
    cases hu

/-- As it is constructed, with whole beats, for one consumer and one thread. -/
def fresh : System Nat Unit Unit where
  m_consumers := ∅
  m_spin_mutex := {}
  m_quitTimer := false
  m_quantum := 4
  m_tempo := 120
  m_beat := 0
  m_frame := 0
  m_lastTime := 0
  m_lastBeat := 0
  m_timePerBeat := 500000
  tick := .absent
  user _ := .idle

theorem initial_fresh : Initial fresh := ⟨rfl, rfl, rfl, fun _ => rfl⟩

/-- The consumer does not call back. -/
def plainEnv : Env Nat Unit := ⟨(60000000 / ·), fun _ => []⟩

/-- Over every interleaving one thread at most is between its `lock` and its `unlock`, the flag is
set when one is, and the iterator of the tick thread is never one of a set that has changed. -/
theorem run_mutual_exclusion (hinit : Initial s₀) (hrun : Run env s₀ h s) :
    (∃ owner : Option (Option U), s.m_spin_mutex.flag = owner.isSome ∧
      ∀ t, s.holds t = true ↔ owner = some t) ∧ .invalidIterator ∉ h := by
  have hsafe := hrun.safe hinit
  obtain ⟨owner, ho⟩ := hsafe.owned
  exact ⟨⟨owner, ho.flag, ho.holds⟩, hsafe.valid⟩

theorem run_mutual_exclusion_at_tick : ∃ h s, Run plainEnv fresh h s ∧ s.holds none = true ∧
    (∃ owner : Option (Option Unit), s.m_spin_mutex.flag = owner.isSome ∧
      ∀ t, s.holds t = true ↔ owner = some t) ∧ .invalidIterator ∉ h := by
  obtain ⟨l, s, hrun, ht, -⟩ := exists_tick plainEnv initial_fresh () ()
  refine ⟨_, s, hrun, ?_, run_mutual_exclusion initial_fresh hrun⟩
  rw [System.holds, ht, TickPc.holds_resume]

/-- A round of ticks reaches the registered consumers and no others, and each of them once. -/
theorem run_round_ticks_registered (hinit : Initial s₀) (hrun : Run env s₀ (.round :: h) s) :
    (ticksSince h).Nodup ∧ ∀ c, c ∈ ticksSince h ↔ Registered c h := by
  cases hrun with
  | tail hrun hstep =>
    have hsafe := Run.safe hinit hrun
    have hround := hsafe.round
    cases hstep with
    | storeBeat ht =>
      simp only [RoundInv, ht] at hround
      exact ⟨hround.1, fun c => (hround.2 c).trans (hsafe.registered c)⟩

/-- The consumer is registered, and the first round ends. -/
theorem exists_round : ∃ l s, Run plainEnv fresh (.round :: .internal :: .internal :: .tick () ::
      .internal :: startEvents () ++ callEvents () (.RegisterConsumer ())) s ∧
    s.tick = .unlock l := by
  obtain ⟨l, s, hrun, ht, -, hconsumers⟩ := exists_tick plainEnv initial_fresh () ()
  have hrange : Enumerates [()] s.m_consumers := by
    rw [hconsumers]
    exact ⟨List.nodup_singleton (), fun c => by simp⟩
  exact ⟨l, _, ((hrun.tail (.ticked ht hrange)).tail (.storeFrame rfl)).tail (.storeBeat rfl), rfl⟩

theorem run_round_ticks_registered_one : ∃ h s, Run plainEnv fresh (.round :: h) s ∧
    ticksSince h = [()] ∧
    (ticksSince h).Nodup ∧ ∀ c, c ∈ ticksSince h ↔ Registered c h := by
  obtain ⟨l, s, hrun, -⟩ := exists_round
  exact ⟨_, s, hrun, rfl, run_round_ticks_registered initial_fresh hrun⟩

/-- When `UnRegisterConsumer` has returned, its consumer is not ticked again before a
`RegisterConsumer` has added it again: also not by a round that was under way. -/
theorem run_unregistered_not_ticked {u : U} {c : C} (hinit : Initial s₀)
    (hrun : Run env s₀
      (.tick c :: (h₂ ++ .exec (some u) (.UnRegisterConsumer c) .unlock :: h₁)) s) :
    ∃ t, .exec t (.RegisterConsumer c) .body ∈ h₂ := by
  cases hrun with
  | tail hrun htick =>
    obtain ⟨s₁, s₂, hrun₁, hreturn, -⟩ := hrun.cut_at
    refine registered_of_append ((Run.safe hinit hrun).registered c |>.mp ?_) ?_
    · have hround := (Run.safe hinit hrun).round
      cases htick with
      | tick ht hrange => exact (hrange.2 c).mp (by
          simp only [RoundInv, ht] at hround
          rw [hround.1]
          exact List.mem_append_right _ List.mem_cons_self)
    · intro hreg
      have hplace : CallPc.unlock ≠ .body := nofun
      have hmem := ((Run.safe hinit hrun₁).registered c).mpr ((registered_exec hplace).mp hreg)
      cases hreturn with
      | exec hu _ => exact (Run.safe hinit hrun₁).unregistered u c hu hmem

theorem run_unregistered_not_ticked_again : ∃ h₁ h₂ s,
    Run plainEnv fresh
      (.tick () :: (h₂ ++ .exec (some ()) (.UnRegisterConsumer ()) .unlock :: h₁)) s ∧
    ∃ t, .exec t (.RegisterConsumer ()) .body ∈ h₂ := by
  obtain ⟨s₁, hrun₁, hu₁, hflag₁, ht₁, -⟩ :=
    exists_call plainEnv (.UnRegisterConsumer ()) (initial_fresh.user ()) initial_fresh.mutex
  obtain ⟨s₂, hrun₂, hu₂, hflag₂, ht₂, hconsumers₂⟩ :=
    exists_call plainEnv (.RegisterConsumer ()) hu₁ hflag₁
  obtain ⟨l, s₃, hrun₃, -, ht₃, hconsumers₃⟩ :=
    exists_start plainEnv hu₂ hflag₂ (ht₂.trans (ht₁.trans initial_fresh.tick))
  have hrange : Enumerates [()] s₃.m_consumers := by
    rw [hconsumers₃, hconsumers₂]
    exact ⟨List.nodup_singleton (), fun c => by simp [System.perform]⟩
  have htick := (((hrun₁.trans hrun₂).trans hrun₃).tail (.entered ht₃ hrange)).tail
    (.tick rfl hrange)
  exact ⟨_, .internal :: startEvents () ++ callEvents () (.RegisterConsumer ()), _, htick,
    run_unregistered_not_ticked initial_fresh htick⟩

end Consumers

end MUtils.TickThread
