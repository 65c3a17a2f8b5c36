import MUtils.Verify.ProfilerSlots

/-!
# How many threads fit

A reset reserves slot 0 for the thread that makes it, but notes generation 0 for it. So this thread
does not own the slot, and takes another one when it records. Of `MaxThreads` slots the others are
left for the threads that register after the reset, and `NewFrame`, which does not register its
thread, uses whatever index the thread has. `Run.avoids_slotFault_iff` says for every state after a
reset which calls find a slot.
-/

namespace MUtils.Profiler
open Outcome

variable {Thread : Type} [DecidableEq Thread]

/-- No slot is left, or an index is not that of a slot. -/
def slotFault (e : Fault) : Prop :=
  e = .assertion "false && \"Every thread slots are used!\"" ∨ e = .outOfRange "gThreadData"

/-- The calls after a reset that the thread `t₀` made in the state `s₀`. -/
inductive Since (t₀ : Thread) (s₀ : Profiler Thread) :
    List (Event Thread) → Profiler Thread → Prop
  | reset : perform t₀ now c s₀ = .ok (m, s) → s.gProfilerGeneration ≠ s₀.gProfilerGeneration →
      Since t₀ s₀ [] s
  | call : Since t₀ s₀ h s → c ≠ .finish → perform t now c s = .ok (m, s') →
      s'.gProfilerGeneration = s.gProfilerGeneration → Since t₀ s₀ (⟨t, now, c, m⟩ :: h) s'

/-- The threads that asked for a slot. -/
def registered : List (Event Thread) → Finset Thread
  | [] => ∅
  | e :: h => if e.call.usesSlot then insert e.thread (registered h) else registered h

/-- The threads `R` have slots `1` to `R.card`, and no other thread has one. -/
structure Assigned (R : Finset Thread) (s : Profiler Thread) : Prop where
  size : s.gThreadData.size = s.settings.MaxThreads
  card_lt : R.card < min s.settings.MaxThreads (2 ^ 31)
  initialized : ∀ j, (s.slot j).initialized = true ↔ j ≤ R.card
  owned : ∀ t ∈ R, ∃ j < s.gThreadData.size, s.Owns t j
  generation : ∀ t ∉ R, s.gGenerationTLS t ≠ s.gProfilerGeneration

/-- The indices of the other threads are as they were at the reset, except for the thread that made
it. -/
structure AssignedSince (t₀ : Thread) (s₀ : Profiler Thread) (R : Finset Thread)
    (s : Profiler Thread) : Prop extends Assigned R s where
  index : ∀ t ∉ R, s.gThreadIndexTLS t = if t = t₀ then 0 else s₀.gThreadIndexTLS t

variable {s s' s₀ s₁ : Profiler Thread} {t t₀ : Thread} {now : Instant} {c : Call}
  {m : Option Mark} {i j : Nat} {R : Finset Thread}

namespace Assigned

omit [DecidableEq Thread] in
theorem onlySlot (H : Assigned R s) (h : OnlySlot s i s') : Assigned R s' where
  size := by rw [h.size, h.settings, H.size]
  card_lt := by rw [h.settings]; exact H.card_lt
  initialized j := by rw [h.initialized, H.initialized]
  owned t ht := by
    obtain ⟨j, hj, ho⟩ := H.owned t ht
    exact ⟨j, h.size ▸ hj, h.owns ho⟩
  generation t ht := by rw [h.tls, h.generation]; exact H.generation t ht

omit [DecidableEq Thread] in
theorem unregistered (H : Assigned R s) (ht : t ∉ R) : s.Unregistered t :=
  fun hgen => absurd hgen (H.generation t ht)

omit [DecidableEq Thread] in
/-- The next slot is the one after those in use. -/
theorem free_iff (H : Assigned R s) :
    s.Free i ↔ i = R.card + 1 ∧ R.card + 1 < s.settings.MaxThreads := by
  constructor
  · intro h
    have hfree : ¬i ≤ R.card := by
      rw [← H.initialized, h.free]
      simp
    have hbefore : ¬R.card + 1 < i := by
      intro hlt
      have := (H.initialized _).1 (h.before _ hlt)
      omega
    have := h.lt_max
    omega
  · rintro ⟨rfl, hlt⟩
    refine ⟨by rw [H.size]; exact hlt, hlt, ?_, fun k hk => ?_⟩
    · rw [← Bool.not_eq_true, H.initialized]
      omega
    · rw [H.initialized]
      omega

omit [DecidableEq Thread] in
theorem mem_of_owns (H : Assigned R s) (h : s.Owns t j) : t ∈ R := by
  by_contra ht
  exact H.generation t ht h.1

theorem acquire (H : Assigned R s) (h : Acquire s t i s₁) : Assigned (insert t R) s₁ := by
  cases h with
  | owned ho =>
    rw [Finset.insert_eq_of_mem (H.mem_of_owns ho)]
    exact H
  | fresh hreg hfree hi =>
    have ht : t ∉ R := by
      intro ht
      obtain ⟨j, -, ho⟩ := H.owned t ht
      exact hreg.not_owns ho
    obtain ⟨rfl, hlt⟩ := H.free_iff.1 hfree
    have hcard : (insert t R).card = R.card + 1 := Finset.card_insert_of_notMem ht
    refine ⟨H.size, by rw [hcard]; exact Nat.lt_min.2 ⟨hlt, hi⟩, fun j => ?_, fun t' ht' => ?_,
      fun t' ht' => ?_⟩
    · rw [slot_useSlot, hcard]
      split
      · next hj => simp [hj]
      · next hj =>
        rw [H.initialized]
        omega
    · rcases Finset.mem_insert.1 ht' with rfl | hmem
      · exact ⟨_, hfree.lt_size, useSlot_owns hi⟩
      · obtain ⟨j, hj, ho⟩ := H.owned t' hmem
        have hne : t' ≠ t := by
          rintro rfl
          exact ht hmem
        exact ⟨j, hj, (owns_useSlot_of_ne hne).2 ho⟩
    · obtain ⟨hne, hmem⟩ := not_or.1 (mt Finset.mem_insert.2 ht')
      simpa [useSlot, hne] using H.generation t' hmem

/-- As long as there are slots, `GetThreadData` returns one. -/
theorem exists_acquire (H : Assigned R s)
    (hlt : (insert t R).card < min s.settings.MaxThreads (2 ^ 31)) :
    ∃ i s₁, Acquire s t i s₁ := by
  by_cases ht : t ∈ R
  · obtain ⟨j, hj, ho⟩ := H.owned t ht
    exact ⟨j, s, .owned ho hj⟩
  · rw [Finset.card_insert_of_notMem ht, Nat.lt_min] at hlt
    exact ⟨_, _, .fresh (H.unregistered ht) (H.free_iff.2 ⟨rfl, hlt.1⟩) hlt.2⟩

/-- A generation begins with no thread having a slot. -/
theorem restarted {settings : ProfileSettings} {request : Bool} (H : s.SlotsHeld)
    (hpos : 0 < settings.MaxThreads) : Assigned ∅ (s.restarted t now settings request) := by
  refine ⟨rfl, Nat.lt_min.2 ⟨hpos, by simp⟩, fun j => ?_, fun t ht => ?_, fun t' _ => ?_⟩
  · rw [slot_restarted]
    simp [initSlot]
  · simp at ht
  · have := H.generation_le t'
    by_cases ht : t' = t
    · simp [Profiler.restarted, started, ht]
      omega
    · simp [Profiler.restarted, started, ht]
      omega

end Assigned

theorem AssignedSince.acquire (H : AssignedSince t₀ s₀ R s) (h : Acquire s t i s₁) :
    AssignedSince t₀ s₀ (insert t R) s₁ := by
  refine ⟨H.toAssigned.acquire h, fun t' ht' => ?_⟩
  obtain ⟨hne, hmem⟩ := not_or.1 (mt Finset.mem_insert.2 ht')
  rw [← H.index t' hmem]
  cases h with
  | owned => rfl
  | fresh => exact Function.update_of_ne hne ..

omit [DecidableEq Thread] in
theorem AssignedSince.onlySlot [DecidableEq Thread] (H : AssignedSince t₀ s₀ R s)
    (h : OnlySlot s i s') : AssignedSince t₀ s₀ R s' :=
  ⟨H.toAssigned.onlySlot h, fun t ht => by rw [h.index, H.index t ht]⟩

/-- While the profiler records, the threads that asked for a slot are those that have one. -/
theorem Since.assigned {h : List (Event Thread)} (H : s₀.SlotsHeld) (hsince : Since t₀ s₀ h s)
    (hp : s.gPaused = false) : AssignedSince t₀ s₀ (registered h) s := by
  induction hsince with
  | @reset now c m s hcall hgen =>
    obtain ⟨settings, request, hpos, rfl⟩ := perform_new_generation hcall hgen
    exact ⟨.restarted H hpos, fun t _ => Function.update_apply ..⟩
  | @call h s c t now m s' _ hf hcall hgen ih =>
    cases hc : c.usesSlot with
    | true =>
      obtain ⟨hp', rfl⟩ | ⟨hp', i, s₁, ha, honly⟩ := perform_slot hc hcall
      · simp [hp'] at hp
      · rw [registered, if_pos hc]
        exact ((ih hp').acquire ha).onlySlot honly
    | false =>
      rw [registered, if_neg (by simp [hc])]
      obtain ⟨-, -, request, rfl⟩ | ⟨hpaused, honly⟩ := perform_other hc hf hcall
      · simp [restarted, started] at hgen
      · have hp' : s.gPaused = false := by
          by_contra hp'
          simp [hpaused (by simpa using hp')] at hp
        exact (ih hp').onlySlot (honly 0)

/-! ### Faults -/

/-- `InitThread` finds every slot in use. -/
theorem initThreadFrom_error {n k : Nat} (hsize : k + n ≤ s.gThreadData.size)
    (hinit : ∀ j, k ≤ j → j < k + n → (s.slot j).initialized) :
    s.initThreadFrom t n k = .error (.assertion "false && \"Every thread slots are used!\"") := by
  induction n generalizing k with
  | zero => rfl
  | succ n ih =>
    have hk : (s.gThreadData.get k).initialized = true := hinit k (Nat.le_refl k) (by omega)
    rw [initThreadFrom, index_ofNat (by omega), ok_bind, if_pos hk]
    exact ih (by omega) fun j hkj hj => hinit j (by omega) (by omega)

theorem perform_error {e : Fault} (hc : c.usesSlot) (hp : s.gPaused = false)
    (he : s.GetThreadData t = .error e) : perform t now c s = .error e := by
  cases c with
  | pushSection => simp [perform, PushSectionBase, whenRecording, hp, he]
  | popSection => simp [perform, PopSection, whenRecording, hp, he]
  | beginRegion => simp [perform, BeginRegion, whenRecording, hp, he]
  | endRegion => simp [perform, EndRegion, whenRecording, hp, he]
  | nameThread => simp [perform, NameThread, changeThread, hp, he]
  | hideThread => simp [perform, HideThread, changeThread, hp, he]
  | _ => cases hc

theorem whenRecording_avoids {bad : Fault → Prop}
    {body : Nat → Profiler Thread → Outcome (Option Mark × Profiler Thread)}
    (hp : s.gPaused = false) (ha : Acquire s t i s₁)
    (hbody : s₁.Ready t i → Avoids bad (body i s₁)) : Avoids bad (s.whenRecording t body) := by
  by_cases hf : s₁.Full i
  · rw [whenRecording_full hp ha hf]
    exact avoids_ok
  · have hr : s₁.Ready t i := ⟨ha.paused.trans hp, ha.owns, ha.lt_size, hf⟩
    rw [whenRecording_ready ha hr]
    exact hbody hr

/-- A fault that `GetThreadData` does not have is one of the body. -/
theorem whenRecording_avoids_iff {bad : Fault → Prop}
    {body : Nat → Profiler Thread → Outcome (Option Mark × Profiler Thread)}
    (hget : s.gPaused = false → Avoids bad (s.GetThreadData t)) :
    Avoids bad (s.whenRecording t body) ↔
      ∀ i s₁, Acquire s t i s₁ → s₁.Ready t i → Avoids bad (body i s₁) := by
  constructor
  · intro H i s₁ ha hr
    rwa [whenRecording_ready ha hr] at H
  · intro H
    cases hp : s.gPaused with
    | true =>
      rw [whenRecording_iff.2 (.paused hp)]
      exact avoids_ok
    | false =>
      cases hr : s.GetThreadData t with
      | ok r =>
        have ha := GetThreadData_iff.1 hr
        exact whenRecording_avoids hp ha (H r.1 r.2 ha)
      | error e =>
        have herror : s.whenRecording t body = .error e := by simp [whenRecording, hp, hr]
        rw [herror, avoids_error]
        exact hget hp e hr

theorem index_avoids {k : Int} {size : Nat} {container : String} (h : container ≠ "gThreadData") :
    Avoids slotFault (index k size container) :=
  avoids_index fun _ => by simp [slotFault, h]

theorem assert_avoids {p : Prop} [Decidable p] {expr : String}
    (h : expr ≠ "false && \"Every thread slots are used!\"") : Avoids slotFault (assert p expr) :=
  avoids_assert fun _ => by simp [slotFault, h]

section
variable {bad : Fault → Prop}

theorem Frame.add_avoids {frame : Frame} {info : FrameThreadInfo}
    (hthreads : ¬bad (.outOfRange "frameThreads")) : Avoids bad (frame.add info) :=
  (avoids_index fun _ => hthreads).bind fun _ _ => avoids_ok

omit [DecidableEq Thread] in
theorem listFirstEntry_avoids (hframes : ¬bad (.outOfRange "gFrameData"))
    (hthreads : ¬bad (.outOfRange "frameThreads")) : Avoids bad (s.listFirstEntry i) := by
  simp only [listFirstEntry]
  split
  · refine (avoids_index fun _ => hframes).bind fun f _ => ?_
    exact (Frame.add_avoids hthreads).bind fun _ _ => avoids_ok
  · exact avoids_ok

theorem ThreadData.checkParent_avoids {td : ThreadData}
    (hassert : ¬bad (.assertion "profilerEntry->parent < threadData->currentEntry")) :
    Avoids bad td.checkParent := by
  unfold checkParent
  split
  · exact avoids_assert fun _ => hassert
  · exact avoids_ok

end

omit [DecidableEq Thread] in
theorem pushEntry_avoids {szSection szFile : Option String} {color : UInt32} {line : Int} :
    Avoids slotFault (s.pushEntry now szSection color szFile line i) := by
  refine (index_avoids (by decide)).bind fun _ _ => ?_
  refine (index_avoids (by decide)).bind fun _ _ => ?_
  refine (ThreadData.checkParent_avoids (by simp [slotFault])).bind fun _ _ => ?_
  refine (assert_avoids (by decide)).bind fun _ _ => ?_
  refine (assert_avoids (by decide)).bind fun _ _ => ?_
  refine (listFirstEntry_avoids ?_ ?_).bind fun _ _ => avoids_ok
  · simp [slotFault]
  · simp [slotFault]

omit [DecidableEq Thread] in
theorem popEntry_avoids : Avoids slotFault (s.popEntry now i) := by
  refine (index_avoids (by decide)).bind fun _ _ => ?_
  refine (index_avoids (by decide)).bind fun _ _ => ?_
  exact (assert_avoids (by decide)).bind fun _ _ => avoids_ok

omit [DecidableEq Thread] in
/-- The loop of `NewFrame` stays within the slots. -/
theorem listThreads_avoids {n k : Nat} {frame : Frame} (hsize : k + n ≤ s.gThreadData.size) :
    Avoids slotFault (s.listThreads n k frame) := by
  induction n generalizing k frame with
  | zero => exact avoids_ok
  | succ n ih =>
    rw [listThreads, index_ofNat (by omega), ok_bind]
    have hrest : k + 1 + n ≤ s.gThreadData.size := by omega
    dsimp only
    split
    · exact (Frame.add_avoids (by simp [slotFault])).bind fun frame _ => ih hrest
    · exact ih hrest

/-- A call whose thread has or gets a slot. -/
theorem perform_avoids (hc : c.usesSlot) (hp : s.gPaused = false) (ha : Acquire s t i s₁) :
    Avoids slotFault (perform t now c s) := by
  cases c with
  | pushSection =>
    rw [perform, PushSectionBase]
    refine whenRecording_avoids hp ha fun _ => ?_
    refine (assert_avoids (by decide)).bind fun _ _ => ?_
    split
    · exact avoids_ok
    · exact pushEntry_avoids
  | popSection =>
    rw [perform, PopSection]
    refine whenRecording_avoids hp ha fun _ => ?_
    split
    · exact avoids_ok
    · split
      · exact avoids_ok
      · exact popEntry_avoids
  | beginRegion | endRegion =>
    simp only [perform, BeginRegion, EndRegion]
    refine whenRecording_avoids hp ha fun _ => ?_
    exact (index_avoids (by decide)).bind fun _ _ => avoids_ok
  | nameThread | hideThread =>
    simp only [perform, NameThread, HideThread, changeThread, hp, GetThreadData_iff.2 ha]
    exact avoids_ok
  | _ => cases hc

omit [DecidableEq Thread] in
theorem beginFrame_avoids (hsize : s.gThreadData.size = s.settings.MaxThreads) :
    Avoids slotFault (s.beginFrame now) := by
  refine (index_avoids (by decide)).bind fun f _ => ?_
  exact (listThreads_avoids (by omega)).bind fun _ _ => avoids_ok

omit [DecidableEq Thread] in
/-- `NewFrame` needs the index of its thread to be that of a slot. -/
theorem NewFrame_avoids_iff (hp : s.gPaused = false)
    (hsize : s.gThreadData.size = s.settings.MaxThreads) :
    Avoids slotFault (s.NewFrame t now) ↔
      0 ≤ s.gThreadIndexTLS t ∧ s.gThreadIndexTLS t < s.settings.MaxThreads := by
  constructor
  · intro h
    by_contra hrange
    have hend : s.CheckEndState t = .error (.outOfRange "gThreadData") := by
      rw [CheckEndState, index_error (by omega), error_bind]
    have hframe : s.NewFrame t now = .error (.outOfRange "gThreadData") := by
      simp [NewFrame, hp, hend]
    rw [hframe, avoids_error] at h
    exact h (.inr rfl)
  · rintro ⟨hpos, hlt⟩
    obtain ⟨i, hi⟩ := Int.eq_ofNat_of_zero_le hpos
    rw [NewFrame_eq hp hi (by omega)]
    split
    · exact avoids_ok
    · exact beginFrame_avoids hsize

/-- There is a slot for the call, with an index that is an `int`, unless it is a `NewFrame`, which
needs an index that its thread already has. -/
def HasSlot (t₀ : Thread) (s₀ : Profiler Thread) (h : List (Event Thread)) (maxThreads : Nat)
    (t : Thread) : Call → Prop
  | .newFrame => t = t₀ ∨ t ∈ registered h ∨
      (0 ≤ s₀.gThreadIndexTLS t ∧ s₀.gThreadIndexTLS t < maxThreads)
  | _ => (insert t (registered h)).card < min maxThreads (2 ^ 31)

/-- Every slot is in use. -/
theorem Assigned.getThreadData_full (H : Assigned R s) (ht : t ∉ R)
    (hle : s.settings.MaxThreads ≤ R.card + 1) :
    s.GetThreadData t = .error (.assertion "false && \"Every thread slots are used!\"") := by
  rw [GetThreadData_unregistered (H.unregistered ht), InitThread,
    initThreadFrom_error (by rw [H.size, Nat.zero_add]), error_bind]
  intro j _ hj
  rw [H.initialized]
  omega

theorem Assigned.avoids_iff (H : Assigned R s) (hc : c.usesSlot) (hp : s.gPaused = false) :
    Avoids slotFault (perform t now c s) ↔
      (insert t R).card < min s.settings.MaxThreads (2 ^ 31) := by
  constructor
  · intro h
    by_contra hlt
    have ht : t ∉ R := by
      intro ht
      rw [Finset.insert_eq_of_mem ht] at hlt
      exact hlt H.card_lt
    rw [Finset.card_insert_of_notMem ht] at hlt
    by_cases hfull : s.settings.MaxThreads ≤ R.card + 1
    · rw [perform_error hc hp (H.getThreadData_full ht hfull), avoids_error] at h
      exact h (.inl rfl)
    · have hfree := H.free_iff.2 ⟨rfl, Nat.lt_of_not_le hfull⟩
      have herror := GetThreadData_negative (H.unregistered ht) hfree (by omega)
      rw [perform_error hc hp herror, avoids_error] at h
      exact h (.inr rfl)
  · intro hlt
    obtain ⟨i, s₁, ha⟩ := H.exists_acquire hlt
    exact perform_avoids hc hp ha

theorem hasSlot_of_usesSlot {h : List (Event Thread)} {n : Nat} (hc : c.usesSlot) :
    HasSlot t₀ s₀ h n t c ↔ (insert t (registered h)).card < min n (2 ^ 31) := by
  cases c <;> first | rfl | cases hc

/-- The index that `NewFrame` finds. -/
theorem AssignedSince.index_lt_iff (H : AssignedSince t₀ s₀ R s) :
    (0 ≤ s.gThreadIndexTLS t ∧ s.gThreadIndexTLS t < s.settings.MaxThreads) ↔
      t = t₀ ∨ t ∈ R ∨
        (0 ≤ s₀.gThreadIndexTLS t ∧ s₀.gThreadIndexTLS t < s.settings.MaxThreads) := by
  have hpos := H.card_lt
  by_cases ht : t ∈ R
  · obtain ⟨j, hj, ho⟩ := H.owned t ht
    rw [H.size] at hj
    have hidx := ho.2
    simp only [ht, true_or, or_true, iff_true]
    omega
  · rw [H.index t ht]
    by_cases ht₀ : t = t₀
    · simp only [ht₀, if_true, true_or, iff_true]
      omega
    · simp [ht, ht₀]

theorem perform_paused (hc : c.usesSlot ∨ c = .newFrame) (hp : s.gPaused = true) :
    perform t now c s = .ok (none, s) := by
  rcases hc with hc | rfl
  · cases c with
    | pushSection => simp [perform, PushSectionBase, whenRecording, hp]
    | popSection => simp [perform, PopSection, whenRecording, hp]
    | beginRegion => simp [perform, BeginRegion, whenRecording, hp]
    | endRegion => simp [perform, EndRegion, whenRecording, hp]
    | nameThread => simp [perform, NameThread, changeThread, hp]
    | hideThread => simp [perform, HideThread, changeThread, hp]
    | _ => cases hc
  · simp [perform, NewFrame, hp]

/-- After a reset, a call finds a slot exactly if the profiler is paused or there is one for it:
with the threads that registered since the reset and the one that calls, fewer than `MaxThreads`
and than `2 ^ 31`. -/
theorem Run.avoids_slotFault_iff
    {allowed : List (Event Thread) → Profiler Thread → Thread → Call → Prop}
    {h₀ h : List (Event Thread)} (hrun : Run allowed h₀ s₀) (hsince : Since t₀ s₀ h s)
    (hc : c.usesSlot ∨ c = .newFrame) :
    Avoids slotFault (perform t now c s) ↔
      s.gPaused = true ∨ HasSlot t₀ s₀ h s.settings.MaxThreads t c := by
  cases hp : s.gPaused with
  | true =>
    rw [perform_paused hc hp]
    exact ⟨fun _ => .inl rfl, fun _ => avoids_ok⟩
  | false =>
    have H := hsince.assigned hrun.slotsHeld hp
    simp only [Bool.false_eq_true, false_or]
    rcases hc with hc | rfl
    · rw [H.avoids_iff hc hp, hasSlot_of_usesSlot hc]
    · exact avoids_bind_ok.trans ((NewFrame_avoids_iff hp H.size).trans H.index_lt_iff)

theorem Since.setProfileSettings {settings : ProfileSettings} (hpos : 0 < settings.MaxThreads) :
    Since t₀ s₀ [] (started t₀ now { s₀ with settings }) := by
  have hcall : perform t₀ now (.setProfileSettings settings) s₀ =
      .ok (none, started t₀ now { s₀ with settings }) := by
    rw [perform, SetProfileSettings_iff.2 ⟨hpos, rfl⟩]
    rfl
  exact .reset hcall (Nat.succ_ne_self _)

/-- With two slots, the thread that made the reset still finds one. -/
theorem Run.avoids_slotFault_iff_two :
    Avoids slotFault (perform false 0 (.nameThread "ui") (started false 0
      { (Profiler.new : Profiler Bool) with settings := ⟨2, 20, 10, 10, 10, by decide⟩ })) := by
  have hrun : Run (fun _ _ _ _ => True) [] (Profiler.new : Profiler Bool) := .new
  have hslot : (insert false (registered ([] : List (Event Bool)))).card < min 2 (2 ^ 31) := by
    decide
  exact (Run.avoids_slotFault_iff hrun (.setProfileSettings (by decide)) (.inl rfl)).2 (.inr hslot)

/-- With one slot, the thread that made the reset finds none; with two, a second thread that begins
with `NewFrame` uses the index `-1`. -/
theorem Since.slots_exhausted :
    (∃ s : Profiler Unit, Since () .new [] s ∧ s.settings.MaxThreads = 1 ∧
      perform () 0 (.pushSection (some "draw") 0 (some "main.cpp") 1) s =
        .error (.assertion "false && \"Every thread slots are used!\"")) ∧
    ∃ s : Profiler Bool, Since false .new [] s ∧ s.settings.MaxThreads = 2 ∧
      perform true 0 .newFrame s = .error (.outOfRange "gThreadData") :=
  ⟨⟨started () 0 { Profiler.new with settings := ⟨1, 20, 10, 10, 10, by decide⟩ },
      .setProfileSettings (by decide), rfl, rfl⟩,
    started false 0 { Profiler.new with settings := ⟨2, 20, 10, 10, 10, by decide⟩ },
      .setProfileSettings (by decide), rfl, rfl⟩

end MUtils.Profiler
