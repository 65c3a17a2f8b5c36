import MUtils.Verify.ProfilerSteps

/-!
# The slots of the profiler

In every run, threads that were given a slot in the current generation hold different slots, and
keep them until the next generation: `Run.slot_ownership`.
-/

namespace MUtils.Profiler
open Outcome

variable {Thread : Type} [DecidableEq Thread] {s s' s₁ : Profiler Thread} {t t' : Thread}
  {now : Instant} {c : Call} {m : Option Mark} {i j : Nat}

/-! ### Calls that use the slot of their thread -/

/-- The calls that ask `GetThreadData` for the slot of their thread. -/
def Call.usesSlot : Call → Bool
  | .pushSection .. | .popSection | .nameThread _ | .hideThread | .beginRegion | .endRegion => true
  | _ => false

/-- No slot but slot `i` is written to, and that stays in use; the settings and the thread-local
variables stay. -/
structure OnlySlot (s : Profiler Thread) (i : Nat) (s' : Profiler Thread) : Prop where
  settings : s'.settings = s.settings
  index : s'.gThreadIndexTLS = s.gThreadIndexTLS
  tls : s'.gGenerationTLS = s.gGenerationTLS
  generation : s'.gProfilerGeneration = s.gProfilerGeneration
  size : s'.gThreadData.size = s.gThreadData.size
  initialized : ∀ j, (s'.slot j).initialized = (s.slot j).initialized
  others : ∀ j, j ≠ i → s'.slot j = s.slot j

omit [DecidableEq Thread] in
theorem OnlySlot.owns (h : OnlySlot s i s') (ho : s.Owns t j) : s'.Owns t j := by
  simpa only [Owns, h.tls, h.generation, h.index] using ho

omit [DecidableEq Thread] in
theorem OnlySlot.of_slots_eq (hsettings : s'.settings = s.settings)
    (hindex : s'.gThreadIndexTLS = s.gThreadIndexTLS) (htls : s'.gGenerationTLS = s.gGenerationTLS)
    (hgen : s'.gProfilerGeneration = s.gProfilerGeneration)
    (hdata : s'.gThreadData = s.gThreadData) : OnlySlot s i s' :=
  ⟨hsettings, hindex, htls, hgen, by rw [hdata], fun j => by rw [slot, hdata],
    fun j _ => by rw [slot, hdata]⟩

omit [DecidableEq Thread] in
theorem OnlySlot.modify {f : ThreadData → ThreadData}
    (hf : ∀ td, (f td).initialized = td.initialized) :
    OnlySlot s i { s with gThreadData := s.gThreadData.modify i f } := by
  refine ⟨rfl, rfl, rfl, rfl, rfl, fun j => ?_, fun j hj => ?_⟩
  · rw [slot_modify]
    split
    · next hj => rw [hf, hj]
    · rfl
  · rw [slot_modify, if_neg hj]

omit [DecidableEq Thread] in
theorem OnlySlot.pushed {szSection szFile : Option String} {color : UInt32} {line : Int} :
    OnlySlot s i (s.pushed now i szSection color szFile line) := by
  have h : OnlySlot s i { s with
      gThreadData :=
        s.gThreadData.modify i (·.push szSection color szFile line (s.elapsed now)) } :=
    .modify fun _ => rfl
  exact ⟨rfl, rfl, rfl, rfl, rfl, h.initialized, h.others⟩

theorem whenRecording_slot {body : Nat → Profiler Thread → Outcome (Option Mark × Profiler Thread)}
    (h : s.whenRecording t body = .ok (m, s'))
    (hready : ∀ i s₁, Acquire s t i s₁ → s₁.Ready t i → body i s₁ = .ok (m, s') →
      OnlySlot s₁ i s') :
    (s.gPaused = true ∧ s' = s) ∨
      (s.gPaused = false ∧ ∃ i s₁, Acquire s t i s₁ ∧ OnlySlot s₁ i s') := by
  cases whenRecording_iff.1 h with
  | paused hp => exact .inl ⟨hp, rfl⟩
  | full hp ha => exact .inr ⟨hp, _, _, ha, .of_slots_eq rfl rfl rfl rfl rfl⟩
  | ready ha hr h =>
    exact .inr ⟨ha.paused.symm.trans hr.unpaused, _, _, ha, hready _ _ ha hr h⟩

theorem changeThread_slot {f : ThreadData → ThreadData} (h : s.changeThread t f = .ok s')
    (hf : ∀ td, (f td).initialized = td.initialized) :
    (s.gPaused = true ∧ s' = s) ∨
      (s.gPaused = false ∧ ∃ i s₁, Acquire s t i s₁ ∧ OnlySlot s₁ i s') := by
  obtain ⟨hp, rfl⟩ | ⟨hp, i, s₁, ha, rfl⟩ := changeThread_iff.1 h
  · exact .inl ⟨hp, rfl⟩
  · exact .inr ⟨hp, i, s₁, ha, .modify hf⟩

/-- Such a call does nothing while the profiler is paused; otherwise it gets a slot and writes to
no other. -/
theorem perform_slot (hc : c.usesSlot) (h : perform t now c s = .ok (m, s')) :
    (s.gPaused = true ∧ s' = s) ∨
      (s.gPaused = false ∧ ∃ i s₁, Acquire s t i s₁ ∧ OnlySlot s₁ i s') := by
  cases c with
  | nameThread pszName =>
    obtain ⟨_, h, h'⟩ := bind_eq_ok.1 h
    cases h'
    exact changeThread_slot h fun _ => rfl
  | hideThread =>
    obtain ⟨_, h, h'⟩ := bind_eq_ok.1 h
    cases h'
    exact changeThread_slot h fun _ => rfl
  | beginRegion =>
    rw [perform, BeginRegion] at h
    refine whenRecording_slot h fun i s₁ ha hr h => ?_
    obtain ⟨-, h⟩ := index_bind_eq_ok.1 h
    cases h
    exact .of_slots_eq rfl rfl rfl rfl rfl
  | endRegion =>
    rw [perform, EndRegion] at h
    refine whenRecording_slot h fun i s₁ ha hr h => ?_
    obtain ⟨-, h⟩ := index_bind_eq_ok.1 h
    cases h
    exact .of_slots_eq rfl rfl rfl rfl rfl
  | pushSection szSection color szFile line =>
    rw [perform] at h
    have hrec := h
    rw [PushSectionBase] at hrec
    refine whenRecording_slot hrec fun i s₁ ha hr _ => ?_
    obtain ⟨-, -, rfl⟩ := (PushSectionBase_ready ha hr).1 h
    exact .pushed
  | popSection =>
    rw [perform] at h
    have hrec := h
    rw [PopSection] at hrec
    refine whenRecording_slot hrec fun i s₁ ha hr _ => ?_
    obtain ⟨-, -, rfl⟩ | ⟨e, -, -, rfl⟩ := (PopSection_ready ha hr).1 h
    · exact .of_slots_eq rfl rfl rfl rfl rfl
    · exact .modify fun _ => rfl
  | _ => cases hc

/-- The other calls but `Finish` begin a new generation, or leave the slots alone. -/
theorem perform_other (hc : c.usesSlot = false) (hf : c ≠ .finish)
    (h : perform t now c s = .ok (m, s')) :
    (c.starts = true ∧ 0 < (c.settings s).MaxThreads ∧
      ∃ request, s' = s.restarted t now (c.settings s) request) ∨
    ((s.gPaused = true → s'.gPaused = true) ∧ ∀ i, OnlySlot s i s') := by
  cases c with
  | setProfileSettings settings =>
    obtain ⟨_, h, h'⟩ := bind_eq_ok.1 h
    cases h'
    obtain ⟨hpos, rfl⟩ := SetProfileSettings_iff.1 h
    exact .inl ⟨rfl, hpos, _, rfl⟩
  | init =>
    obtain ⟨_, h, h'⟩ := bind_eq_ok.1 h
    cases h'
    obtain ⟨hpos, rfl⟩ := Init_iff.1 h
    exact .inl ⟨rfl, hpos, _, rfl⟩
  | newFrame =>
    obtain ⟨_, h, h'⟩ := bind_eq_ok.1 h
    cases h'
    right
    obtain ⟨-, rfl⟩ | ⟨hp, i, -, -, ⟨-, rfl⟩ | ⟨-, h⟩⟩ := NewFrame_cases h
    · exact ⟨id, fun _ => .of_slots_eq rfl rfl rfl rfl rfl⟩
    · exact ⟨fun _ => rfl, fun _ => .of_slots_eq rfl rfl rfl rfl rfl⟩
    · obtain ⟨-, frame, -, rfl⟩ := beginFrame_iff.1 h
      exact ⟨id, fun _ => .of_slots_eq rfl rfl rfl rfl rfl⟩
  | setPaused pause =>
    cases h
    right
    unfold SetPaused
    split
    · exact ⟨id, fun _ => .of_slots_eq rfl rfl rfl rfl rfl⟩
    · exact ⟨id, fun _ => .of_slots_eq rfl rfl rfl rfl rfl⟩
  | setRegionLimit maxTimeNs =>
    cases h
    exact .inr ⟨id, fun _ => .of_slots_eq rfl rfl rfl rfl rfl⟩
  | updatePause pressed =>
    obtain ⟨_, h, h'⟩ := bind_eq_ok.1 h
    cases h'
    obtain rfl | rfl | ⟨hpos, rfl⟩ := updatePause_cases h
    · exact .inr ⟨id, fun _ => .of_slots_eq rfl rfl rfl rfl rfl⟩
    · exact .inr ⟨fun _ => rfl, fun _ => .of_slots_eq rfl rfl rfl rfl rfl⟩
    · exact .inl ⟨rfl, hpos, false, rfl⟩
  | finish => exact absurd rfl hf
  | _ => cases hc

theorem Acquire.generation (h : Acquire s t i s₁) :
    s₁.gProfilerGeneration = s.gProfilerGeneration := by
  cases h <;> rfl

theorem Acquire.settings (h : Acquire s t i s₁) : s₁.settings = s.settings := by
  cases h <;> rfl

/-- What a call that begins a new generation leaves behind. -/
theorem perform_new_generation (h : perform t now c s = .ok (m, s'))
    (hgen : s'.gProfilerGeneration ≠ s.gProfilerGeneration) :
    ∃ (settings : ProfileSettings) (request : Bool), 0 < settings.MaxThreads ∧
      s' = s.restarted t now settings request := by
  cases hc : c.usesSlot with
  | true =>
    obtain ⟨-, rfl⟩ | ⟨-, i, s₁, ha, honly⟩ := perform_slot hc h
    · exact absurd rfl hgen
    · exact absurd (honly.generation.trans ha.generation) hgen
  | false =>
    by_cases hf : c = .finish
    · subst hf
      cases h
      exact absurd rfl hgen
    · obtain ⟨-, hpos, request, hstart⟩ | ⟨-, honly⟩ := perform_other hc hf h
      · exact ⟨_, request, hpos, hstart⟩
      · exact absurd (honly 0).generation hgen

/-! ### Ownership -/

/-- The slots that threads hold are in use, and no two threads hold the same. -/
structure SlotsHeld (s : Profiler Thread) : Prop where
  generation_le : ∀ t, s.gGenerationTLS t ≤ s.gProfilerGeneration
  initialized : ∀ {t j}, s.Owns t j → j < s.gThreadData.size → (s.slot j).initialized
  injective : ∀ {t t' j}, s.Owns t j → s.Owns t' j → t = t'

/-- A new generation begins with no thread holding a slot. -/
theorem SlotsHeld.not_owns_restarted {settings : ProfileSettings} {request : Bool}
    (H : s.SlotsHeld) : ¬(s.restarted t now settings request).Owns t' j := by
  rintro ⟨hgen, -⟩
  have hle := H.generation_le t'
  by_cases ht : t' = t
  · simp [Profiler.restarted, started, ht] at hgen
    omega
  · simp [Profiler.restarted, started, ht] at hgen
    omega

theorem SlotsHeld.restarted {settings : ProfileSettings} {request : Bool} (H : s.SlotsHeld) :
    (s.restarted t now settings request).SlotsHeld where
  generation_le t' := by
    have hle := H.generation_le t'
    by_cases ht : t' = t
    · simp [Profiler.restarted, started, ht]
      omega
    · simp [Profiler.restarted, started, ht]
      omega
  initialized ho := absurd ho H.not_owns_restarted
  injective ho := absurd ho H.not_owns_restarted

theorem owns_useSlot_of_ne (ht : t' ≠ t) : (s.useSlot t i).Owns t' j ↔ s.Owns t' j := by
  simp [Owns, Profiler.useSlot, ht]

theorem SlotsHeld.useSlot (H : s.SlotsHeld) (hfree : s.Free i) (hi : i < 2 ^ 31) :
    (s.useSlot t i).SlotsHeld := by
  -- The slot is free, so nobody holds it.
  have hnot : ∀ t', ¬s.Owns t' i := by
    intro t' ho
    have := H.initialized ho hfree.lt_size
    simp [hfree.free] at this
  refine ⟨fun t' => ?_, fun {t' j} ho hj => ?_, fun {t₁ t₂ j} h₁ h₂ => ?_⟩
  · by_cases ht : t' = t
    · simp [Profiler.useSlot, ht]
    · simpa [Profiler.useSlot, ht] using H.generation_le t'
  · rw [slot_useSlot]
    split
    · rfl
    · next hji =>
      by_cases ht : t' = t
      · subst ht
        exact absurd (ho.unique (useSlot_owns hi)) hji
      · exact H.initialized ((owns_useSlot_of_ne ht).1 ho) hj
  · by_cases ht₁ : t₁ = t <;> by_cases ht₂ : t₂ = t
    · rw [ht₁, ht₂]
    · subst ht₁
      obtain rfl := h₁.unique (useSlot_owns hi)
      exact absurd ((owns_useSlot_of_ne ht₂).1 h₂) (hnot t₂)
    · subst ht₂
      obtain rfl := h₂.unique (useSlot_owns hi)
      exact absurd ((owns_useSlot_of_ne ht₁).1 h₁) (hnot t₁)
    · exact H.injective ((owns_useSlot_of_ne ht₁).1 h₁) ((owns_useSlot_of_ne ht₂).1 h₂)

omit [DecidableEq Thread] in
/-- A change that leaves the thread-local variables alone and the slots in use. -/
theorem SlotsHeld.congr (H : s.SlotsHeld) (hindex : s'.gThreadIndexTLS = s.gThreadIndexTLS)
    (htls : s'.gGenerationTLS = s.gGenerationTLS)
    (hgen : s'.gProfilerGeneration = s.gProfilerGeneration)
    (hsize : s'.gThreadData.size ≤ s.gThreadData.size)
    (hinit : ∀ j < s'.gThreadData.size, (s.slot j).initialized → (s'.slot j).initialized) :
    s'.SlotsHeld := by
  have howns : ∀ {t j}, s'.Owns t j → s.Owns t j := by
    intro t j ho
    simpa only [Owns, hindex, htls, hgen] using ho
  refine ⟨fun t => ?_, fun ho hj => ?_, fun h₁ h₂ => H.injective (howns h₁) (howns h₂)⟩
  · rw [htls, hgen]
    exact H.generation_le t
  · exact hinit _ hj (H.initialized (howns ho) (by omega))

omit [DecidableEq Thread] in
theorem SlotsHeld.new : (new : Profiler Thread).SlotsHeld := by
  refine ⟨fun t => by simp [Profiler.new], fun ho => ?_, fun ho => ?_⟩ <;>
    simp [Owns, Profiler.new] at ho

theorem SlotsHeld.quiet (H : s.SlotsHeld) (h : Quiet t now s s') : s'.SlotsHeld := by
  cases h with
  | flags | limit | region | frame => exact H.congr rfl rfl rfl (Nat.le_refl _) fun _ _ h => h
  | use _ _ hfree hi => exact H.useSlot hfree hi
  | change _ _ _ hf =>
    refine H.congr rfl rfl rfl (Nat.le_refl _) fun j _ h => ?_
    rw [slot_modify]
    split
    · next hj =>
      obtain ⟨_, _, hf⟩ := hf (s.slot j)
      rw [← hj, hf]
      exact h
    · exact h

theorem SlotsHeld.atomic (H : s.SlotsHeld) (h : Atomic t now s s') : s'.SlotsHeld := by
  cases h with
  | quiet h => exact H.quiet h
  | start => exact H.restarted
  | push =>
    refine H.congr rfl rfl rfl (Nat.le_refl _) fun j _ h => ?_
    rw [slot_pushed]
    split
    · next hj => subst hj; exact h
    · exact h
  | pop =>
    refine H.congr rfl rfl rfl (Nat.le_refl _) fun j _ h => ?_
    rw [slot_popped]
    split
    · next hj => subst hj; exact h
    · exact h

omit [DecidableEq Thread] in
theorem SlotsHeld.finish (H : s.SlotsHeld) : s.Finish.SlotsHeld :=
  H.congr rfl rfl rfl (Nat.zero_le _) fun j hj => absurd hj (Nat.not_lt_zero j)

theorem Run.slotsHeld {allowed : List (Event Thread) → Profiler Thread → Thread → Call → Prop}
    {h : List (Event Thread)} (hrun : Run allowed h s) : s.SlotsHeld :=
  hrun.preserves .new (fun _ _ _ _ H h => H.atomic h) fun _ _ _ _ H => H.finish

/-! ### Keeping a slot for a generation -/

/-- A call that returns. -/
def Step (s s' : Profiler Thread) : Prop := ∃ t now c m, perform t now c s = .ok (m, s')

/-- The generation does not go down, and a thread keeps its slot as long as the generation stays. -/
structure Keeps (s s' : Profiler Thread) : Prop where
  generation_le : s.gProfilerGeneration ≤ s'.gProfilerGeneration
  owns : s'.gProfilerGeneration = s.gProfilerGeneration → ∀ {t j}, s.Owns t j → s'.Owns t j

omit [DecidableEq Thread] in
theorem Keeps.trans (h : Keeps s s₁) (h' : Keeps s₁ s') : Keeps s s' := by
  have := h.generation_le
  have := h'.generation_le
  exact ⟨by omega, fun hgen t j ho => h'.owns (by omega) (h.owns (by omega) ho)⟩

theorem Quiet.keeps (h : Quiet t now s s') : Keeps s s' := by
  cases h with
  | flags | limit | region | change | frame => exact ⟨Nat.le_refl _, fun _ => id⟩
  | use _ hreg hfree =>
    refine ⟨Nat.le_refl _, fun _ t' j ho => ?_⟩
    have ht : t' ≠ t := by
      rintro rfl
      exact hreg.not_owns ho
    exact (owns_useSlot_of_ne ht).2 ho

theorem Atomic.keeps (h : Atomic t now s s') : Keeps s s' := by
  cases h with
  | quiet h => exact h.keeps
  | push | pop => exact ⟨Nat.le_refl _, fun _ => id⟩
  | start =>
    refine ⟨Nat.le_succ _, fun hgen => ?_⟩
    simp [Profiler.restarted, started] at hgen

theorem Step.keeps (h : Step s s') : Keeps s s' := by
  obtain ⟨t, now, c, m, h⟩ := h
  apply perform_preserves (P := Keeps s) (fun _ _ H h => H.trans h.keeps) _ h
  · exact ⟨Nat.le_refl _, fun _ => id⟩
  · exact fun _ H => H.trans ⟨Nat.le_refl _, fun _ => id⟩

theorem SlotsHeld.step (H : s.SlotsHeld) (h : Step s s') : s'.SlotsHeld := by
  obtain ⟨t, now, c, m, h⟩ := h
  exact perform_preserves (fun _ _ H h => H.atomic h) (fun _ H => H.finish) h H

/-- `ShowProfile` is three calls. -/
theorem ShowProfile_steps {visible pressed : Bool} {color : UInt32}
    (h : s.ShowProfile t now visible pressed color = .ok s') :
    Relation.ReflTransGen Step s s' := by
  cases visible with
  | false =>
    cases h
    exact .refl
  | true =>
    obtain ⟨⟨m, s₁⟩, hpush, h⟩ := bind_eq_ok.1 h
    obtain ⟨s₂, hpause, h⟩ := bind_eq_ok.1 h
    obtain ⟨⟨m', s₃⟩, hpop, h⟩ := bind_eq_ok.1 h
    cases h
    have hpause' : perform t now (.updatePause pressed) s₁ = .ok (none, s₂) := by
      rw [perform, hpause]
      rfl
    exact ((Relation.ReflTransGen.single ⟨t, now, .pushSection .., m, hpush⟩).tail
      ⟨t, now, _, none, hpause'⟩).tail ⟨t, now, .popSection, m', hpop⟩

/-- A call of any function of the header, `ShowProfile` included. -/
def HeaderCall (s s' : Profiler Thread) : Prop :=
  Step s s' ∨ ∃ t now visible pressed color, s.ShowProfile t now visible pressed color = .ok s'

theorem HeaderCall.steps (h : HeaderCall s s') : Relation.ReflTransGen Step s s' := by
  rcases h with h | ⟨t, now, visible, pressed, color, h⟩
  · exact .single h
  · exact ShowProfile_steps h

/-- Over a whole sequence of calls. -/
theorem SlotsHeld.steps (H : s.SlotsHeld) (h : Relation.ReflTransGen Step s s') :
    s'.SlotsHeld ∧ Keeps s s' := by
  induction h with
  | refl => exact ⟨H, Nat.le_refl _, fun _ => id⟩
  | tail _ hstep ih => exact ⟨ih.1.step hstep, ih.2.trans hstep.keeps⟩

theorem Acquire.others (h : Acquire s t i s₁) (hj : j ≠ i) : s₁.slot j = s.slot j := by
  cases h with
  | owned => rfl
  | fresh => rw [slot_useSlot, if_neg hj]

/-- `GetThreadData` gives a slot to its owner and to nobody else. -/
theorem SlotsHeld.acquire_iff (H : s.SlotsHeld) (ho : s.Owns t i) (ha : Acquire s t' j s₁) :
    j = i ↔ t' = t := by
  constructor
  · rintro rfl
    cases ha with
    | owned ho' => exact H.injective ho' ho
    | fresh _ hfree =>
      have := H.initialized ho hfree.lt_size
      simp [hfree.free] at this
  · rintro rfl
    cases ha with
    | owned ho' => exact ho'.unique ho
    | fresh hreg => exact absurd ho hreg.not_owns

/-- In every run: a call that uses a slot writes to no slot but the one that `GetThreadData` gives
its thread, which the thread then owns in the current generation; and as long as that generation
lasts, `GetThreadData` gives this slot to this thread and to no other. -/
theorem Run.slot_ownership
    {allowed : List (Event Thread) → Profiler Thread → Thread → Call → Prop}
    {h : List (Event Thread)} (hrun : Run allowed h s) (hc : c.usesSlot)
    (hcall : perform t now c s = .ok (m, s')) :
    (s.gPaused = true ∧ s' = s) ∨
    (s.gPaused = false ∧ ∃ i s₁, s.GetThreadData t = .ok (i, s₁) ∧ s'.Owns t i ∧
      (∀ j, s'.slot j ≠ s.slot j → j = i) ∧
      ∀ s₂, Relation.ReflTransGen HeaderCall s' s₂ →
        s₂.gProfilerGeneration = s.gProfilerGeneration →
        ∀ t' i' s₃, s₂.GetThreadData t' = .ok (i', s₃) → (i' = i ↔ t' = t)) := by
  obtain hp | ⟨hp, i, s₁, ha, honly⟩ := perform_slot hc hcall
  · exact .inl hp
  have howns : s'.Owns t i := honly.owns ha.owns
  refine .inr ⟨hp, i, s₁, GetThreadData_iff.2 ha, howns, fun j hj => ?_, ?_⟩
  · by_contra hji
    exact hj ((honly.others j hji).trans (ha.others hji))
  · intro s₂ hsteps hgen t' i' s₃ hget
    have hsteps' : Relation.ReflTransGen Step s' s₂ :=
      Relation.reflTransGen_closed (fun _ _ => HeaderCall.steps) _ _ hsteps
    obtain ⟨H₂, hkeeps⟩ := (hrun.slotsHeld.step ⟨t, now, c, m, hcall⟩).steps hsteps'
    have hgen' : s'.gProfilerGeneration = s.gProfilerGeneration :=
      honly.generation.trans ha.generation
    exact H₂.acquire_iff (hkeeps.owns (hgen.trans hgen'.symm) howns) (GetThreadData_iff.1 hget)

/-- A second thread, after the first one has called `Init`. -/
theorem Run.slot_ownership_second : ∃ s' : Profiler Bool,
    perform true 0 (.nameThread "audio") (started false 0 .new) = .ok (none, s') ∧
      ∃ i, s'.Owns true i ∧ ∀ j, s'.slot j ≠ (started false 0 .new).slot j → j = i := by
  have hrun : Run (fun _ _ _ _ => True) [⟨false, 0, .init, none⟩] (started false 0 .new) :=
    .call .new trivial rfl
  have hfree : Free (started false 0 .new) 1 := by
    refine ⟨by decide, by decide, by simp [slot_started, initSlot], fun k hk => ?_⟩
    obtain rfl : k = 0 := by omega
    simp [slot_started, initSlot]
  have hreg : Unregistered (started false 0 .new) true := by
    simp [Unregistered, started, Profiler.new]
  obtain ⟨s', hname⟩ : ∃ s', NameThread true "audio" (started false 0 .new) = .ok s' :=
    ⟨_, changeThread_iff.2 (.inr ⟨rfl, 1, _, .fresh hreg hfree (by decide), rfl⟩)⟩
  have hcall : perform true 0 (.nameThread "audio") (started false 0 .new) = .ok (none, s') := by
    rw [perform, hname]
    rfl
  obtain ⟨hp, -⟩ | ⟨-, i, -, -, howns, honly, -⟩ := Run.slot_ownership hrun rfl hcall
  · cases hp
  · exact ⟨s', hcall, i, howns, honly⟩

end MUtils.Profiler
