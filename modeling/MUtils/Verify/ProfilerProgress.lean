import MUtils.Verify.ProfilerRegistration
import MUtils.Verify.ProfilerScopes

/-!
# Which calls return

The threads of a set `T` make calls, with enough slots for all of them, sections that are nested at
most 50 deep, and `NewFrame` only where the thread has the index of a slot. Then the buffers are
never exceeded: each of the functions that write calls `CheckEndState` first, and a slot is listed
at most once in a frame. What is left are two conversions of a `uint32_t` to an `int` (`IntsFit`):
a call reaches outside of a buffer exactly if one of them does not keep the value.
-/

namespace MUtils.Profiler
open Outcome

variable {Thread : Type} [DecidableEq Thread]

def Call.opens : Call → Bool
  | .pushSection .. => true
  | _ => false

/-- The calls that the threads `T` may make. -/
structure Permitted (T : Finset Thread) (h : List (Event Thread)) (s : Profiler Thread)
    (t : Thread) (c : Call) : Prop where
  thread : t ∈ T
  not_finish : c ≠ .finish
  /-- A reset takes one slot for itself. -/
  threads : c.starts = true → T.card < (c.settings s).MaxThreads
  nesting : c.opens = true → (scopes h t).length < 50
  /-- `NewFrame` asks for no slot. -/
  index : c = .newFrame → s.gPaused = false →
    ∃ i : Nat, s.gThreadIndexTLS t = i ∧ i < s.gThreadData.size

/-- The calls of threads whose sections are scopes, nested at most `MaxCallStack` deep. -/
structure Nested (T : Finset Thread) (h : List (Event Thread)) (s : Profiler Thread) (t : Thread)
    (c : Call) : Prop extends Permitted T h s t c where
  depth : c.opens = true → (scopes h t).length < s.settings.MaxCallStack ∧
    s.settings.MaxCallStack ≤ 50
  closes : c = .popSection → scopes h t ≠ []

/-- An access outside of a container. -/
def outOfRange (e : Fault) : Prop := ∃ container, e = .outOfRange container

/-- The conversions to `int` in a call keep the value: that of the slot that `InitThread` finds, and
that of the entry that `PopSection` is to end, which is the entry of the innermost scope. -/
structure IntsFit (h : List (Event Thread)) (s : Profiler Thread) (t : Thread) (c : Call) :
    Prop where
  slot : c.usesSlot → s.Unregistered t → ∀ i, s.Free i → i < 2 ^ 31
  entry : c = .popSection → ∀ m, (scopes h t).head? = some (some m) →
    m.generation = s.gProfilerGeneration → ¬s.Full m.slot → m.entry < 2 ^ 31

variable {s s' s₁ : Profiler Thread} {t : Thread} {now : Instant} {c : Call} {m : Option Mark}
  {i : Nat} {h : List (Event Thread)} {T : Finset Thread}
  {szSection szFile : Option String} {color : UInt32} {line : Int}

theorem Nested.of_not_isSection (ht : t ∈ T) (hc : c.isSection = false) (hfinish : c ≠ .finish)
    (hframe : c ≠ .newFrame) (hthreads : c.starts = true → T.card < (c.settings s).MaxThreads) :
    Nested T h s t c := by
  have hopens : c.opens ≠ true := by
    cases c <;> first | exact Bool.false_ne_true | cases hc
  have hpop : c ≠ .popSection := by
    rintro rfl
    cases hc
  exact ⟨⟨ht, hfinish, hthreads, fun h => absurd h hopens, fun h => absurd h hframe⟩,
    fun h => absurd h hopens, fun h => absurd h hpop⟩

/-! ### Slots for all threads -/

/-- While the profiler records, the threads that have slots are among `T`, for which there are
enough. -/
def Enrolled (T : Finset Thread) (s : Profiler Thread) : Prop :=
  s.gPaused = false → T.card < s.settings.MaxThreads ∧ ∃ R ⊆ T, Assigned R s

theorem Enrolled.performed (H : Enrolled T s) (hheld : s.SlotsHeld)
    (hperm : Permitted T h s t c) (hcall : perform t now c s = .ok (m, s')) : Enrolled T s' := by
  intro hp
  cases hc : c.usesSlot with
  | true =>
    obtain ⟨hp', rfl⟩ | ⟨hp', i, s₁, ha, honly⟩ := perform_slot hc hcall
    · simp [hp'] at hp
    · obtain ⟨hT, R, hR, hassigned⟩ := H hp'
      have hsettings : s'.settings = s.settings := honly.settings.trans ha.settings
      refine ⟨by rw [hsettings]; exact hT, insert t R, ?_, (hassigned.acquire ha).onlySlot honly⟩
      exact Finset.insert_subset hperm.thread hR
  | false =>
    obtain ⟨hstarts, hpos, request, rfl⟩ | ⟨hpaused, honly⟩ :=
      perform_other hc hperm.not_finish hcall
    · exact ⟨hperm.threads hstarts, ∅, Finset.empty_subset T, .restarted hheld hpos⟩
    · have hp' : s.gPaused = false := by
        by_contra hp'
        simp [hpaused (by simpa using hp')] at hp
      obtain ⟨hT, R, hR, hassigned⟩ := H hp'
      exact ⟨by rw [(honly 0).settings]; exact hT, R, hR, hassigned.onlySlot (honly 0)⟩

theorem Enrolled.exists_acquire (H : Enrolled T s) (hp : s.gPaused = false) (ht : t ∈ T)
    (hfit : s.Unregistered t → ∀ i, s.Free i → i < 2 ^ 31) : ∃ i s₁, Acquire s t i s₁ := by
  obtain ⟨hT, R, hR, hassigned⟩ := H hp
  by_cases hmem : t ∈ R
  · obtain ⟨j, hj, ho⟩ := hassigned.owned t hmem
    exact ⟨j, s, .owned ho hj⟩
  · have hcard := Finset.card_le_card (Finset.insert_subset ht hR)
    rw [Finset.card_insert_of_notMem hmem] at hcard
    have hfree := hassigned.free_iff.2 ⟨rfl, Nat.lt_of_le_of_lt hcard hT⟩
    have hreg := hassigned.unregistered hmem
    exact ⟨_, _, .fresh hreg hfree (hfit hreg _ hfree)⟩

omit [DecidableEq Thread] in
/-- A slot that a thread owns is there. -/
theorem Enrolled.lt_size (H : Enrolled T s) (hp : s.gPaused = false) (ho : s.Owns t i) :
    i < s.gThreadData.size := by
  obtain ⟨-, R, -, hassigned⟩ := H hp
  obtain ⟨j, hj, ho'⟩ := hassigned.owned t (hassigned.mem_of_owns ho)
  exact ho.unique ho' ▸ hj

/-- What holds in every run of permitted calls. -/
structure Sound (T : Finset Thread) (h : List (Event Thread)) (s : Profiler Thread) : Prop where
  held : s.SlotsHeld
  recording : s.Recording
  matched : Matched h s
  enrolled : Enrolled T s

theorem Permitted.not_allowed_finish : ¬Permitted T h s t .finish := fun hperm =>
  hperm.not_finish rfl

theorem Run.sound (hrun : Run (Permitted T) h s) : Sound T h s := by
  have hfinish : ∀ h s t, ¬Permitted T h s t .finish := fun _ _ _ => Permitted.not_allowed_finish
  refine ⟨hrun.slotsHeld, hrun.recording hfinish, (hrun.attributed hfinish).1, ?_⟩
  induction hrun with
  | new =>
    intro hp
    simp [Profiler.new] at hp
  | call hrun hperm hcall ih => exact ih.performed hrun.slotsHeld hperm hcall

/-- Fewer calls allowed, fewer runs. -/
theorem Run.mono {allowed allowed' : List (Event Thread) → Profiler Thread → Thread → Call → Prop}
    (himp : ∀ {h s t c}, allowed h s t c → allowed' h s t c) (hrun : Run allowed h s) :
    Run allowed' h s := by
  induction hrun with
  | new => exact .new
  | call _ hallowed hcall ih => exact ih.call (himp hallowed) hcall

/-! ### Sections -/

omit [DecidableEq Thread] in
/-- There is always room for a section that is nested less than 50 deep. -/
theorem Recording.room (H : s.Recording) (hr : s.Ready t i)
    (hdepth : (s.slot i).callStackDepth < 50) : s.Room i := by
  have Hi := H.slots i hr.lt_size
  have hnot := hr.not_full
  simp only [Full, not_or, Nat.not_le] at hnot
  refine ⟨by rw [Hi.entries_size]; exact hnot.1, by rw [Hi.entryStack_size]; exact hdepth, ?_⟩
  intro hempty hpos
  have hlast : s.gCurrentFrame - 1 < s.gCurrentFrame := by omega
  have hsize := Nat.lt_of_lt_of_le hlast H.currentFrame_le
  have hlists := H.listed _ hlast
  refine ⟨hsize, ?_⟩
  rw [H.frameThreads_size _ hsize]
  exact hlists.count_lt hr.lt_size fun info hinfo => hlists.ne_of_empty hempty hinfo

omit [DecidableEq Thread] in
theorem Room.pushEntry_avoids (H : s.Room i) :
    Avoids outOfRange (s.pushEntry now szSection color szFile line i) := by
  have hassert : ∀ {p : Prop} [Decidable p] {expr}, Avoids outOfRange (assert p expr) :=
    avoids_assert fun _ => by simp [outOfRange]
  rw [pushEntry, index_ofNat H.entries, ok_bind, index_ofNat H.entryStack, ok_bind]
  refine (ThreadData.checkParent_avoids (by simp [outOfRange])).bind fun _ _ => ?_
  refine hassert.bind fun _ _ => hassert.bind fun _ _ => avoids_bind_ok.2 ?_
  rw [listFirstEntry_iff.2 ⟨?_, rfl⟩]
  · exact avoids_ok
  · intro hone
    simp only [slot, Vec.get_modify_self, ThreadData.push, Nat.add_eq_right] at hone
    exact H.frame hone

/-- The stack of a slot is not deeper than the scopes of its thread. -/
theorem Matched.depth_le (H : Matched h s) (hr : s.Ready t i) :
    (s.slot i).callStackDepth ≤ (scopes h t).length := by
  obtain ⟨old, hscopes, -⟩ := H.scopes_eq hr.unpaused t
  rw [hscopes, openMarks_of_owns hr.owns]
  simp [ThreadData.tree, length_openEntries]

/-- The entry of the innermost scope is on top of the stack, if it is of this generation. -/
theorem Matched.head?_stack {m : Mark} (H : Matched h s) (hp : s.gPaused = false)
    (hm : (scopes h t).head? = some (some m)) (hgen : m.generation = s.gProfilerGeneration) :
    s.Owns t m.slot ∧ (s.slot m.slot).tree.stack.head? = some m.entry := by
  obtain ⟨old, hscopes, hold⟩ := H.scopes_eq hp t
  by_cases ho : ∃ i, s.Owns t i
  · obtain ⟨i, ho⟩ := ho
    rw [openMarks_of_owns ho] at hscopes
    cases hstack : (s.slot i).tree.stack with
    | nil =>
      have hmem : some m ∈ old := List.mem_of_mem_head? (by simpa [hscopes, hstack] using hm)
      exact absurd hgen (Nat.ne_of_lt (hold m hmem))
    | cons e es =>
      simp only [hscopes, hstack, List.map_cons, List.cons_append, List.head?_cons,
        Option.some.injEq] at hm
      subst hm
      exact ⟨ho, by rw [hstack]; rfl⟩
  · rw [openMarks_of_not_owns (not_exists.1 ho)] at hscopes
    have hmem : some m ∈ old := List.mem_of_mem_head? (by simpa [hscopes] using hm)
    exact absurd hgen (Nat.ne_of_lt (hold m hmem))

omit [DecidableEq Thread] in
theorem Recording.canPop (H : s.Recording) (hr : s.Ready t i) (hstarted : s.gRestarting = false)
    (hpos : 0 < (s.slot i).callStackDepth)
    (htop : (s.slot i).entryStack.get ((s.slot i).callStackDepth - 1) < 2 ^ 31) :
    s.CanPop i ((s.slot i).entryStack.get ((s.slot i).callStackDepth - 1)) := by
  have Hi := H.slots i hr.lt_size
  have hlt := Hi.top_lt hpos
  refine ⟨hstarted, hpos, ?_, toInt32_of_lt htop, ?_, Hi.szSection_ne hlt⟩
  · have := Hi.callStackDepth_le
    rw [Hi.entryStack_size]
    omega
  · rw [Hi.entries_size]
    exact Nat.lt_of_lt_of_le hlt Hi.currentEntry_le

/-- `PopSection` uses a negative index. -/
theorem PopSection_negative (H : s.Recording) (hr : s.Ready t i) (hstarted : s.gRestarting = false)
    (hpos : 0 < (s.slot i).callStackDepth)
    (htop : 2 ^ 31 ≤ (s.slot i).entryStack.get ((s.slot i).callStackDepth - 1)) :
    s.PopSection t now = .error (.outOfRange "entries") := by
  have Hi := H.slots i hr.lt_size
  have hlt := Hi.top_lt hpos
  have hle := Hi.currentEntry_le
  have hfits := s.settings.fits.2.2.1
  have hdepth := Hi.callStackDepth_le
  have hlast : ((s.slot i).callStackDepth : Int) - 1 = ((s.slot i).callStackDepth - 1 : Nat) := by
    omega
  have hstack : (s.slot i).callStackDepth - 1 < (s.slot i).entryStack.size := by
    rw [Hi.entryStack_size]
    omega
  rw [PopSection, whenRecording_ready (.owned hr.owns hr.lt_size) hr,
    if_neg (by simp [hstarted, hr.unpaused]), if_neg (Nat.not_le.2 hpos)]
  simp only [popEntry, hlast, index_ofNat hstack, ok_bind, toInt32_of_le htop]
  rw [index_error (by omega), error_bind]

/-! ### Calls that return -/

/-- It is enough to look at the case that `CheckEndState` lets through. -/
theorem whenRecording_returns
    {body : Nat → Profiler Thread → Outcome (Option Mark × Profiler Thread)}
    (hslot : s.gPaused = false → ∃ i s₁, Acquire s t i s₁)
    (hready : ∀ {i s₁}, Acquire s t i s₁ → s₁.Ready t i → ∃ r, s.whenRecording t body = .ok r) :
    ∃ r, s.whenRecording t body = .ok r := by
  cases hp : s.gPaused with
  | true => exact ⟨_, whenRecording_iff.2 (.paused hp)⟩
  | false =>
    obtain ⟨i, s₁, ha⟩ := hslot hp
    by_cases hf : s₁.Full i
    · exact ⟨_, whenRecording_full hp ha hf⟩
    · exact hready ha ⟨ha.paused.trans hp, ha.owns, ha.lt_size, hf⟩

theorem changeThread_returns {f : ThreadData → ThreadData}
    (hslot : s.gPaused = false → ∃ i s₁, Acquire s t i s₁) : ∃ s', s.changeThread t f = .ok s' := by
  cases hp : s.gPaused with
  | true => exact ⟨_, changeThread_iff.2 (.inl ⟨hp, rfl⟩)⟩
  | false =>
    obtain ⟨i, s₁, ha⟩ := hslot hp
    exact ⟨_, changeThread_iff.2 (.inr ⟨hp, i, s₁, ha, rfl⟩)⟩

omit [DecidableEq Thread] in
theorem NewFrame_returns (H : s.Recording)
    (hindex : s.gPaused = false → ∃ i : Nat, s.gThreadIndexTLS t = i ∧ i < s.gThreadData.size) :
    ∃ s', s.NewFrame t now = .ok s' := by
  cases hp : s.gPaused with
  | true => exact ⟨s, by simp [NewFrame, hp]⟩
  | false =>
    obtain ⟨i, hidx, hi⟩ := hindex hp
    rw [NewFrame_eq hp hidx hi]
    split
    · exact ⟨_, rfl⟩
    · next hfull =>
      simp only [Full, not_or, Nat.not_le] at hfull
      have hsized := H.sized hp
      have hlt : s.gCurrentFrame < s.gFrameData.size := by
        rw [hsized.frames]
        exact hfull.2.1
      have hroom : (s.frame s.gCurrentFrame).frameThreadCount + s.settings.MaxThreads ≤
          (s.frame s.gCurrentFrame).frameThreads.size := by
        rw [H.unused _ (Nat.le_refl _) hlt, H.frameThreads_size _ hlt, hsized.threads, Nat.zero_add]
      obtain ⟨frame, hlist⟩ := listThreads_ok (by rw [hsized.threads, Nat.zero_add]) hroom
      exact ⟨_, beginFrame_iff.2 ⟨hlt, frame, hlist, rfl⟩⟩

theorem updatePause_returns {pressed : Bool} (hpos : 0 < s.settings.MaxThreads) :
    ∃ s', s.updatePause t now pressed = .ok s' := by
  have happly : ∀ pause, ∃ s', s.applyPause t now pause = .ok s' := by
    intro pause
    cases pause with
    | true => exact ⟨_, rfl⟩
    | false =>
      have hreset : s.Reset t now = .ok (s.started t now) := Reset_iff.2 ⟨hpos, rfl⟩
      refine ⟨s.restarted t now s.settings false, ?_⟩
      rw [applyPause, if_neg Bool.false_ne_true, hreset]
      rfl
  simp only [updatePause]
  split
  · exact happly _
  · exact ⟨s, rfl⟩

namespace Sound

/-- The thread has its slot. -/
theorem acquired (H : Sound T h s) (hp : s.gPaused = false) (ha : Acquire s t i s₁) :
    s₁.Recording ∧ Matched h s₁ := by
  have hquiet : Relation.ReflTransGen (Quiet t 0) s s₁ := ha.quiet hp
  obtain ⟨-, hrec, hsame⟩ := quiets_sameTrees H.held H.recording hquiet
  exact ⟨hrec, H.matched.sameTrees hsame⟩

/-- There is room for the section that a permitted call opens. -/
theorem room (H : Sound T h s) (hnesting : (scopes h t).length < 50) (ha : Acquire s t i s₁)
    (hr : s₁.Ready t i) : s₁.Room i := by
  obtain ⟨hrec, hmatched⟩ := H.acquired (ha.paused.symm.trans hr.unpaused) ha
  exact hrec.room hr (Nat.lt_of_le_of_lt (hmatched.depth_le hr) hnesting)

theorem push_avoids (H : Sound T h s) (hnesting : (scopes h t).length < 50)
    (hslot : s.gPaused = false → ∃ i s₁, Acquire s t i s₁) :
    Avoids outOfRange (s.PushSectionBase t now szSection color szFile line) := by
  have hget : s.gPaused = false → Avoids outOfRange (s.GetThreadData t) := fun hp => by
    obtain ⟨i, s₁, ha⟩ := hslot hp
    rw [GetThreadData_iff.2 ha]
    exact avoids_ok
  refine (whenRecording_avoids_iff hget).2 fun i s₁ ha hr => ?_
  refine (avoids_assert fun _ => by simp [outOfRange]).bind fun _ _ => ?_
  rw [if_neg (by simp [hr.unpaused])]
  exact (H.room hnesting ha hr).pushEntry_avoids

theorem push_returns (H : Sound T h s) (hnesting : (scopes h t).length < 50)
    (hdepth : (scopes h t).length < s.settings.MaxCallStack) (hsection : szSection ≠ none)
    (hfile : szFile ≠ none) (hslot : s.gPaused = false → ∃ i s₁, Acquire s t i s₁) :
    ∃ r, s.PushSectionBase t now szSection color szFile line = .ok r := by
  refine whenRecording_returns hslot fun {i s₁} ha hr => ?_
  obtain ⟨hrec, hmatched⟩ := H.acquired (ha.paused.symm.trans hr.unpaused) ha
  have hcall : (s₁.slot i).callStackDepth < s₁.settings.MaxCallStack := by
    rw [ha.settings]
    exact Nat.lt_of_le_of_lt (hmatched.depth_le hr) hdepth
  have hcan : s₁.CanPush i szSection szFile :=
    ⟨H.room hnesting ha hr, hcall, (hrec.slots i hr.lt_size).top_lt, hfile, hsection⟩
  exact ⟨_, (PushSectionBase_ready ha hr).2 ⟨hcan, rfl, rfl⟩⟩

theorem pop_returns (H : Sound T h s) (hslot : s.gPaused = false → ∃ i s₁, Acquire s t i s₁)
    (hentry : ∀ m, (scopes h t).head? = some (some m) → m.generation = s.gProfilerGeneration →
      ¬s.Full m.slot → m.entry < 2 ^ 31) : ∃ r, s.PopSection t now = .ok r := by
  refine whenRecording_returns hslot fun {i s₁} ha hr => ?_
  obtain ⟨hrec, hmatched⟩ := H.acquired (ha.paused.symm.trans hr.unpaused) ha
  by_cases hskip : s₁.gRestarting = true ∨ (s₁.slot i).callStackDepth = 0
  · exact ⟨_, (PopSection_ready ha hr).2 (.inl ⟨hskip, rfl, rfl⟩)⟩
  · obtain ⟨hstarted, hdepth⟩ := not_or.1 hskip
    have hpos := Nat.pos_of_ne_zero hdepth
    have htop : (s₁.slot i).entryStack.get ((s₁.slot i).callStackDepth - 1) < 2 ^ 31 := by
      -- the slot has an open section, so the thread had it before
      cases ha with
      | fresh _ hfree =>
        rw [slot_useSlot, if_pos rfl] at hdepth
        exact absurd ((H.recording.slots i hfree.lt_size).idle hfree.free).2 hdepth
      | owned ho =>
        obtain ⟨old, hscopes, -⟩ := hmatched.scopes_eq hr.unpaused t
        refine hentry ⟨s.gProfilerGeneration, i, _⟩ ?_ rfl hr.not_full
        rw [hscopes, openMarks_of_owns ho, List.head?_append, List.head?_map, List.head?_map,
          ThreadData.tree, head?_openEntries, if_pos hpos]
        rfl
    have hcan := hrec.canPop hr (by simpa using hstarted) hpos htop
    exact ⟨_, (PopSection_ready ha hr).2 (.inr ⟨_, hcan, rfl, rfl⟩)⟩

/-- There is a slot for the thread, if its index is an `int`. -/
theorem slot (H : Sound T h s) (hperm : Permitted T h s t c) (hc : c.usesSlot)
    (hfit : s.gPaused = true ∨ IntsFit h s t c) (hp : s.gPaused = false) :
    ∃ i s₁, Acquire s t i s₁ := by
  rcases hfit with hpaused | hfit
  · simp [hp] at hpaused
  · exact H.enrolled.exists_acquire hp hperm.thread (hfit.slot hc)

theorem region_lt (H : Sound T h s) (ha : Acquire s t i s₁) (hr : s₁.Ready t i) :
    s₁.gCurrentRegion < s₁.gRegionData.size := by
  obtain ⟨hrec, -⟩ := H.acquired (ha.paused.symm.trans hr.unpaused) ha
  rw [(hrec.sized hr.unpaused).regions]
  exact hr.region_lt

/-- Every permitted call but `PushSectionBase` returns, if its conversions keep the values. -/
theorem perform_returns (H : Sound T h s) (hperm : Permitted T h s t c) (hc : c.opens = false)
    (hfit : s.gPaused = true ∨ IntsFit h s t c) : ∃ r, perform t now c s = .ok r := by
  have hpos : c.starts = true → 0 < (c.settings s).MaxThreads :=
    fun hstarts => Nat.lt_of_le_of_lt (Nat.zero_le _) (hperm.threads hstarts)
  cases c with
  | setProfileSettings => exact exists_bind_ok ⟨_, SetProfileSettings_iff.2 ⟨hpos rfl, rfl⟩⟩
  | init => exact exists_bind_ok ⟨_, Init_iff.2 ⟨hpos rfl, rfl⟩⟩
  | newFrame => exact exists_bind_ok (NewFrame_returns H.recording (hperm.index rfl))
  | nameThread | hideThread => exact exists_bind_ok (changeThread_returns (H.slot hperm rfl hfit))
  | setPaused | setRegionLimit => exact ⟨_, rfl⟩
  | beginRegion | endRegion =>
    simp only [perform, BeginRegion, EndRegion]
    refine whenRecording_returns (H.slot hperm rfl hfit) fun ha hr => ?_
    rw [whenRecording_ready ha hr, index_ofNat (H.region_lt ha hr)]
    exact ⟨_, rfl⟩
  | pushSection => cases hc
  | popSection =>
    rcases hfit with hp | hfit
    · exact ⟨_, perform_paused (.inl rfl) hp⟩
    · exact H.pop_returns (H.slot hperm rfl (.inr hfit)) (hfit.entry rfl)
  | updatePause => exact exists_bind_ok (updatePause_returns (hpos rfl))
  | finish => exact absurd rfl hperm.not_finish

/-- A conversion that does not keep the value ends in an access outside of a buffer. -/
theorem perform_outOfRange (H : Sound T h s) (hp : s.gPaused = false)
    (hfit : ¬IntsFit h s t c) :
    ∃ container, perform t now c s = .error (.outOfRange container) := by
  by_cases hslot : c.usesSlot → s.Unregistered t → ∀ i, s.Free i → i < 2 ^ 31
  · have hentry := mt (IntsFit.mk hslot) hfit
    push Not at hentry
    obtain ⟨rfl, m, hm, hgen, hfull, hle⟩ := hentry
    obtain ⟨ho, htop⟩ := H.matched.head?_stack hp hm hgen
    have hr : s.Ready t m.slot := ⟨hp, ho, H.enrolled.lt_size hp ho, hfull⟩
    rw [ThreadData.tree, head?_openEntries] at htop
    split at htop
    · next hpos =>
      have hstarted : s.gRestarting = false := by
        by_contra hrestarting
        have := H.recording.restarting (by simpa using hrestarting) _ hr.lt_size
        omega
      refine ⟨"entries", PopSection_negative H.recording hr hstarted hpos ?_⟩
      rw [Option.some.inj htop]
      exact hle
    · cases htop
  · push Not at hslot
    obtain ⟨hc, hreg, i, hfree, hi⟩ := hslot
    exact ⟨"gThreadData", perform_error hc hp (GetThreadData_negative hreg hfree hi)⟩

theorem fits_of_avoids (H : Sound T h s) (havoids : Avoids outOfRange (perform t now c s)) :
    s.gPaused = true ∨ IntsFit h s t c := by
  cases hp : s.gPaused with
  | true => exact .inl rfl
  | false =>
    right
    by_contra hfit
    obtain ⟨container, herror⟩ := H.perform_outOfRange hp hfit
    exact havoids _ herror ⟨container, rfl⟩

/-- With at most `2 ^ 31` slots, and at most `2 ^ 31 + 1` entries for each, all conversions keep the
value. -/
theorem intsFit (H : Sound T h s) (hp : s.gPaused = false)
    (hthreads : s.settings.MaxThreads ≤ 2 ^ 31)
    (hentries : s.settings.MaxEntriesPerThread ≤ 2 ^ 31 + 1) : IntsFit h s t c where
  slot _ _ _ hfree := Nat.lt_of_lt_of_le hfree.lt_max hthreads
  entry _ m hm hgen hfull := by
    obtain ⟨ho, htop⟩ := H.matched.head?_stack hp hm hgen
    have hlt : m.entry < (s.slot m.slot).currentEntry :=
      (H.recording.slots _ (H.enrolled.lt_size hp ho)).tree.stack_lt (List.mem_of_mem_head? htop)
    simp only [Full, not_or, Nat.not_le] at hfull
    omega

/-- A permitted call whose conversions keep the value reaches no buffer outside of its range. -/
theorem avoids_of_fits (H : Sound T h s) (hperm : Permitted T h s t c)
    (hfit : s.gPaused = true ∨ IntsFit h s t c) : Avoids outOfRange (perform t now c s) := by
  cases hc : c.opens with
  | true =>
    cases c with
    | pushSection => exact H.push_avoids (hperm.nesting rfl) (H.slot hperm rfl hfit)
    | _ => cases hc
  | false =>
    obtain ⟨r, hr⟩ := H.perform_returns hperm hc hfit
    rw [hr]
    exact avoids_ok

end Sound

/-- The settings `⟨2, MaxCallStack, MaxEntriesPerThread, 1, 1⟩` leave one slot for a thread, which
it gets with its name. -/
theorem exists_named (settings : ProfileSettings)
    (hsettings : ∃ callStack entries fits, settings = ⟨2, callStack, entries, 1, 1, fits⟩) :
    ∃ (h : List (Event Unit)) (s : Profiler Unit), Run (Nested {()}) h s ∧
      s.settings = settings ∧ s.gPaused = false ∧ s.Owns () 1 ∧ (s.slot 1).currentEntry = 0 ∧
      (s.slot 1).callStackDepth = 0 ∧ s.gCurrentFrame = 0 ∧ s.gCurrentRegion = 0 ∧
      scopes h () = [] := by
  obtain ⟨callStack, entries, fits, rfl⟩ := hsettings
  obtain ⟨h, s, hcalls, hstate⟩ :
      ∃ (h : List (Event Unit)) (s : Profiler Unit),
        performAll [] .new [((), 0, .setProfileSettings ⟨2, callStack, entries, 1, 1, fits⟩),
          ((), 0, .nameThread "main")] = .ok (h, s) ∧
        s.settings = ⟨2, callStack, entries, 1, 1, fits⟩ ∧ s.gPaused = false ∧ s.Owns () 1 ∧
        (s.slot 1).currentEntry = 0 ∧ (s.slot 1).callStackDepth = 0 ∧ s.gCurrentFrame = 0 ∧
        s.gCurrentRegion = 0 ∧ scopes h () = [] :=
    ⟨_, _, rfl, rfl, rfl, ⟨rfl, rfl⟩, rfl, rfl, rfl, rfl, rfl⟩
  refine ⟨h, s, Run.of_performAll .new ?_ hcalls, hstate⟩
  simp only [List.mem_cons, List.not_mem_nil, or_false]
  rintro _ (rfl | rfl) h s
  · exact .of_not_isSection (by simp) rfl (by simp) (by simp) fun _ => by simp [Call.settings]
  · exact .of_not_isSection (by simp) rfl (by simp) (by simp) (by simp [Call.starts])

/-! ### A run with many sections -/

/-- Room for more entries than an `int` can count. -/
def wide : ProfileSettings := ⟨2, 1, 2 ^ 31 + 2, 1, 1, by decide⟩

/-- One thread has made `k` sections, one after the other. -/
structure Paired (k : Nat) (h : List (Event Unit)) (s : Profiler Unit) : Prop where
  run : Run (Nested {()}) h s
  settings : s.settings = wide
  unpaused : s.gPaused = false
  owns : s.Owns () 1
  currentEntry : (s.slot 1).currentEntry = k
  callStackDepth : (s.slot 1).callStackDepth = 0
  currentFrame : s.gCurrentFrame = 0
  currentRegion : s.gCurrentRegion = 0
  closed : scopes h () = []

namespace Paired
variable {k : Nat} {h : List (Event Unit)} {s : Profiler Unit}

theorem zero : ∃ h s, Paired 0 h s := by
  obtain ⟨h, s, hrun, hsettings, hp, ho, hcur, hdepth, hframe, hregion, hclosed⟩ :=
    exists_named wide ⟨_, _, _, rfl⟩
  exact ⟨h, s, hrun, hsettings, hp, ho, hcur, hdepth, hframe, hregion, hclosed⟩

theorem ready (H : Paired k h s) (hk : k < 2 ^ 31 + 2) : s.Ready () 1 := by
  have hsound := (H.run.mono Nested.toPermitted).sound
  refine ⟨H.unpaused, H.owns, hsound.enrolled.lt_size H.unpaused H.owns, ?_⟩
  simp only [Full, H.settings, H.currentEntry, H.currentFrame, H.currentRegion, wide]
  omega

/-- The thread can begin a section. -/
theorem push (H : Paired k h s) (hk : k < 2 ^ 31 + 2) :
    ∃ s₁, Nested {()} h s () (.pushSection (some "loop") 0 (some "main.cpp") 1) ∧
      perform () 0 (.pushSection (some "loop") 0 (some "main.cpp") 1) s =
        .ok (some ⟨s.gProfilerGeneration, 1, k⟩, s₁) ∧
      s₁ = s.pushed 0 1 (some "loop") 0 (some "main.cpp") 1 := by
  have hr := H.ready hk
  have hrec := (H.run.mono Nested.toPermitted).sound.recording
  have hroom := hrec.room hr (by rw [H.callStackDepth]; decide)
  have hcan : s.CanPush 1 (some "loop") (some "main.cpp") := by
    refine ⟨hroom, ?_, (hrec.slots 1 hr.lt_size).top_lt, by simp, by simp⟩
    rw [H.callStackDepth, H.settings]
    decide
  refine ⟨_, ?_, (PushSectionBase_ready (.owned hr.owns hr.lt_size) hr).2 ⟨hcan, ?_, rfl⟩, rfl⟩
  · refine ⟨⟨by simp, by simp, by simp [Call.starts], ?_, by simp⟩, ?_, by simp⟩
    · simp [H.closed]
    · simp [H.closed, H.settings, wide]
  · rw [H.currentEntry]

/-- After the thread has begun another section. -/
structure Inside (k : Nat) (h : List (Event Unit)) (s : Profiler Unit) : Prop where
  run : Run (Nested {()}) h s
  settings : s.settings = wide
  ready : s.Ready () 1
  started : s.gRestarting = false
  currentEntry : (s.slot 1).currentEntry = k + 1
  callStackDepth : (s.slot 1).callStackDepth = 1
  top : (s.slot 1).entryStack.get 0 = k
  currentFrame : s.gCurrentFrame = 0
  currentRegion : s.gCurrentRegion = 0
  scopes_eq : scopes h () = [some ⟨s.gProfilerGeneration, 1, k⟩]

theorem inside (H : Paired k h s) (hk : k ≤ 2 ^ 31) : ∃ h s, Inside k h s := by
  obtain ⟨s₁, hnested, hcall, hs₁⟩ := H.push (by omega)
  have hslot : s₁.slot 1 =
      (s.slot 1).push (some "loop") 0 (some "main.cpp") 1 (s.elapsed 0) := by
    rw [hs₁, slot_pushed, if_pos rfl]
  have hcur : (s₁.slot 1).currentEntry = k + 1 := by
    rw [hslot, ThreadData.push, H.currentEntry]
  have hsettings : s₁.settings = wide := by rw [hs₁]; exact H.settings
  have hframe : s₁.gCurrentFrame = 0 := by rw [hs₁]; exact H.currentFrame
  have hregion : s₁.gCurrentRegion = 0 := by rw [hs₁]; exact H.currentRegion
  refine ⟨_, s₁, H.run.call hnested hcall, hsettings, ⟨?_, ?_, ?_, ?_⟩, ?_, hcur, ?_, ?_, hframe,
    hregion, ?_⟩
  · rw [hs₁]; exact H.unpaused
  · rw [hs₁]; exact H.owns
  · rw [hs₁]; exact (H.ready (by omega)).lt_size
  · simp only [Full, hsettings, hcur, hframe, hregion, wide]
    omega
  · rw [hs₁]; rfl
  · rw [hslot, ThreadData.push, H.callStackDepth]
  · rw [hslot, ThreadData.push, H.callStackDepth, H.currentEntry, Vec.get_set_self]
  · rw [scopes_push, if_pos rfl, H.closed, hs₁]
    rfl

theorem Inside.nested (H : Inside k h s) : Nested {()} h s () .popSection :=
  ⟨⟨by simp, by simp, by simp [Call.starts], by simp [Call.opens], by simp⟩, by simp [Call.opens],
    by simp [H.scopes_eq]⟩

/-- The section ends, if its entry is an `int`. -/
theorem Inside.pop (H : Inside k h s) (hk : k < 2 ^ 31) : ∃ h s, Paired (k + 1) h s := by
  have hrec := (H.run.mono Nested.toPermitted).sound.recording
  have hcan := hrec.canPop H.ready H.started (by rw [H.callStackDepth]; decide)
    (by rw [H.callStackDepth, H.top]; exact hk)
  have hcall : perform () 0 .popSection s = _ :=
    (PopSection_ready (.owned H.ready.owns H.ready.lt_size) H.ready).2 (.inr ⟨_, hcan, rfl, rfl⟩)
  refine ⟨_, _, H.run.call H.nested hcall, H.settings, H.ready.unpaused, H.ready.owns, ?_, ?_,
    H.currentFrame, H.currentRegion, ?_⟩
  · rw [slot_popped, if_pos rfl, ThreadData.pop, H.currentEntry]
  · rw [slot_popped, if_pos rfl, ThreadData.pop, H.callStackDepth]
  · rw [scopes_pop, if_pos rfl, H.scopes_eq, List.tail_cons]

theorem exists_paired (hk : k ≤ 2 ^ 31) : ∃ h s, Paired k h s := by
  induction k with
  | zero => exact zero
  | succ k ih =>
    obtain ⟨h, s, H⟩ := ih (by omega)
    obtain ⟨h, s, H⟩ := H.inside (by omega)
    exact H.pop (by omega)

/-- The section with the entry `2 ^ 31` cannot be ended. -/
theorem exists_pop_outOfRange : ∃ h s, Run (Nested {()}) h s ∧ Nested {()} h s () .popSection ∧
    scopes h () = [some ⟨s.gProfilerGeneration, 1, 2 ^ 31⟩] ∧
    perform () 0 .popSection s = .error (.outOfRange "entries") := by
  obtain ⟨h, s, H⟩ := exists_paired (Nat.le_refl (2 ^ 31))
  obtain ⟨h, s, H⟩ := H.inside (Nat.le_refl _)
  have hrec := (H.run.mono Nested.toPermitted).sound.recording
  refine ⟨h, s, H.run, H.nested, H.scopes_eq, ?_⟩
  refine PopSection_negative hrec H.ready H.started (by rw [H.callStackDepth]; decide) ?_
  rw [H.callStackDepth, H.top]

end Paired

/-- In every run of permitted calls the counters stay within the settings, and a frame lists every
slot at most once, with an entry that the slot has. The next call reaches outside of a buffer
exactly if the profiler records and a conversion to `int` does not keep the value, which no
settings with less than about `2 ^ 31` slots and entries allow. -/
theorem Run.in_range (hrun : Run (Permitted T) h s) :
    (∀ j < s.gThreadData.size, (s.slot j).currentEntry ≤ s.settings.MaxEntriesPerThread) ∧
    s.gCurrentFrame ≤ s.settings.MaxFrames ∧ s.gCurrentRegion ≤ s.settings.MaxRegions ∧
    (∀ f < s.gCurrentFrame, (s.frame f).frameThreadCount ≤ s.settings.MaxThreads ∧
      ((s.frame f).listing.map (·.threadIndex)).Nodup ∧
      ∀ info ∈ (s.frame f).listing, info.threadIndex < s.gThreadData.size ∧
        info.activeEntry < (s.slot info.threadIndex).currentEntry) ∧
    (∀ t now c, Permitted T h s t c →
      (Avoids outOfRange (perform t now c s) ↔ s.gPaused = true ∨ IntsFit h s t c)) ∧
    (s.settings.MaxThreads ≤ 2 ^ 31 → s.settings.MaxEntriesPerThread ≤ 2 ^ 31 + 1 →
      ∀ t now c, Permitted T h s t c → Avoids outOfRange (perform t now c s)) := by
  have H := hrun.sound
  have hnext (t : Thread) (now : Instant) (c : Call) (hperm : Permitted T h s t c) :
      Avoids outOfRange (perform t now c s) ↔ s.gPaused = true ∨ IntsFit h s t c :=
    ⟨H.fits_of_avoids, H.avoids_of_fits hperm⟩
  refine ⟨fun j hj => (H.recording.slots j hj).currentEntry_le,
    Nat.le_trans H.recording.currentFrame_le H.recording.frames_le,
    Nat.le_trans H.recording.currentRegion_le H.recording.regions_le, fun f hf => ?_, hnext,
    fun hthreads hentries t now c hperm => (hnext t now c hperm).2 ?_⟩
  · have hlists := H.recording.listed f hf
    exact ⟨Nat.le_trans hlists.count_le H.recording.threads_le, hlists.nodup,
      fun info hinfo => ⟨hlists.lt_size info hinfo, hlists.active_lt info hinfo⟩⟩
  · cases hp : s.gPaused with
    | true => exact .inl rfl
    | false => exact .inr (H.intsFit hp hthreads hentries)

/-- Seven sections have been recorded and the eighth is open, when it ends. -/
theorem Run.in_range_eighth : ∃ (h : List (Event Unit)) (s : Profiler Unit),
    Run (Permitted {()}) h s ∧ (s.slot 1).currentEntry = 8 ∧
      Avoids outOfRange (perform () 0 .popSection s) := by
  obtain ⟨h, s, H⟩ := Paired.exists_paired (by decide : 7 ≤ 2 ^ 31)
  obtain ⟨h, s, H⟩ := H.inside (by decide)
  have hrun := H.run.mono Nested.toPermitted
  obtain ⟨-, -, -, -, hnext, -⟩ := Run.in_range hrun
  refine ⟨h, s, hrun, H.currentEntry, (hnext () 0 .popSection H.nested.toPermitted).2 ?_⟩
  refine .inr ⟨fun _ hfree => absurd H.ready.owns hfree.not_owns, fun _ m hm _ _ => ?_⟩
  rw [H.scopes_eq] at hm
  cases hm
  exact (by decide : 7 < 2 ^ 31)

/-- After `2 ^ 31` sections, the entry of the next one has an index that is negative as an `int`. -/
theorem Run.outside_range : ∃ (h : List (Event Unit)) (s : Profiler Unit),
    Run (Permitted {()}) h s ∧ Permitted {()} h s () .popSection ∧
      perform () 0 .popSection s = .error (.outOfRange "entries") := by
  obtain ⟨h, s, hrun, hnested, -, herror⟩ := Paired.exists_pop_outOfRange
  exact ⟨h, s, hrun.mono Nested.toPermitted, hnested.toPermitted, herror⟩

end MUtils.Profiler
