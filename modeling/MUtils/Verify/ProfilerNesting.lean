import MUtils.Verify.ProfilerProgress
import MUtils.Verify.ProfilerTimes

/-!
# Scopes and the recording

The results about scopes, the entries that they wrote and their times, for threads whose sections
are scopes (`Nested`): `Run.sections_match`.
-/

namespace MUtils.Profiler
open Outcome

variable {Thread : Type} [DecidableEq Thread] {s s' s₁ : Profiler Thread} {t : Thread}
  {now : Instant} {c : Call} {m : Option Mark} {i j e : Nat} {h h₁ : List (Event Thread)}
  {T : Finset Thread}

/-! ### The entries that a section call writes -/

/-- The entry `m` is given its end, and no other entry changes. -/
def EndsOnly (s : Profiler Thread) (now : Instant) (m : Option Mark) (s' : Profiler Thread) :
    Prop :=
  ∀ j e, (s'.slot j).entries.get e =
    if m = some ⟨s.gProfilerGeneration, j, e⟩ then
      { (s.slot j).entries.get e with endTime := s.elapsed now }
    else (s.slot j).entries.get e

/-- The entry `m` is written for the section, and no other entry changes. -/
def BeginsOnly (s : Profiler Thread) (now : Instant) (szSection : Option String) (color : UInt32)
    (szFile : Option String) (line : Int) (m : Option Mark) (s' : Profiler Thread) : Prop :=
  ∀ j e, if m = some ⟨s.gProfilerGeneration, j, e⟩ then
      ∃ level parent, (s'.slot j).entries.get e =
        { szSection, szFile, line, color, level, parent
          startTime := s.elapsed now, endTime := maxTime64 }
    else (s'.slot j).entries.get e = (s.slot j).entries.get e

theorem Acquire.entries (ha : Acquire s t i s₁) : (s₁.slot j).entries = (s.slot j).entries := by
  cases ha with
  | owned => rfl
  | fresh =>
    rw [slot_useSlot]
    split
    · next hj => rw [hj]
    · rfl

theorem Acquire.elapsed (ha : Acquire s t i s₁) : s₁.elapsed now = s.elapsed now := by
  cases ha <;> rfl

theorem PopSection_endsOnly (h : s.PopSection t now = .ok (m, s')) : EndsOnly s now m s' := by
  intro j e
  have hrec := h
  rw [PopSection, whenRecording_iff] at hrec
  cases hrec with
  | paused => rw [if_neg (by simp)]
  | full _ ha =>
    rw [if_neg (by simp), ← ha.entries]
    rfl
  | @ready i s₁ _ _ ha hr =>
    rw [← ha.entries, ← ha.elapsed, ← ha.generation]
    obtain ⟨-, rfl, rfl⟩ | ⟨e', -, rfl, rfl⟩ := (PopSection_ready ha hr).1 h
    · rw [if_neg (by simp)]
    · rw [slot_popped]
      by_cases hj : j = i
      · subst hj
        rw [if_pos rfl, ThreadData.pop, Vec.get_modify]
        by_cases he : e = e'
        · simp [he]
        · simp [he, Ne.symm he]
      · simp [hj, Ne.symm hj]

theorem PushSectionBase_beginsOnly {szSection szFile : Option String} {color : UInt32} {line : Int}
    (h : s.PushSectionBase t now szSection color szFile line = .ok (m, s')) :
    BeginsOnly s now szSection color szFile line m s' := by
  intro j e
  have hrec := h
  rw [PushSectionBase, whenRecording_iff] at hrec
  cases hrec with
  | paused => rw [if_neg (by simp)]
  | full _ ha =>
    rw [if_neg (by simp), ← ha.entries]
    rfl
  | @ready i s₁ _ _ ha hr =>
    rw [← ha.entries, ← ha.elapsed, ← ha.generation]
    obtain ⟨-, rfl, rfl⟩ := (PushSectionBase_ready ha hr).1 h
    rw [slot_pushed]
    by_cases hj : j = i
    · subst hj
      rw [if_pos rfl, ThreadData.push, Vec.get_set]
      by_cases he : e = (s₁.slot j).currentEntry
      · simp [he]
      · simp [he, Ne.symm he]
    · simp [hj, Ne.symm hj]

/-- The entry that `PopSection` ends is that of the innermost scope. -/
theorem Sound.head?_scopes {mark : Mark} (H : Sound T h s)
    (hcall : perform t now .popSection s = .ok (some mark, s')) :
    (scopes h t).head? = some (some mark) := by
  cases perform_cases (by simp) hcall with
  | pop hquiet hr hcan =>
    obtain ⟨-, hrec, hsame⟩ := quiets_sameTrees H.held H.recording hquiet
    exact (H.matched.sameTrees hsame).scopes_eq_cons hrec hr hcan

/-! ### Runs of scopes -/

/-- The strings of a section are there. -/
def Call.named : Call → Bool
  | .pushSection szSection _ szFile _ => szSection.isSome && szFile.isSome
  | _ => true

theorem Sound.returns_iff (H : Sound T h s) (hnested : Nested T h s t c) (hnamed : c.named = true) :
    (∃ r, perform t now c s = .ok r) ↔ s.gPaused = true ∨ IntsFit h s t c := by
  constructor
  · rintro ⟨r, hr⟩
    apply H.fits_of_avoids
    rw [hr]
    exact avoids_ok
  · intro hfit
    cases hc : c.opens with
    | true =>
      cases c with
      | pushSection szSection color szFile line =>
        obtain ⟨hsection, hfile⟩ := Bool.and_eq_true_iff.1 hnamed
        exact H.push_returns (hnested.nesting rfl) (hnested.depth rfl).1
          (Option.isSome_iff_ne_none.1 hsection) (Option.isSome_iff_ne_none.1 hfile)
          (H.slot hnested.toPermitted rfl hfit)
      | _ => cases hc
    | false => exact H.perform_returns hnested.toPermitted hc hfit

theorem ProfilerEntry.parent_eq {entry : ProfilerEntry} :
    entry.parent = entry.node.parent.getD noParent := by
  unfold ProfilerEntry.node
  dsimp only
  split
  · next h => exact h
  · rfl

/-- The entry `e` of slot `i` is in the place of a scope within the scopes `enclosing`. -/
structure InPlace (s : Profiler Thread) (i e : Nat) (enclosing : List Mark) : Prop where
  parent : ((s.slot i).entries.get e).parent = (enclosing.head?.map (·.entry)).getD noParent
  parent_lt : enclosing ≠ [] → ((s.slot i).entries.get e).parent < e
  level : ((s.slot i).entries.get e).level = enclosing.length
  slot : ∀ m ∈ enclosing, m.slot = i

omit [DecidableEq Thread] in
theorem InPlace.of_placed {enclosing : List Mark} (hvalid : (s.slot i).tree.Valid)
    (H : Placed enclosing i (s.slot i).tree e) : InPlace s i e enclosing := by
  have hparent : ((s.slot i).entries.get e).parent =
      (enclosing.head?.map (·.entry)).getD noParent := by
    rw [← H.parent]
    exact ProfilerEntry.parent_eq
  refine ⟨hparent, fun hne => ?_, H.level, H.slot⟩
  obtain ⟨m, ms, rfl⟩ := List.exists_cons_of_ne_nil hne
  rw [hparent]
  exact hvalid.parent_lt H.lt_size H.parent

/-- The interval of the entry `e` of slot `i` lies in that of its parent. -/
structure InTime (s : Profiler Thread) (i e : Nat) : Prop where
  start_le_end : ((s.slot i).entries.get e).startTime ≤ ((s.slot i).entries.get e).endTime
  start_le : ((s.slot i).entries.get e).parent ≠ noParent →
    ((s.slot i).entries.get ((s.slot i).entries.get e).parent).startTime ≤
      ((s.slot i).entries.get e).startTime
  end_le : ((s.slot i).entries.get e).parent ≠ noParent →
    ((s.slot i).entries.get e).endTime ≤
      ((s.slot i).entries.get ((s.slot i).entries.get e).parent).endTime

omit [DecidableEq Thread] in
theorem InTime.of_timed {never T : Int} (hvalid : (s.slot i).tree.Valid)
    (H : (s.slot i).tree.Timed never T) (he : e < (s.slot i).currentEntry) : InTime s i e := by
  have hparent : ((s.slot i).entries.get e).parent ≠ noParent →
      ((s.slot i).tree.node e).parent = some ((s.slot i).entries.get e).parent :=
    fun hne => if_neg hne
  refine ⟨H.start_le_stop he, fun hne => ?_, fun hne => H.stop_le_parent he (hparent hne)⟩
  exact H.start_mono (Nat.le_of_lt (hvalid.parent_lt he (hparent hne))) he

/-- In every run of scopes: `PopSection` ends the entry of the scope that it closes, or none; every
entry was written for a scope, in whose place among the scopes of its thread that were recorded in
this generation it is; with a clock that does not run backwards, the intervals of the entries nest.
The next call returns exactly if the profiler is paused or its conversions to `int` keep the
values. -/
theorem Run.sections_match (hrun : Run (Nested T) h s) :
    (∀ t now m s', perform t now .popSection s = .ok (m, s') → EndsOnly s now m s' ∧
      ∀ mark, m = some mark → (scopes h t).head? = some (some mark)) ∧
    (∀ t now szSection color szFile line m s',
      perform t now (.pushSection szSection color szFile line) s = .ok (m, s') →
        BeginsOnly s now szSection color szFile line m s') ∧
    (∀ i < s.gThreadData.size, ∀ e < (s.slot i).currentEntry,
      ∃ t h₁, Opens h t ⟨s.gProfilerGeneration, i, e⟩ h₁) ∧
    (∀ t i e h₁, Opens h t ⟨s.gProfilerGeneration, i, e⟩ h₁ →
      InPlace s i e (recorded h₁ t s.gProfilerGeneration)) ∧
    (InOrder h → ∀ i < s.gThreadData.size, ∀ e < (s.slot i).currentEntry, InTime s i e) ∧
    ∀ t now c, Nested T h s t c → c.named = true →
      ((∃ r, perform t now c s = .ok r) ↔ s.gPaused = true ∨ IntsFit h s t c) := by
  have hfinish : ∀ h s t, ¬Nested T h s t .finish := fun _ _ _ hn => hn.not_finish rfl
  have H := (hrun.mono Nested.toPermitted).sound
  have hattr := (hrun.attributed hfinish).2
  refine ⟨fun t now m s' hcall => ⟨PopSection_endsOnly hcall, ?_⟩, ?_, fun i hi e he => ?_,
    fun t i e h₁ ho => ?_, fun horder i hi e he => ?_, fun t now c => H.returns_iff⟩
  · rintro mark rfl
    exact H.head?_scopes hcall
  · intro t now szSection color szFile line m s' hcall
    exact PushSectionBase_beginsOnly hcall
  · exact hattr.opened hi he
  · obtain ⟨hi, hplaced⟩ := hattr.placed ho
    exact .of_placed (H.recording.slots i hi).tree hplaced
  · have hclocked : s.Clocked ⟨2 ^ 63 - 1, by decide⟩ :=
      hrun.clocked hfinish horder fun e _ => Nat.le_of_lt_succ e.now.isLt
    exact .of_timed (H.recording.slots i hi).tree (hclocked.trees i hi) he

/-- The first section of a thread. -/
theorem Run.sections_match_first : ∃ (h : List (Event Unit)) (s : Profiler Unit),
    scopes h () = [some ⟨s.gProfilerGeneration, 1, 0⟩] ∧
      ∃ r, perform () 0 .popSection s = .ok r := by
  obtain ⟨h, s, H⟩ := Paired.zero
  obtain ⟨h, s, H⟩ := H.inside (Nat.zero_le _)
  obtain ⟨-, -, -, -, -, hnext⟩ := Run.sections_match H.run
  refine ⟨h, s, H.scopes_eq, (hnext () 0 .popSection H.nested rfl).2 (.inr ⟨?_, ?_⟩)⟩
  · intro _ hreg
    exact absurd H.ready.owns hreg.not_owns
  · intro _ m hm _ _
    rw [H.scopes_eq] at hm
    cases hm
    exact Nat.two_pow_pos 31

/-- The section with the entry `2 ^ 31` is open, and `PopSection` does not end it. -/
theorem Run.section_not_ended : ∃ (h : List (Event Unit)) (s : Profiler Unit),
    Run (Nested {()}) h s ∧ Nested {()} h s () .popSection ∧
      scopes h () = [some ⟨s.gProfilerGeneration, 1, 2 ^ 31⟩] ∧
      perform () 0 .popSection s = .error (.outOfRange "entries") :=
  Paired.exists_pop_outOfRange

end MUtils.Profiler
