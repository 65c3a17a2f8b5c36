import MUtils.Verify.TimelineOrder

/-!
# What `ExpireEvents` removes

The list is in order of the times at which events begin, but events expire by the time at which
they end. The scan gives up at the first event that is not expired and began less than 16 seconds
ago, so it removes exactly the expired events if none of them stands behind such an event
(`ExpireEvents_removes_iff`), as is the case for `secondsOld` of 16 and more. The code computes in
nanoseconds of an `int64_t`; the tests mean what they say (`Ended`, `Late`) as long as nothing
overflows at the events the scan comes to (`NoOverflow`).
-/

namespace MUtils.Timeline
open Outcome DoublyLinked

variable {tl tl₁ tl' : Timeline} {xs vs : List ItemPtr} {p : ItemPtr} {startTime : TimePoint}
  {secondsOld : Int}

/-- From `tl` to `tl'` the events `vs` were unlinked and given back to the pool. The others are the
list of the timeline, in their order, and nothing else changed. -/
structure Removed (tl : Timeline) (xs vs : List ItemPtr) (tl' : Timeline) : Prop where
  list : WellFormed tl' (xs.filter (· ∉ vs))
  unlinked : ∀ p ∈ vs, tl'.mem.m_pNext p = none ∧ tl'.mem.m_pPrevious p = none
  frame : tl.mem.Frame tl'.mem tl.self xs
  rest : tl' = { tl with
    mem := tl'.mem
    m_timeEventPool := { tl.m_timeEventPool with
      m_freeItems := tl.m_timeEventPool.m_freeItems ++ vs } }

theorem Removed.nil (h : WellFormed tl xs) : Removed tl xs [] tl where
  list := by simpa using h
  unlinked p hp := by cases hp
  frame := .rfl
  rest := by simp

theorem WellFormed.removed (h : WellFormed tl xs) (hp : p ∈ xs) :
    Removed tl xs [p] (tl.freed p) := by
  obtain ⟨-, h'⟩ := h.free hp
  have hpool := h.pool p hp
  have herase : xs.erase p = xs.filter (· ∉ [p]) := by
    rw [h.nodup.erase_eq_filter]
    exact List.filter_congr fun q _ => by by_cases hq : q = p <;> simp [hq]
  rw [herase] at h'
  obtain ⟨as, bs, rfl⟩ := List.append_of_mem hp
  obtain ⟨-, -, hn, hpr, hframe⟩ := list_disconnect_mem h.list hpool
  exact ⟨h', by simpa using ⟨hn, hpr⟩, hframe, rfl⟩

theorem Removed.cons (h : Removed tl xs [p] tl₁) (hp : p ∈ xs)
    (h' : Removed tl₁ (xs.filter (· ∉ [p])) vs tl') : Removed tl xs (p :: vs) tl' where
  list := by
    have := h'.list
    simpa [List.filter_filter, Bool.and_comm] using this
  unlinked q hq := by
    rcases List.mem_cons.1 hq with rfl | hq
    · -- what is freed later does not touch it
      have hout : q ∉ xs.filter (· ∉ [q]) := by simp
      obtain ⟨hn, hpr⟩ := h.unlinked q List.mem_cons_self
      exact ⟨(h'.frame.next q hout).trans hn, (h'.frame.previous q hout).trans hpr⟩
    · exact h'.unlinked q hq
  frame := by
    have hself : tl₁.self = tl.self := by rw [h.rest]
    exact h.frame.trans (hself ▸ h'.frame) (List.filter_subset_self _)
  rest := by
    rw [h'.rest, h.rest]
    simp

theorem WellFormed.freeAll (h : WellFormed tl xs) (hvs : vs.Nodup) (hsub : vs ⊆ xs) :
    ∃ tl', vs.foldlM Timeline.Free tl = .ok tl' ∧ Removed tl xs vs tl' := by
  induction vs generalizing tl xs with
  | nil => exact ⟨tl, rfl, .nil h⟩
  | cons v vs ih =>
    obtain ⟨hv, hvs⟩ := List.nodup_cons.1 hvs
    have hvx := hsub List.mem_cons_self
    have h₁ := h.removed hvx
    have hsub' : vs ⊆ xs.filter (· ∉ [v]) := fun p hp => by
      simpa using ⟨hsub (List.mem_cons_of_mem _ hp), ne_of_mem_of_not_mem hp hv⟩
    obtain ⟨tl', hok, h'⟩ := ih h₁.list hvs hsub'
    refine ⟨tl', ?_, h₁.cons hvx h'⟩
    rw [List.foldlM_cons, (h.free hvx).1]
    exact hok

/-- `ExpireEvents` ends and removes what its scan finds. -/
theorem WellFormed.expire_removed (h : WellFormed tl xs) (startTime : TimePoint)
    (secondsOld : Int) : ∃ tl',
      tl.ExpireEvents startTime secondsOld = .ok (overdue tl startTime secondsOld xs, tl') ∧
      Removed tl xs (overdue tl startTime secondsOld xs) tl' := by
  have hsub : (overdue tl startTime secondsOld xs).Sublist xs := scanUntil_sublist
  obtain ⟨tl', hok, h'⟩ := h.freeAll (h.nodup.sublist hsub) hsub.subset
  refine ⟨tl', ?_, h'⟩
  rw [h.expire, hok]
  rfl

/-! ### The tests without overflow -/

/-- A count that an `int64_t` holds. -/
def Fits64 (v : Int) : Prop :=
  -2 ^ 63 ≤ v ∧ v < 2 ^ 63

instance (v : Int) : Decidable (Fits64 v) := inferInstanceAs (Decidable (_ ∧ _))

theorem int64_eq {v : Int} (h : Fits64 v) : int64 v = v :=
  Int.bmod_eq_of_le (by have := h.1; omega) (by have := h.2; omega)

/-- The nanoseconds an event lasts. -/
def lasts (tl : Timeline) (p : ItemPtr) : Int :=
  (tl.m_duration p).count * 1000000

/-- The event ended more than `secondsOld` seconds before `startTime`. -/
def Ended (tl : Timeline) (startTime : TimePoint) (secondsOld : Int) (p : ItemPtr) : Prop :=
  secondsOld * 1000000000 < startTime.ns - ((tl.m_time p).ns + tl.lasts p)

/-- The event began less than 16 seconds before `startTime`, or after it. -/
def Late (tl : Timeline) (startTime : TimePoint) (p : ItemPtr) : Prop :=
  startTime.ns - (tl.m_time p).ns < 16 * 1000000000

instance : Decidable (Ended tl startTime secondsOld p) := inferInstanceAs (Decidable (_ < _))

instance : Decidable (Late tl startTime p) := inferInstanceAs (Decidable (_ < _))

/-- What the code computes at one event. Its age is only computed if the event has not ended. -/
structure TestsFit (tl : Timeline) (startTime : TimePoint) (secondsOld : Int) (p : ItemPtr) :
    Prop where
  duration : Fits64 (tl.lasts p)
  m_end : Fits64 ((tl.m_time p).ns + tl.lasts p)
  sinceEnd : Fits64 (startTime.ns - ((tl.m_time p).ns + tl.lasts p))
  age : ¬tl.Ended startTime secondsOld p → Fits64 (startTime.ns - (tl.m_time p).ns)

theorem TestsFit.expired_iff (h : TestsFit tl startTime secondsOld p) :
    tl.Expired startTime secondsOld p ↔ tl.Ended startTime secondsOld p := by
  have hduration : int64 ((tl.m_duration p).count * 1000000) = tl.lasts p := int64_eq h.duration
  simp only [Expired, hduration, int64_eq h.m_end, int64_eq h.sinceEnd, Ended]

theorem TestsFit.recent_iff (h : TestsFit tl startTime secondsOld p)
    (hnot : ¬tl.Ended startTime secondsOld p) :
    tl.Recent startTime p ↔ tl.Late startTime p := by
  simp only [Recent, int64_eq (h.age hnot), Late]

/-- Nothing overflows at the events that the scan comes to: those with no late event before them
that has not ended. -/
def NoOverflow (tl : Timeline) (startTime : TimePoint) (secondsOld : Int) (xs : List ItemPtr) :
    Prop :=
  ∀ as b bs, xs = as ++ b :: bs →
    (∀ a ∈ as, tl.Late startTime a → tl.Ended startTime secondsOld a) →
    TestsFit tl startTime secondsOld b

theorem NoOverflow.of_forall (h : ∀ p ∈ xs, TestsFit tl startTime secondsOld p) :
    NoOverflow tl startTime secondsOld xs :=
  fun as b bs hxs _ => h b (by rw [hxs]; simp)

theorem NoOverflow.overdue_eq (h : NoOverflow tl startTime secondsOld xs) :
    overdue tl startTime secondsOld xs =
      scanUntil (tl.Ended startTime secondsOld) (tl.Late startTime) xs :=
  scanUntil_congr fun as b bs hxs has =>
    ⟨(h as b bs hxs has).expired_iff, (h as b bs hxs has).recent_iff⟩

/-! ### What is removed -/

/-- `ExpireEvents` returns and removes exactly the events that ended. -/
def Expires (tl : Timeline) (startTime : TimePoint) (secondsOld : Int) (xs : List ItemPtr) :
    Prop :=
  ∃ tl', tl.ExpireEvents startTime secondsOld =
      .ok (xs.filter (tl.Ended startTime secondsOld), tl') ∧
    Removed tl xs (xs.filter (tl.Ended startTime secondsOld)) tl'

theorem WellFormed.expires_iff (h : WellFormed tl xs)
    (hfits : NoOverflow tl startTime secondsOld xs) :
    Expires tl startTime secondsOld xs ↔
      xs.Pairwise fun a b => tl.Late startTime a → tl.Ended startTime secondsOld b →
        tl.Ended startTime secondsOld a := by
  rw [← scanUntil_eq_filter_iff, ← hfits.overdue_eq]
  obtain ⟨tl₁, hok, h₁⟩ := h.expire_removed startTime secondsOld
  constructor
  · rintro ⟨tl', hok', -⟩
    rw [hok] at hok'
    simp only [Except.ok.injEq, Prod.mk.injEq] at hok'
    exact hok'.1
  · intro hscan
    rw [Expires, ← hscan]
    exact ⟨tl₁, hok, h₁⟩

/-- From 16 seconds on, an event that began too late to go on has nothing behind it that ended. -/
theorem WellFormed.late_hides_nothing (h : WellFormed tl xs)
    (hd : ∀ p ∈ xs, 0 ≤ (tl.m_duration p).count) (hold : 16 ≤ secondsOld) :
    xs.Pairwise fun a b => tl.Late startTime a → tl.Ended startTime secondsOld b →
      tl.Ended startTime secondsOld a := by
  refine h.sorted.imp_of_mem fun {a b} _ hb hab hlate hended => ?_
  have hle : (tl.m_time a).ns ≤ (tl.m_time b).ns := hab
  have hdb := hd b hb
  simp only [Late, Ended, lasts] at hlate hended
  omega

/-- `ExpireEvents` computes without overflow and removes exactly the events that ended if nothing
overflows at the events it comes to, and no event that ended stands behind a late one that has not.
For durations that are not negative and `secondsOld` of at least 16 the latter is always so. -/
theorem ExpireEvents_removes_iff (h : WellFormed tl xs) (startTime : TimePoint)
    (secondsOld : Int) :
    (NoOverflow tl startTime secondsOld xs ∧ Expires tl startTime secondsOld xs ↔
      NoOverflow tl startTime secondsOld xs ∧
        xs.Pairwise fun a b => tl.Late startTime a → tl.Ended startTime secondsOld b →
          tl.Ended startTime secondsOld a) ∧
    ((∀ p ∈ xs, 0 ≤ (tl.m_duration p).count) → 16 ≤ secondsOld →
      NoOverflow tl startTime secondsOld xs → Expires tl startTime secondsOld xs) :=
  ⟨and_congr_right h.expires_iff,
    fun hd hold hfits => (h.expires_iff hfits).2 (h.late_hides_nothing hd hold)⟩

/-- Ten seconds after the epoch. -/
def tenSeconds : TimePoint := ⟨10000000000, by decide⟩

/-- Two stored events: the first one begins at the epoch and lasts `d`, the second one begins five
seconds later and has no duration. -/
def twoEvents (d : Milliseconds) : Timeline :=
  { blank 0 with
    mem := {
      m_pPool _ := some 0
      m_pNext p := if p = 0 then some 1 else none
      m_pPrevious p := if p = 1 then some 0 else none
      m_pRoot _ := some 0
      m_pLast _ := some 1 }
    m_time p := if p = 0 then .epoch else ⟨5000000000, by decide⟩
    m_duration p := if p = 0 then d else .zero
    m_timeEventPool := ⟨[], 2, 2⟩ }

theorem twoEvents_wellFormed (d : Milliseconds) : WellFormed (twoEvents d) [0, 1] where
  list := ⟨⟨by simp [Seg, twoEvents], by decide⟩, rfl, rfl⟩
  sorted := List.pairwise_pair.2 (show (0 : Int) ≤ 5000000000 by decide)
  constructed := by simp [twoEvents]
  pool _ _ := rfl

theorem ExpireEvents_removes_iff_twoEvents : WellFormed (twoEvents .zero) [0, 1] ∧
    ∃ tl', (twoEvents .zero).ExpireEvents tenSeconds 1 = .ok ([0, 1], tl') ∧
      Removed (twoEvents .zero) [0, 1] [0, 1] tl' := by
  have h := twoEvents_wellFormed .zero
  have hfits : NoOverflow (twoEvents .zero) tenSeconds 1 [0, 1] :=
    .of_forall (List.forall_mem_cons.2 ⟨⟨by decide, by decide, by decide, by decide⟩,
      List.forall_mem_singleton.2 ⟨by decide, by decide, by decide, by decide⟩⟩)
  exact ⟨h, ((ExpireEvents_removes_iff h tenSeconds 1).1.2 ⟨hfits, by decide⟩).2⟩

/-- The second event ended five seconds ago, but the first one, which is not over, hides it. If the
first one lasts as long as a duration can, its end overflows and it is removed too early. -/
theorem ExpireEvents_hidden :
    (∀ d, WellFormed (twoEvents d) [0, 1]) ∧
      ((twoEvents ⟨20000, by decide⟩).Ended tenSeconds 1 1 ∧
        (twoEvents ⟨20000, by decide⟩).ExpireEvents tenSeconds 1 =
          .ok ([], twoEvents ⟨20000, by decide⟩)) ∧
      ¬(twoEvents ⟨2 ^ 63 - 1, by decide⟩).Ended tenSeconds 1 0 ∧
      ∃ tl', (twoEvents ⟨2 ^ 63 - 1, by decide⟩).ExpireEvents tenSeconds 1 = .ok ([0, 1], tl') :=
  ⟨twoEvents_wellFormed, ⟨by decide, rfl⟩, by decide, _, rfl⟩

end MUtils.Timeline
