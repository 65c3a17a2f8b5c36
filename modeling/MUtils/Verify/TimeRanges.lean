import MUtils.Time.Timer
import MUtils.Theory.Extrema

/-!
# What a time range has accumulated

`IncludeRange(time)` takes the smaller of the time and a `Start` that is `DateTime::min` at first,
so times alone never make the range valid. `IncludeRange(start, end)` takes the smaller and then the
larger of `start` and `Start`, which is `start`: it forgets what was included before
(`IncludeRange₂_eq`). So the range is what it should be just if the times given before the last
`IncludeRange(start, end)` lie between those given from it on, and the call does what
`IncludeRange(start)` and `IncludeRange(end)` do just if the range was valid and lies between them
(`run_accumulates_iff`).
-/

namespace MUtils.TimeRange

/-- A call of one of the overloads. -/
inductive Call where
  | time (t : DateTime)
  | range (s e : DateTime)
  deriving DecidableEq

/-- The times that a call gives. -/
def Call.times : Call → List DateTime
  | .time t => [t]
  | .range s e => [s, e]

def perform (r : TimeRange) : Call → TimeRange
  | .time t => r.IncludeRange t
  | .range s e => r.IncludeRange₂ s e

def run (r : TimeRange) (calls : List Call) : TimeRange := calls.foldl perform r

def times (calls : List Call) : List DateTime := calls.flatMap Call.times

/-- The calls are made with `start <= end` and with times above `DateTime::min`. -/
structure Proper (calls : List Call) : Prop where
  ordered : ∀ s e, .range s e ∈ calls → s ≤ e
  above : ∀ t ∈ times calls, DateTime.min < t

/-- The range is valid, and the smallest that contains the times. -/
structure Accumulates (r : TimeRange) (ts : List DateTime) : Prop where
  valid : r.Valid
  first : IsLeast {t | t ∈ ts} r.Start
  last : IsGreatest {t | t ∈ ts} r.End

/-- There is a call with a range, and the times given before the last of these calls lie between
times that are given from it on. -/
def Covered (calls : List Call) : Prop :=
  ∃ before s e after, calls = before ++ .range s e :: after ∧
    (∀ c ∈ after, ∃ t, c = .time t) ∧
    ∀ t ∈ times before, ∃ t₁ ∈ times (.range s e :: after), ∃ t₂ ∈ times (.range s e :: after),
      t₁ ≤ t ∧ t ≤ t₂

def HasRange (calls : List Call) : Prop := ∃ s e, .range s e ∈ calls

/-- The times given from the last call with a range on, or all of them if there is none. -/
def recent (calls : List Call) : List DateTime :=
  calls.foldl (fun ts c => match c with
    | .time t => ts ++ [t]
    | .range s e => [s, e]) []

/-- A later range has both ends of an earlier one, if they were set. -/
def Grows (r r' : TimeRange) : Prop :=
  (r.Start ≠ .min → r'.Start ≤ r.Start) ∧ (r.End ≠ .min → r.End ≤ r'.End)

/-! ### Runs -/

variable {r : TimeRange} {calls before after : List Call} {s e : DateTime}

theorem IncludeRange₂_eq : r.IncludeRange₂ s e = ⟨s, e⟩ := by
  have hstart : max s (min s r.Start) = s := max_eq_left (min_le_left _ _)
  have hend : max e (min e r.End) = e := max_eq_left (min_le_left _ _)
  simp only [IncludeRange₂, hstart, hend]

/-- Calls with one time extend the range, from what it is. -/
theorem run_times (hcalls : ∀ c ∈ calls, ∃ t, c = .time t) :
    IsLeast {t | t ∈ r.Start :: times calls} (r.run calls).Start ∧
      IsGreatest {t | t ∈ r.End :: times calls} (r.run calls).End := by
  induction calls generalizing r with
  | nil => exact ⟨by simp [run, times], by simp [run, times]⟩
  | cons c calls ih =>
    obtain ⟨t, rfl⟩ := hcalls c List.mem_cons_self
    obtain ⟨hfirst, hlast⟩ :=
      ih (r := r.IncludeRange t) fun c hc => hcalls c (List.mem_cons_of_mem _ hc)
    exact ⟨isLeast_cons_min hfirst, isGreatest_cons_max hlast⟩

/-- From a call with a range on, the range is that of the times given. -/
theorem run_range (r : TimeRange) (before : List Call) (hse : s ≤ e)
    (hafter : ∀ c ∈ after, ∃ t, c = .time t) :
    IsLeast {t | t ∈ times (.range s e :: after)} (r.run (before ++ .range s e :: after)).Start ∧
      IsGreatest {t | t ∈ times (.range s e :: after)}
        (r.run (before ++ .range s e :: after)).End := by
  have hrun : r.run (before ++ .range s e :: after) = TimeRange.run ⟨s, e⟩ after := by
    rw [run, List.foldl_append, List.foldl_cons, perform, IncludeRange₂_eq]
    rfl
  obtain ⟨hfirst, hlast⟩ := run_times (r := ⟨s, e⟩) hafter
  rw [hrun]
  constructor
  · have hset : {t | t ∈ times (.range s e :: after)} = {t | t ∈ e :: s :: times after} := by
      ext t
      exact List.Perm.mem_iff (List.Perm.swap e s _)
    rw [hset]
    exact isLeast_cons_cons hse hfirst
  · exact isGreatest_cons_cons hse hlast

/-- There is no call with a range, or a last one. -/
theorem exists_last_range (calls : List Call) : (∀ c ∈ calls, ∃ t, c = .time t) ∨
    ∃ before s e after, calls = before ++ .range s e :: after ∧ ∀ c ∈ after, ∃ t, c = .time t := by
  induction calls with
  | nil => exact .inl fun c hc => absurd hc List.not_mem_nil
  | cons c calls ih =>
    rcases ih with htimes | ⟨before, s, e, after, rfl, hafter⟩
    · cases c with
      | time t =>
        refine .inl fun c hc => ?_
        rcases List.mem_cons.mp hc with rfl | hc
        · exact ⟨t, rfl⟩
        · exact htimes c hc
      | range s e => exact .inr ⟨[], s, e, calls, rfl, htimes⟩
    · exact .inr ⟨c :: before, s, e, after, rfl, hafter⟩

theorem times_append : times (before ++ after) = times before ++ times after :=
  List.flatMap_append

/-- Without a call with a range, the range starts at `DateTime::min`. -/
theorem not_valid_run (hcalls : ∀ c ∈ calls, ∃ t, c = .time t) :
    ¬(TimeRange.run {} calls).Valid := by
  intro hvalid
  have hle := (run_times (r := {}) hcalls).1.2 List.mem_cons_self
  exact hvalid.1 (le_antisymm hle (DateTime.min_le _))

theorem run_range_accumulates_iff (hproper : Proper (before ++ .range s e :: after))
    (hafter : ∀ c ∈ after, ∃ t, c = .time t) :
    (r.run (before ++ .range s e :: after)).Accumulates
        (times (before ++ .range s e :: after)) ↔
      ∀ t ∈ times before, ∃ t₁ ∈ times (.range s e :: after), ∃ t₂ ∈ times (.range s e :: after),
        t₁ ≤ t ∧ t ≤ t₂ := by
  have hse : s ≤ e := hproper.ordered s e (by simp)
  obtain ⟨hfirst, hlast⟩ := run_range r before hse hafter
  have hright : ∀ {t}, t ∈ times (.range s e :: after) →
      t ∈ times (before ++ .range s e :: after) := by
    intro t ht
    rw [times_append]
    exact List.mem_append_right _ ht
  constructor
  · intro h t ht
    have hmem : t ∈ times (before ++ .range s e :: after) := by
      rw [times_append]
      exact List.mem_append_left _ ht
    exact ⟨_, hfirst.1, _, hlast.1, h.first.2 hmem, h.last.2 hmem⟩
  · intro hcovered
    refine ⟨⟨?_, ?_⟩, ⟨hright hfirst.1, ?_⟩, hright hlast.1, ?_⟩
    · exact (hproper.above _ (hright hfirst.1)).ne'
    · exact (hproper.above _ (hright hlast.1)).ne'
    · intro t ht
      rcases List.mem_append.mp (times_append ▸ ht) with ht | ht
      · obtain ⟨t₁, ht₁, -, -, hle, -⟩ := hcovered t ht
        exact (hfirst.2 ht₁).trans hle
      · exact hfirst.2 ht
    · intro t ht
      rcases List.mem_append.mp (times_append ▸ ht) with ht | ht
      · obtain ⟨-, -, t₂, ht₂, -, hle⟩ := hcovered t ht
        exact hle.trans (hlast.2 ht₂)
      · exact hlast.2 ht

/-! ### Before a call with a range -/

theorem recent_append (before : List Call) (hafter : ∀ c ∈ after, ∃ t, c = .time t) :
    recent (before ++ after) = recent before ++ times after := by
  unfold recent
  rw [List.foldl_append]
  generalize before.foldl _ [] = ts
  induction after generalizing ts with
  | nil => exact (List.append_nil ts).symm
  | cons c after ih =>
    obtain ⟨t, rfl⟩ := hafter c List.mem_cons_self
    rw [List.foldl_cons, ih fun c hc => hafter c (List.mem_cons_of_mem _ hc), List.append_assoc]
    rfl

theorem recent_of_times (hcalls : ∀ c ∈ calls, ∃ t, c = .time t) : recent calls = times calls :=
  recent_append [] hcalls

theorem recent_range (before : List Call) (hafter : ∀ c ∈ after, ∃ t, c = .time t) :
    recent (before ++ .range s e :: after) = times (.range s e :: after) := by
  have hsplit : before ++ .range s e :: after = (before ++ [.range s e]) ++ after := by simp
  have hlast : recent (before ++ [.range s e]) = [s, e] := by
    rw [recent, List.foldl_append]
    rfl
  rw [hsplit, recent_append _ hafter, hlast]
  rfl

theorem not_hasRange (hcalls : ∀ c ∈ calls, ∃ t, c = .time t) : ¬HasRange calls := by
  rintro ⟨s, e, hmem⟩
  obtain ⟨t, ht⟩ := hcalls _ hmem
  cases ht

/-- The range that calls have led to, by what was given recently. -/
theorem run_recent (hproper : Proper calls) :
    (¬HasRange calls ∧ (TimeRange.run {} calls).Start = .min ∨
      HasRange calls ∧ IsLeast {t | t ∈ recent calls} (TimeRange.run {} calls).Start) ∧
      IsGreatest {t | t ∈ DateTime.min :: recent calls} (TimeRange.run {} calls).End := by
  rcases exists_last_range calls with htimes | ⟨before, s, e, after, rfl, hafter⟩
  · obtain ⟨hfirst, hlast⟩ := run_times (r := {}) htimes
    have hstart := le_antisymm (hfirst.2 List.mem_cons_self) (DateTime.min_le _)
    rw [recent_of_times htimes]
    exact ⟨.inl ⟨not_hasRange htimes, hstart⟩, hlast⟩
  · obtain ⟨hfirst, hlast⟩ := run_range {} before (hproper.ordered s e (by simp)) hafter
    rw [recent_range _ hafter]
    refine ⟨.inr ⟨⟨s, e, by simp⟩, hfirst⟩, List.mem_cons_of_mem _ hlast.1, fun t ht => ?_⟩
    rcases List.mem_cons.mp ht with rfl | ht
    · exact DateTime.min_le _
    · exact hlast.2 ht

theorem end_le_iff (hproper : Proper calls) :
    (TimeRange.run {} calls).End ≤ e ↔ ∀ t ∈ recent calls, t ≤ e := by
  obtain ⟨hmem, hle⟩ := (run_recent hproper).2
  constructor
  · intro hend t ht
    exact (hle (List.mem_cons_of_mem _ ht)).trans hend
  · intro h
    rcases List.mem_cons.mp hmem with hend | hend
    · rw [hend]
      exact DateTime.min_le e
    · exact h _ hend

theorem le_start_iff (hproper : Proper calls) (hs : .min < s) :
    s ≤ (TimeRange.run {} calls).Start ↔ HasRange calls ∧ ∀ t ∈ recent calls, s ≤ t := by
  rcases (run_recent hproper).1 with ⟨hnone, hstart⟩ | ⟨hrange, hfirst⟩
  · rw [hstart]
    exact ⟨fun h => absurd h hs.not_ge, fun h => absurd h.1 hnone⟩
  · exact ⟨fun h => ⟨hrange, fun t ht => h.trans (hfirst.2 ht)⟩, fun h => h.2 _ hfirst.1⟩

theorem min_lt_of_recent (hproper : Proper calls) {t : DateTime} (ht : t ∈ recent calls) :
    .min < t := by
  refine hproper.above t ?_
  rcases exists_last_range calls with htimes | ⟨before, s, e, after, rfl, hafter⟩
  · rwa [← recent_of_times htimes]
  · rw [times_append, ← recent_range before hafter]
    exact List.mem_append_right _ ht

theorem start_ne_min_iff (hproper : Proper calls) :
    (TimeRange.run {} calls).Start ≠ .min ↔ HasRange calls := by
  rcases (run_recent hproper).1 with ⟨hnone, hstart⟩ | ⟨hrange, hfirst⟩
  · exact ⟨fun h => absurd hstart h, fun h => absurd h hnone⟩
  · exact ⟨fun _ => hrange, fun _ => (min_lt_of_recent hproper hfirst.1).ne'⟩

theorem IncludeRange₂_eq_iff (hse : s ≤ e) :
    r.IncludeRange₂ s e = (r.IncludeRange s).IncludeRange e ↔ s ≤ r.Start ∧ r.End ≤ e := by
  have hstart : min e (min s r.Start) = min s r.Start := min_eq_right ((min_le_left _ _).trans hse)
  have hend : max e (max s r.End) = max e r.End := by
    rw [← max_assoc, max_eq_left hse]
  rw [IncludeRange₂_eq, IncludeRange, IncludeRange, hstart, hend, mk.injEq, eq_comm,
    min_eq_left_iff, eq_comm (a := e), max_eq_left_iff]

/-- What a call with a range does after others, against calls with its two times, and whether it
leaves out something of the range. -/
theorem run_range_iff (hproper : Proper before) (hse : s ≤ e) (hs : .min < s) :
    (TimeRange.run {} (before ++ [.range s e]) =
        TimeRange.run {} (before ++ [.time s, .time e]) ↔
      HasRange before ∧ ∀ t ∈ recent before, s ≤ t ∧ t ≤ e) ∧
    (Grows (TimeRange.run {} before) (TimeRange.run {} (before ++ [.range s e])) ↔
      (HasRange before → ∀ t ∈ recent before, s ≤ t) ∧ ∀ t ∈ recent before, t ≤ e) := by
  have hrange : TimeRange.run {} (before ++ [.range s e]) =
      (TimeRange.run {} before).IncludeRange₂ s e := List.foldl_append
  have htimes : TimeRange.run {} (before ++ [.time s, .time e]) =
      ((TimeRange.run {} before).IncludeRange s).IncludeRange e := List.foldl_append
  constructor
  · rw [hrange, htimes, IncludeRange₂_eq_iff hse, le_start_iff hproper hs, end_le_iff hproper,
      and_assoc, ← forall₂_and]
  · have hend : (TimeRange.run {} before).End ≠ .min → (TimeRange.run {} before).End ≤ e ↔
        ∀ t ∈ recent before, t ≤ e := by
      rw [← end_le_iff hproper]
      refine ⟨fun h => ?_, fun h _ => h⟩
      by_cases hmin : (TimeRange.run {} before).End = .min
      · rw [hmin]
        exact DateTime.min_le e
      · exact h hmin
    rw [Grows, hrange, IncludeRange₂_eq, start_ne_min_iff hproper, le_start_iff hproper hs, hend]
    exact and_congr_left' ⟨fun h hr => (h hr).2, fun h hr => ⟨hr, h hr⟩⟩

theorem Proper.of_append (hproper : Proper (before ++ after)) : Proper before where
  ordered s e h := hproper.ordered s e (List.mem_append_left _ h)
  above t ht := hproper.above t (times_append ▸ List.mem_append_left _ ht)

/-- **A range accumulates what it was given** just if there was a call with a range, and all that
was given before the last of them lies between times given from it on. A call with a range does what
calls with its two times do just if there was an earlier one, and it encloses all times given from
the last of these on; it leaves nothing out just if it encloses them, where the times count that
have set an end of the range. -/
theorem run_accumulates_iff (hproper : Proper calls) :
    ((TimeRange.run {} calls).Accumulates (times calls) ↔ Covered calls) ∧
      ∀ before s e after, calls = before ++ .range s e :: after →
        (TimeRange.run {} (before ++ [.range s e]) =
            TimeRange.run {} (before ++ [.time s, .time e]) ↔
          HasRange before ∧ ∀ t ∈ recent before, s ≤ t ∧ t ≤ e) ∧
        (Grows (TimeRange.run {} before) (TimeRange.run {} (before ++ [.range s e])) ↔
          (HasRange before → ∀ t ∈ recent before, s ≤ t) ∧ ∀ t ∈ recent before, t ≤ e) := by
  refine ⟨⟨?_, ?_⟩, ?_⟩
  · intro h
    rcases exists_last_range calls with htimes | ⟨before, s, e, after, rfl, hafter⟩
    · exact (not_valid_run htimes h.valid).elim
    · exact ⟨before, s, e, after, rfl, hafter, (run_range_accumulates_iff hproper hafter).mp h⟩
  · rintro ⟨before, s, e, after, rfl, hafter, hcovered⟩
    exact (run_range_accumulates_iff hproper hafter).mpr hcovered
  · rintro before s e after rfl
    refine run_range_iff hproper.of_append (hproper.ordered s e (by simp)) (hproper.above s ?_)
    rw [times_append]
    exact List.mem_append_right _ List.mem_cons_self

/-- A range around an earlier one, and a later time. -/
theorem run_accumulates_iff_around :
    (TimeRange.run {} [.range (datetime_from_seconds 2) (datetime_from_seconds 3),
      .range (datetime_from_seconds 1) (datetime_from_seconds 4),
      .time (datetime_from_seconds 5)]).Accumulates
      (times [.range (datetime_from_seconds 2) (datetime_from_seconds 3),
        .range (datetime_from_seconds 1) (datetime_from_seconds 4),
        .time (datetime_from_seconds 5)]) ∧
    TimeRange.run {} [.range (datetime_from_seconds 2) (datetime_from_seconds 3),
        .range (datetime_from_seconds 1) (datetime_from_seconds 4)] =
      TimeRange.run {} [.range (datetime_from_seconds 2) (datetime_from_seconds 3),
        .time (datetime_from_seconds 1), .time (datetime_from_seconds 4)] := by
  have hproper : Proper [.range (datetime_from_seconds 2) (datetime_from_seconds 3),
      .range (datetime_from_seconds 1) (datetime_from_seconds 4),
      .time (datetime_from_seconds 5)] := by
    refine ⟨?_, by decide⟩
    intro s e hmem
    simp only [List.mem_cons, Call.range.injEq, reduceCtorEq, List.not_mem_nil, or_false] at hmem
    rcases hmem with ⟨rfl, rfl⟩ | ⟨rfl, rfl⟩ <;> decide
  obtain ⟨hiff, hrange⟩ := run_accumulates_iff hproper
  constructor
  · refine hiff.mpr ⟨[_], _, _, [_], rfl, ?_, by decide⟩
    intro c hc
    exact ⟨_, List.mem_singleton.mp hc⟩
  · exact (hrange [_] _ _ [_] rfl).1.mpr ⟨⟨_, _, List.mem_singleton_self _⟩, by decide⟩

/-- A time alone does not make the range valid, a later range replaces an earlier one, and the first
range does not do what its two times do. -/
theorem run_not_accumulates :
    (Proper [.time (datetime_from_seconds 1)] ∧
      ¬(TimeRange.run {} [.time (datetime_from_seconds 1)]).Valid) ∧
    TimeRange.run {} [.range (datetime_from_seconds 1) (datetime_from_seconds 2),
      .range (datetime_from_seconds 3) (datetime_from_seconds 4)] =
      ⟨datetime_from_seconds 3, datetime_from_seconds 4⟩ ∧
    TimeRange.run {} [.range (datetime_from_seconds 2) (datetime_from_seconds 3)] ≠
      TimeRange.run {} [.time (datetime_from_seconds 2), .time (datetime_from_seconds 3)] := by
  refine ⟨⟨⟨?_, by decide⟩, ?_⟩, IncludeRange₂_eq, by decide⟩
  · intro s e hmem
    cases List.mem_singleton.mp hmem
  · apply not_valid_run
    intro c hc
    exact ⟨_, List.mem_singleton.mp hc⟩

end MUtils.TimeRange
