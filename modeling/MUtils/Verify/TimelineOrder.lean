import MUtils.Theory.Sorted
import MUtils.Theory.StableOrder
import MUtils.Time.Timeline
import MUtils.Verify.PoolList

/-!
# The methods of the timeline keep it in order

`Timeline.WellFormed` is what a traversal of the list needs: it is linked, sorted, and its events
are those of the pool. `Timeline.Ordered` is the invariant: the list of the pool holds the stored
events in stable order of their times, every event of the pool is stored, held by a client or free,
and an event outside the list has null links. Each method keeps it and none of its asserts fires
(`Ordered.alloc`, `Ordered.store`, `Ordered.free`, `Ordered.expire`, `Ordered.deque`).
-/

namespace MUtils.Timeline
open Outcome DoublyLinked

/-- `xs` is the list of the timeline: events of its pool, in order of time. -/
structure WellFormed (tl : Timeline) (xs : List ItemPtr) : Prop where
  list : PoolList tl.mem tl.self xs
  sorted : xs.Pairwise fun a b => tl.m_time a ≤ tl.m_time b
  constructed : ∀ p ∈ xs, p < tl.m_timeEventPool.constructed
  pool : ∀ p ∈ xs, tl.mem.m_pPool p = some tl.self

/-- `xs` is the list of the timeline, `stored` the same events in the order of storing, and `held`
the events that were allocated and not stored yet. -/
structure Ordered (tl : Timeline) (stored held xs : List ItemPtr) : Prop where
  list : PoolList tl.mem tl.self xs
  order : StableOrder tl.m_time stored xs
  apart : (stored ++ (held ++ tl.m_timeEventPool.m_freeItems)).Nodup
  constructed : ∀ p ∈ stored ++ (held ++ tl.m_timeEventPool.m_freeItems),
    p < tl.m_timeEventPool.constructed
  pool : ∀ p < tl.m_timeEventPool.constructed, tl.mem.m_pPool p = some tl.self
  unlinked : ∀ p ∉ xs, tl.mem.m_pNext p = none ∧ tl.mem.m_pPrevious p = none

variable {tl tl' : Timeline} {stored held xs : List ItemPtr} {p : ItemPtr}

/-- The timeline after `Free` of one of its events. -/
def freed (tl : Timeline) (p : ItemPtr) : Timeline :=
  { tl with
    mem := (list_disconnect tl.mem p).1
    m_timeEventPool := tl.m_timeEventPool.Free p }

/-- What a scan of `xs` by `ExpireEvents` frees. -/
def overdue (tl : Timeline) (startTime : TimePoint) (secondsOld : Int) (xs : List ItemPtr) :
    List ItemPtr :=
  scanUntil (tl.Expired startTime secondsOld) (tl.Recent startTime) xs

namespace WellFormed

theorem nodup (h : WellFormed tl xs) : xs.Nodup := h.list.chain.nodup

/-- The traversals of the list have enough fuel. -/
theorem length_lt_fuel (h : WellFormed tl xs) : xs.length < tl.fuel := by
  have hsub : xs ⊆ List.range tl.m_timeEventPool.constructed := fun p hp =>
    List.mem_range.2 (h.constructed p hp)
  have := (h.nodup.subperm hsub).length_le
  rw [List.length_range] at this
  exact Nat.lt_succ_of_le this

theorem erase_middle {as bs : List ItemPtr} (hnd : (as ++ p :: bs).Nodup) :
    (as ++ p :: bs).erase p = as ++ bs := by
  have hp : p ∉ as := fun ha => (List.nodup_append.1 hnd).2.2 p ha p List.mem_cons_self rfl
  rw [List.erase_append_right _ hp, List.erase_cons_head]

theorem free (h : WellFormed tl xs) (hp : p ∈ xs) :
    tl.Free p = .ok (freed tl p) ∧ WellFormed (freed tl p) (xs.erase p) := by
  have hpool := h.pool p hp
  obtain ⟨as, bs, rfl⟩ := List.append_of_mem hp
  obtain ⟨-, hlist, hn, hpr, hframe⟩ := list_disconnect_mem h.list hpool
  have hsub : (as ++ bs).Sublist (as ++ p :: bs) := (List.sublist_cons_self _ _).append_left _
  rw [erase_middle h.nodup]
  constructor
  · simp only [Timeline.Free, hframe.pool, hpool, deref_some, ok_bind, pure_eq_ok, freed]
  · refine ⟨hlist, ?_, fun q hq => h.constructed q (hsub.subset hq), fun q hq => ?_⟩
    · exact h.sorted.sublist hsub
    · exact (congrFun hframe.pool q).trans (h.pool q (hsub.subset hq))

/-- `ExpireEvents` disconnects its victim before `Free` does so again; the second time changes
nothing. -/
theorem free_disconnected (h : WellFormed tl xs) (hp : p ∈ xs) :
    Timeline.Free { tl with mem := (list_disconnect tl.mem p).1 } p = tl.Free p := by
  have hpool := h.pool p hp
  obtain ⟨as, bs, rfl⟩ := List.append_of_mem hp
  obtain ⟨-, hlist, hn, hpr, hframe⟩ := list_disconnect_mem h.list hpool
  have hp' : p ∉ as ++ bs := by
    have := (List.nodup_middle.1 h.nodup)
    exact (List.nodup_cons.1 this).1
  have hsame := list_disconnect_not_mem hlist (hframe.pool ▸ hpool) hp' hn hpr
  simp only [Timeline.Free, hsame]

/-- `ExpireEvents` frees what a scan of the list finds expired, one event after the other. -/
theorem expireLoop_eq (startTime : TimePoint) (secondsOld : Int) {bs : List ItemPtr} {fuel : Nat}
    (as victims : List ItemPtr) (h : WellFormed tl (as ++ bs)) (hfuel : bs.length < fuel) :
    expireLoop startTime secondsOld fuel tl bs.head? victims = (do
      let vs := scanUntil (tl.Expired startTime secondsOld) (tl.Recent startTime) bs
      let tl' ← vs.foldlM Timeline.Free tl
      return (victims ++ vs, tl')) := by
  induction bs generalizing tl as fuel victims with
  | nil =>
    obtain ⟨fuel, rfl⟩ : ∃ n, fuel = n + 1 := ⟨fuel - 1, by omega⟩
    simp [expireLoop, scanUntil]
  | cons c cs ih =>
    obtain ⟨fuel, rfl⟩ : ∃ n, fuel = n + 1 := ⟨fuel - 1, by omega⟩
    have hfuel : cs.length < fuel := by simpa using hfuel
    have hc : c ∈ as ++ c :: cs := by simp
    simp only [List.head?_cons, expireLoop, scanUntil]
    split_ifs with hexp hrec
    · -- the victim leaves the list, and the scan goes on with what followed it
      obtain ⟨hnext, -⟩ := list_disconnect_mem h.list (h.pool c hc)
      obtain ⟨hfree, h₁⟩ := h.free hc
      rw [erase_middle h.nodup] at h₁
      rw [h.free_disconnected hc, hfree, hnext]
      simp only [ok_bind, List.foldlM_cons, hfree, ih as (victims ++ [c]) h₁ hfuel]
      simp only [List.append_assoc, List.singleton_append]
      rfl
    · simp
    · rw [h.list.chain.next_eq]
      exact ih (as ++ [c]) victims (by simpa using h) hfuel

theorem expire (h : WellFormed tl xs) (startTime : TimePoint) (secondsOld : Int) :
    tl.ExpireEvents startTime secondsOld = (do
      let tl' ← (overdue tl startTime secondsOld xs).foldlM Timeline.Free tl
      return (overdue tl startTime secondsOld xs, tl')) := by
  rw [ExpireEvents, h.list.root]
  exact expireLoop_eq startTime secondsOld [] [] h h.length_lt_fuel

end WellFormed

namespace Ordered

theorem mem_iff (h : Ordered tl stored held xs) : p ∈ xs ↔ p ∈ stored := h.order.perm.mem_iff

theorem wellFormed (h : Ordered tl stored held xs) : WellFormed tl xs := by
  have hcon : ∀ p ∈ xs, p < tl.m_timeEventPool.constructed := fun p hp =>
    h.constructed p (List.mem_append_left _ (h.mem_iff.1 hp))
  exact ⟨h.list, h.order.sorted, hcon, fun p hp => h.pool p (hcon p hp)⟩

theorem nodup (h : Ordered tl stored held xs) : xs.Nodup := h.wellFormed.nodup

theorem length_lt_fuel (h : Ordered tl stored held xs) : xs.length < tl.fuel :=
  h.wellFormed.length_lt_fuel

theorem blank (self : PoolPtr) : Ordered (.blank self) [] [] [] where
  list := ⟨.nil, rfl, rfl⟩
  order := .nil
  apart := List.nodup_nil
  constructed p hp := by cases hp
  pool p hp := by cases hp
  unlinked _ _ := ⟨rfl, rfl⟩

/-! ### Alloc -/

theorem alloc (h : Ordered tl stored held xs) (pick : Option Nat) (raw : RawEvent) :
    Ordered (tl.Alloc pick raw).2 stored ((tl.Alloc pick raw).1 :: held) xs := by
  cases hq : tl.m_timeEventPool.try_dequeue pick with
  | none =>
    -- a new event: its address is beyond every event of the pool
    have hnew : tl.m_timeEventPool.constructed ∉
        stored ++ (held ++ tl.m_timeEventPool.m_freeItems) :=
      fun hp => Nat.lt_irrefl _ (h.constructed _ hp)
    have hxs : ∀ q ∈ xs, q ≠ tl.m_timeEventPool.constructed := by
      rintro q hq rfl
      exact hnew (List.mem_append_left _ (h.mem_iff.1 hq))
    simp only [Timeline.Alloc, TSMemoryPool.Alloc, hq, Option.isNone_none, if_true, construct]
    refine ⟨h.list.congr ?_ ?_ rfl rfl, h.order.congr ?_, ?_, ?_, ?_, ?_⟩
    · exact fun q hq => Function.update_of_ne (hxs q hq) _ _
    · exact fun q hq => Function.update_of_ne (hxs q hq) _ _
    · exact fun q hq => Function.update_of_ne (hxs q hq) _ _
    · exact List.nodup_middle.2 (List.nodup_cons.2 ⟨hnew, h.apart⟩)
    · intro q hq
      rw [List.cons_append, List.mem_append, List.mem_cons] at hq
      rcases hq with hq | rfl | hq
      · exact Nat.lt_succ_of_lt (h.constructed q (List.mem_append_left _ hq))
      · exact Nat.lt_succ_self _
      · exact Nat.lt_succ_of_lt (h.constructed q (List.mem_append_right _ hq))
    · intro q hq
      rcases Nat.lt_succ_iff_lt_or_eq.1 hq with hq | rfl
      · exact (Function.update_of_ne (Nat.ne_of_lt hq) _ _).trans (h.pool q hq)
      · exact Function.update_self ..
    · intro q hq
      simp only [Function.update_apply]
      split
      · exact ⟨rfl, rfl⟩
      · exact h.unlinked q hq
  | some q =>
    have hmem : q ∈ tl.m_timeEventPool.m_freeItems := by
      simp only [TSMemoryPool.try_dequeue, Option.bind_eq_some_iff] at hq
      obtain ⟨k, -, hk⟩ := hq
      exact List.mem_of_getElem? hk
    have hperm : (stored ++ (held ++ tl.m_timeEventPool.m_freeItems)).Perm
        (stored ++ (q :: held ++ tl.m_timeEventPool.m_freeItems.erase q)) := by
      refine List.Perm.append_left _ ?_
      exact (List.Perm.append_left _ (List.perm_cons_erase hmem)).trans List.perm_middle
    simp only [Timeline.Alloc, TSMemoryPool.Alloc, hq, Option.isNone_some]
    exact ⟨h.list, h.order, hperm.nodup_iff.1 h.apart,
      fun r hr => h.constructed r (hperm.mem_iff.2 hr), h.pool, h.unlinked⟩

theorem preallocate (h : Ordered tl stored held xs) (pick : Option Nat) (raw : RawEvent) :
    Ordered (tl.preallocate pick raw) stored held xs := by
  have h' := h.alloc pick raw
  have hperm : (stored ++ ((tl.Alloc pick raw).1 :: held ++
      (tl.Alloc pick raw).2.m_timeEventPool.m_freeItems)).Perm
      (stored ++ (held ++ ((tl.Alloc pick raw).2.m_timeEventPool.m_freeItems ++
        [(tl.Alloc pick raw).1]))) := by
    refine List.Perm.append_left _ ?_
    rw [← List.append_assoc]
    exact (List.perm_append_singleton _ _).symm
  exact ⟨h'.list, h'.order, hperm.nodup_iff.1 h'.apart,
    fun r hr => h'.constructed r (hperm.mem_iff.2 hr), h'.pool, h'.unlinked⟩

theorem new (self : PoolPtr) (picks : List (Option Nat × RawEvent)) :
    Ordered (.new self picks) [] [] [] := by
  have : ∀ tl, Ordered tl [] [] [] →
      Ordered (picks.foldl (fun tl pick => tl.preallocate pick.1 pick.2) tl) [] [] [] := by
    induction picks with
    | nil => exact fun _ h => h
    | cons pick picks ih => exact fun tl h => ih _ (h.preallocate pick.1 pick.2)
  exact this _ (blank self)

theorem setTime (h : Ordered tl stored held xs) (hp : p ∈ held) (t : TimePoint) (d : Milliseconds) :
    Ordered (tl.SetTime p t d) stored held xs := by
  refine ⟨h.list, h.order.congr fun q hq => ?_, h.apart, h.constructed, h.pool, h.unlinked⟩
  refine Function.update_of_ne ?_ _ _
  rintro rfl
  exact (List.nodup_append.1 h.apart).2.2 q (h.mem_iff.1 hq) q (List.mem_append_left _ hp) rfl

/-! ### StoreTimeEvent -/

/-- The loop stops at the last event that is not later than `ev`: everything after it is later. -/
theorem storeLoop_spec (ev : ItemPtr) (h : PoolList tl.mem tl.self xs) {fuel : Nat}
    {as bs : List ItemPtr} (hxs : xs = as ++ bs) (hfuel : as.length < fuel)
    (hbs : ∀ b ∈ bs, tl.m_time ev < tl.m_time b) :
    ∃ as' bs', xs = as' ++ bs' ∧ storeLoop tl ev fuel as.getLast? = .ok as'.getLast? ∧
      (∀ a, as'.getLast? = some a → tl.m_time a ≤ tl.m_time ev) ∧
      ∀ b ∈ bs', tl.m_time ev < tl.m_time b := by
  induction as using List.reverseRecOn generalizing bs fuel with
  | nil =>
    obtain ⟨fuel, rfl⟩ := Nat.exists_eq_add_of_lt hfuel
    exact ⟨[], bs, hxs, rfl, by simp, hbs⟩
  | append_singleton as a ih =>
    obtain ⟨fuel, rfl⟩ : ∃ n, fuel = n + 1 := ⟨fuel - 1, by omega⟩
    simp only [List.length_append, List.length_singleton] at hfuel
    simp only [List.getLast?_append, List.getLast?_singleton, Option.some_or, storeLoop]
    rw [List.append_assoc, List.singleton_append] at hxs
    split
    · next hlt =>
      have hprev : tl.mem.m_pPrevious a = as.getLast? := (hxs ▸ h.chain).prev_eq
      rw [hprev]
      exact ih hxs (by omega) (by simpa [hlt] using hbs)
    · next hle =>
      refine ⟨as ++ [a], bs, by simpa using hxs, by simp, ?_, hbs⟩
      intro a' ha'
      simp only [List.getLast?_append, List.getLast?_singleton, Option.some_or,
        Option.some.injEq] at ha'
      exact ha' ▸ le_of_not_gt hle

theorem store (h : Ordered tl stored held xs) (hp : p ∈ held) :
    ∃ tl' xs', tl.StoreTimeEvent p = .ok tl' ∧ Ordered tl' (stored ++ [p]) (held.erase p) xs' ∧
      tl' = { tl with mem := tl'.mem } := by
  have hpx : p ∉ xs := fun hx =>
    (List.nodup_append.1 h.apart).2.2 p (h.mem_iff.1 hx) p (List.mem_append_left _ hp) rfl
  obtain ⟨hn, hpr⟩ := h.unlinked p hpx
  have hpool := h.pool p (h.constructed p (by simp [hp]))
  obtain ⟨as, bs, rfl, hloop, hlast, hbs⟩ :=
    storeLoop_spec p h.list (List.append_nil xs).symm h.length_lt_fuel (by simp)
  obtain ⟨m', hins, hlist, hframe⟩ := list_insert_after_spec h.list hpx hpool hn hpr
  -- everything up to the position found is no later than the new event
  have has : ∀ a ∈ as, tl.m_time a ≤ tl.m_time p := by
    rcases List.eq_nil_or_concat as with rfl | ⟨as, c, rfl⟩
    · simp
    · have hc : tl.m_time c ≤ tl.m_time p := hlast c (by simp)
      have hs := (List.pairwise_append.1 h.order.sorted).1
      simp only [List.concat_eq_append] at hs ⊢
      intro a ha
      rcases List.mem_append.1 ha with ha | ha
      · exact le_trans ((List.pairwise_append.1 hs).2.2 a ha c (by simp)) hc
      · simp only [List.mem_singleton] at ha
        exact ha ▸ hc
  have hperm : (stored ++ (held ++ tl.m_timeEventPool.m_freeItems)).Perm
      (stored ++ [p] ++ (held.erase p ++ tl.m_timeEventPool.m_freeItems)) := by
    rw [List.append_assoc, List.singleton_append, ← List.cons_append]
    exact .append_left _ (.append_right _ (List.perm_cons_erase hp))
  refine ⟨{ tl with mem := m' }, as ++ p :: bs, ?_, ⟨hlist, h.order.insert has hbs,
    hperm.nodup_iff.1 h.apart, fun r hr => h.constructed r (hperm.mem_iff.2 hr), ?_, ?_⟩, rfl⟩
  · rw [StoreTimeEvent, assert_pos hn, assert_pos hpr, h.list.last]
    simp only [ok_bind, hloop]
    have hfound : ∀ c ∈ as.getLast?, tl.m_time c ≤ tl.m_time p := hlast
    simp only [assert_pos hfound, ok_bind, hins, pure_eq_ok]
  · exact fun q hq => (congrFun hframe.pool q).trans (h.pool q hq)
  · intro q hq
    have hqx : q ∉ as ++ bs := fun hx => hq (by
      rcases List.mem_append.1 hx with hx | hx
      · exact List.mem_append_left _ hx
      · exact List.mem_append_right _ (List.mem_cons_of_mem _ hx))
    obtain ⟨h1, h2⟩ := h.unlinked q hqx
    exact ⟨(hframe.next q hq).trans h1, (hframe.previous q hq).trans h2⟩

/-! ### Free and ExpireEvents -/

theorem free (h : Ordered tl stored held xs) (hp : p ∈ xs) :
    tl.Free p = .ok (freed tl p) ∧ Ordered (freed tl p) (stored.erase p) held (xs.erase p) := by
  have hst := h.mem_iff.1 hp
  obtain ⟨hok, hwf⟩ := h.wellFormed.free hp
  have hpool := h.wellFormed.pool p hp
  have hperm : (stored ++ (held ++ tl.m_timeEventPool.m_freeItems)).Perm
      (stored.erase p ++ (held ++ (tl.m_timeEventPool.m_freeItems ++ [p]))) := by
    refine ((List.perm_cons_erase hst).append_right _).trans ?_
    simpa only [List.cons_append, List.append_assoc] using
      (List.perm_append_singleton p (stored.erase p ++ (held ++ _))).symm
  obtain ⟨as, bs, rfl⟩ := List.append_of_mem hp
  obtain ⟨-, -, hn, hpr, hframe⟩ := list_disconnect_mem h.list hpool
  refine ⟨hok, hwf.list, h.order.erase h.nodup p, hperm.nodup_iff.1 h.apart,
    fun r hr => h.constructed r (hperm.mem_iff.2 hr),
    fun q hq => (congrFun hframe.pool q).trans (h.pool q hq), fun q hq => ?_⟩
  by_cases hqp : q = p
  · subst hqp; exact ⟨hn, hpr⟩
  · have hqx : q ∉ as ++ p :: bs := fun hx => hq ((List.mem_erase_of_ne hqp).2 hx)
    obtain ⟨h1, h2⟩ := h.unlinked q hqx
    exact ⟨(hframe.next q hqx).trans h1, (hframe.previous q hqx).trans h2⟩

theorem freeAll {vs : List ItemPtr} (h : Ordered tl stored held xs) (hvs : vs.Nodup)
    (hsub : vs ⊆ xs) : ∃ tl', vs.foldlM Timeline.Free tl = .ok tl' ∧
      Ordered tl' (stored.diff vs) held (xs.diff vs) := by
  induction vs generalizing tl stored xs with
  | nil => exact ⟨tl, rfl, h⟩
  | cons v vs ih =>
    obtain ⟨hv, hvs⟩ := List.nodup_cons.1 hvs
    obtain ⟨hfree, h₁⟩ := h.free (hsub List.mem_cons_self)
    have hsub' : vs ⊆ xs.erase v := fun p hp =>
      (List.mem_erase_of_ne (ne_of_mem_of_not_mem hp hv)).2 (hsub (List.mem_cons_of_mem _ hp))
    obtain ⟨tl', hok, h'⟩ := ih h₁ hvs hsub'
    refine ⟨tl', ?_, by simpa only [List.diff_cons] using h'⟩
    rw [List.foldlM_cons, hfree]
    exact hok

theorem expire (h : Ordered tl stored held xs) (startTime : TimePoint) (secondsOld : Int) :
    ∃ vs tl' xs', tl.ExpireEvents startTime secondsOld = .ok (vs, tl') ∧
      Ordered tl' (stored.diff vs) held xs' := by
  have hsub : (overdue tl startTime secondsOld xs).Sublist xs := scanUntil_sublist
  obtain ⟨tl', hok, h'⟩ := h.freeAll (h.nodup.sublist hsub) hsub.subset
  refine ⟨_, tl', _, ?_, h'⟩
  rw [h.wellFormed.expire, hok]
  rfl

end Ordered

/-! ### GetTimeEvents and DequeTimeEvents -/

theorem getLoop_spec (as : List ItemPtr) {bs ev : List ItemPtr} {fuel : Nat}
    (h : PoolList tl.mem tl.self (as ++ bs)) (hfuel : bs.length < fuel) :
    getLoop tl fuel bs.head? ev = .ok (ev ++ bs) := by
  induction bs generalizing as fuel ev with
  | nil =>
    obtain ⟨fuel, rfl⟩ : ∃ n, fuel = n + 1 := ⟨fuel - 1, by omega⟩
    simp [getLoop]
  | cons c cs ih =>
    obtain ⟨fuel, rfl⟩ : ∃ n, fuel = n + 1 := ⟨fuel - 1, by omega⟩
    simp only [List.head?_cons, getLoop, h.chain.next_eq]
    rw [ih (as ++ [c]) (by simpa using h) (by simpa using hfuel)]
    simp

/-- `GetTimeEvents` returns the events of the list in order. -/
theorem Ordered.get (h : Ordered tl stored held xs) : tl.GetTimeEvents = .ok xs := by
  rw [GetTimeEvents, h.list.root]
  exact getLoop_spec [] h.list h.length_lt_fuel

/-- The events that a scan of `xs` by `DequeTimeEvents` delivers. -/
def due (tl : Timeline) (type : TypeId) (upTo : TimePoint) : List ItemPtr → List ItemPtr
  | [] => []
  | c :: cs =>
    if tl.m_triggered c then due tl type upTo cs
    else if upTo < tl.m_time c then []
    else if tl.GetType c = type then c :: due tl type upTo cs
    else due tl type upTo cs

variable {type : TypeId} {upTo : TimePoint}

/-- Marking events that the scan does not meet does not change what it delivers. -/
theorem due_congr {xs : List ItemPtr} {triggered : ItemPtr → Bool}
    (h : ∀ p ∈ xs, triggered p = tl.m_triggered p) :
    due { tl with m_triggered := triggered } type upTo xs = due tl type upTo xs := by
  induction xs with
  | nil => rfl
  | cons c cs ih =>
    simp only [due, h c List.mem_cons_self, ih fun p hp => h p (List.mem_cons_of_mem _ hp)]

/-- The timeline after the events `ps` have been delivered. -/
def markTriggered (tl : Timeline) (ps : List ItemPtr) : Timeline :=
  { tl with m_triggered := fun p => tl.m_triggered p || decide (p ∈ ps) }

theorem dequeLoop_spec (as ev : List ItemPtr) {bs : List ItemPtr} {fuel : Nat} {last : TimePoint}
    (h : PoolList tl.mem tl.self (as ++ bs))
    (hs : bs.Pairwise fun a b => tl.m_time a ≤ tl.m_time b)
    (hlast : ∀ b ∈ bs, last ≤ tl.m_time b) (hfuel : bs.length < fuel) :
    dequeLoop type upTo fuel tl bs.head? last ev =
      .ok (ev ++ due tl type upTo bs, tl.markTriggered (due tl type upTo bs)) := by
  induction bs generalizing tl as ev fuel last with
  | nil =>
    obtain ⟨fuel, rfl⟩ : ∃ n, fuel = n + 1 := ⟨fuel - 1, by omega⟩
    simp [dequeLoop, due, markTriggered]
  | cons c cs ih =>
    obtain ⟨fuel, rfl⟩ : ∃ n, fuel = n + 1 := ⟨fuel - 1, by omega⟩
    have hfuel : cs.length < fuel := by simpa using hfuel
    have hnext := h.chain.next_eq
    obtain ⟨hc, hs⟩ := List.pairwise_cons.1 hs
    have h' : PoolList tl.mem tl.self (as ++ [c] ++ cs) := by simpa using h
    have hskip := ih _ ev h' hs (fun b hb => hlast b (List.mem_cons_of_mem _ hb)) hfuel
    simp only [List.head?_cons, dequeLoop, due, hnext]
    split_ifs with htr hup hty
    · exact hskip
    · simp [markTriggered]
    · -- the event is delivered; the rest of the scan does not meet it again
      have hcs : c ∉ cs := by
        have := (List.nodup_append.1 h.chain.nodup).2.1
        exact (List.nodup_cons.1 this).1
      let tl₁ : Timeline := { tl with m_triggered := Function.update tl.m_triggered c true }
      have hloop : dequeLoop type upTo fuel tl₁ cs.head? (tl.m_time c) (ev ++ [c]) = _ :=
        ih _ (ev ++ [c]) h' hs hc hfuel
      have hother : ∀ p ∈ cs, Function.update tl.m_triggered c true p = tl.m_triggered p :=
        fun p hp => Function.update_of_ne (by rintro rfl; exact hcs hp) _ _
      rw [assert_pos (hlast c List.mem_cons_self), ok_bind, hloop, due_congr hother]
      simp only [List.append_assoc, List.singleton_append, markTriggered, Except.ok.injEq,
        Prod.mk.injEq, true_and]
      congr 1
      funext p
      by_cases hpc : p = c <;> simp [tl₁, hpc]
    · exact hskip

theorem Ordered.deque (h : Ordered tl stored held xs) (type : TypeId) (upTo : TimePoint) :
    tl.DequeTimeEvents type upTo =
      .ok (due tl type upTo xs, tl.markTriggered (due tl type upTo xs)) := by
  rw [DequeTimeEvents, h.list.root]
  exact dequeLoop_spec [] [] h.list h.order.sorted
    (fun b _ => TimePoint.min_le _) h.length_lt_fuel

end MUtils.Timeline
