import MUtils.Verify.TimelineOrder

/-!
# Runs of the timeline

A run is any sequence of calls by clients that store an event at most once between its `Alloc` and
its `Free`, set its time only before they store it and free only stored events. The history of the
calls says which events are stored (`stored`) and which are held by a client (`held`), and
`Run.timeline_in_order` compares the list of the timeline with it.
-/

namespace MUtils.Timeline
open DoublyLinked

/-- A call of a client, with what it returned. -/
inductive Call where
  | alloc (pick : Option Nat) (raw : RawEvent) (p : ItemPtr)
  | setTime (p : ItemPtr) (t : TimePoint) (d : Milliseconds)
  | store (p : ItemPtr)
  | expire (startTime : TimePoint) (secondsOld : Int) (victims : List ItemPtr)
  | deque (type : TypeId) (upTo : TimePoint) (ev : List ItemPtr)
  | free (p : ItemPtr)

/-- The call takes the timeline from `tl` to `tl'`. -/
inductive Performs (tl : Timeline) : Call → Timeline → Prop
  | alloc : Performs tl (.alloc pick raw (tl.Alloc pick raw).1) (tl.Alloc pick raw).2
  | setTime : Performs tl (.setTime p t d) (tl.SetTime p t d)
  | store : tl.StoreTimeEvent p = .ok tl' → Performs tl (.store p) tl'
  | expire : tl.ExpireEvents startTime secondsOld = .ok (victims, tl') →
      Performs tl (.expire startTime secondsOld victims) tl'
  | deque : tl.DequeTimeEvents type upTo = .ok (ev, tl') → Performs tl (.deque type upTo ev) tl'
  | free : tl.Free p = .ok tl' → Performs tl (.free p) tl'

/-- The events allocated and not yet stored, after the calls of `h` (the latest first). -/
def held : List Call → List ItemPtr
  | [] => []
  | .alloc _ _ p :: h => p :: held h
  | .store p :: h => (held h).erase p
  | _ :: h => held h

/-- The events stored and not yet freed or expired, in the order of storing, after the calls of
`h` (the latest first). -/
def stored : List Call → List ItemPtr
  | [] => []
  | .store p :: h => stored h ++ [p]
  | .expire _ _ victims :: h => (stored h).diff victims
  | .free p :: h => (stored h).erase p
  | _ :: h => stored h

/-- What a client may do after the calls of `h`: set the time of an event it holds, store it, and
free an event that is stored. -/
def Allowed (h : List Call) : Call → Prop
  | .setTime p _ _ | .store p => p ∈ held h
  | .free p => p ∈ stored h
  | _ => True

/-- The runs of a timeline: `h` is the calls made so far, the latest first. The pool's constructor
allocates 1000 times. -/
inductive Run : List Call → Timeline → Prop
  | new : picks.length = 1000 → Run [] (.new pool picks)
  | call : Run h tl → Allowed h c → Performs tl c tl' → Run (c :: h) tl'

variable {tl tl' : Timeline} {xs : List ItemPtr} {h : List Call} {c : Call}

/-- One call keeps the invariant. -/
theorem Ordered.call (H : Ordered tl (stored h) (held h) xs) (hc : Allowed h c)
    (hstep : Performs tl c tl') : ∃ xs', Ordered tl' (stored (c :: h)) (held (c :: h)) xs' := by
  cases hstep with
  | alloc => exact ⟨xs, H.alloc _ _⟩
  | setTime => exact ⟨xs, H.setTime hc _ _⟩
  | store hok =>
    obtain ⟨tl₁, xs', hok', H', -⟩ := H.store hc
    rw [hok'] at hok; cases hok
    exact ⟨xs', H'⟩
  | expire hok =>
    obtain ⟨vs, tl₁, xs', hok', H'⟩ := H.expire _ _
    rw [hok'] at hok; cases hok
    exact ⟨xs', H'⟩
  | deque hok =>
    rw [H.deque] at hok; cases hok
    exact ⟨xs, H.list, H.order, H.apart, H.constructed, H.pool, H.unlinked⟩
  | free hok =>
    obtain ⟨hok', H'⟩ := H.free (H.mem_iff.2 hc)
    rw [hok'] at hok; cases hok
    exact ⟨_, H'⟩

/-- Every run keeps the invariant. -/
theorem Run.ordered (H : Run h tl) : ∃ xs, Ordered tl (stored h) (held h) xs := by
  induction H with
  | new => exact ⟨[], .new _ _⟩
  | call _ hc hstep ih =>
    obtain ⟨xs, hxs⟩ := ih
    exact hxs.call hc hstep

/-- **The timeline is in order.** After every run, the two traversals of the list end and visit
the same events in opposite orders; these are the events stored and not yet freed or expired, each
once, in non-decreasing order of time and, at equal times, in the order of storing, which is the
order that `GetTimeEvents` returns them in. No assert fires in the next call, whichever it is. -/
theorem Run.timeline_in_order (H : Run h tl) :
    (∃ xs, Walk tl.mem.m_pNext (tl.mem.m_pRoot tl.self) xs ∧
        Walk tl.mem.m_pPrevious (tl.mem.m_pLast tl.self) xs.reverse ∧
        tl.GetTimeEvents = .ok xs ∧
        (tl.mem.m_pRoot tl.self = none ↔ tl.mem.m_pLast tl.self = none) ∧
        xs.Nodup ∧ (∀ p, p ∈ xs ↔ p ∈ stored h) ∧
        xs.Pairwise fun a b => tl.m_time a < tl.m_time b ∨
          tl.m_time a = tl.m_time b ∧ [a, b].Sublist (stored h)) ∧
      (∀ p ∈ held h, ∃ tl', tl.StoreTimeEvent p = .ok tl') ∧
      (∀ startTime secondsOld, ∃ r, tl.ExpireEvents startTime secondsOld = .ok r) ∧
      (∀ type upTo, ∃ r, tl.DequeTimeEvents type upTo = .ok r) ∧
      ∀ p ∈ stored h, ∃ tl', tl.Free p = .ok tl' := by
  obtain ⟨xs, hxs⟩ := H.ordered
  refine ⟨⟨xs, ?_, ?_, hxs.get, ?_, hxs.nodup, fun p => hxs.mem_iff, hxs.order.order⟩,
    fun p hp => ?_, fun startTime secondsOld => ?_, fun type upTo => ⟨_, hxs.deque type upTo⟩,
    fun p hp => ?_⟩
  · rw [hxs.list.root]; exact hxs.list.chain.walk
  · rw [hxs.list.last]; exact hxs.list.chain.walk_back
  · rw [hxs.list.root, hxs.list.last, List.head?_eq_none_iff, List.getLast?_eq_none_iff]
  · obtain ⟨tl', _, hok, -⟩ := hxs.store hp
    exact ⟨tl', hok⟩
  · obtain ⟨vs, tl', _, hok, -⟩ := hxs.expire startTime secondsOld
    exact ⟨_, hok⟩
  · exact ⟨_, (hxs.free (hxs.mem_iff.2 hp)).1⟩

/-- A client can store one more event, with any time. -/
theorem Run.storeNew (H : Run h tl) (type : TypeId) (t : TimePoint) : ∃ p tl',
    Run (.store p :: .setTime p t .zero :: .alloc none ⟨.zero, type⟩ p :: h) tl' ∧
      tl'.m_time p = t ∧ tl'.GetType p = type ∧
      ∀ q ∈ stored h, tl'.m_time q = tl.m_time q ∧ tl'.GetType q = tl.GetType q := by
  obtain ⟨xs, hxs⟩ := H.ordered
  have hnew : tl.m_timeEventPool.constructed ∉ stored h := fun hp =>
    Nat.lt_irrefl _ (hxs.constructed _ (List.mem_append_left _ hp))
  have h₁ := H.call (c := .alloc none ⟨.zero, type⟩ _) trivial .alloc
  have h₂ := h₁.call (c := .setTime _ t .zero) List.mem_cons_self .setTime
  obtain ⟨ys, hys⟩ := h₂.ordered
  obtain ⟨tl', zs, hok, -, htl⟩ := hys.store List.mem_cons_self
  refine ⟨_, tl', h₂.call (c := .store _) List.mem_cons_self (.store hok), ?_, ?_, ?_⟩
  · rw [htl]
    exact Function.update_self _ _ _
  · rw [htl]
    exact Function.update_self _ _ _
  · intro q hq
    have hne : q ≠ tl.m_timeEventPool.constructed := ne_of_mem_of_not_mem hq hnew
    rw [htl]
    exact ⟨(Function.update_of_ne hne _ _).trans (Function.update_of_ne hne _ _),
      Function.update_of_ne hne _ _⟩

/-- Events that are stored with the times 2, 5, 5 and 3: the last one goes between the others, and
the two of the same time keep their order. -/
theorem Run.timeline_in_order_store : ∃ p₀ p₁ p₂ p₃ h tl, Run h tl ∧
    stored h = [p₀, p₁, p₂, p₃] ∧ (stored h).map (fun p => (tl.m_time p).ns) = [2, 5, 5, 3] ∧
      Walk tl.mem.m_pNext (tl.mem.m_pRoot tl.self) [p₀, p₃, p₁, p₂] := by
  have h₀ : Run [] (.new 0 (List.replicate 1000 (none, ⟨.zero, 0⟩))) := .new List.length_replicate
  obtain ⟨p₀, tl₁, h₁, ht₀, -⟩ := h₀.storeNew 0 ⟨2, by decide⟩
  obtain ⟨p₁, tl₂, h₂, ht₁, -, hs₁⟩ := h₁.storeNew 0 ⟨5, by decide⟩
  obtain ⟨p₂, tl₃, h₃, ht₂, -, hs₂⟩ := h₂.storeNew 0 ⟨5, by decide⟩
  obtain ⟨p₃, tl, h₄, ht₃, -, hs₃⟩ := h₃.storeNew 0 ⟨3, by decide⟩
  simp only [stored, List.nil_append, List.cons_append, List.mem_cons, List.not_mem_nil, or_false,
    forall_eq_or_imp, forall_eq] at hs₁ hs₂ hs₃
  have ht₀ : tl.m_time p₀ = ⟨2, by decide⟩ := by rw [hs₃.1.1, hs₂.1.1, hs₁.1, ht₀]
  have ht₁ : tl.m_time p₁ = ⟨5, by decide⟩ := by rw [hs₃.2.1.1, hs₂.2.1, ht₁]
  have ht₂ : tl.m_time p₂ = ⟨5, by decide⟩ := by rw [hs₃.2.2.1, ht₂]
  obtain ⟨zs, hzs⟩ := h₄.ordered
  have hstored : [p₀, p₁, p₂, p₃].Nodup := hzs.order.perm.nodup_iff.1 hzs.nodup
  obtain ⟨⟨xs, hwalk, -, -, -, hnd, hmem, horder⟩, -⟩ := h₄.timeline_in_order
  have hxs : StableOrder tl.m_time [p₀, p₁, p₂, p₃] xs :=
    ⟨(List.perm_ext_iff_of_nodup hnd hstored).2 hmem, horder⟩
  have hys : StableOrder tl.m_time [p₀, p₁, p₂, p₃] [p₀, p₃, p₁, p₂] := by
    refine ⟨(List.perm_append_singleton p₃ [p₁, p₂]).symm.cons p₀, ?_⟩
    simp only [List.pairwise_cons, List.mem_cons, List.not_mem_nil, or_false, forall_eq_or_imp,
      forall_eq, ht₀, ht₁, ht₂, ht₃]
    exact ⟨⟨.inl (by decide), .inl (by decide), .inl (by decide)⟩,
      ⟨.inl (by decide), .inl (by decide)⟩, .inr ⟨trivial, by simp⟩, by simp⟩
  rw [hxs.unique hys hstored] at hwalk
  exact ⟨p₀, p₁, p₂, p₃, _, tl, h₄, rfl, by simp [stored, ht₀, ht₁, ht₂, ht₃], hwalk⟩

end MUtils.Timeline
