import MUtils.Verify.TimelineRuns

/-!
# Every event is delivered exactly once

As long as nothing is freed or expired, a stored event is triggered exactly when a call of
`DequeTimeEvents` has returned it (`Delivery`). The scan stops at the first untriggered event that
is too late; in a list sorted by time it therefore delivers *all* untriggered events of its type
that are due (`due_eq_filter`), however the times `upTo` of the calls move.
-/

namespace MUtils.Timeline

variable {tl tl' : Timeline} {xs : List ItemPtr} {h h₁ h₂ : List Call} {c : Call} {p : ItemPtr}
  {type : TypeId} {upTo : TimePoint}

/-- In a sorted list, stopping early loses nothing. -/
theorem due_eq_filter (hs : xs.Pairwise fun a b => tl.m_time a ≤ tl.m_time b) :
    due tl type upTo xs =
      xs.filter fun p => !tl.m_triggered p && decide (tl.m_time p ≤ upTo) &&
        decide (tl.GetType p = type) := by
  induction xs with
  | nil => rfl
  | cons c cs ih =>
    obtain ⟨hc, hs⟩ := List.pairwise_cons.1 hs
    rw [due]
    split_ifs with htr hup hty
    · rw [ih hs, List.filter_cons_of_neg (by simp [htr])]
    · refine (List.filter_eq_nil_iff.2 fun p hp => ?_).symm
      have hlate : upTo < tl.m_time p := by
        rcases List.mem_cons.1 hp with rfl | hp
        · exact hup
        · exact lt_of_lt_of_le hup (hc p hp)
      simp [not_le.2 hlate]
    · rw [ih hs, List.filter_cons_of_pos (by simp [htr, not_lt.1 hup, hty])]
    · rw [ih hs, List.filter_cons_of_neg (by simp [hty])]

/-- The call neither frees nor expires events. -/
def Call.Keeps : Call → Prop
  | .expire .. | .free _ => False
  | _ => True

/-- The events returned by the calls of `DequeTimeEvents` in `h`, the earliest first. -/
def delivered : List Call → List ItemPtr
  | [] => []
  | .deque _ _ ev :: h => delivered h ++ ev
  | _ :: h => delivered h

theorem mem_delivered : p ∈ delivered h ↔ ∃ type upTo ev, .deque type upTo ev ∈ h ∧ p ∈ ev := by
  induction h with
  | nil => simp [delivered]
  | cons c h ih =>
    cases c with
    | deque type upTo ev =>
      simp only [delivered, List.mem_append, ih, List.mem_cons, Call.deque.injEq]
      constructor
      · rintro (⟨t, u, e, hm, hp⟩ | hp)
        · exact ⟨t, u, e, .inr hm, hp⟩
        · exact ⟨type, upTo, ev, .inl ⟨rfl, rfl, rfl⟩, hp⟩
      · rintro ⟨t, u, e, ⟨rfl, rfl, rfl⟩ | hm, hp⟩
        · exact .inr hp
        · exact .inl ⟨t, u, e, hm, hp⟩
    | _ => simp only [delivered, ih, List.mem_cons, reduceCtorEq, false_or]

theorem stored_mono (hk : c.Keeps) (hp : p ∈ stored h) : p ∈ stored (c :: h) := by
  cases c with
  | store q => exact List.mem_append_left _ hp
  | expire _ _ _ | free _ => exact hk.elim
  | _ => exact hp

theorem stored_mono_append (hk : ∀ c ∈ h₂, c.Keeps) (hp : p ∈ stored h₁) :
    p ∈ stored (h₂ ++ h₁) := by
  induction h₂ with
  | nil => exact hp
  | cons c h₂ ih =>
    exact stored_mono (hk c List.mem_cons_self) (ih fun c hc => hk c (List.mem_cons_of_mem _ hc))

/-- Which events are triggered, after the calls of `h`. -/
structure Delivery (tl : Timeline) (h : List Call) : Prop where
  delivered_stored : ∀ p ∈ delivered h, p ∈ stored h
  triggered : ∀ p ∈ stored h, tl.m_triggered p = true ↔ p ∈ delivered h
  held_untriggered : ∀ p ∈ held h, tl.m_triggered p = false
  nodup : (delivered h).Nodup

theorem Ordered.held_not_stored {stored held : List ItemPtr} (H : Ordered tl stored held xs)
    (hp : p ∈ held) : p ∉ stored := fun hs =>
  (List.nodup_append.1 H.apart).2.2 p hs p (List.mem_append_left _ hp) rfl

theorem Ordered.mem_due (H : Ordered tl (stored h) (held h) xs) (D : Delivery tl h) :
    p ∈ due tl type upTo xs ↔
      p ∈ stored h ∧ p ∉ delivered h ∧ tl.GetType p = type ∧ tl.m_time p ≤ upTo := by
  rw [due_eq_filter H.order.sorted, List.mem_filter, H.mem_iff]
  constructor
  · rintro ⟨hs, hd⟩
    simp only [Bool.and_eq_true, Bool.not_eq_true', decide_eq_true_eq] at hd
    refine ⟨hs, fun hdel => ?_, hd.2, hd.1.2⟩
    rw [(D.triggered p hs).2 hdel] at hd
    cases hd.1.1
  · rintro ⟨hs, hdel, hty, hup⟩
    have : tl.m_triggered p = false := by
      rw [← Bool.not_eq_true, D.triggered p hs]; exact hdel
    exact ⟨hs, by simp [this, hty, hup]⟩

theorem Delivery.new (self : PoolPtr) (picks : List (Option Nat × RawEvent)) :
    Delivery (.new self picks) [] where
  delivered_stored p hp := by cases hp
  triggered p hp := by cases hp
  held_untriggered p hp := by cases hp
  nodup := List.nodup_nil

theorem Alloc_triggered (tl : Timeline) (pick : Option Nat) (raw : RawEvent) (q : ItemPtr) :
    (tl.Alloc pick raw).2.m_triggered q =
      if q = (tl.Alloc pick raw).1 then false else tl.m_triggered q := by
  cases hd : tl.m_timeEventPool.try_dequeue pick <;>
    simp +contextual [Alloc, TSMemoryPool.Alloc, hd, construct, Function.update_apply]

/-- `Alloc` touches the time and the type of no event but the one it returns. -/
theorem Alloc_other (tl : Timeline) (pick : Option Nat) (raw : RawEvent) {q : ItemPtr}
    (hq : q ≠ (tl.Alloc pick raw).1) :
    (tl.Alloc pick raw).2.m_time q = tl.m_time q ∧
      (tl.Alloc pick raw).2.GetType q = tl.GetType q := by
  cases hd : tl.m_timeEventPool.try_dequeue pick <;>
    simp_all [Alloc, TSMemoryPool.Alloc, construct]

/-- One call that keeps its events moves triggered flags and deliveries together. -/
theorem Delivery.call (H : Ordered tl (stored h) (held h) xs) (D : Delivery tl h)
    (hc : Allowed h c) (hk : c.Keeps) (hstep : Performs tl c tl') : Delivery tl' (c :: h) := by
  cases hstep with
  | @alloc pick raw =>
    have hnew : (tl.Alloc pick raw).1 ∉ stored h :=
      (H.alloc pick raw).held_not_stored List.mem_cons_self
    refine ⟨D.delivered_stored, fun p hp => ?_, fun p hp => ?_, D.nodup⟩
    · have hne : p ≠ (tl.Alloc pick raw).1 := fun he => hnew (he ▸ hp)
      rw [Alloc_triggered, if_neg hne]
      exact D.triggered p hp
    · rw [Alloc_triggered]
      split_ifs with he
      · rfl
      · exact D.held_untriggered p ((List.mem_cons.1 hp).resolve_left he)
  | setTime => exact ⟨D.delivered_stored, D.triggered, D.held_untriggered, D.nodup⟩
  | @store _ q hok =>
    obtain ⟨tl₁, xs', hok', H', htl⟩ := H.store hc
    rw [hok'] at hok; cases hok
    have htr : tl'.m_triggered = tl.m_triggered := by rw [htl]
    refine ⟨fun p hp => stored_mono hk (D.delivered_stored p hp), fun p hp => ?_, fun p hp => ?_,
      D.nodup⟩
    · rw [htr]
      rcases List.mem_append.1 hp with hp | hp
      · exact D.triggered p hp
      · obtain rfl := List.mem_singleton.1 hp
        rw [D.held_untriggered p hc]
        exact ⟨fun h => (Bool.false_ne_true h).elim,
          fun hd => (H.held_not_stored hc (D.delivered_stored p hd)).elim⟩
    · rw [htr]; exact D.held_untriggered p (List.mem_of_mem_erase hp)
  | expire => exact hk.elim
  | free => exact hk.elim
  | @deque type upTo _ _ hok =>
    rw [H.deque] at hok; cases hok
    refine ⟨fun p hp => ?_, fun p hp => ?_, fun p hp => ?_, ?_⟩
    · rcases List.mem_append.1 hp with hp | hp
      · exact D.delivered_stored p hp
      · exact ((H.mem_due D).1 hp).1
    · simp only [markTriggered, delivered, Bool.or_eq_true, decide_eq_true_eq, List.mem_append,
        D.triggered p hp]
    · simp only [markTriggered, D.held_untriggered p hp, Bool.false_or, decide_eq_false_iff_not]
      exact fun hd => H.held_not_stored hp ((H.mem_due D).1 hd).1
    · refine List.nodup_append.2 ⟨D.nodup, ?_, ?_⟩
      · rw [due_eq_filter H.order.sorted]; exact H.nodup.filter _
      · rintro p hp _ hd rfl
        exact ((H.mem_due D).1 hd).2.1 hp

theorem Run.delivery (H : Run h tl) (hk : ∀ c ∈ h, c.Keeps) : Delivery tl h := by
  induction H with
  | new => exact .new _ _
  | call hrun hc hstep ih =>
    obtain ⟨xs, hxs⟩ := hrun.ordered
    exact .call hxs (ih fun c hc => hk c (List.mem_cons_of_mem _ hc)) hc (hk _ List.mem_cons_self)
      hstep

/-- A call changes neither the time nor the type of a stored event. -/
theorem Ordered.call_stable (H : Ordered tl (stored h) (held h) xs) (hc : Allowed h c)
    (hk : c.Keeps) (hstep : Performs tl c tl') (hp : p ∈ stored h) :
    tl'.m_time p = tl.m_time p ∧ tl'.GetType p = tl.GetType p := by
  cases hstep with
  | @alloc pick raw =>
    exact Alloc_other _ _ _ fun he =>
      (H.alloc pick raw).held_not_stored List.mem_cons_self (he ▸ hp)
  | setTime =>
    refine ⟨Function.update_of_ne ?_ _ _, rfl⟩
    rintro rfl
    exact H.held_not_stored hc hp
  | store hok =>
    obtain ⟨tl₁, xs', hok', -, htl⟩ := H.store hc
    rw [hok'] at hok; cases hok
    rw [htl]; exact ⟨rfl, rfl⟩
  | expire => exact hk.elim
  | free => exact hk.elim
  | deque hok => rw [H.deque] at hok; cases hok; exact ⟨rfl, rfl⟩

/-- What a call of `DequeTimeEvents` made after `h₁` returns: all stored, undelivered events of
its type that are due, each once and in order of time. -/
structure Delivers (tl : Timeline) (h₁ : List Call) (type : TypeId) (upTo : TimePoint)
    (ev : List ItemPtr) : Prop where
  mem : ∀ p, p ∈ ev ↔
    p ∈ stored h₁ ∧ p ∉ delivered h₁ ∧ tl.GetType p = type ∧ tl.m_time p ≤ upTo
  nodup : ev.Nodup
  sorted : ev.Pairwise fun a b => tl.m_time a ≤ tl.m_time b

/-- Times and types of stored events do not change, so what was returned can be read off later. -/
theorem Delivers.congr {ev : List ItemPtr} (H : Delivers tl h₁ type upTo ev)
    (hs : ∀ p ∈ stored h₁, tl'.m_time p = tl.m_time p ∧ tl'.GetType p = tl.GetType p) :
    Delivers tl' h₁ type upTo ev := by
  refine ⟨fun p => ?_, H.nodup, H.sorted.imp_of_mem fun {a b} ha hb hab => ?_⟩
  · rw [H.mem p]
    constructor
    · rintro ⟨h1, h2, h3, h4⟩
      exact ⟨h1, h2, (hs p h1).2 ▸ h3, (hs p h1).1 ▸ h4⟩
    · rintro ⟨h1, h2, h3, h4⟩
      exact ⟨h1, h2, (hs p h1).2 ▸ h3, (hs p h1).1 ▸ h4⟩
  · rw [(hs a ((H.mem a).1 ha).1).1, (hs b ((H.mem b).1 hb).1).1]; exact hab

theorem Run.delivers (H : Run h tl) (hk : ∀ c ∈ h, c.Keeps) {ev : List ItemPtr}
    (hsplit : h = h₂ ++ .deque type upTo ev :: h₁) : Delivers tl h₁ type upTo ev := by
  induction H generalizing h₂ with
  | new => simp at hsplit
  | @call h tl c tl' hrun hc hstep ih =>
    obtain ⟨xs, hxs⟩ := hrun.ordered
    have hk' : ∀ c ∈ h, c.Keeps := fun c hc => hk c (List.mem_cons_of_mem _ hc)
    have hkc := hk c List.mem_cons_self
    have hstable := fun p hp => hxs.call_stable (p := p) hc hkc hstep hp
    cases h₂ with
    | nil =>
      obtain ⟨rfl, rfl⟩ := List.cons.inj hsplit
      cases hstep with
      | deque hok =>
        have hdue := hxs.deque type upTo
        rw [hok] at hdue; cases hdue
        have hD : Delivers tl h type upTo (due tl type upTo xs) := by
          refine ⟨fun p => hxs.mem_due (hrun.delivery hk'), ?_, ?_⟩
          · rw [due_eq_filter hxs.order.sorted]; exact hxs.nodup.filter _
          · rw [due_eq_filter hxs.order.sorted]; exact hxs.order.sorted.filter _
        exact hD.congr hstable
    | cons _ h₂ =>
      obtain ⟨rfl, rfl⟩ := List.cons.inj hsplit
      refine (ih hk' rfl).congr fun p hp => hstable p ?_
      have hp' : p ∈ stored (.deque type upTo ev :: h₁) := stored_mono trivial hp
      exact stored_mono_append (fun c hc => hk' c (List.mem_append_left _ hc)) hp'

theorem Run.suffix (H : Run (h₂ ++ h₁) tl) : ∃ tl₁, Run h₁ tl₁ := by
  induction h₂ generalizing tl with
  | nil => exact ⟨tl, H⟩
  | cons c h₂ ih => cases H with | call hrun _ _ => exact ih hrun

/-- **Exactly-once delivery.** In every run that frees and expires nothing: each call of
`DequeTimeEvents` returned exactly the stored and so far undelivered events of its type with
`m_time ≤ upTo`, in order of time; no event was returned twice; a stored event was returned by the
first later call of its type whose `upTo` reaches its time; and the next call does not fail. -/
theorem Run.exactly_once (H : Run h tl) (hk : ∀ c ∈ h, c.Keeps) :
    (∀ h₂ type upTo ev h₁, h = h₂ ++ .deque type upTo ev :: h₁ →
        (∀ p, p ∈ ev ↔
          p ∈ stored h₁ ∧ p ∉ delivered h₁ ∧ tl.GetType p = type ∧ tl.m_time p ≤ upTo) ∧
        ev.Nodup ∧ ev.Pairwise fun a b => tl.m_time a ≤ tl.m_time b) ∧
      (delivered h).Nodup ∧
      (∀ h₃ type upTo ev h₂ p h₁, h = h₃ ++ .deque type upTo ev :: (h₂ ++ .store p :: h₁) →
        tl.GetType p = type → tl.m_time p ≤ upTo →
        (∀ upTo' ev', .deque type upTo' ev' ∈ h₂ → upTo' < tl.m_time p) → p ∈ ev) ∧
      ∀ type upTo, ∃ r, tl.DequeTimeEvents type upTo = .ok r := by
  obtain ⟨xs, hxs⟩ := H.ordered
  refine ⟨?_, (H.delivery hk).nodup, ?_, fun type upTo => ⟨_, hxs.deque type upTo⟩⟩
  · intro h₂ type upTo ev h₁ hsplit
    have hD := H.delivers hk hsplit
    exact ⟨hD.mem, hD.nodup, hD.sorted⟩
  · intro h₃ type upTo ev h₂ p h₁ hsplit hty hup hfirst
    refine ((H.delivers hk hsplit).mem p).2 ⟨?_, fun hdel => ?_, hty, hup⟩
    · refine stored_mono_append (fun c hc => hk c ?_) (List.mem_append_right _ (by simp))
      simp [hsplit, hc]
    · -- an earlier delivery is after the event was stored, of its type, and late enough
      obtain ⟨type', upTo', ev', hmem, hp⟩ := mem_delivered.1 hdel
      rcases List.mem_append.1 hmem with hmem | hmem
      · obtain ⟨k₂, k₁, rfl⟩ := List.append_of_mem hmem
        have hsuffix : h = (h₃ ++ .deque type upTo ev :: k₂) ++
            .deque type' upTo' ev' :: (k₁ ++ .store p :: h₁) := by simp [hsplit]
        have hD := H.delivers hk hsuffix
        obtain ⟨-, -, hty', hup'⟩ := (hD.mem p).1 hp
        obtain rfl : type = type' := hty.symm.trans hty'
        exact not_lt.2 hup' (hfirst upTo' ev' hmem)
      · have hsuffix : h = (h₃ ++ .deque type upTo ev :: h₂) ++ .store p :: h₁ := by simp [hsplit]
        obtain ⟨tl₁, hrun⟩ := (hsuffix ▸ H).suffix
        cases hrun with
        | call hrun hc _ =>
          obtain ⟨ys, hys⟩ := hrun.ordered
          have hk₁ : ∀ c ∈ h₁, c.Keeps := fun c hc => hk c (by simp [hsplit, hc])
          refine hys.held_not_stored hc ((hrun.delivery hk₁).delivered_stored p ?_)
          refine mem_delivered.2 ⟨type', upTo', ev', ?_, hp⟩
          simpa using hmem

/-- A client can take events at any time; times and types stay. -/
theorem Run.deque (H : Run h tl) (type : TypeId) (upTo : TimePoint) : ∃ ev tl',
    Run (.deque type upTo ev :: h) tl' ∧ tl'.m_time = tl.m_time ∧ tl'.GetType = tl.GetType := by
  obtain ⟨xs, hxs⟩ := H.ordered
  exact ⟨_, _, H.call trivial (.deque (hxs.deque type upTo)), rfl, rfl⟩

/-- Events of type 7 that are stored with the times 2, 5 and 5; a call up to 4 delivers the first
one. Then one is stored that is earlier than all of them, and a call up to 9 delivers the rest. -/
theorem Run.exactly_once_deque : ∃ p₀ p₁ p₂ p₃ ev₁ ev₂ h tl, Run h tl ∧
    stored h = [p₀, p₁, p₂, p₃] ∧ (stored h).map (fun p => (tl.m_time p).ns) = [2, 5, 5, 1] ∧
      delivered h = ev₁ ++ ev₂ ∧ (∀ p, p ∈ ev₁ ↔ p = p₀) ∧
      (∀ p, p ∈ ev₂ ↔ p = p₁ ∨ p = p₂ ∨ p = p₃) ∧
      ev₂.Pairwise fun a b => tl.m_time a ≤ tl.m_time b := by
  have h₀ : Run [] (.new 0 (List.replicate 1000 (none, ⟨.zero, 7⟩))) := .new List.length_replicate
  obtain ⟨p₀, tl₁, h₁, ht₀, hy₀, -⟩ := h₀.storeNew 7 ⟨2, by decide⟩
  obtain ⟨p₁, tl₂, h₂, ht₁, hy₁, hs₁⟩ := h₁.storeNew 7 ⟨5, by decide⟩
  obtain ⟨p₂, tl₃, h₃, ht₂, hy₂, hs₂⟩ := h₂.storeNew 7 ⟨5, by decide⟩
  obtain ⟨ev₁, tl₄, h₄, ht₄, hy₄⟩ := h₃.deque 7 ⟨4, by decide⟩
  obtain ⟨p₃, tl₅, h₅, ht₃, hy₃, hs₃⟩ := h₄.storeNew 7 ⟨1, by decide⟩
  obtain ⟨ev₂, tl, h₆, ht₆, hy₆⟩ := h₅.deque 7 ⟨9, by decide⟩
  simp only [stored, List.nil_append, List.cons_append, List.mem_cons, List.not_mem_nil, or_false,
    forall_eq_or_imp, forall_eq, ht₄, hy₄] at hs₁ hs₂ hs₃
  obtain ⟨ht₀, hy₀⟩ : tl.m_time p₀ = ⟨2, by decide⟩ ∧ tl.GetType p₀ = 7 := by
    simp only [ht₆, hy₆, hs₃, hs₂, hs₁, ht₀, hy₀, and_self]
  obtain ⟨ht₁, hy₁⟩ : tl.m_time p₁ = ⟨5, by decide⟩ ∧ tl.GetType p₁ = 7 := by
    simp only [ht₆, hy₆, hs₃, hs₂, ht₁, hy₁, and_self]
  obtain ⟨ht₂, hy₂⟩ : tl.m_time p₂ = ⟨5, by decide⟩ ∧ tl.GetType p₂ = 7 := by
    simp only [ht₆, hy₆, hs₃, ht₂, hy₂, and_self]
  rw [← ht₆] at ht₃
  rw [← hy₆] at hy₃
  obtain ⟨zs, hzs⟩ := h₆.ordered
  have hnd : [p₀, p₁, p₂, p₃].Nodup := hzs.order.perm.nodup_iff.1 hzs.nodup
  obtain ⟨hall, -⟩ := h₆.exactly_once (by simp [Call.Keeps])
  obtain ⟨hev₁, -⟩ := hall [_, _, _, _] _ _ ev₁ _ rfl
  obtain ⟨hev₂, -, hsorted⟩ := hall [] _ _ ev₂ _ rfl
  have hfirst (p : ItemPtr) : p ∈ ev₁ ↔ p = p₀ := by
    rw [hev₁]
    constructor
    · rintro ⟨hp, -, -, hle⟩
      have hp : p ∈ [p₀, p₁, p₂] := hp
      simp only [List.mem_cons, List.not_mem_nil, or_false] at hp
      rcases hp with rfl | rfl | rfl
      · rfl
      · rw [ht₁] at hle
        exact absurd hle (by decide)
      · rw [ht₂] at hle
        exact absurd hle (by decide)
    · rintro rfl
      refine ⟨?_, List.not_mem_nil, hy₀, ?_⟩
      · exact List.mem_cons_self
      · rw [ht₀]
        decide
  refine ⟨p₀, p₁, p₂, p₃, ev₁, ev₂, _, tl, h₆, rfl, ?_, rfl, hfirst, fun p => ?_, hsorted⟩
  · simp [stored, ht₀, ht₁, ht₂, ht₃]
  · have hstored : p ∈ [p₀, p₁, p₂, p₃] ↔ p = p₀ ∨ p = p₁ ∨ p = p₂ ∨ p = p₃ := by simp
    have hdelivered : p ∉ [] ++ ev₁ ↔ p ≠ p₀ := (hfirst p).not
    have hdue : p = p₁ ∨ p = p₂ ∨ p = p₃ → tl.GetType p = 7 ∧ tl.m_time p ≤ ⟨9, by decide⟩ := by
      rintro (rfl | rfl | rfl)
      · exact ⟨hy₁, ht₁ ▸ by decide⟩
      · exact ⟨hy₂, ht₂ ▸ by decide⟩
      · exact ⟨hy₃, ht₃ ▸ by decide⟩
    refine (hev₂ p).trans ((and_congr hstored (and_congr_left' hdelivered)).trans ?_)
    have hne : p = p₁ ∨ p = p₂ ∨ p = p₃ → p ≠ p₀ := by
      rintro hp rfl
      simp [hp] at hnd
    constructor
    · rintro ⟨hp, hne, -⟩
      exact hp.resolve_left hne
    · exact fun hp => ⟨.inr hp, hne hp, hdue hp⟩

end MUtils.Timeline
