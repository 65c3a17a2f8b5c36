import MUtils.Verify.PoolOwnership

/-!
# From the construction of a pool to its destruction

A constructor fills the free items by calls of `Alloc`, which takes what is free: each round after
the first gets back the item of the round before, and a pool of any size starts with one item
(`Built.preallocates_iff`).

`Clear` deletes the free items. The thread-safe pool takes each of them out of its queue before;
`MemoryPool` leaves them in its vector, where the next `Alloc` or `Clear` finds them
(`Run.final_iff`).
-/

namespace MUtils.IMemoryPool

/-- The pool after its constructor was called with `initialSize := n`, for queues that hand out
items as `queue` says. -/
inductive Built (queue : IMemoryPool → Option Nat → Prop) (cls : PoolClass) :
    Nat → IMemoryPool → Prop
  | zero : Built queue cls 0 (.empty cls)
  | succ : Built queue cls n impl → queue impl pick →
      Built queue cls (n + 1) (impl.preallocate pick)

/-! ### Preallocation -/

/-- Calls of `Alloc`, `k` of them, and of `Free` with items that they returned. The items in `live`
have not been freed yet. -/
inductive Uses (impl₀ : IMemoryPool) : IMemoryPool → List ItemPtr → Nat → Prop
  | start : Uses impl₀ impl₀ [] 0
  | alloc : Uses impl₀ impl live k → impl.Supplies pick →
      Uses impl₀ (impl.AllocWith pick).2 ((impl.AllocWith pick).1.1 :: live) (k + 1)
  | free : Uses impl₀ impl live k → p ∈ live → Uses impl₀ (impl.Free p) (live.erase p) k

section
variable {impl impl₀ : IMemoryPool} {cls : PoolClass} {n k : Nat} {live : List ItemPtr}

/-- As many calls of `Alloc` as there are free items need no new item. -/
theorem Uses.served (h : Uses impl₀ impl live k) (hk : k ≤ impl₀.m_freeItems.length) :
    impl.constructed = impl₀.constructed ∧
      impl₀.m_freeItems.length ≤ impl.m_freeItems.length + k := by
  induction h with
  | start => exact ⟨rfl, Nat.le_refl _⟩
  | @alloc impl _ k _ _ hs ih =>
    obtain ⟨hc, hlen⟩ := ih (by omega)
    rcases allocWith_allocates hs with ⟨hfree, -, -, -⟩ | ⟨hperm, hc'⟩
    · rw [hfree, List.length_nil] at hlen
      omega
    · have := hperm.length_eq
      rw [List.length_cons] at this
      exact ⟨hc'.trans hc, by omega⟩
  | free _ _ ih =>
    obtain ⟨hc, hlen⟩ := ih hk
    rw [free_constructed, free_freeItems, List.length_append]
    exact ⟨hc, by omega⟩

/-- One item for all rounds of the constructor. -/
theorem Built.freeItems (h : Built Supplies cls n impl) :
    impl.m_freeItems = List.range (min n 1) ∧ impl.constructed = min n 1 := by
  induction h with
  | zero => cases cls <;> exact ⟨rfl, rfl⟩
  | @succ n impl pick _ hq ih =>
    obtain ⟨hfree, hc⟩ := ih
    rw [Nat.min_eq_right (Nat.succ_le_succ (Nat.zero_le n))]
    simp only [preallocate, free_freeItems, free_constructed]
    rcases allocWith_allocates hq with ⟨hnil, hp, hnil', hc'⟩ | ⟨hperm, hc'⟩
    · obtain rfl : n = 0 := by
        rw [hfree] at hnil
        simpa using hnil
      rw [hnil', hc', hp, hc]
      exact ⟨rfl, rfl⟩
    · -- the one free item goes out and comes back
      rw [hfree] at hperm
      have hlen := hperm.length_eq
      rw [List.length_range, List.length_cons] at hlen
      have hmin : min n 1 = 1 := by omega
      rw [hmin, List.range_one] at hperm
      have hone := List.perm_singleton.1 hperm.symm
      rw [List.cons.injEq] at hone
      rw [hone.1, hone.2, hc', hc, hmin]
      exact ⟨rfl, rfl⟩

/-- The free items are as many as the constructor was asked for, and serve as many calls, only if it
was asked for at most one. -/
theorem Built.preallocates_iff (h : Built Supplies cls n impl) :
    (impl.m_freeItems.length = n ∧ impl.m_freeItems.Nodup ↔ n ≤ 1) ∧
      ((∀ impl' live k, Uses impl impl' live k → k ≤ n → impl'.constructed = impl.constructed) ↔
        n ≤ 1) := by
  obtain ⟨hfree, hc⟩ := h.freeItems
  have hlen : impl.m_freeItems.length = min n 1 := by rw [hfree, List.length_range]
  refine ⟨?_, fun huse => ?_, fun hn impl' live k huse hk => ?_⟩
  · rw [hlen, hfree]
    exact ⟨fun hh => by omega, fun hh => ⟨by omega, List.nodup_range⟩⟩
  · by_contra hn
    -- the first of two calls takes the only free item
    have h₁ := Uses.start.alloc impl.supplies_front
    have h₂ := h₁.alloc (supplies_front _)
    have hc₁ := huse _ _ _ h₁ (by omega)
    have hc₂ := huse _ _ _ h₂ (by omega)
    have hnil : (impl.AllocWith (some 0)).2.m_freeItems = [] := by
      rcases allocWith_allocates impl.supplies_front with ⟨-, -, hnil, -⟩ | ⟨hperm, -⟩
      · exact hnil
      · have := hperm.length_eq
        rw [List.length_cons] at this
        exact List.length_eq_zero_iff.1 (by omega)
    rcases allocWith_allocates (impl.AllocWith (some 0)).2.supplies_front with
      ⟨-, -, -, hnew⟩ | ⟨hperm, -⟩
    · omega
    · rw [hnil] at hperm
      exact List.cons_ne_nil _ _ hperm.symm.eq_nil
  · exact (huse.served (by omega)).1

theorem Built.preallocates_iff_one : ∃ impl, Built Supplies .TSMemoryPool 1 impl ∧
    impl.m_freeItems.length = 1 ∧ impl.m_freeItems.Nodup := by
  have h : Built Supplies .TSMemoryPool 1 _ := .succ .zero (supplies_front _)
  exact ⟨_, h, h.preallocates_iff.1.2 (Nat.le_refl 1)⟩

/-- A pool made for two items has one free item, and the second `Alloc` constructs another. -/
theorem Built.two_not_preallocated :
    (∃ impl, Built Supplies .TSMemoryPool 2 impl ∧ impl.m_freeItems = [0]) ∧
    ∃ impl, Built Supplies .MemoryPool 2 impl ∧ impl.m_freeItems = [0] ∧
      ∃ impl' live, Uses impl impl' live 2 ∧ impl'.constructed = impl.constructed + 1 := by
  constructor
  · exact ⟨_, .succ (.succ .zero (supplies_front _)) (supplies_front _), rfl⟩
  · exact ⟨_, .succ (.succ .zero (supplies_front _)) (supplies_front _), rfl, _, _,
      .alloc (.alloc .start (supplies_front _)) (supplies_front _), rfl⟩

end

/-! ### Deletion -/

/-- A call of a client, with the item that it returned or was given; for `Clear` with the free items
that it found and the ones that it deleted. -/
inductive Call where
  | alloc (p : ItemPtr)
  | free (p : ItemPtr)
  | clear (found victims : List ItemPtr)

/-- The items that were allocated and not freed, after the calls of `h` (the latest first). -/
def live : List Call → List ItemPtr
  | [] => []
  | .alloc p :: h => p :: live h
  | .free p :: h => (live h).erase p
  | .clear _ _ :: h => live h

/-- The items that were deleted, the earliest first. -/
def deleted : List Call → List ItemPtr
  | [] => []
  | .clear _ victims :: h => deleted h ++ victims
  | _ :: h => deleted h

/-- No call of `Alloc` has returned an item that was deleted before. -/
def NeverReused : List Call → Prop
  | [] => True
  | .alloc p :: h => p ∉ deleted h ∧ NeverReused h
  | _ :: h => NeverReused h

/-- Deleting an item is the last thing that happens to it. -/
def Final (h : List Call) : Prop := (deleted h).Nodup ∧ NeverReused h

/-- The runs of a pool: `h` is the calls made so far, the latest first. The queue of a thread-safe
pool may hand out its items in any order and report to be empty at any time. -/
inductive Run (cls : PoolClass) : List Call → IMemoryPool → Prop
  | new : Built (fun _ _ => True) cls n impl → Run cls [] impl
  | alloc : Run cls h impl → Run cls (.alloc (impl.AllocWith pick).1.1 :: h) (impl.AllocWith pick).2
  | free : Run cls h impl → p ∈ live h → Run cls (.free p :: h) (impl.Free p)
  | clear : Run cls h impl →
      Run cls (.clear impl.m_freeItems (impl.Clear picks).1 :: h) (impl.Clear picks).2

variable {impl impl' : IMemoryPool} {cls : PoolClass} {h : List Call} {p : ItemPtr}
  {victims : List ItemPtr}

theorem deleted_eq_nil_iff : deleted h = [] ↔ ∀ found vs, .clear found vs ∈ h → vs = [] := by
  induction h with
  | nil => simp [deleted]
  | cons c h ih => cases c <;> simp [deleted, ih, or_imp, forall_and, and_comm]

/-- The class that implements the pool. -/
def classOf : IMemoryPool → PoolClass
  | memoryPool _ => .MemoryPool
  | tsMemoryPool _ => .TSMemoryPool

theorem classOf_allocWith (impl : IMemoryPool) (pick : Option Nat) :
    (impl.AllocWith pick).2.classOf = impl.classOf := by cases impl <;> rfl

theorem classOf_free (impl : IMemoryPool) (p : ItemPtr) : (impl.Free p).classOf = impl.classOf := by
  cases impl <;> rfl

theorem classOf_clear (impl : IMemoryPool) (picks : List Nat) :
    (impl.Clear picks).2.classOf = impl.classOf := by cases impl <;> rfl

theorem Built.classOf {queue : IMemoryPool → Option Nat → Prop} {n : Nat}
    (H : Built queue cls n impl) : impl.classOf = cls := by
  induction H with
  | zero => cases cls <;> rfl
  | succ _ _ ih => rw [preallocate, classOf_free, classOf_allocWith, ih]

theorem Run.classOf (H : Run cls h impl) : impl.classOf = cls := by
  induction H with
  | new H => exact H.classOf
  | alloc _ ih => rw [classOf_allocWith, ih]
  | free _ _ ih => rw [classOf_free, ih]
  | clear _ ih => rw [classOf_clear, ih]

/-! ### What `Clear` deletes -/

theorem tsClear_perm (pool : TSMemoryPool) (picks : List Nat) :
    pool.m_freeItems.Perm ((pool.Clear picks).1 ++ (pool.Clear picks).2.m_freeItems) ∧
      (pool.Clear picks).2.constructed = pool.constructed := by
  induction picks generalizing pool with
  | nil => exact ⟨.refl _, rfl⟩
  | cons pick picks ih =>
    rw [TSMemoryPool.Clear]
    split
    · exact ⟨.refl _, rfl⟩
    · next p hp =>
      obtain ⟨hperm, hc⟩ := ih { pool with m_freeItems := pool.m_freeItems.erase p }
      have hmem : p ∈ pool.m_freeItems := List.mem_of_getElem? hp
      exact ⟨(List.perm_cons_erase hmem).trans (hperm.cons p), hc⟩

theorem clear_constructed (impl : IMemoryPool) (picks : List Nat) :
    (impl.Clear picks).2.constructed = impl.constructed := by
  cases impl with
  | memoryPool pool => rfl
  | tsMemoryPool pool => exact (tsClear_perm pool picks).2

theorem clear_subperm (impl : IMemoryPool) (picks : List Nat) :
    (impl.Clear picks).1.Subperm impl.m_freeItems := by
  cases impl with
  | memoryPool pool => exact .refl _
  | tsMemoryPool pool =>
    exact (List.sublist_append_left _ _).subperm.trans (tsClear_perm pool picks).1.symm.subperm

theorem clear_memoryPool (h : impl.classOf = .MemoryPool) (picks : List Nat) :
    impl.Clear picks = (impl.m_freeItems, impl) := by
  cases impl with
  | memoryPool pool => rfl
  | tsMemoryPool pool => cases h

/-- What was deleted is not free any more, unless a `MemoryPool` deleted it. -/
theorem clear_perm (picks : List Nat)
    (h : impl.classOf = .TSMemoryPool ∨ impl.m_freeItems = []) :
    impl.m_freeItems.Perm ((impl.Clear picks).1 ++ (impl.Clear picks).2.m_freeItems) := by
  cases hcls : impl.classOf with
  | MemoryPool =>
    rw [hcls] at h
    rw [clear_memoryPool hcls picks, h.resolve_left nofun]
    rfl
  | TSMemoryPool =>
    cases impl with
    | memoryPool pool => cases hcls
    | tsMemoryPool pool => exact (tsClear_perm pool picks).1

/-! ### Free, live and deleted items -/

/-- An item is free, live or deleted, and only one of these. -/
structure Apart (impl : IMemoryPool) (h : List Call) : Prop where
  nodup : (impl.m_freeItems ++ (live h ++ deleted h)).Nodup
  constructed : ∀ p ∈ impl.m_freeItems ++ (live h ++ deleted h), p < impl.constructed
  neverReused : NeverReused h

namespace Apart

theorem of_perm (H : Apart impl h) {c : Call} (hc : impl'.constructed = impl.constructed)
    (hperm : (impl.m_freeItems ++ (live h ++ deleted h)).Perm
      (impl'.m_freeItems ++ (live (c :: h) ++ deleted (c :: h))))
    (hnew : NeverReused (c :: h)) : Apart impl' (c :: h) :=
  ⟨hperm.nodup_iff.1 H.nodup, fun p hp => hc ▸ H.constructed p (hperm.mem_iff.2 hp), hnew⟩

theorem alloc (H : Apart impl h) (pick : Option Nat) :
    Apart (impl.AllocWith pick).2 (.alloc (impl.AllocWith pick).1.1 :: h) := by
  rcases impl.allocWith_handsOut pick with ⟨-, hp, hfree, hc⟩ | ⟨hperm, hc⟩
  · -- a new item
    have hnew : impl.constructed ∉ impl.m_freeItems ++ (live h ++ deleted h) := fun hmem =>
      Nat.lt_irrefl _ (H.constructed _ hmem)
    rw [hp]
    refine ⟨?_, ?_, fun hmem => hnew ?_, H.neverReused⟩
    · rw [hfree]
      exact List.nodup_middle.2 (List.nodup_cons.2 ⟨hnew, H.nodup⟩)
    · rw [hfree, hc]
      intro q hq
      rcases List.mem_cons.1 (List.perm_middle.mem_iff.1 hq) with rfl | hq
      · exact Nat.lt_succ_self _
      · exact Nat.lt_succ_of_lt (H.constructed q hq)
    · exact List.mem_append_right _ (List.mem_append_right _ hmem)
  · have hfree := hperm.mem_iff.2 List.mem_cons_self
    refine H.of_perm hc ((hperm.append_right _).trans List.perm_middle.symm) ⟨fun hmem => ?_,
      H.neverReused⟩
    exact (List.nodup_append.1 H.nodup).2.2 _ hfree _ (List.mem_append_right _ hmem) rfl

theorem free (H : Apart impl h) (hp : p ∈ live h) : Apart (impl.Free p) (.free p :: h) := by
  refine H.of_perm (free_constructed impl p) ?_ H.neverReused
  rw [free_freeItems, List.append_assoc]
  exact .append_left _ ((List.perm_cons_erase hp).append_right _)

theorem clear (H : Apart impl h) (picks : List Nat)
    (hout : impl.classOf = .TSMemoryPool ∨ impl.m_freeItems = []) :
    Apart (impl.Clear picks).2 (.clear impl.m_freeItems (impl.Clear picks).1 :: h) := by
  refine H.of_perm (clear_constructed impl picks) ?_ H.neverReused
  refine ((clear_perm picks hout).append_right _).trans ?_
  rw [List.append_assoc]
  refine List.perm_append_comm.trans ?_
  rw [List.append_assoc, List.append_assoc]
  exact .refl _

/-- Whatever the pool is, the next `Clear` deletes items that have not been deleted. -/
theorem final (H : Apart impl h) (picks : List Nat) :
    Final (.clear impl.m_freeItems (impl.Clear picks).1 :: h) := by
  refine ⟨?_, H.neverReused⟩
  have hnd : (deleted h ++ impl.m_freeItems).Nodup :=
    List.nodup_append_comm.1 (H.nodup.sublist ((List.sublist_append_right _ _).append_left _))
  obtain ⟨vs, hperm, hsub⟩ := impl.clear_subperm picks
  exact (hperm.append_left _).nodup_iff.1 (hnd.sublist (hsub.append_left _))

end Apart

theorem Built.apart {queue : IMemoryPool → Option Nat → Prop} {n : Nat}
    (H : Built queue cls n impl) : Apart impl [] := by
  induction H with
  | zero => cases cls <;> exact ⟨.nil, nofun, trivial⟩
  | @succ n impl pick _ _ ih =>
    have H := (ih.alloc pick).free List.mem_cons_self
    have hlive : live [.free (impl.AllocWith pick).1.1, .alloc (impl.AllocWith pick).1.1] = [] :=
      List.erase_cons_head _ _
    have hnd := H.nodup
    have hcon := H.constructed
    rw [hlive] at hnd hcon
    exact ⟨hnd, hcon, trivial⟩

/-- Either the pool takes out what it deletes, or there was nothing to delete. -/
def ClearsSafe (cls : PoolClass) (h : List Call) : Prop :=
  cls = .TSMemoryPool ∨ ∀ found vs, .clear found vs ∈ h → found = []

theorem ClearsSafe.tail {c : Call} (hok : ClearsSafe cls (c :: h)) : ClearsSafe cls h :=
  hok.imp_right fun hc found vs hvs => hc found vs (List.mem_cons_of_mem c hvs)

theorem Run.apart (H : Run cls h impl) (hok : ClearsSafe cls h) : Apart impl h := by
  induction H with
  | new H => exact H.apart
  | alloc _ ih => exact (ih hok.tail).alloc _
  | free _ hp ih => exact (ih hok.tail).free hp
  | clear hrun ih =>
    apply (ih hok.tail).clear
    rw [hrun.classOf]
    exact hok.imp_right fun hc => hc _ _ List.mem_cons_self

/-- `MemoryPool` deletes whatever is free. -/
theorem Run.victims_eq_found (H : Run .MemoryPool h impl) {found : List ItemPtr}
    (hc : .clear found victims ∈ h) : victims = found := by
  induction H with
  | new => cases hc
  | alloc _ ih => exact ih ((List.mem_cons.1 hc).resolve_left nofun)
  | free _ _ ih => exact ih ((List.mem_cons.1 hc).resolve_left nofun)
  | clear hrun ih =>
    rw [clear_memoryPool hrun.classOf] at hc
    rcases List.mem_cons.1 hc with heq | hc
    · cases heq
      rfl
    · exact ih hc

/-- What a `MemoryPool` has deleted stays among its free items until `Alloc` hands it out. -/
theorem Run.deleted_free (H : Run .MemoryPool h impl) (hnew : NeverReused h) (hp : p ∈ deleted h) :
    p ∈ impl.m_freeItems := by
  induction H with
  | new => cases hp
  | @alloc h impl pick _ ih =>
    have hfree := ih hnew.2 hp
    rcases impl.allocWith_handsOut pick with ⟨-, -, hfree', -⟩ | ⟨hperm, -⟩
    · exact hfree' ▸ hfree
    · refine (List.mem_cons.1 (hperm.mem_iff.1 hfree)).resolve_left ?_
      rintro rfl
      exact hnew.1 hp
  | free _ _ ih =>
    rw [free_freeItems]
    exact List.mem_append_left _ (ih hnew hp)
  | clear hrun ih =>
    rw [clear_memoryPool hrun.classOf] at hp ⊢
    rcases List.mem_append.1 hp with hp | hp
    · exact ih hnew hp
    · exact hp

/-- For every run that ends with the destructor's call of `Clear`: a pool that does not take out
what it deletes has to have no free items each time that it is cleared before. -/
theorem Run.final_iff (H : Run cls h impl) (picks : List Nat) :
    Final (.clear impl.m_freeItems (impl.Clear picks).1 :: h) ↔
      cls = .TSMemoryPool ∨ ∀ freeItems vs, .clear freeItems vs ∈ h → freeItems = [] := by
  constructor
  · rintro ⟨hnd, hnew⟩
    cases cls with
    | TSMemoryPool => exact .inl rfl
    | MemoryPool =>
      refine .inr fun found vs hc => ?_
      have hnone : deleted h = [] := List.eq_nil_iff_forall_not_mem.2 fun p hp => by
        rw [clear_memoryPool H.classOf] at hnd
        exact (List.nodup_append.1 hnd).2.2 p hp p (H.deleted_free hnew hp) rfl
      rw [← H.victims_eq_found hc]
      exact deleted_eq_nil_iff.1 hnone found vs hc
  · exact fun hok => (H.apart hok).final picks

/-- A pool for one item. -/
def oneItem (cls : PoolClass) : IMemoryPool := (empty cls).preallocate none

theorem built_oneItem : Built (fun _ _ => True) cls 1 (oneItem cls) := .succ .zero trivial

/-- A thread-safe pool for one item, which is cleared and then destroyed. -/
theorem Run.final_iff_tsMemoryPool : ∃ impl, Run .TSMemoryPool [.clear [0] [0]] impl ∧
    Final [.clear impl.m_freeItems (impl.Clear []).1, .clear [0] [0]] := by
  have hrun : Run .TSMemoryPool
      [.clear (oneItem .TSMemoryPool).m_freeItems ((oneItem .TSMemoryPool).Clear [0]).1]
      ((oneItem .TSMemoryPool).Clear [0]).2 := .clear (.new built_oneItem)
  exact ⟨_, hrun, (hrun.final_iff []).2 (.inl rfl)⟩

/-- A `MemoryPool` for one item that is cleared deletes the item again when it is destroyed, or
hands it out. -/
theorem Run.not_final_memoryPool : ∃ impl, Run .MemoryPool [.clear [0] [0]] impl ∧
    ¬Final [.clear impl.m_freeItems (impl.Clear []).1, .clear [0] [0]] ∧
    Run .MemoryPool [.alloc 0, .clear [0] [0]] (impl.AllocWith none).2 := by
  have hrun : Run .MemoryPool [.clear [0] [0]] ((oneItem .MemoryPool).Clear []).2 :=
    .clear (.new built_oneItem)
  refine ⟨_, hrun, ?_, hrun.alloc⟩
  rintro ⟨hnd, -⟩
  exact absurd hnd (by decide)

end MUtils.IMemoryPool
