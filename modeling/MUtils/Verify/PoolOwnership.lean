import MUtils.Verify.PoolList

/-!
# Who owns the items of a pool

A client allocates items of a pool, frees them, and sews those that it holds into the pool's list
or takes them out of it (`Pool.Run`). `Pool.Owned` is the invariant: the free items and the items
that the client holds are together the items that were ever constructed, each once, and an item
outside the list has null links. An item is recycled as it is, so what `Alloc` returns is clean
because every way into the free items has unlinked it.
-/

namespace MUtils

/-! ### The free items -/

namespace IMemoryPool

/-- The two ways to hand out `p`. -/
inductive Allocates (impl : IMemoryPool) (p : ItemPtr) (impl' : IMemoryPool) : Prop
  | creates (hfree : impl.m_freeItems = []) (hp : p = impl.constructed)
      (hfree' : impl'.m_freeItems = []) (hc : impl'.constructed = impl.constructed + 1)
  | recycles (hfree : impl.m_freeItems.Perm (p :: impl'.m_freeItems))
      (hc : impl'.constructed = impl.constructed)

/-- The queue hands out an item when it has one. -/
def Supplies (impl : IMemoryPool) (pick : Option Nat) : Prop :=
  impl.m_freeItems ≠ [] → ∃ k < impl.m_freeItems.length, pick = some k

theorem supplies_front (impl : IMemoryPool) : impl.Supplies (some 0) := fun hne =>
  ⟨0, List.length_pos_iff.2 hne, rfl⟩

/-- The two ways to hand out `p` when the queue may report to be empty although it is not. -/
inductive HandsOut (impl : IMemoryPool) (pick : Option Nat) (p : ItemPtr) (impl' : IMemoryPool) :
    Prop
  | creates (hfree : impl.Supplies pick → impl.m_freeItems = []) (hp : p = impl.constructed)
      (hfree' : impl'.m_freeItems = impl.m_freeItems)
      (hc : impl'.constructed = impl.constructed + 1)
  | recycles (hfree : impl.m_freeItems.Perm (p :: impl'.m_freeItems))
      (hc : impl'.constructed = impl.constructed)

theorem allocWith_handsOut (impl : IMemoryPool) (pick : Option Nat) :
    impl.HandsOut pick (impl.AllocWith pick).1.1 (impl.AllocWith pick).2 := by
  cases impl with
  | memoryPool pool =>
    simp only [AllocWith, MemoryPool.Alloc]
    split
    · next hfree => exact .creates (fun _ => List.getLast?_eq_none_iff.1 hfree) rfl rfl rfl
    · next p hfree =>
      refine .recycles ?_ rfl
      change pool.m_freeItems.Perm (p :: pool.m_freeItems.dropLast)
      rw [← List.dropLast_append_getLast? p hfree, List.dropLast_concat]
      exact List.perm_append_singleton p _
  | tsMemoryPool pool =>
    simp only [AllocWith, TSMemoryPool.Alloc]
    split
    · next hfree =>
      refine .creates (fun hs => ?_) rfl rfl rfl
      by_contra hne
      obtain ⟨k, hk, rfl⟩ := hs hne
      have hk : k < pool.m_freeItems.length := hk
      simp [TSMemoryPool.try_dequeue, hk] at hfree
    · next p hfree =>
      obtain ⟨k, -, hk⟩ := Option.bind_eq_some_iff.1 hfree
      exact .recycles (List.perm_cons_erase (List.mem_of_getElem? hk)) rfl

theorem allocWith_allocates {impl : IMemoryPool} {pick : Option Nat} (hs : impl.Supplies pick) :
    impl.Allocates (impl.AllocWith pick).1.1 (impl.AllocWith pick).2 := by
  cases impl.allocWith_handsOut pick with
  | creates hfree hp hfree' hc => exact .creates (hfree hs) hp (hfree'.trans (hfree hs)) hc
  | recycles hperm hc => exact .recycles hperm hc

theorem alloc_allocates (impl : IMemoryPool) : impl.Allocates impl.Alloc.1.1 impl.Alloc.2 := by
  have h := allocWith_allocates impl.supplies_front
  cases impl <;> exact h

@[simp] theorem alloc_id (impl : IMemoryPool) : impl.Alloc.1.2 = impl.m_nextId := by
  cases impl with
  | memoryPool pool =>
    simp only [IMemoryPool.Alloc, MemoryPool.Alloc]
    split <;> rfl
  | tsMemoryPool pool =>
    simp only [IMemoryPool.Alloc, TSMemoryPool.Alloc]
    split <;> rfl

@[simp] theorem alloc_nextId (impl : IMemoryPool) : impl.Alloc.2.m_nextId = impl.m_nextId + 1 := by
  cases impl with
  | memoryPool pool =>
    simp only [IMemoryPool.Alloc, MemoryPool.Alloc]
    split <;> rfl
  | tsMemoryPool pool =>
    simp only [IMemoryPool.Alloc, TSMemoryPool.Alloc]
    split <;> rfl

variable (impl : IMemoryPool) (p : ItemPtr)

@[simp] theorem free_freeItems : (impl.Free p).m_freeItems = impl.m_freeItems ++ [p] := by
  cases impl <;> rfl

@[simp] theorem free_nextId : (impl.Free p).m_nextId = impl.m_nextId := by cases impl <;> rfl

@[simp] theorem free_constructed : (impl.Free p).constructed = impl.constructed := by
  cases impl <;> rfl

end IMemoryPool

namespace Pool
open Outcome DoublyLinked Relation

/-! ### Runs -/

/-- `m_pNext` leads from the root of the list to `p`. -/
def Listed (pool : Pool) (p : ItemPtr) : Prop :=
  ∃ root, pool.mem.m_pRoot pool.self = some root ∧
    ReflTransGen (fun q r => pool.mem.m_pNext q = some r) root p

/-- The id that `Alloc` stores in the item it returns. -/
def allocId (pool : Pool) : UInt64 := pool.Alloc.2.m_id pool.Alloc.1

/-- The ids that the constructor has stored, the latest first. -/
def newIds (cls : PoolClass) (self : PoolPtr) : Nat → List UInt64
  | 0 => []
  | n + 1 => (new cls self n).allocId :: newIds cls self n

/-- What a client can do with a pool. The indices record the items that are live and all ids that
were ever assigned. -/
inductive Run (cls : PoolClass) (self : PoolPtr) (initialSize : Nat) :
    Pool → List ItemPtr → List UInt64 → Prop
  | new : Run cls self initialSize (.new cls self initialSize) [] (newIds cls self initialSize)
  | alloc : Run cls self initialSize pool live ids →
      Run cls self initialSize pool.Alloc.2 (pool.Alloc.1 :: live) (pool.allocId :: ids)
  | free : Run cls self initialSize pool live ids → p ∈ live → pool.Free p = .ok pool' →
      Run cls self initialSize pool' (live.erase p) ids
  | insert_after : Run cls self initialSize pool live ids → p ∈ live → ¬pool.Listed p →
      (∀ q ∈ pos, pool.Listed q) → list_insert_after pool.mem pos p = .ok mem' →
      Run cls self initialSize { pool with mem := mem' } live ids
  | insert_before : Run cls self initialSize pool live ids → p ∈ live → ¬pool.Listed p →
      (∀ q ∈ pos, pool.Listed q) → list_insert_before pool.mem pos p = .ok mem' →
      Run cls self initialSize { pool with mem := mem' } live ids
  | disconnect : Run cls self initialSize pool live ids → p ∈ live →
      Run cls self initialSize { pool with mem := (list_disconnect pool.mem p).1 } live ids

/-! ### The invariant -/

/-- `xs` is the list of the pool, `live` the items that the client holds, `ids` the ids assigned. -/
structure Owned (pool : Pool) (live : List ItemPtr) (ids : List UInt64) (xs : List ItemPtr) :
    Prop where
  list : PoolList pool.mem pool.self xs
  held : ∀ p ∈ xs, p ∈ live
  partition : (pool.impl.m_freeItems ++ live).Perm (List.range pool.impl.constructed)
  owner : ∀ p < pool.impl.constructed, pool.mem.m_pPool p = some pool.self
  unlinked : ∀ p ∉ xs, pool.mem.m_pNext p = none ∧ pool.mem.m_pPrevious p = none
  assigned : ∀ id ∈ ids, ∃ k < ids.length, id = UInt64.ofNat k
  nextId : pool.impl.m_nextId = UInt64.ofNat ids.length

variable {pool pool' : Pool} {live xs ys : List ItemPtr} {ids : List UInt64} {p q : ItemPtr}
  {pos : Option ItemPtr} {mem' : ListMem} {cls : PoolClass} {self : PoolPtr} {initialSize : Nat}

theorem alloc_self (pool : Pool) : pool.Alloc.2.self = pool.self := by
  simp only [Alloc]
  split <;> rfl

theorem alloc_impl : pool.Alloc.2.impl = pool.impl.Alloc.2 := rfl

theorem allocId_eq : pool.allocId = pool.impl.m_nextId := by
  simp [allocId, Alloc]

theorem alloc_mem_nil (hfree : pool.impl.m_freeItems = []) :
    pool.Alloc.2.mem = (pool.construct pool.Alloc.1).mem := by
  simp only [Alloc, hfree, List.isEmpty_nil, if_true]

theorem alloc_mem_of_ne_nil (hfree : pool.impl.m_freeItems ≠ []) :
    pool.Alloc.2.mem = pool.mem := by
  simp [Alloc, hfree]

namespace Owned

theorem blank : Owned (.blank cls self) [] [] [] where
  list := ⟨.nil, rfl, rfl⟩
  held p hp := by cases hp
  partition := by cases cls <;> exact List.Perm.refl _
  owner p hp := by cases cls <;> cases hp
  unlinked _ _ := ⟨rfl, rfl⟩
  assigned id hid := by cases hid
  nextId := by cases cls <;> rfl

theorem lt_constructed (h : Owned pool live ids xs) (hp : p ∈ pool.impl.m_freeItems ++ live) :
    p < pool.impl.constructed :=
  List.mem_range.1 (h.partition.mem_iff.1 hp)

theorem nodup (h : Owned pool live ids xs) : (pool.impl.m_freeItems ++ live).Nodup :=
  h.partition.nodup_iff.2 List.nodup_range

theorem owner_of_live (h : Owned pool live ids xs) (hp : p ∈ live) :
    pool.mem.m_pPool p = some pool.self :=
  h.owner p (h.lt_constructed (List.mem_append_right _ hp))

theorem listed_iff (h : Owned pool live ids xs) : pool.Listed p ↔ p ∈ xs := by
  rw [h.list.chain.mem_iff_reach, Listed, h.list.root]

/-! ### Alloc -/

theorem alloc_not_mem (h : Owned pool live ids xs) : pool.Alloc.1 ∉ live := by
  intro hp
  rcases pool.impl.alloc_allocates with ⟨-, hnew, -, -⟩ | ⟨hperm, -⟩
  · have := h.lt_constructed (List.mem_append_right _ hp)
    exact Nat.lt_irrefl _ (hnew ▸ this)
  · have hfree : pool.Alloc.1 ∈ pool.impl.m_freeItems := hperm.mem_iff.2 List.mem_cons_self
    exact (List.nodup_append.1 h.nodup).2.2 _ hfree _ hp rfl

theorem allocId_not_mem (h : Owned pool live ids xs) (hlt : ids.length < 2 ^ 64) :
    pool.allocId ∉ ids := by
  intro hid
  obtain ⟨k, hk, heq⟩ := h.assigned _ hid
  rw [allocId_eq, h.nextId] at heq
  have := congrArg UInt64.toNat heq
  rw [UInt64.toNat_ofNat', UInt64.toNat_ofNat'] at this
  omega

theorem alloc_partition (h : Owned pool live ids xs) :
    (pool.Alloc.2.impl.m_freeItems ++ pool.Alloc.1 :: live).Perm
      (List.range pool.Alloc.2.impl.constructed) := by
  rw [alloc_impl]
  rcases pool.impl.alloc_allocates with ⟨hfree, hnew, hfree', hc⟩ | ⟨hperm, hc⟩
  · have hlive := h.partition
    rw [hfree, List.nil_append] at hlive
    rw [hfree', hc, List.range_succ, List.nil_append]
    change (pool.impl.Alloc.1.1 :: live).Perm _
    rw [hnew]
    exact (hlive.cons _).trans (List.perm_append_singleton _ _).symm
  · rw [hc]
    exact List.perm_middle.trans ((hperm.append_right live).symm.trans h.partition)

/-- A new item is constructed unlinked; a recycled one is left as it was. -/
theorem alloc_mem (h : Owned pool live ids xs) :
    PoolList pool.Alloc.2.mem pool.self xs ∧
    (∀ q < pool.Alloc.2.impl.constructed, pool.Alloc.2.mem.m_pPool q = some pool.self) ∧
    ∀ q ∉ xs, pool.Alloc.2.mem.m_pNext q = none ∧ pool.Alloc.2.mem.m_pPrevious q = none := by
  rw [alloc_impl]
  rcases pool.impl.alloc_allocates with ⟨hfree, hnew, -, hc⟩ | ⟨hperm, hc⟩
  · have hne : ∀ q ∈ xs, q ≠ pool.Alloc.1 := fun q hq hh => h.alloc_not_mem (hh ▸ h.held q hq)
    rw [alloc_mem_nil hfree, construct]
    refine ⟨h.list.congr ?_ ?_ rfl rfl, fun q hq => ?_, fun q hq => ?_⟩
    · exact fun q hq => Function.update_of_ne (hne q hq) _ _
    · exact fun q hq => Function.update_of_ne (hne q hq) _ _
    · simp only [Function.update_apply]
      split
      · rfl
      · next hq' =>
        have hne : q ≠ pool.impl.constructed := fun hh => hq' (hh.trans hnew.symm)
        exact h.owner q (by omega)
    · simp only [Function.update_apply]
      split
      · exact ⟨rfl, rfl⟩
      · exact h.unlinked q hq
  · have hfree : pool.impl.m_freeItems ≠ [] := fun hh => by simp [hh] at hperm
    rw [alloc_mem_of_ne_nil hfree, hc]
    exact ⟨h.list, h.owner, h.unlinked⟩

theorem alloc (h : Owned pool live ids xs) :
    Owned pool.Alloc.2 (pool.Alloc.1 :: live) (pool.allocId :: ids) xs := by
  obtain ⟨hlist, howner, hunlinked⟩ := h.alloc_mem
  rw [← pool.alloc_self] at hlist howner
  refine ⟨hlist, fun q hq => List.mem_cons_of_mem _ (h.held q hq), h.alloc_partition, howner,
    hunlinked, ?_, ?_⟩
  · intro id hid
    rcases List.mem_cons.1 hid with rfl | hid
    · exact ⟨ids.length, Nat.lt_succ_self _, by rw [allocId_eq, h.nextId]⟩
    · obtain ⟨k, hk, rfl⟩ := h.assigned id hid
      exact ⟨k, Nat.lt_succ_of_lt hk, rfl⟩
  · rw [alloc_impl, IMemoryPool.alloc_nextId, h.nextId, List.length_cons]
    exact (UInt64.ofNat_add _ _).symm

/-- Giving back an item that is in no list. -/
theorem giveBack (h : Owned pool live ids xs) (hp : p ∈ live) (hxs : p ∉ xs) :
    Owned { pool with impl := pool.impl.Free p } (live.erase p) ids xs := by
  refine ⟨h.list, fun q hq => ?_, ?_, ?_, h.unlinked, h.assigned, ?_⟩
  · have hne : q ≠ p := fun hh => hxs (hh ▸ hq)
    exact (List.mem_erase_of_ne hne).2 (h.held q hq)
  · rw [IMemoryPool.free_freeItems, IMemoryPool.free_constructed, List.append_assoc,
      List.singleton_append]
    exact ((List.perm_cons_erase hp).symm.append_left _).trans h.partition
  · rw [IMemoryPool.free_constructed]
    exact h.owner
  · rw [IMemoryPool.free_nextId]
    exact h.nextId

theorem new : Owned (.new cls self initialSize) [] (newIds cls self initialSize) [] := by
  induction initialSize with
  | zero => exact blank
  | succ n ih =>
    have h := ih.alloc.giveBack List.mem_cons_self List.not_mem_nil
    rw [List.erase_cons_head] at h
    rw [Pool.new, Function.iterate_succ_apply']
    exact h

/-! ### Links -/

/-- A change of links that leaves the items outside the new list alone. -/
theorem relink (h : Owned pool live ids xs) (hl : PoolList mem' pool.self ys)
    (hpool : mem'.m_pPool = pool.mem.m_pPool) (hheld : ∀ q ∈ ys, q ∈ live)
    (hout : ∀ q ∉ ys, mem'.m_pNext q = none ∧ mem'.m_pPrevious q = none) :
    Owned { pool with mem := mem' } live ids ys :=
  ⟨hl, hheld, h.partition, fun q hq => (congrFun hpool q).trans (h.owner q hq), hout, h.assigned,
    h.nextId⟩

theorem disconnect (h : Owned pool live ids xs) (hp : p ∈ live) :
    Owned { pool with mem := (list_disconnect pool.mem p).1 } live ids (xs.erase p) := by
  have howner := h.owner_of_live hp
  by_cases hxs : p ∈ xs
  · obtain ⟨as, bs, rfl⟩ := List.append_of_mem hxs
    have hnd := h.list.chain.nodup
    have herase : (as ++ p :: bs).erase p = as ++ bs := by
      have : p ∉ as := fun hh => (List.nodup_append.1 hnd).2.2 p hh p (by simp) rfl
      rw [List.erase_append_right _ this, List.erase_cons_head]
    obtain ⟨-, hl, hn, hpr, hframe⟩ := list_disconnect_mem h.list howner
    rw [herase]
    refine h.relink hl hframe.pool (fun q hq => h.held q ?_) fun q hq => ?_
    · simp only [List.mem_append, List.mem_cons] at hq ⊢
      exact hq.imp_right .inr
    · by_cases hqp : q = p
      · subst hqp
        exact ⟨hn, hpr⟩
      · have hq' : q ∉ as ++ p :: bs := by
          simp only [List.mem_append, List.mem_cons, not_or] at hq ⊢
          exact ⟨hq.1, hqp, hq.2⟩
        rw [hframe.next q hq', hframe.previous q hq']
        exact h.unlinked q hq'
  · obtain ⟨hn, hpr⟩ := h.unlinked p hxs
    rw [list_disconnect_not_mem h.list howner hxs hn hpr, List.erase_of_not_mem hxs]
    exact h

/-- Freeing a live item never fails. -/
theorem free (h : Owned pool live ids xs) (hp : p ∈ live) :
    ∃ pool', pool.Free p = .ok pool' ∧ Owned pool' (live.erase p) ids (xs.erase p) := by
  have h' := h.disconnect hp
  refine ⟨_, ?_, h'.giveBack hp fun hh => ?_⟩
  · have howner := h'.owner_of_live hp
    simp only at howner
    simp [Free, howner]
  · exact (List.Nodup.mem_erase_iff h.list.chain.nodup).1 hh |>.1 rfl

/-- The new item has been put somewhere into the list, and no other item was touched. -/
theorem insert (h : Owned pool live ids xs) (hp : p ∈ live) (hl : PoolList mem' pool.self ys)
    (hframe : pool.mem.Frame mem' pool.self ys) (hys : ∀ q, q ∈ ys ↔ q = p ∨ q ∈ xs) :
    Owned { pool with mem := mem' } live ids ys := by
  refine h.relink hl hframe.pool (fun q hq => ?_) fun q hq => ?_
  · rcases (hys q).1 hq with rfl | hq
    · exact hp
    · exact h.held q hq
  · rw [hframe.next q hq, hframe.previous q hq]
    exact h.unlinked q fun hh => hq ((hys q).2 (.inr hh))

theorem insert_after (h : Owned pool live ids xs) (hp : p ∈ live) (hxs : ¬pool.Listed p)
    (hpos : ∀ q ∈ pos, pool.Listed q) :
    ∃ mem' ys, list_insert_after pool.mem pos p = .ok mem' ∧
      Owned { pool with mem := mem' } live ids ys := by
  rw [h.listed_iff] at hxs
  obtain ⟨as, bs, rfl, rfl⟩ : ∃ as bs, xs = as ++ bs ∧ pos = as.getLast? := by
    cases pos with
    | none => exact ⟨[], xs, rfl, rfl⟩
    | some q =>
      obtain ⟨as, bs, rfl⟩ := List.append_of_mem (h.listed_iff.1 (hpos q rfl))
      exact ⟨as ++ [q], bs, by simp, by simp⟩
  obtain ⟨hn, hpr⟩ := h.unlinked p hxs
  obtain ⟨mem', hok, hl, hframe⟩ :=
    list_insert_after_spec h.list hxs (h.owner_of_live hp) hn hpr
  refine ⟨mem', _, hok, h.insert hp hl hframe fun q => ?_⟩
  simp only [List.mem_append, List.mem_cons]
  tauto

theorem insert_before (h : Owned pool live ids xs) (hp : p ∈ live) (hxs : ¬pool.Listed p)
    (hpos : ∀ q ∈ pos, pool.Listed q) (hok : list_insert_before pool.mem pos p = .ok mem') :
    ∃ ys, Owned { pool with mem := mem' } live ids ys := by
  have howner := h.owner_of_live hp
  rw [h.listed_iff] at hxs
  cases pos with
  | none =>
    -- before null: the asserts let this pass only for an empty list
    have hroot : pool.mem.m_pRoot pool.self = none := by
      simp only [list_insert_before, howner, assert_bind_eq_ok] at hok
      exact hok.1
    obtain rfl : xs = [] := List.head?_eq_none_iff.1 (h.list.root.symm.trans hroot)
    obtain ⟨hn, hpr⟩ := h.unlinked p hxs
    obtain ⟨mem'', hok', hl, hframe⟩ := list_insert_before_nil h.list howner hn hpr
    obtain rfl : mem'' = mem' := Except.ok.inj (hok'.symm.trans hok)
    exact ⟨_, h.insert hp hl hframe (by simp)⟩
  | some q =>
    obtain ⟨as, bs, rfl⟩ := List.append_of_mem (h.listed_iff.1 (hpos q rfl))
    obtain ⟨mem'', hok', hl, hframe⟩ := list_insert_before_spec h.list hxs howner
    obtain rfl : mem'' = mem' := Except.ok.inj (hok'.symm.trans hok)
    refine ⟨_, h.insert hp hl hframe fun r => ?_⟩
    simp only [List.mem_append, List.mem_cons]
    tauto

end Owned

/-! ### Whole runs -/

theorem Run.owned (h : Run cls self initialSize pool live ids) : ∃ xs, Owned pool live ids xs := by
  induction h with
  | new => exact ⟨[], .new⟩
  | alloc _ ih =>
    obtain ⟨xs, ih⟩ := ih
    exact ⟨xs, ih.alloc⟩
  | free _ hp hok ih =>
    obtain ⟨xs, ih⟩ := ih
    obtain ⟨pool', hok', h'⟩ := ih.free hp
    obtain rfl := Except.ok.inj (hok'.symm.trans hok)
    exact ⟨_, h'⟩
  | insert_after _ hp hxs hpos hok ih =>
    obtain ⟨xs, ih⟩ := ih
    obtain ⟨mem', ys, hok', h'⟩ := ih.insert_after hp hxs hpos
    obtain rfl := Except.ok.inj (hok'.symm.trans hok)
    exact ⟨ys, h'⟩
  | insert_before _ hp hxs hpos hok ih =>
    obtain ⟨xs, ih⟩ := ih
    exact ih.insert_before hp hxs hpos hok
  | disconnect _ hp ih =>
    obtain ⟨xs, ih⟩ := ih
    exact ⟨_, ih.disconnect hp⟩

/-- `q` leads to `p` by links in either direction. -/
def Reaches (pool : Pool) (q p : ItemPtr) : Prop :=
  ReflTransGen (Linked pool.mem.m_pNext pool.mem.m_pPrevious) q p

/-- After any run, the free and the live items are all the items, each once, and `Alloc` hands out
an item that was not live, under a new id, that is linked to nothing. -/
theorem Run.alloc_fresh (h : Run cls self initialSize pool live ids) :
    (pool.impl.m_freeItems ++ live).Perm (List.range pool.impl.constructed) ∧
    pool.Alloc.1 ∉ live ∧
    (ids.length < 2 ^ 64 → pool.Alloc.2.m_id pool.Alloc.1 ∉ ids) ∧
    pool.Alloc.2.mem.m_pNext pool.Alloc.1 = none ∧
    pool.Alloc.2.mem.m_pPrevious pool.Alloc.1 = none ∧
    ∀ q, pool.Alloc.2.mem.m_pRoot pool.self = some q ∨ q ∈ live →
      ¬pool.Alloc.2.Reaches q pool.Alloc.1 := by
  obtain ⟨xs, h⟩ := h.owned
  obtain ⟨hlist, -, hunlinked⟩ := h.alloc_mem
  have hp : pool.Alloc.1 ∉ xs := fun hp => h.alloc_not_mem (h.held _ hp)
  obtain ⟨hn, hpr⟩ := hunlinked _ hp
  refine ⟨h.partition, h.alloc_not_mem, h.allocId_not_mem, hn, hpr, fun q hq hreach => ?_⟩
  -- nothing but the item itself leads to an item outside the list
  rcases hlist.chain.reach hunlinked hreach with heq | ⟨-, hmem⟩
  · rcases hq with hq | hq
    · rw [hlist.root, ← heq] at hq
      exact hp (List.mem_of_head? hq)
    · exact h.alloc_not_mem (heq ▸ hq)
  · exact hp hmem

/-- An item that was allocated, put into the list and freed is handed out again. -/
theorem Run.alloc_fresh_recycled : ∃ pool, Run .MemoryPool 0 2 pool [] [2, 1, 0] ∧
    pool.Alloc.1 = 0 ∧ pool.Alloc.2.m_id 0 ∉ [2, 1, 0] ∧ pool.Alloc.2.mem.m_pNext 0 = none := by
  have hnew : Run .MemoryPool 0 2 _ [0] [2, 1, 0] := .alloc .new
  have hlisted : ¬(Pool.new .MemoryPool 0 2).Alloc.2.Listed 0 := fun ⟨_, hroot, _⟩ => nomatch hroot
  have hpos : ∀ q ∈ (none : Option ItemPtr), (Pool.new .MemoryPool 0 2).Alloc.2.Listed q := nofun
  have hinsert := hnew.insert_after List.mem_cons_self hlisted hpos rfl
  have hfree := hinsert.free List.mem_cons_self rfl
  obtain ⟨-, -, hid, hn, -⟩ := hfree.alloc_fresh
  exact ⟨_, hfree, rfl, hid (by decide), hn⟩

end Pool

end MUtils
