import MUtils.Verify.PoolRanges

/-!
# The list functions as operations on sequences

A pool's list stands for the sequence of its items. The insertions, `list_disconnect`, `list_root`
and `list_end` do to the list what the operations of the same purpose do to the sequence, and
besides the ends of the pool they change only links of the item and of its neighbours.
-/

namespace MUtils
open Outcome DoublyLinked

variable {m m' : ListMem} {P : PoolPtr} {p x : ItemPtr} {xs as bs : List ItemPtr} {fuel : Nat}

/-- The list of pool `P`, of items that belong to it, stands for `xs`. -/
structure PoolSeq (m : ListMem) (P : PoolPtr) (xs : List ItemPtr) : Prop
    extends PoolList m P xs where
  pool : ∀ q ∈ xs, m.m_pPool q = some P

/-- An item of pool `P` that is not in its list. -/
structure Unlinked (m : ListMem) (P : PoolPtr) (xs : List ItemPtr) (x : ItemPtr) : Prop where
  not_mem : x ∉ xs
  pool : m.m_pPool x = some P
  next : m.m_pNext x = none
  previous : m.m_pPrevious x = none

/-- A call that returns the list of `ys`, and touches the items `touched` only. -/
def Yields (m : ListMem) (P : PoolPtr) (ys touched : List ItemPtr) (call : Outcome ListMem) :
    Prop :=
  ∃ m', call = .ok m' ∧ PoolSeq m' P ys ∧ m.Frame m' P touched

/-! ### Insertions -/

theorem PoolSeq.insert (h : PoolSeq m P (as ++ bs)) (hx : m.m_pPool x = some P)
    (hlist : PoolList m' P (as ++ x :: bs)) (hpool : m'.m_pPool = m.m_pPool) :
    PoolSeq m' P (as ++ x :: bs) := by
  refine ⟨hlist, fun q hq => ?_⟩
  rw [hpool]
  obtain rfl | hq := List.mem_cons.mp (List.perm_middle.mem_iff.mp hq)
  · exact hx
  · exact h.pool q hq

theorem list_insert_before_yields (h : PoolSeq m P (as ++ p :: bs))
    (hx : Unlinked m P (as ++ p :: bs) x) :
    Yields m P (as ++ x :: p :: bs) (around as x (p :: bs)) (list_insert_before m (some p) x) := by
  obtain ⟨m', hm', hlist, hframe⟩ := list_insert_before_spec h.toPoolList hx.not_mem hx.pool
  exact ⟨m', hm', h.insert hx.pool hlist hframe.pool,
    list_insert_before_frame hx.pool h.chain.prev_eq hm'⟩

theorem list_insert_after_yields (h : PoolSeq m P (as ++ p :: bs))
    (hx : Unlinked m P (as ++ p :: bs) x) :
    Yields m P (as ++ p :: x :: bs) (around (as ++ [p]) x bs) (list_insert_after m (some p) x) := by
  obtain ⟨m', hm', hlist, hframe⟩ := list_insert_after_mem h.toPoolList hx.not_mem hx.pool
  have hnext := h.chain.next_eq
  rw [List.append_cons] at h hlist ⊢
  exact ⟨m', hm', h.insert hx.pool hlist hframe.pool, list_insert_after_frame hx.pool hnext hm'⟩

/-- A null position is in front of the list. -/
theorem list_insert_after_null_yields (h : PoolSeq m P xs) (hx : Unlinked m P xs x) :
    Yields m P (x :: xs) (around [] x xs) (list_insert_after m none x) := by
  cases xs with
  | nil =>
    have hempty : PoolList m P ([] ++ []) := h.toPoolList
    obtain ⟨m', hm', hlist, hframe⟩ :=
      list_insert_after_spec hempty hx.not_mem hx.pool hx.next hx.previous
    have hempty : PoolSeq m P ([] ++ []) := h
    exact ⟨m', hm', hempty.insert hx.pool hlist hframe.pool, hframe⟩
  | cons y ys =>
    have hfront : PoolSeq m P ([] ++ y :: ys) := h
    rw [list_insert_after_null hx.pool h.root]
    exact list_insert_before_yields hfront hx

/-! ### Disconnecting -/

theorem list_disconnect_frame_around (h : PoolSeq m P (as ++ p :: bs)) :
    m.Frame (list_disconnect m p).1 P (around as p bs) := by
  have hP : m.m_pPool p = some P := h.pool p (by simp)
  have hframe := h.list_disconnect_frame hP
  have hout : ∀ q, q ≠ p → q ∉ as ++ bs → q ∉ as ++ p :: bs := by
    intro q hne hmem hq
    obtain rfl | hq := List.mem_cons.mp (List.perm_middle.mem_iff.mp hq)
    exacts [hne rfl, hmem hq]
  refine ⟨hframe.pool, fun q hq => ?_, fun q hq => ?_, hframe.root, hframe.last⟩
  · rw [mem_around, not_or, not_or] at hq
    by_cases hmem : q ∈ as ++ bs
    · rw [h.list_disconnect_next_mem hP hmem, if_neg hq.1]
    · exact hframe.next q (hout q hq.2.1 hmem)
  · rw [mem_around, not_or, not_or] at hq
    by_cases hmem : q ∈ as ++ bs
    · rw [h.list_disconnect_previous_mem hP hmem, if_neg hq.2.2]
    · exact hframe.previous q (hout q hq.2.1 hmem)

/-- The item is out of the list and can be inserted again. -/
theorem list_disconnect_yields (h : PoolSeq m P (as ++ p :: bs)) :
    (list_disconnect m p).2 = bs.head? ∧ PoolSeq (list_disconnect m p).1 P (as ++ bs) ∧
      Unlinked (list_disconnect m p).1 P (as ++ bs) p ∧
      m.Frame (list_disconnect m p).1 P (around as p bs) := by
  have hP : m.m_pPool p = some P := h.pool p (by simp)
  obtain ⟨hreturns, hlist, hnext, hprevious, hframe⟩ := list_disconnect_mem h.toPoolList hP
  have hnot : p ∉ as ++ bs := (List.nodup_cons.mp (List.nodup_middle.mp h.chain.nodup)).1
  refine ⟨hreturns, ⟨hlist, fun q hq => ?_⟩, ⟨hnot, ?_, hnext, hprevious⟩,
    list_disconnect_frame_around h⟩
  · rw [hframe.pool]
    exact h.pool q (List.perm_middle.mem_iff.mpr (List.mem_cons_of_mem p hq))
  · rw [hframe.pool]
    exact hP

theorem list_disconnect_unlinked (h : PoolSeq m P xs) (hx : Unlinked m P xs x) :
    list_disconnect m x = (m, none) := by
  refine Prod.ext ?_ ?_
  · exact list_disconnect_not_mem h.toPoolList hx.pool hx.not_mem hx.next hx.previous
  · rw [list_disconnect_returns hx.pool, hx.next]

/-! ### The ends -/

/-- The assert does not fire on a walk that does not come back to where it started. -/
theorem rootLoop_eq {pCheck : ItemPtr} {ys : List ItemPtr} (h : Walk m.m_pPrevious (some p) ys)
    (hcheck : pCheck ∉ ys.tail) : rootLoop m pCheck fuel p = walkToEnd m.m_pPrevious fuel p := by
  induction ys generalizing p fuel with
  | nil => cases h
  | cons y ys ih =>
    cases h with
    | step hwalk =>
      cases fuel with
      | zero => rfl
      | succ fuel =>
        rw [rootLoop, walkToEnd]
        cases hlink : m.m_pPrevious y with
        | none => rfl
        | some r =>
          rw [hlink] at hwalk
          have hne : r ≠ pCheck := by
            rintro rfl
            cases hwalk
            exact hcheck List.mem_cons_self
          simp only [assert_pos hne, ok_bind]
          exact ih hwalk fun hmem => hcheck (List.mem_of_mem_tail hmem)

theorem PoolSeq.walk_from (h : PoolSeq m P (as ++ p :: bs)) :
    Walk m.m_pNext (some p) (p :: bs) :=
  (seg_append.mp h.chain.links).2.walk

theorem PoolSeq.walk_back_from (h : PoolSeq m P (as ++ p :: bs)) :
    Walk m.m_pPrevious (some p) (p :: as.reverse) := by
  have hlinks := h.chain.links
  rw [List.append_cons] at hlinks
  have hwalk := (seg_append.mp hlinks).1.walk_back
  rwa [List.getLast?_concat, List.reverse_append] at hwalk

theorem reaches_first (h : PoolSeq m P (as ++ p :: bs)) (hfuel : (as ++ p :: bs).length ≤ fuel) :
    ∃ r, m.m_pRoot P = some r ∧ list_root m fuel p = .ok r := by
  have hwalk := h.walk_back_from
  have hnot : p ∉ as.reverse := by
    have hnodup := List.nodup_middle.mp h.chain.nodup
    simpa using fun hp => (List.nodup_cons.mp hnodup).1 (List.mem_append_left bs hp)
  have hroot : m.m_pRoot P = (p :: as.reverse).getLast? := by
    rw [h.root, ← List.reverse_concat', List.getLast?_reverse]
    cases as <;> rfl
  have hlast := List.getLast?_eq_some_getLast (List.cons_ne_nil p as.reverse)
  have hlength : (p :: as.reverse).length ≤ fuel := by
    simp only [List.length_append, List.length_cons, List.length_reverse] at hfuel ⊢
    omega
  refine ⟨_, hroot.trans hlast, ?_⟩
  rw [list_root, rootLoop_eq hwalk hnot]
  exact walkToEnd_of_walk hwalk hlast hlength

theorem reaches_last (h : PoolSeq m P (as ++ p :: bs)) (hfuel : (as ++ p :: bs).length ≤ fuel) :
    ∃ r, m.m_pLast P = some r ∧ list_end m fuel p = .ok r := by
  have hlast := List.getLast?_eq_some_getLast (List.cons_ne_nil p bs)
  have hlength : (p :: bs).length ≤ fuel := by
    rw [List.length_append] at hfuel
    omega
  refine ⟨_, ?_, walkToEnd_of_walk h.walk_from hlast hlength⟩
  rw [h.last, List.getLast?_append, hlast, Option.some_or]

/-- **The list functions refine the operations on sequences.** An unlinked item can be inserted, and
`list_disconnect` leaves it alone; an item of the list can be taken out, and both ends are reached
from it. -/
theorem list_primitives_refine (h : PoolSeq m P xs) :
    (∀ x, Unlinked m P xs x →
      Yields m P (x :: xs) (around [] x xs) (list_insert_after m none x) ∧
      (∀ as p bs, xs = as ++ p :: bs →
        Yields m P (as ++ p :: x :: bs) (around (as ++ [p]) x bs)
          (list_insert_after m (some p) x) ∧
        Yields m P (as ++ x :: p :: bs) (around as x (p :: bs))
          (list_insert_before m (some p) x)) ∧
      list_disconnect m x = (m, none)) ∧
    (∀ as p bs, xs = as ++ p :: bs →
      (list_disconnect m p).2 = bs.head? ∧ PoolSeq (list_disconnect m p).1 P (as ++ bs) ∧
        Unlinked (list_disconnect m p).1 P (as ++ bs) p ∧
        m.Frame (list_disconnect m p).1 P (around as p bs)) ∧
    ∀ p ∈ xs, ∀ fuel ≥ xs.length,
      (∃ r, m.m_pRoot P = some r ∧ list_root m fuel p = .ok r) ∧
        ∃ r, m.m_pLast P = some r ∧ list_end m fuel p = .ok r := by
  refine ⟨fun x hx => ⟨list_insert_after_null_yields h hx, ?_, list_disconnect_unlinked h hx⟩,
    ?_, ?_⟩
  · rintro as p bs rfl
    exact ⟨list_insert_after_yields h hx, list_insert_before_yields h hx⟩
  · rintro as p bs rfl
    exact list_disconnect_yields h
  · intro p hp fuel hfuel
    obtain ⟨as, bs, rfl⟩ := List.append_of_mem hp
    exact ⟨reaches_first h hfuel, reaches_last h hfuel⟩

/-- The items `0` and `1` are the list of pool `0`. -/
def twoItems : ListMem where
  m_pPool _ := some 0
  m_pNext p := if p = 0 then some 1 else none
  m_pPrevious p := if p = 1 then some 0 else none
  m_pRoot _ := some 0
  m_pLast _ := some 1

theorem list_primitives_refine_twoItems : PoolSeq twoItems 0 [0, 1] ∧
    Unlinked twoItems 0 [0, 1] 2 ∧
    Yields twoItems 0 [0, 2, 1] [0, 2, 1] (list_insert_after twoItems (some 0) 2) := by
  have h : PoolSeq twoItems 0 [0, 1] :=
    ⟨⟨⟨⟨rfl, rfl, rfl, rfl, trivial⟩, by decide⟩, rfl, rfl⟩, fun _ _ => rfl⟩
  have hx : Unlinked twoItems 0 [0, 1] 2 := ⟨by decide, rfl, rfl, rfl⟩
  exact ⟨h, hx, (((list_primitives_refine h).1 2 hx).2.1 [] 0 [1] rfl).1⟩

end MUtils
