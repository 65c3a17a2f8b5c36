import MUtils.Verify.PoolList

/-!
# Cutting a range out of the pool's list

`list_disconnect_range` is asked to cut the segment `b :: mid ++ [e]` out of a well-formed list
`as ++ (b :: mid ++ [e] ++ bs)`. It does so when the segment touches neither end of the list
(`list_disconnect_range_inner`). At the front it moves `m_pRoot` to the item after `pBegin`, which
still points back at `pBegin`, and at the back it moves `m_pLast` to the item before `pEnd`: the
asserts that follow fire (`list_disconnect_range_front`, `list_disconnect_range_back`).
-/

namespace MUtils
open Outcome DoublyLinked

variable {m : ListMem} {P : PoolPtr} {b e : ItemPtr} {as mid bs : List ItemPtr} {fuel : Nat}
  {pBegin pEnd : Option ItemPtr}

/-! ### Null arguments -/

theorem walkToEnd_of_walk {link : ItemPtr → Option ItemPtr} {p q : ItemPtr} {ys : List ItemPtr}
    (h : Walk link (some p) ys) (hq : ys.getLast? = some q) (hfuel : ys.length ≤ fuel) :
    walkToEnd link fuel p = .ok q := by
  induction ys generalizing p fuel with
  | nil => cases h
  | cons x ys ih =>
    cases h with
    | step hwalk =>
      obtain ⟨fuel, rfl⟩ : ∃ n, fuel = n + 1 := ⟨fuel - 1, by simp at hfuel; omega⟩
      cases hlink : link x with
      | none =>
        rw [hlink] at hwalk
        cases hwalk
        cases hq
        simp [walkToEnd, hlink]
      | some r =>
        rw [hlink] at hwalk
        have hne : ys ≠ [] := by
          rintro rfl
          cases hwalk
        rw [List.getLast?_cons_of_ne_nil hne] at hq
        simpa [walkToEnd, hlink] using ih hwalk hq (by simpa using hfuel)

/-- `pBegin` and `pEnd` stand for the segment from `b` to `e`: one of them may be null, for a
segment from the first item or up to the last. -/
structure Denotes (as bs : List ItemPtr) (b e : ItemPtr) (pBegin pEnd : Option ItemPtr) :
    Prop where
  first : pBegin = some b ∨ pBegin = none ∧ as = []
  last : pEnd = some e ∨ pEnd = none ∧ bs = []
  given : pBegin ≠ none ∨ pEnd ≠ none

section
variable (h : PoolList m P (as ++ (b :: mid ++ [e] ++ bs)))
include h

/-- A null argument is resolved to the end of the list that it stands for. -/
theorem list_disconnect_range_resolve (hd : Denotes as bs b e pBegin pEnd)
    (hfuel : (b :: mid ++ [e]).length ≤ fuel) :
    list_disconnect_range m fuel pBegin pEnd =
      list_disconnect_range m fuel (some b) (some e) := by
  rcases hd.first with rfl | ⟨rfl, rfl⟩
  · rcases hd.last with rfl | ⟨rfl, rfl⟩
    · rfl
    · have hseg := (seg_append.1 h.chain.links).2
      rw [List.append_nil] at hseg
      have hwalk : walkToEnd m.m_pNext fuel b = .ok e :=
        walkToEnd_of_walk hseg.walk (by simp [List.getLast?_cons]) hfuel
      simp [list_disconnect_range, assert_pos, hwalk]
  · obtain ⟨e', rfl⟩ := Option.ne_none_iff_exists'.1 (hd.given.resolve_left (· rfl))
    obtain rfl : e' = e := by simpa using hd.last
    have hseg := (seg_append.1 (seg_append.1 h.chain.links).2).1.walk_back
    rw [List.getLast?_append] at hseg
    have hwalk : walkToEnd m.m_pPrevious fuel e' = .ok b :=
      walkToEnd_of_walk hseg (by simp [List.getLast?_cons]) (by simpa using hfuel)
    simp [list_disconnect_range, hwalk]

/-- At the front of the list the assert on the new root fires. -/
theorem list_disconnect_range_front (hP : m.m_pPool e = some P) (has : as = []) :
    list_disconnect_range m fuel (some b) (some e) = .error (.assertion
      "pPool->m_pRoot == nullptr || pPool->m_pRoot->m_pPrevious == nullptr") := by
  subst has
  obtain ⟨c, cs, hc⟩ : ∃ c cs, mid ++ [e] ++ bs = c :: cs := List.exists_cons_of_ne_nil (by simp)
  rw [List.nil_append, List.cons_append, List.cons_append, hc] at h
  -- the new root is the item after `b`, which points back at it
  obtain ⟨-, hnext, hprev, -⟩ : _ ∧ m.m_pNext b = some c ∧ m.m_pPrevious c = some b ∧ _ :=
    h.chain.links
  have hroot : m.m_pRoot P = some b := by simpa using h.root
  simp [list_disconnect_range, hP, hroot, hnext, hprev, assert]

/-- At the back the assert on the new last item fires. -/
theorem list_disconnect_range_back (hP : m.m_pPool e = some P) (has : as ≠ []) (hbs : bs = []) :
    list_disconnect_range m fuel (some b) (some e) = .error (.assertion
      "pPool->m_pLast == nullptr || pPool->m_pLast->m_pNext == nullptr") := by
  subst hbs
  have hroot : m.m_pRoot P ≠ some b := by
    rw [List.append_nil, List.cons_append] at h
    exact fun hh => has (h.root_eq_some_iff.1 hh)
  obtain ⟨c, cs, hc⟩ : ∃ c cs, as ++ (b :: mid) = cs ++ [c] := by
    rcases List.eq_nil_or_concat (as ++ (b :: mid)) with h | ⟨cs, c, h⟩
    · simp at h
    · exact ⟨c, cs, by simpa using h⟩
  rw [List.append_nil, ← List.append_assoc, hc] at h
  have hprev : m.m_pPrevious e = some c := by simpa using h.chain.prev_eq
  have hnext : m.m_pNext c = some e := by
    rw [List.append_assoc] at h
    exact h.chain.next_eq
  have hlast : m.m_pLast P = some e := by simpa using h.last
  simp [list_disconnect_range, hP, hroot, hlast, hnext, hprev, assert]

/-- Away from the ends the segment is cut out: two neighbours are joined, and the two outer links
of the segment are cleared. -/
theorem list_disconnect_range_inner (hP : m.m_pPool e = some P) (has : as ≠ []) (hbs : bs ≠ []) :
    ∃ m', list_disconnect_range m fuel (some b) (some e) = .ok (m', bs.head?) ∧
      PoolList m' P (as ++ bs) ∧ Chain m'.m_pNext m'.m_pPrevious (b :: mid ++ [e]) := by
  have hbegin : PoolList m P (as ++ b :: (mid ++ [e] ++ bs)) := by simpa using h
  have hend : PoolList m P ((as ++ b :: mid) ++ e :: bs) := by simpa using h
  have hroot : m.m_pRoot P ≠ some b := fun hh => has (hbegin.root_eq_some_iff.1 hh)
  have hlast : m.m_pLast P ≠ some e := fun hh => hbs (hend.last_eq_some_iff.1 hh)
  have hprev : m.m_pPrevious b = as.getLast? := hbegin.chain.prev_eq
  have hnext : m.m_pNext e = bs.head? := hend.chain.next_eq
  obtain ⟨-, hnd, hdis⟩ := List.nodup_append.1 h.chain.nodup
  obtain ⟨hseg, -, hdis'⟩ := List.nodup_append.1 hnd
  have hbe : b ≠ e := by
    rintro rfl
    simp at hseg
  have hout : ∀ q ∈ as ++ bs, q ≠ b ∧ q ≠ e := by
    intro q hq
    rcases List.mem_append.1 hq with hq | hq
    · exact ⟨hdis q hq b (by simp), hdis q hq e (by simp)⟩
    · exact ⟨fun hh => hdis' b (by simp) q hq hh.symm, fun hh => hdis' e (by simp) q hq hh.symm⟩
  have hbefore : ∀ q ∈ b :: mid ++ [e], as.getLast? ≠ some q := fun q hq hh =>
    hdis q (List.mem_of_getLast? hh) q (List.mem_append_left _ hq) rfl
  have hafter : ∀ q ∈ b :: mid ++ [e], bs.head? ≠ some q := fun q hq hh =>
    hdis' q hq q (List.mem_of_head? hh) rfl
  let m' := (((m.setNextOf as.getLast? bs.head?).setPreviousOf bs.head? as.getLast?).setPrevious b
    none).setNext e none
  refine ⟨m', ?_, ⟨h.chain.cut ?_ ?_, ?_, ?_⟩, h.chain.segment ?_ ?_⟩
  · simp [list_disconnect_range, hP, hroot, hlast, hprev, hnext, hbe, assert_pos, m']
  · intro q hq
    simp [m', (hout q hq).2]
  · intro q hq
    simp [m', (hout q hq).1]
  · obtain ⟨a, as, rfl⟩ := List.exists_cons_of_ne_nil has
    simp [m', h.root]
  · obtain ⟨c, bs, rfl⟩ := List.exists_cons_of_ne_nil hbs
    simp [m', h.last, List.getLast?_append, List.getLast?_cons]
  · intro q hq
    simp [m', hbefore q hq, List.getLast?_cons, eq_comm]
  · intro q hq
    simp [m', hafter q hq, eq_comm]

/-- The segment is cut out, and the call returns what followed it, exactly when the segment
contains neither the first nor the last item of the list. -/
theorem list_disconnect_range_iff (hP : m.m_pPool e = some P)
    (hd : Denotes as bs b e pBegin pEnd) (hfuel : (b :: mid ++ [e]).length ≤ fuel) :
    (∃ m', list_disconnect_range m fuel pBegin pEnd = .ok (m', bs.head?) ∧
      PoolList m' P (as ++ bs) ∧ Chain m'.m_pNext m'.m_pPrevious (b :: mid ++ [e])) ↔
      as ≠ [] ∧ bs ≠ [] := by
  rw [list_disconnect_range_resolve h hd hfuel]
  constructor
  · rintro ⟨m', hok, -⟩
    by_cases has : as = []
    · rw [list_disconnect_range_front h hP has] at hok
      cases hok
    · refine ⟨has, fun hbs => ?_⟩
      rw [list_disconnect_range_back h hP has hbs] at hok
      cases hok
  · rintro ⟨has, hbs⟩
    exact list_disconnect_range_inner h hP has hbs

end

/-- The items `0` to `last` in order, in pool `0`. -/
def lineUp (last : Nat) : ListMem where
  m_pPool _ := some 0
  m_pNext p := if p < last then some (p + 1) else none
  m_pPrevious p := if 0 < p then some (p - 1) else none
  m_pRoot _ := some 0
  m_pLast _ := some last

theorem list_disconnect_range_iff_lineUp :
    ∃ m', list_disconnect_range (lineUp 3) 2 (some 1) (some 2) = .ok (m', some 3) ∧
      PoolList m' 0 [0, 3] ∧ Chain m'.m_pNext m'.m_pPrevious [1, 2] :=
  have hlist : PoolList (lineUp 3) 0 ([0] ++ (1 :: ([] ++ [2]) ++ [3])) :=
    ⟨⟨⟨rfl, rfl, rfl, rfl, rfl, rfl, rfl, rfl, trivial⟩, by decide⟩, rfl, rfl⟩
  (list_disconnect_range_iff hlist rfl ⟨.inl rfl, .inl rfl, .inl nofun⟩ (by decide)).2
    ⟨nofun, nofun⟩

/-- Cutting the first two of three items stops at an assert, also when `pBegin` is null. -/
theorem list_disconnect_range_lineUp_front :
    PoolList (lineUp 2) 0 [0, 1, 2] ∧ Denotes [] [2] 0 1 (some 0) (some 1) ∧
      Denotes [] [2] 0 1 none (some 1) ∧
      ∀ pBegin ∈ [some 0, none], list_disconnect_range (lineUp 2) 2 pBegin (some 1) =
        .error (.assertion
          "pPool->m_pRoot == nullptr || pPool->m_pRoot->m_pPrevious == nullptr") := by
  refine ⟨⟨⟨⟨rfl, rfl, rfl, rfl, rfl, rfl, trivial⟩, by decide⟩, rfl, rfl⟩,
    ⟨.inl rfl, .inl rfl, .inl nofun⟩, ⟨.inr ⟨rfl, rfl⟩, .inl rfl, .inr nofun⟩, ?_⟩
  intro pBegin hBegin
  fin_cases hBegin <;> rfl

end MUtils
