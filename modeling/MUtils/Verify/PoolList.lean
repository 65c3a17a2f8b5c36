import MUtils.Theory.DoublyLinked
import MUtils.Thread.MemPool

/-!
# What the list functions do to a well-formed list

`PoolList m P xs` says that the items `xs`, in order, are the list of pool `P`: their links agree
in both directions and the pool points at both ends. Each `list_*` function has one specification:
it returns (so none of its asserts fires), the list afterwards is the expected one, and nothing
outside the list and its pool is touched (`ListMem.Frame`).
-/

namespace MUtils
open Outcome DoublyLinked

namespace ListMem
variable {m : ListMem} {p q : ItemPtr} {P Q : PoolPtr} {o v : Option ItemPtr}

@[simp] theorem setNext_next : (m.setNext p v).m_pNext q = if q = p then v else m.m_pNext q := by
  simp [setNext, Function.update_apply]

@[simp] theorem setPrevious_previous :
    (m.setPrevious p v).m_pPrevious q = if q = p then v else m.m_pPrevious q := by
  simp [setPrevious, Function.update_apply]

@[simp] theorem setRoot_root : (m.setRoot P v).m_pRoot Q = if Q = P then v else m.m_pRoot Q := by
  simp [setRoot, Function.update_apply]

@[simp] theorem setLast_last : (m.setLast P v).m_pLast Q = if Q = P then v else m.m_pLast Q := by
  simp [setLast, Function.update_apply]

@[simp] theorem setNext_pool : (m.setNext p v).m_pPool = m.m_pPool := rfl
@[simp] theorem setNext_previous : (m.setNext p v).m_pPrevious = m.m_pPrevious := rfl
@[simp] theorem setNext_root : (m.setNext p v).m_pRoot = m.m_pRoot := rfl
@[simp] theorem setNext_last : (m.setNext p v).m_pLast = m.m_pLast := rfl

@[simp] theorem setPrevious_pool : (m.setPrevious p v).m_pPool = m.m_pPool := rfl
@[simp] theorem setPrevious_next : (m.setPrevious p v).m_pNext = m.m_pNext := rfl
@[simp] theorem setPrevious_root : (m.setPrevious p v).m_pRoot = m.m_pRoot := rfl
@[simp] theorem setPrevious_last : (m.setPrevious p v).m_pLast = m.m_pLast := rfl

@[simp] theorem setRoot_pool : (m.setRoot P v).m_pPool = m.m_pPool := rfl
@[simp] theorem setRoot_next : (m.setRoot P v).m_pNext = m.m_pNext := rfl
@[simp] theorem setRoot_previous : (m.setRoot P v).m_pPrevious = m.m_pPrevious := rfl
@[simp] theorem setRoot_last : (m.setRoot P v).m_pLast = m.m_pLast := rfl

@[simp] theorem setLast_pool : (m.setLast P v).m_pPool = m.m_pPool := rfl
@[simp] theorem setLast_next : (m.setLast P v).m_pNext = m.m_pNext := rfl
@[simp] theorem setLast_previous : (m.setLast P v).m_pPrevious = m.m_pPrevious := rfl
@[simp] theorem setLast_root : (m.setLast P v).m_pRoot = m.m_pRoot := rfl

@[simp] theorem setLast_self : m.setLast P (m.m_pLast P) = m := by
  simp [setLast]

@[simp] theorem setNextOf_next :
    (m.setNextOf o v).m_pNext q = if o = some q then v else m.m_pNext q := by
  cases o <;> simp [setNextOf, eq_comm]

@[simp] theorem setPreviousOf_previous :
    (m.setPreviousOf o v).m_pPrevious q = if o = some q then v else m.m_pPrevious q := by
  cases o <;> simp [setPreviousOf, eq_comm]

@[simp] theorem setNextOf_pool : (m.setNextOf o v).m_pPool = m.m_pPool := by cases o <;> rfl
@[simp] theorem setNextOf_previous : (m.setNextOf o v).m_pPrevious = m.m_pPrevious := by
  cases o <;> rfl
@[simp] theorem setNextOf_root : (m.setNextOf o v).m_pRoot = m.m_pRoot := by cases o <;> rfl
@[simp] theorem setNextOf_last : (m.setNextOf o v).m_pLast = m.m_pLast := by cases o <;> rfl

@[simp] theorem setPreviousOf_pool : (m.setPreviousOf o v).m_pPool = m.m_pPool := by
  cases o <;> rfl
@[simp] theorem setPreviousOf_next : (m.setPreviousOf o v).m_pNext = m.m_pNext := by
  cases o <;> rfl
@[simp] theorem setPreviousOf_root : (m.setPreviousOf o v).m_pRoot = m.m_pRoot := by
  cases o <;> rfl
@[simp] theorem setPreviousOf_last : (m.setPreviousOf o v).m_pLast = m.m_pLast := by
  cases o <;> rfl

/-- From `m` to `m'` only links of the items `xs` and the ends of pool `P` may have changed. -/
structure Frame (m m' : ListMem) (P : PoolPtr) (xs : List ItemPtr) : Prop where
  pool : m'.m_pPool = m.m_pPool
  next : ∀ q ∉ xs, m'.m_pNext q = m.m_pNext q
  previous : ∀ q ∉ xs, m'.m_pPrevious q = m.m_pPrevious q
  root : ∀ Q ≠ P, m'.m_pRoot Q = m.m_pRoot Q
  last : ∀ Q ≠ P, m'.m_pLast Q = m.m_pLast Q

theorem Frame.rfl {xs : List ItemPtr} : m.Frame m P xs :=
  ⟨Eq.refl _, fun _ _ => Eq.refl _, fun _ _ => Eq.refl _, fun _ _ => Eq.refl _,
    fun _ _ => Eq.refl _⟩

theorem setRoot_frame {xs : List ItemPtr} : m.Frame (m.setRoot P v) P xs :=
  ⟨Eq.refl _, fun _ _ => Eq.refl _, fun _ _ => Eq.refl _, fun Q hQ => by simp [hQ],
    fun _ _ => Eq.refl _⟩

theorem setLast_frame {xs : List ItemPtr} : m.Frame (m.setLast P v) P xs :=
  ⟨Eq.refl _, fun _ _ => Eq.refl _, fun _ _ => Eq.refl _, fun _ _ => Eq.refl _,
    fun Q hQ => by simp [hQ]⟩

theorem Frame.mono {m' : ListMem} {xs ys : List ItemPtr} (h : m.Frame m' P xs) (hsub : xs ⊆ ys) :
    m.Frame m' P ys where
  pool := h.pool
  next q hq := h.next q fun hx => hq (hsub hx)
  previous q hq := h.previous q fun hx => hq (hsub hx)
  root := h.root
  last := h.last

theorem Frame.trans {m₁ m₂ : ListMem} {xs ys : List ItemPtr} (h : m.Frame m₁ P xs)
    (h' : m₁.Frame m₂ P ys) (hsub : ys ⊆ xs) : m.Frame m₂ P xs where
  pool := h'.pool.trans h.pool
  next q hq := (h'.next q fun hy => hq (hsub hy)).trans (h.next q hq)
  previous q hq := (h'.previous q fun hy => hq (hsub hy)).trans (h.previous q hq)
  root Q hQ := (h'.root Q hQ).trans (h.root Q hQ)
  last Q hQ := (h'.last Q hQ).trans (h.last Q hQ)

end ListMem

/-- The items `xs` are, in this order, the list of pool `P`. -/
structure PoolList (m : ListMem) (P : PoolPtr) (xs : List ItemPtr) : Prop where
  chain : Chain m.m_pNext m.m_pPrevious xs
  root : m.m_pRoot P = xs.head?
  last : m.m_pLast P = xs.getLast?

variable {m : ListMem} {P : PoolPtr} {e : ItemPtr} {xs as bs : List ItemPtr}

theorem PoolList.congr {m' : ListMem} (h : PoolList m P xs)
    (hn : ∀ q ∈ xs, m'.m_pNext q = m.m_pNext q)
    (hp : ∀ q ∈ xs, m'.m_pPrevious q = m.m_pPrevious q)
    (hr : m'.m_pRoot P = m.m_pRoot P) (hl : m'.m_pLast P = m.m_pLast P) : PoolList m' P xs :=
  ⟨⟨h.chain.links.congr hn hp, h.chain.nodup⟩, hr.trans h.root, hl.trans h.last⟩

theorem PoolList.assertEnds (h : PoolList m P xs) (hne : xs ≠ []) : assertEnds m P = .ok () := by
  obtain ⟨x, ys, rfl⟩ := List.exists_cons_of_ne_nil hne
  obtain ⟨zs, y, hzs⟩ := (List.eq_nil_or_concat (x :: ys)).resolve_left hne
  have hx : m.m_pPrevious x = none := h.chain.prev_head
  have hy : m.m_pNext y = none := by
    have := h.chain
    rw [hzs, List.concat_eq_append] at this
    simpa using this.next_eq
  have hlast : m.m_pLast P = some y := by rw [h.last, hzs]; simp
  simp [MUtils.assertEnds, h.root, hlast, assert_pos hx, assert_pos hy]

theorem PoolList.root_eq_some_iff {x : ItemPtr} (h : PoolList m P (as ++ x :: bs)) :
    m.m_pRoot P = some x ↔ as = [] := by
  rw [h.root]
  cases as with
  | nil => simp
  | cons a as =>
    have hne : a ≠ x := by
      rintro rfl
      simpa using h.chain.nodup
    simp [hne]

theorem PoolList.last_eq_some_iff {x : ItemPtr} (h : PoolList m P (as ++ x :: bs)) :
    m.m_pLast P = some x ↔ bs = [] := by
  rw [h.last]
  cases hbs : bs.getLast? with
  | none => simp [List.getLast?_eq_none_iff.1 hbs]
  | some b =>
    have hb := List.mem_of_getLast? hbs
    have hne : b ≠ x := by
      rintro rfl
      have := (List.nodup_append.1 h.chain.nodup).2.1
      exact (List.nodup_cons.1 this).1 hb
    simp [List.getLast?_append, List.getLast?_cons, hbs, hne, List.ne_nil_of_mem hb]

/-- An item between `as` and `bs`, and its neighbours. -/
def around (as : List ItemPtr) (e : ItemPtr) (bs : List ItemPtr) : List ItemPtr :=
  as.getLast?.toList ++ e :: bs.head?.toList

theorem mem_around {q : ItemPtr} :
    q ∈ around as e bs ↔ as.getLast? = some q ∨ q = e ∨ bs.head? = some q := by
  simp only [around, List.mem_append, List.mem_cons, Option.mem_toList]

theorem around_subset : around as e bs ⊆ as ++ e :: bs := by
  intro q hq
  rw [mem_around] at hq
  rw [List.mem_append, List.mem_cons]
  exact hq.imp List.mem_of_getLast? (Or.imp_right List.mem_of_head?)

/-- An insertion touches the new item and its neighbours. -/
theorem list_insert_before_frame {m' : ListMem} {x : ItemPtr} (hP : m.m_pPool e = some P)
    (hprev : m.m_pPrevious x = as.getLast?) (h : list_insert_before m (some x) e = .ok m') :
    m.Frame m' P (around as e (x :: bs)) := by
  have hlinks : m.Frame ((((m.setPrevious x (some e)).setPrevious e as.getLast?).setNextOf
      as.getLast? (some e)).setNext e (some x)) P (around as e (x :: bs)) := by
    refine ⟨by simp, fun q hq => ?_, fun q hq => ?_, by simp, by simp⟩
    · simp only [mem_around, not_or] at hq
      simp [hq.1, hq.2.1]
    · simp only [mem_around, List.head?_cons, Option.some_inj, not_or, eq_comm (a := x)] at hq
      simp [hq.2.1, hq.2.2]
  simp only [list_insert_before, hP, hprev] at h
  split at h
  · obtain ⟨_, -, h⟩ := bind_eq_ok.1 h
    cases h
    exact hlinks.trans ListMem.setRoot_frame (List.Subset.refl _)
  · cases h
    exact hlinks

/-- Inserting before an item of the list. -/
theorem list_insert_before_spec {x : ItemPtr} (h : PoolList m P (as ++ x :: bs))
    (he : e ∉ as ++ x :: bs) (hP : m.m_pPool e = some P) :
    ∃ m', list_insert_before m (some x) e = .ok m' ∧ PoolList m' P (as ++ e :: x :: bs) ∧
      m.Frame m' P (as ++ e :: x :: bs) := by
  have hprev : m.m_pPrevious x = as.getLast? := h.chain.prev_eq
  have hbefore : as.getLast? ≠ some e := fun hh =>
    he (List.mem_append_left _ (List.mem_of_getLast? hh))
  let m₁ := ((((m.setPrevious x (some e)).setPrevious e as.getLast?).setNextOf as.getLast?
    (some e)).setNext e (some x))
  have hchain : Chain m₁.m_pNext m₁.m_pPrevious (as ++ e :: x :: bs) := by
    refine h.chain.insert he ?_ ?_ ?_ ?_
    · simp [m₁]
    · simp [m₁]
    · intro a ha
      have : a ≠ e := fun h => he (h ▸ ha)
      simp [m₁, this]
    · intro b hb
      have : b ≠ e := fun h => he (h ▸ hb)
      simp [m₁, this, eq_comm]
  have hlast : m₁.m_pLast P = (as ++ e :: x :: bs).getLast? := by
    simp [m₁, h.last, List.getLast?_append, List.getLast?_cons]
  have hroot₁ : m₁.m_pRoot P = some x ↔ as = [] := by
    rw [← h.root_eq_some_iff]
    simp [m₁]
  by_cases has : as = []
  · -- the new item is the first: the pool's root moves to it
    have hl : PoolList (m₁.setRoot P (some e)) P (as ++ e :: x :: bs) :=
      ⟨hchain, by simp [has], hlast⟩
    have hm' : list_insert_before m (some x) e = .ok (m₁.setRoot P (some e)) := by
      simp only [list_insert_before, hP, hprev]
      rw [if_pos (hroot₁.2 has), hl.assertEnds (by simp)]
      rfl
    exact ⟨_, hm', hl, (list_insert_before_frame hP hprev hm').mono around_subset⟩
  · have hm' : list_insert_before m (some x) e = .ok m₁ := by
      simp only [list_insert_before, hP, hprev]
      rw [if_neg fun hh => has (hroot₁.1 hh)]
    refine ⟨m₁, hm', ⟨hchain, ?_, hlast⟩,
      (list_insert_before_frame hP hprev hm').mono around_subset⟩
    obtain ⟨a, as, rfl⟩ := List.exists_cons_of_ne_nil has
    simp [m₁, h.root]

/-- Inserting before null starts a list. -/
theorem list_insert_before_nil (h : PoolList m P []) (hP : m.m_pPool e = some P)
    (hn : m.m_pNext e = none) (hp : m.m_pPrevious e = none) :
    ∃ m', list_insert_before m none e = .ok m' ∧ PoolList m' P [e] ∧ m.Frame m' P [e] := by
  have hroot : m.m_pRoot P = none := by simpa using h.root
  have hlast : m.m_pLast P = none := by simpa using h.last
  refine ⟨(m.setRoot P (some e)).setLast P (some e), ?_, ⟨?_, by simp, by simp⟩, ?_⟩
  · simp [list_insert_before, hP, hroot, assert_pos hlast, assert_pos]
  · exact .singleton (by simpa using hn) (by simpa using hp)
  · refine ⟨rfl, ?_, ?_, ?_, ?_⟩ <;> simp_all

/-- Where the code looks for a new end, before it links the new item, it finds that of the longer
list. -/
theorem PoolList.setLast_insert {x : ItemPtr} (h : PoolList m P (as ++ x :: bs)) :
    (if m.m_pLast P = some x then m.setLast P (some e) else m) =
      m.setLast P (e :: bs).getLast? := by
  simp only [h.last_eq_some_iff]
  split
  case isTrue hbs => simp [hbs]
  case isFalse hbs =>
    obtain ⟨bs, b, rfl⟩ := (List.eq_nil_or_concat bs).resolve_left hbs
    have hlast : m.m_pLast P = (e :: bs.concat b).getLast? := by
      rw [h.last]
      simp [List.getLast?_append, List.getLast?_cons]
    rw [← hlast, ListMem.setLast_self]

@[inherit_doc list_insert_before_frame]
theorem list_insert_after_frame {m' : ListMem} {x : ItemPtr} (hP : m.m_pPool e = some P)
    (hnext : m.m_pNext x = bs.head?) (h : list_insert_after m (some x) e = .ok m') :
    m.Frame m' P (around (as ++ [x]) e bs) := by
  simp only [list_insert_after, hP] at h
  generalize hm₁ : (if m.m_pLast P = some x then m.setLast P (some e) else m) = m₁ at h
  have hend : m.Frame m₁ P (around (as ++ [x]) e bs) := by
    rw [← hm₁]
    split
    · exact ListMem.setLast_frame
    · exact .rfl
  have hnext₁ : m₁.m_pNext x = bs.head? := by
    rw [← hnext, ← hm₁]
    split <;> rfl
  rw [hnext₁] at h
  obtain ⟨_, -, h⟩ := bind_eq_ok.1 h
  cases h
  refine hend.trans ⟨by simp, fun q hq => ?_, fun q hq => ?_, by simp, by simp⟩
    (List.Subset.refl _)
  · simp only [mem_around, List.getLast?_concat, Option.some_inj, not_or, eq_comm (a := x)] at hq
    simp [hq.1, hq.2.1]
  · simp only [mem_around, not_or] at hq
    simp [hq.2.1, hq.2.2]

/-- Inserting after an item of the list. -/
theorem list_insert_after_mem {x : ItemPtr} (h : PoolList m P (as ++ x :: bs))
    (he : e ∉ as ++ x :: bs) (hP : m.m_pPool e = some P) :
    ∃ m', list_insert_after m (some x) e = .ok m' ∧ PoolList m' P (as ++ x :: e :: bs) ∧
      m.Frame m' P (as ++ x :: e :: bs) := by
  have hnext : m.m_pNext x = bs.head? := h.chain.next_eq
  have hafter : bs.head? ≠ some e := fun hh =>
    he (List.mem_append_right _ (List.mem_cons_of_mem _ (List.mem_of_head? hh)))
  let m₁ := m.setLast P (e :: bs).getLast?
  let m' := ((((m₁.setNext x (some e)).setPrevious e (some x)).setPreviousOf bs.head?
    (some e)).setNext e bs.head?)
  have hchain : Chain m'.m_pNext m'.m_pPrevious (as ++ x :: e :: bs) := by
    have hsplit : as ++ x :: bs = (as ++ [x]) ++ bs := by simp
    have hsplit' : as ++ x :: e :: bs = (as ++ [x]) ++ e :: bs := by simp
    rw [hsplit] at h he
    rw [hsplit']
    refine h.chain.insert he ?_ ?_ ?_ ?_
    · simp [m']
    · simp [m', hafter]
    · intro a ha
      have : a ≠ e := fun h => he (h ▸ ha)
      simp [m', m₁, this, eq_comm]
    · intro b hb
      have : b ≠ e := fun h => he (h ▸ hb)
      simp [m', m₁, this]
  have hl : PoolList m' P (as ++ x :: e :: bs) := by
    refine ⟨hchain, ?_, ?_⟩
    · cases as <;> simp [m', m₁, h.root]
    · simp [m', m₁, List.getLast?_append, List.getLast?_cons]
  have hm' : list_insert_after m (some x) e = .ok m' := by
    simp only [list_insert_after, hP]
    rw [h.setLast_insert, ListMem.setLast_next, hnext]
    change (assertEnds m' P >>= _) = _
    rw [hl.assertEnds (by simp)]
    rfl
  have hframe : m.Frame m' P (around (as ++ [x]) e bs) := list_insert_after_frame hP hnext hm'
  have hsub : around (as ++ [x]) e bs ⊆ as ++ [x] ++ e :: bs := around_subset
  rw [List.append_assoc, List.singleton_append] at hsub
  exact ⟨m', hm', hl, hframe.mono hsub⟩

/-- Inserting after null is inserting before the first item. -/
theorem list_insert_after_null {x : ItemPtr} (hP : m.m_pPool e = some P)
    (hroot : m.m_pRoot P = some x) :
    list_insert_after m none e = list_insert_before m (some x) e := by
  simp only [list_insert_after, hP, hroot]

/-- Inserting after the last item of `as`, or before the first item if there is none. -/
theorem list_insert_after_spec (h : PoolList m P (as ++ bs)) (he : e ∉ as ++ bs)
    (hP : m.m_pPool e = some P) (hn : m.m_pNext e = none) (hp : m.m_pPrevious e = none) :
    ∃ m', list_insert_after m as.getLast? e = .ok m' ∧ PoolList m' P (as ++ e :: bs) ∧
      m.Frame m' P (as ++ e :: bs) := by
  rcases List.eq_nil_or_concat as with rfl | ⟨as, a, rfl⟩
  · cases bs with
    | nil =>
      -- an empty list is started as `list_insert_before` starts it
      obtain ⟨m', h1, h2⟩ := list_insert_before_nil h hP hn hp
      refine ⟨m', ?_, h2⟩
      have hroot : m.m_pRoot P = none := by simpa using h.root
      have hlast : m.m_pLast P = none := by simpa using h.last
      rw [← h1]
      simp [list_insert_after, list_insert_before, hP, hroot, assert_pos, hlast]
    | cons x bs =>
      have hfront : PoolList m P ([] ++ x :: bs) := h
      obtain ⟨m', h1, h2⟩ := list_insert_before_spec hfront he hP
      exact ⟨m', (list_insert_after_null hP h.root).trans h1, h2⟩
  · simp only [List.concat_eq_append, List.append_assoc, List.singleton_append] at h he ⊢
    simpa using list_insert_after_mem h he hP

/-! ### Disconnecting -/

section
variable (m) (P) (e)

/-- The first item of the pool once `e` is out. -/
def rootWithout : Option ItemPtr := if m.m_pRoot P = some e then m.m_pNext e else m.m_pRoot P

/-- The last item of the pool once `e` is out. -/
def lastWithout : Option ItemPtr := if m.m_pLast P = some e then m.m_pPrevious e else m.m_pLast P

end

section
variable (hP : m.m_pPool e = some P)
include hP

theorem list_disconnect_returns : (list_disconnect m e).2 = m.m_pNext e := by
  simp only [list_disconnect, hP]
  split_ifs <;> rfl

theorem list_disconnect_pool : (list_disconnect m e).1.m_pPool = m.m_pPool := by
  simp only [list_disconnect, hP]
  split_ifs <;> simp

theorem list_disconnect_root (Q : PoolPtr) :
    (list_disconnect m e).1.m_pRoot Q = if Q = P then rootWithout m P e else m.m_pRoot Q := by
  simp only [list_disconnect, hP, rootWithout]
  split_ifs <;> simp_all

theorem list_disconnect_last (Q : PoolPtr) :
    (list_disconnect m e).1.m_pLast Q = if Q = P then lastWithout m P e else m.m_pLast Q := by
  simp only [list_disconnect, hP, lastWithout]
  split_ifs <;> simp_all

theorem list_disconnect_next (q : ItemPtr) :
    (list_disconnect m e).1.m_pNext q =
      if lastWithout m P e = some q then none else if q = e then none
      else if m.m_pPrevious e = some q then m.m_pNext e else m.m_pNext q := by
  simp only [list_disconnect, hP, lastWithout]
  split_ifs <;> simp_all

theorem list_disconnect_previous (q : ItemPtr) :
    (list_disconnect m e).1.m_pPrevious q =
      if rootWithout m P e = some q then none else if q = e then none
      else if m.m_pNext e = some q then m.m_pPrevious e else m.m_pPrevious q := by
  simp only [list_disconnect, hP, rootWithout]
  split_ifs <;> simp_all

end

theorem PoolList.rootWithout (h : PoolList m P (as ++ e :: bs)) :
    rootWithout m P e = (as ++ bs).head? := by
  have hnd := h.chain.nodup
  rw [MUtils.rootWithout, h.chain.next_eq, h.root]
  cases as with
  | nil => simp
  | cons a as =>
    have : a ≠ e := by rintro rfl; simp at hnd
    simp [this]

theorem PoolList.lastWithout (h : PoolList m P (as ++ e :: bs)) :
    lastWithout m P e = (as ++ bs).getLast? := by
  have hnd := h.chain.nodup
  rw [MUtils.lastWithout, h.chain.prev_eq, h.last]
  cases hbs : bs.getLast? with
  | none =>
    obtain rfl := List.getLast?_eq_none_iff.1 hbs
    simp
  | some c =>
    have : c ≠ e := by
      rintro rfl
      have := List.mem_of_getLast? hbs
      simp_all [List.nodup_append]
    simp [List.getLast?_append, List.getLast?_cons, hbs, this]

theorem PoolList.next_last {q : ItemPtr} (h : PoolList m P xs) (hq : xs.getLast? = some q) :
    m.m_pNext q = none := by
  obtain ⟨ys, rfl⟩ := List.getLast?_eq_some_iff.1 hq
  exact h.chain.next_eq

theorem PoolList.previous_head {q : ItemPtr} (h : PoolList m P xs) (hq : xs.head? = some q) :
    m.m_pPrevious q = none := by
  obtain ⟨ys, rfl⟩ := List.head?_eq_some_iff.1 hq
  exact h.chain.prev_head

section
variable {q : ItemPtr} (h : PoolList m P (as ++ e :: bs)) (hP : m.m_pPool e = some P)
  (hq : q ∈ as ++ bs)
include h hP hq

/-- The item before `e` now points past it. The code clears the link of the new last item again,
which is null by then. -/
theorem PoolList.list_disconnect_next_mem : (list_disconnect m e).1.m_pNext q =
    if as.getLast? = some q then bs.head? else m.m_pNext q := by
  obtain ⟨heout, hnd⟩ := List.nodup_cons.1 (List.nodup_middle.1 h.chain.nodup)
  have hne : q ≠ e := fun he => heout (he ▸ hq)
  rw [list_disconnect_next hP, h.lastWithout, h.chain.prev_eq, h.chain.next_eq, if_neg hne]
  by_cases hlast : (as ++ bs).getLast? = some q
  · rw [if_pos hlast]
    rcases List.eq_nil_or_concat bs with rfl | ⟨bs, b, rfl⟩
    · rw [if_pos (by simpa using hlast)]
      rfl
    · have hqb : b = q := by simpa [List.getLast?_append] using hlast
      have hqa : as.getLast? ≠ some q := fun hh =>
        (List.nodup_append.1 hnd).2.2 q (List.mem_of_getLast? hh) b (by simp) hqb.symm
      rw [if_neg hqa, h.next_last (by simp [List.getLast?_append, List.getLast?_cons, hqb])]
  · rw [if_neg hlast]

/-- The item after `e` now points back past it. -/
theorem PoolList.list_disconnect_previous_mem : (list_disconnect m e).1.m_pPrevious q =
    if bs.head? = some q then as.getLast? else m.m_pPrevious q := by
  obtain ⟨heout, hnd⟩ := List.nodup_cons.1 (List.nodup_middle.1 h.chain.nodup)
  have hne : q ≠ e := fun he => heout (he ▸ hq)
  rw [list_disconnect_previous hP, h.rootWithout, h.chain.next_eq, h.chain.prev_eq, if_neg hne]
  by_cases hroot : (as ++ bs).head? = some q
  · rw [if_pos hroot]
    cases as with
    | nil =>
      rw [if_pos (by simpa using hroot)]
      rfl
    | cons a as =>
      have hqa : a = q := by simpa using hroot
      have hqb : bs.head? ≠ some q := fun hh =>
        (List.nodup_append.1 hnd).2.2 a (by simp) q (List.mem_of_head? hh) hqa
      rw [if_neg hqb, h.previous_head (by simp [hqa])]
  · rw [if_neg hroot]

end

/-- Disconnecting an item of the list touches only the list. -/
theorem PoolList.list_disconnect_frame (h : PoolList m P (as ++ e :: bs))
    (hP : m.m_pPool e = some P) : m.Frame (list_disconnect m e).1 P (as ++ e :: bs) := by
  have hmem : ∀ q, q ∉ as ++ e :: bs → q ≠ e ∧ q ∉ as ∧ q ∉ bs ∧ q ∉ as ++ bs := by
    intro q hq
    simp only [List.mem_append, List.mem_cons, not_or] at hq ⊢
    exact ⟨hq.2.1, hq.1, hq.2.2, hq.1, hq.2.2⟩
  refine ⟨list_disconnect_pool hP, fun q hq => ?_, fun q hq => ?_, fun Q hQ => ?_, fun Q hQ => ?_⟩
  · obtain ⟨hne, ha, -, hab⟩ := hmem q hq
    rw [list_disconnect_next hP, h.lastWithout, if_neg (fun hh => hab (List.mem_of_getLast? hh)),
      if_neg hne, h.chain.prev_eq, if_neg (fun hh => ha (List.mem_of_getLast? hh))]
  · obtain ⟨hne, -, hb, hab⟩ := hmem q hq
    rw [list_disconnect_previous hP, h.rootWithout, if_neg (fun hh => hab (List.mem_of_head? hh)),
      if_neg hne, h.chain.next_eq, if_neg (fun hh => hb (List.mem_of_head? hh))]
  · rw [list_disconnect_root hP, if_neg hQ]
  · rw [list_disconnect_last hP, if_neg hQ]

/-- Disconnecting an item of the list removes exactly that item, clears its links and returns the
item that followed it. -/
theorem list_disconnect_mem (h : PoolList m P (as ++ e :: bs)) (hP : m.m_pPool e = some P) :
    (list_disconnect m e).2 = bs.head? ∧
      PoolList (list_disconnect m e).1 P (as ++ bs) ∧
      (list_disconnect m e).1.m_pNext e = none ∧ (list_disconnect m e).1.m_pPrevious e = none ∧
      m.Frame (list_disconnect m e).1 P (as ++ e :: bs) := by
  have hlist : PoolList (list_disconnect m e).1 P (as ++ bs) := by
    refine ⟨h.chain.remove (fun q hq => h.list_disconnect_next_mem hP hq)
      fun q hq => h.list_disconnect_previous_mem hP hq, ?_, ?_⟩
    · rw [list_disconnect_root hP, if_pos rfl, h.rootWithout]
    · rw [list_disconnect_last hP, if_pos rfl, h.lastWithout]
  refine ⟨?_, hlist, ?_, ?_, h.list_disconnect_frame hP⟩
  · rw [list_disconnect_returns hP, h.chain.next_eq]
  · rw [list_disconnect_next hP, if_pos rfl, ite_self]
  · rw [list_disconnect_previous hP, if_pos rfl, ite_self]

/-- Disconnecting an item that is in no list changes nothing. -/
theorem list_disconnect_not_mem (h : PoolList m P xs) (hP : m.m_pPool e = some P) (he : e ∉ xs)
    (hn : m.m_pNext e = none) (hp : m.m_pPrevious e = none) : (list_disconnect m e).1 = m := by
  have hroot : MUtils.rootWithout m P e = xs.head? := by
    rw [MUtils.rootWithout, h.root, if_neg fun hh => he (List.mem_of_head? hh)]
  have hlast : MUtils.lastWithout m P e = xs.getLast? := by
    rw [MUtils.lastWithout, h.last, if_neg fun hh => he (List.mem_of_getLast? hh)]
  apply ListMem.ext
  · exact list_disconnect_pool hP
  · funext q
    rw [list_disconnect_next hP, hlast, hp]
    split_ifs with h1 h2 h3
    · exact (h.next_last h1).symm
    · exact h2 ▸ hn.symm
    · cases h3
    · rfl
  · funext q
    rw [list_disconnect_previous hP, hroot, hn]
    split_ifs with h1 h2 h3
    · exact (h.previous_head h1).symm
    · exact h2 ▸ hp.symm
    · cases h3
    · rfl
  · funext Q
    rw [list_disconnect_root hP, hroot]
    split_ifs with h1
    · rw [h1, h.root]
    · rfl
  · funext Q
    rw [list_disconnect_last hP, hlast]
    split_ifs with h1
    · rw [h1, h.last]
    · rfl

end MUtils
