import Mathlib

/-!
# Doubly linked sequences

Two functions `next` and `prev` on a type of nodes hold a sequence of nodes when each node points
at its neighbours in both directions. `Seg` is the segment between two given neighbours, `Chain`
the whole sequence without repetition. `Chain.insert`, `Chain.remove` and `Chain.cut` say which
links an insertion, a removal and the cutting out of a segment have to patch; `Chain.walk` and
`Chain.walk_back` say what a traversal of either link visits, and `Chain.reach` what can be reached
by both.
-/

namespace MUtils.DoublyLinked

variable {α : Type*} {next prev next' prev' : α → Option α}

/-- The links of the nodes `xs`, in order, when `p` comes before the first and `n` after the
last. -/
def Seg (next prev : α → Option α) : Option α → List α → Option α → Prop
  | _, [], _ => True
  | p, x :: xs, n => prev x = p ∧ next x = xs.head?.or n ∧ Seg next prev (some x) xs n

@[simp] theorem seg_nil {p n : Option α} : Seg next prev p [] n := trivial

theorem seg_cons {p n : Option α} {x : α} {xs : List α} :
    Seg next prev p (x :: xs) n ↔
      prev x = p ∧ next x = xs.head?.or n ∧ Seg next prev (some x) xs n := Iff.rfl

theorem seg_append {p n : Option α} {xs ys : List α} :
    Seg next prev p (xs ++ ys) n ↔
      Seg next prev p xs (ys.head?.or n) ∧ Seg next prev (xs.getLast?.or p) ys n := by
  induction xs generalizing p with
  | nil => simp
  | cons x xs ih =>
    have hlast : (x :: xs).getLast?.or p = xs.getLast?.or (some x) := by
      cases xs with
      | nil => rfl
      | cons y ys => simp [List.getLast?_cons]
    rw [List.cons_append, seg_cons, seg_cons, ih, hlast, List.head?_append, Option.or_assoc]
    tauto

theorem Seg.congr {p n : Option α} {xs : List α} (h : Seg next prev p xs n)
    (hn : ∀ x ∈ xs, next' x = next x) (hp : ∀ x ∈ xs, prev' x = prev x) :
    Seg next' prev' p xs n := by
  induction xs generalizing p with
  | nil => trivial
  | cons x xs ih =>
    obtain ⟨h1, h2, h3⟩ := h
    refine ⟨?_, ?_, ih h3 (fun y hy => hn y (List.mem_cons_of_mem _ hy))
      fun y hy => hp y (List.mem_cons_of_mem _ hy)⟩
    · rw [hp x List.mem_cons_self, h1]
    · rw [hn x List.mem_cons_self, h2]

/-- Only the links at the two ends of a segment depend on its neighbours. -/
theorem Seg.relink {p n p' n' : Option α} {xs : List α} (h : Seg next prev p xs n)
    (hnd : xs.Nodup)
    (hn : ∀ x ∈ xs, xs.getLast? ≠ some x → next' x = next x)
    (hlast : ∀ x, xs.getLast? = some x → next' x = n')
    (hp : ∀ x ∈ xs, xs.head? ≠ some x → prev' x = prev x)
    (hhead : ∀ x, xs.head? = some x → prev' x = p') : Seg next' prev' p' xs n' := by
  induction xs generalizing p p' with
  | nil => trivial
  | cons x xs ih =>
    obtain ⟨-, h2, h3⟩ := h
    obtain ⟨hx, hnd⟩ := List.nodup_cons.1 hnd
    have htail : ∀ y, xs.getLast? = some y → (x :: xs).getLast? = some y := by
      intro y hy
      simp [List.getLast?_cons, hy]
    refine ⟨hhead x rfl, ?_, ih h3 hnd ?_ ?_ ?_ ?_⟩
    · cases xs with
      | nil => simpa using hlast x rfl
      | cons y ys =>
        rw [hn x (by simp) ?_, h2]
        · rfl
        · intro hl
          have : x ∈ y :: ys := List.mem_of_getLast? (by simpa [List.getLast?_cons] using hl)
          exact hx this
    · intro y hy hl
      refine hn y (List.mem_cons_of_mem _ hy) ?_
      cases xs with
      | nil => simp at hy
      | cons z zs => simpa [List.getLast?_cons] using hl
    · exact fun y hy => hlast y (htail y hy)
    · intro y hy _
      refine hp y (List.mem_cons_of_mem _ hy) ?_
      simp only [List.head?_cons, ne_eq, Option.some.injEq]
      rintro rfl
      exact hx hy
    · intro y hy
      have hmem : y ∈ xs := List.mem_of_head? hy
      rw [hp y (List.mem_cons_of_mem _ hmem) ?_]
      · cases xs with
        | nil => simp at hmem
        | cons z zs =>
          cases hy
          exact h3.1
      · simp only [List.head?_cons, ne_eq, Option.some.injEq]
        rintro rfl
        exact hx hmem

theorem Seg.prev_head {p n : Option α} {xs : List α} {x : α} (h : Seg next prev p xs n)
    (hx : xs.head? = some x) : prev x = p := by
  cases xs with
  | nil => cases hx
  | cons y ys =>
    cases hx
    exact h.1

theorem Seg.next_last {p n : Option α} {xs : List α} {x : α} (h : Seg next prev p xs n)
    (hx : xs.getLast? = some x) : next x = n := by
  obtain ⟨ys, rfl⟩ := List.getLast?_eq_some_iff.1 hx
  simpa using (seg_append.1 h).2.2.1

section
variable [DecidableEq α] {p n p' n' : Option α} {xs : List α}

theorem Seg.patch (h : Seg next prev p xs n) (hnd : xs.Nodup)
    (hn : ∀ x ∈ xs, next' x = if xs.getLast? = some x then n' else next x)
    (hp : ∀ x ∈ xs, prev' x = if xs.head? = some x then p' else prev x) :
    Seg next' prev' p' xs n' := by
  refine h.relink hnd (fun x hx hl => ?_) (fun x hl => ?_) (fun x hx hh => ?_) (fun x hh => ?_)
  · rw [hn x hx, if_neg hl]
  · rw [hn x (List.mem_of_getLast? hl), if_pos hl]
  · rw [hp x hx, if_neg hh]
  · rw [hp x (List.mem_of_head? hh), if_pos hh]

/-- Something else comes after the segment. -/
theorem Seg.patch_last (h : Seg next prev p xs n) (hnd : xs.Nodup)
    (hn : ∀ x ∈ xs, next' x = if xs.getLast? = some x then n' else next x)
    (hp : ∀ x ∈ xs, prev' x = prev x) : Seg next' prev' p xs n' := by
  refine h.patch hnd hn fun x hx => ?_
  split
  · next hh => rw [hp x hx, h.prev_head hh]
  · exact hp x hx

/-- Something else comes before the segment. -/
theorem Seg.patch_head (h : Seg next prev p xs n) (hnd : xs.Nodup)
    (hn : ∀ x ∈ xs, next' x = next x)
    (hp : ∀ x ∈ xs, prev' x = if xs.head? = some x then p' else prev x) :
    Seg next' prev' p' xs n := by
  refine h.patch hnd (fun x hx => ?_) hp
  split
  · next hl => rw [hn x hx, h.next_last hl]
  · exact hn x hx

/-- The nodes on the two sides of a place have other nodes around it afterwards. -/
theorem Seg.patch_both {as bs : List α} {n₁ p₁ n₁' p₁' : Option α}
    (ha : Seg next prev p as n₁) (hb : Seg next prev p₁ bs n) (hnd : (as ++ bs).Nodup)
    (hn : ∀ a ∈ as ++ bs, next' a = if as.getLast? = some a then n₁' else next a)
    (hp : ∀ b ∈ as ++ bs, prev' b = if bs.head? = some b then p₁' else prev b) :
    Seg next' prev' p as n₁' ∧ Seg next' prev' p₁' bs n := by
  obtain ⟨nda, ndb, hdis⟩ := List.nodup_append.1 hnd
  constructor
  · refine ha.patch_last nda (fun x hx => hn x (List.mem_append_left _ hx)) fun x hx => ?_
    rw [hp x (List.mem_append_left _ hx), if_neg]
    exact fun hh => hdis x hx x (List.mem_of_head? hh) rfl
  · refine hb.patch_head ndb (fun x hx => ?_) fun x hx => hp x (List.mem_append_right _ hx)
    rw [hn x (List.mem_append_right _ hx), if_neg]
    exact fun hl => hdis x (List.mem_of_getLast? hl) x hx rfl

end

/-- The whole sequence held by the links: no node comes before the first or after the last. -/
structure Chain (next prev : α → Option α) (xs : List α) : Prop where
  links : Seg next prev none xs none
  nodup : xs.Nodup

namespace Chain
variable {xs as ms bs : List α} {x y e : α}

theorem nil : Chain next prev [] := ⟨trivial, List.nodup_nil⟩

theorem next_eq (h : Chain next prev (as ++ x :: bs)) : next x = bs.head? := by
  simpa using (seg_append.1 h.links).2.2.1

theorem prev_eq (h : Chain next prev (as ++ x :: bs)) : prev x = as.getLast? := by
  simpa using (seg_append.1 h.links).2.1

theorem prev_head (h : Chain next prev (x :: bs)) : prev x = none := h.links.1

theorem mem_of_next (h : Chain next prev xs) (hx : x ∈ xs) (hy : next x = some y) : y ∈ xs := by
  obtain ⟨as, bs, rfl⟩ := List.append_of_mem hx
  rw [h.next_eq] at hy
  exact List.mem_append_right _ (List.mem_cons_of_mem _ (List.mem_of_head? hy))

theorem mem_of_prev (h : Chain next prev xs) (hx : x ∈ xs) (hy : prev x = some y) : y ∈ xs := by
  obtain ⟨as, bs, rfl⟩ := List.append_of_mem hx
  rw [h.prev_eq] at hy
  exact List.mem_append_left _ (List.mem_of_getLast? hy)

/-- A single node is a chain when it has no neighbours. -/
theorem singleton (hn : next x = none) (hp : prev x = none) : Chain next prev [x] :=
  ⟨⟨hp, hn, trivial⟩, List.nodup_singleton x⟩

section
variable [DecidableEq α]

/-- Inserting `e` between `as` and `bs`: its own links, the `next` of the node before and the
`prev` of the node after are all there is to patch. -/
theorem insert (h : Chain next prev (as ++ bs)) (he : e ∉ as ++ bs)
    (hne : next' e = bs.head?) (hpe : prev' e = as.getLast?)
    (hn : ∀ a ∈ as ++ bs, next' a = if as.getLast? = some a then some e else next a)
    (hp : ∀ b ∈ as ++ bs, prev' b = if bs.head? = some b then some e else prev b) :
    Chain next' prev' (as ++ e :: bs) := by
  obtain ⟨ha, hb⟩ := seg_append.1 h.links
  obtain ⟨ha, hb⟩ := ha.patch_both hb h.nodup hn hp
  refine ⟨seg_append.2 ⟨ha, by simpa using hpe, by simpa using hne, hb⟩, ?_⟩
  exact List.nodup_middle.2 (List.nodup_cons.2 ⟨he, h.nodup⟩)

/-- Cutting `ms` out from between `as` and `bs` joins the two neighbours. -/
theorem cut (h : Chain next prev (as ++ (ms ++ bs)))
    (hn : ∀ a ∈ as ++ bs, next' a = if as.getLast? = some a then bs.head? else next a)
    (hp : ∀ b ∈ as ++ bs, prev' b = if bs.head? = some b then as.getLast? else prev b) :
    Chain next' prev' (as ++ bs) := by
  obtain ⟨ha, hb⟩ := seg_append.1 h.links
  have hb := (seg_append.1 hb).2
  have hnd : (as ++ bs).Nodup :=
    h.nodup.sublist ((List.sublist_append_right ms bs).append_left as)
  obtain ⟨ha, hb⟩ := ha.patch_both hb hnd hn hp
  exact ⟨seg_append.2 ⟨by simpa using ha, by simpa using hb⟩, hnd⟩

/-- What was cut out is a chain once the links at its two ends are cleared. -/
theorem segment (h : Chain next prev (as ++ (ms ++ bs)))
    (hn : ∀ a ∈ ms, next' a = if ms.getLast? = some a then none else next a)
    (hp : ∀ b ∈ ms, prev' b = if ms.head? = some b then none else prev b) :
    Chain next' prev' ms := by
  have hms := (seg_append.1 (seg_append.1 h.links).2).1
  have hnd := (List.nodup_append.1 (List.nodup_append.1 h.nodup).2.1).1
  exact ⟨hms.patch hnd hn hp, hnd⟩

/-- Removing `e` from between `as` and `bs`. -/
theorem remove (h : Chain next prev (as ++ e :: bs))
    (hn : ∀ a ∈ as ++ bs, next' a = if as.getLast? = some a then bs.head? else next a)
    (hp : ∀ b ∈ as ++ bs, prev' b = if bs.head? = some b then as.getLast? else prev b) :
    Chain next' prev' (as ++ bs) :=
  cut (show Chain next prev (as ++ ([e] ++ bs)) from h) hn hp

end

end Chain

/-! ### Traversals -/

theorem Seg.reach {p n : Option α} {xs : List α} {x : α} (h : Seg next prev p xs n) (hx : x ∈ xs) :
    ∃ r, xs.head? = some r ∧ Relation.ReflTransGen (fun a b => next a = some b) r x := by
  induction xs generalizing p with
  | nil => cases hx
  | cons y ys ih =>
    obtain ⟨-, hy, hys⟩ := h
    rcases List.mem_cons.1 hx with rfl | hx
    · exact ⟨x, rfl, .refl⟩
    · obtain ⟨r, hr, hpath⟩ := ih hys hx
      rw [hr, Option.some_or] at hy
      exact ⟨y, rfl, .head hy hpath⟩

/-- The nodes of a chain are those that `next` leads to from its first node. -/
theorem Chain.mem_iff_reach {xs : List α} {x : α} (h : Chain next prev xs) :
    x ∈ xs ↔ ∃ r, xs.head? = some r ∧ Relation.ReflTransGen (fun a b => next a = some b) r x := by
  constructor
  · exact h.links.reach
  · rintro ⟨r, hr, hpath⟩
    induction hpath with
    | refl => exact List.mem_of_head? hr
    | tail _ hlink ih => exact h.mem_of_next ih hlink

/-- One link, in either direction. -/
def Linked (next prev : α → Option α) (x y : α) : Prop := next x = some y ∨ prev x = some y

/-- A node of the chain reaches only nodes of the chain; one without links reaches only itself. -/
theorem Chain.reach {xs : List α} {x y : α} (h : Chain next prev xs)
    (hout : ∀ z ∉ xs, next z = none ∧ prev z = none)
    (hxy : Relation.ReflTransGen (Linked next prev) x y) : y = x ∨ x ∈ xs ∧ y ∈ xs := by
  induction hxy with
  | refl => exact .inl rfl
  | @tail y z _ hlink ih =>
    have hy : y ∈ xs := by
      by_contra hy
      obtain ⟨hn, hp⟩ := hout y hy
      simp [Linked, hn, hp] at hlink
    have hz : z ∈ xs := hlink.elim (h.mem_of_next hy) (h.mem_of_prev hy)
    rcases ih with rfl | ⟨hx, -⟩
    · exact .inr ⟨hy, hz⟩
    · exact .inr ⟨hx, hz⟩

/-- Following `next` from `start` visits `xs` and then ends. -/
inductive Walk (next : α → Option α) : Option α → List α → Prop
  | done : Walk next none []
  | step : Walk next (next x) xs → Walk next (some x) (x :: xs)

theorem Seg.walk {p : Option α} {xs : List α} (h : Seg next prev p xs none) :
    Walk next xs.head? xs := by
  induction xs generalizing p with
  | nil => exact .done
  | cons x xs ih =>
    obtain ⟨-, h2, h3⟩ := h
    have := ih h3
    rw [Option.or_none] at h2
    exact .step (h2 ▸ this)

theorem Seg.walk_back {n : Option α} {xs : List α} (h : Seg next prev none xs n) :
    Walk prev xs.getLast? xs.reverse := by
  induction xs using List.reverseRecOn generalizing n with
  | nil => exact .done
  | append_singleton xs x ih =>
    obtain ⟨h1, h2, -⟩ := seg_append.1 h
    rw [Option.or_none] at h2
    simp only [List.getLast?_append, List.getLast?_singleton, Option.some_or, List.reverse_append,
      List.reverse_cons, List.reverse_nil, List.nil_append, List.singleton_append]
    exact .step (h2 ▸ ih h1)

theorem Chain.walk {xs : List α} (h : Chain next prev xs) : Walk next xs.head? xs := h.links.walk

theorem Chain.walk_back {xs : List α} (h : Chain next prev xs) :
    Walk prev xs.getLast? xs.reverse := h.links.walk_back

end MUtils.DoublyLinked
