import Mathlib

/-!
# Triangle strips

An index buffer lists the corners of triangles, three indices each. A *strip* is a row of pairs of
vertices in which two triangles join each pair to the next one; `strips m n` are the indices of `m`
strips of `n + 1` pairs that lie in a vertex buffer one after the other.
-/

namespace MUtils

/-- The elements of a list three by three; what is left over is dropped. -/
def triples : List α → List (α × α × α)
  | a :: b :: c :: l => (a, b, c) :: triples l
  | _ => []

/-- Induction on a list of whole triples. -/
@[elab_as_elim]
theorem triples_induction {motive : ∀ l : List α, 3 ∣ l.length → Prop}
    (nil : motive [] (dvd_zero 3))
    (cons : ∀ a b c l h h', motive l h → motive (a :: b :: c :: l) h') : ∀ l h, motive l h
  | [], _ => nil
  | [_], h | [_, _], h => by simp at h
  | a :: b :: c :: l, h =>
    have htail : 3 ∣ l.length := (Nat.dvd_add_left (dvd_refl 3)).mp h
    cons a b c l htail h (triples_induction nil cons l htail)

theorem triples_append {l : List α} (h : 3 ∣ l.length) (l' : List α) :
    triples (l ++ l') = triples l ++ triples l' := by
  induction l, h using triples_induction with
  | nil => rfl
  | cons a b c l _ _ ih => simp only [List.cons_append, triples, ih]

theorem length_triples {l : List α} (h : 3 ∣ l.length) : l.length = 3 * (triples l).length := by
  induction l, h using triples_induction with
  | nil => rfl
  | cons a b c l _ _ ih =>
    simp only [triples, List.length_cons, ih]
    omega

/-- The triangles between the pair of vertices from `b` on and the next pair. -/
def quad (b : Nat) : List Nat := [b + 1, b, b + 2, b + 1, b + 2, b + 3]

def strip (b : Nat) : Nat → List Nat
  | 0 => []
  | n + 1 => quad b ++ strip (b + 2) n

def strips (m n : Nat) : List Nat := (List.range m).flatMap fun s => strip (s * (2 * n + 2)) n

theorem strip_succ (b n : Nat) : strip b (n + 1) = strip b n ++ quad (b + 2 * n) := by
  induction n generalizing b with
  | zero => rfl
  | succ n ih =>
    calc strip b (n + 2)
      _ = quad b ++ (strip (b + 2) n ++ quad (b + 2 + 2 * n)) := by rw [strip, ih]
      _ = strip b (n + 1) ++ quad (b + 2 * (n + 1)) := by
        rw [strip, List.append_assoc, mul_add, mul_one, add_assoc b, add_comm 2]

theorem length_strip (b n : Nat) : (strip b n).length = 6 * n := by
  induction n generalizing b with
  | zero => rfl
  | succ n ih =>
    rw [strip, List.length_append, ih]
    simp only [quad, List.length_cons, List.length_nil]
    omega

theorem mem_triples_strip {b n : Nat} {t : Nat × Nat × Nat} (h : t ∈ triples (strip b n)) :
    ∃ j < n, t = (b + 2 * j + 1, b + 2 * j, b + 2 * j + 2) ∨
      t = (b + 2 * j + 1, b + 2 * j + 2, b + 2 * j + 3) := by
  induction n generalizing b with
  | zero => cases h
  | succ n ih =>
    simp only [strip, quad, List.cons_append, List.nil_append, triples, List.mem_cons] at h
    obtain h | h | h := h
    · exact ⟨0, n.succ_pos, .inl h⟩
    · exact ⟨0, n.succ_pos, .inr h⟩
    · obtain ⟨j, hj, ht⟩ := ih h
      refine ⟨j + 1, by omega, ?_⟩
      have hnext : b + 2 * (j + 1) = b + 2 + 2 * j := by omega
      rwa [hnext]

theorem lt_of_mem_strip {b n i : Nat} (h : i ∈ strip b n) : i < b + (2 * n + 2) := by
  induction n generalizing b with
  | zero => cases h
  | succ n ih =>
    rw [strip, List.mem_append] at h
    obtain h | h := h
    · simp only [quad, List.mem_cons, List.not_mem_nil, or_false] at h
      omega
    · have := ih h
      omega

theorem strips_succ (m n : Nat) : strips (m + 1) n = strips m n ++ strip (m * (2 * n + 2)) n := by
  simp only [strips, List.range_succ, List.flatMap_append, List.flatMap_singleton]

theorem length_strips (m n : Nat) : (strips m n).length = 3 * (2 * m * n) := by
  induction m with
  | zero => simp [strips]
  | succ m ih =>
    rw [strips_succ, List.length_append, ih, length_strip]
    ring

theorem lt_of_mem_strips {m n i : Nat} (h : i ∈ strips m n) : i < m * (2 * n + 2) := by
  obtain ⟨s, hs, hi⟩ := List.mem_flatMap.mp h
  calc i
    _ < (s + 1) * (2 * n + 2) := by rw [add_one_mul]; exact lt_of_mem_strip hi
    _ ≤ m * (2 * n + 2) := Nat.mul_le_mul_right _ (List.mem_range.mp hs)

theorem mem_triples_strips {m n : Nat} {t : Nat × Nat × Nat} (h : t ∈ triples (strips m n)) :
    ∃ s < m, t ∈ triples (strip (s * (2 * n + 2)) n) := by
  induction m with
  | zero => cases h
  | succ m ih =>
    have hlength : 3 ∣ (strips m n).length := ⟨_, length_strips m n⟩
    rw [strips_succ, triples_append hlength, List.mem_append] at h
    obtain h | h := h
    · obtain ⟨s, hs, ht⟩ := ih h
      exact ⟨s, Nat.lt_succ_of_lt hs, ht⟩
    · exact ⟨m, m.lt_succ_self, h⟩

/-- Where a vertex lies: the strip, and the pair of that strip. -/
def stripOf (n i : Nat) : Nat := i / (2 * n + 2)

@[inherit_doc stripOf]
def pairOf (n i : Nat) : Nat := i % (2 * n + 2) / 2

/-- A triangle's corners lie in one strip, in two pairs that follow each other. -/
def JoinsPairs (n s j : Nat) (t : Nat × Nat × Nat) : Prop :=
  ∀ i ∈ [t.1, t.2.1, t.2.2], stripOf n i = s ∧ (pairOf n i = j ∨ pairOf n i = j + 1)

theorem place_in_strip {n s r : Nat} (hr : r < 2 * n + 2) :
    stripOf n (s * (2 * n + 2) + r) = s ∧ pairOf n (s * (2 * n + 2) + r) = r / 2 := by
  constructor
  · rw [stripOf, mul_comm, Nat.mul_add_div (by omega), Nat.div_eq_of_lt hr, add_zero]
  · rw [pairOf, add_comm, Nat.add_mul_mod_self_right, Nat.mod_eq_of_lt hr]

theorem joinsPairs_of_mem_strips {m n : Nat} {t : Nat × Nat × Nat} (h : t ∈ triples (strips m n)) :
    ∃ s < m, ∃ j < n, JoinsPairs n s j t := by
  obtain ⟨s, hs, ht⟩ := mem_triples_strips h
  obtain ⟨j, hj, ht⟩ := mem_triples_strip ht
  refine ⟨s, hs, j, hj, fun i hi => ?_⟩
  obtain ⟨r, hr, rfl⟩ : ∃ r < 4, i = s * (2 * n + 2) + (2 * j + r) := by
    simp only [List.mem_cons, List.not_mem_nil, or_false] at hi
    obtain rfl | rfl := ht
    · obtain rfl | rfl | rfl := hi
      exacts [⟨1, by omega, by ring⟩, ⟨0, by omega, by ring⟩, ⟨2, by omega, by ring⟩]
    · obtain rfl | rfl | rfl := hi
      exacts [⟨1, by omega, by ring⟩, ⟨2, by omega, by ring⟩, ⟨3, by omega, by ring⟩]
  obtain ⟨hstrip, hpair⟩ := place_in_strip (n := n) (s := s) (r := 2 * j + r) (by omega)
  rw [hpair]
  exact ⟨hstrip, by omega⟩

end MUtils
