import Mathlib

/-!
# Sorting and searching sorted ranges

The functions of the C++ library on ranges, by what is required of them: `std::sort` as any function
that permutes a range into order, and `std::equal_range` by the two positions it finds. `scanUntil`
is a loop that takes elements until it comes to one at which it stops.
-/

namespace MUtils

/-- An implementation of `std::sort`; equivalent elements may end up in any order. -/
structure StdSort {α : Type*} (lt : α → α → Prop) where
  sort : List α → List α
  perm : ∀ l, (sort l).Perm l
  sorted : ∀ l, (sort l).Pairwise fun a b => ¬lt b a

/-- `std::equal_range`, where `before` compares elements with the value and `after` the value with
elements: the first position that is not before the value, and the first one after it. -/
def equalRange (l : List α) (before after : α → Bool) : Nat × Nat :=
  ((l.takeWhile before).length, (l.takeWhile fun a => !after a).length)

/-- The elements from one position up to another. -/
def slice (l : List α) (range : Nat × Nat) : List α := (l.drop range.1).take (range.2 - range.1)

variable {α : Type*} {κ : Type*} [LinearOrder κ] {key : α → κ} {d : κ} {l : List α}

theorem slice_equalRange (hl : l.Pairwise fun a b => key a ≤ key b) :
    slice l (equalRange l (key · < d) (d < key ·)) = l.filter (key · = d) := by
  induction l with
  | nil => rfl
  | cons a l ih =>
    rw [List.pairwise_cons] at hl
    have ih := ih hl.2
    rcases lt_trichotomy (key a) d with ha | rfl | ha
    · -- `a` comes before the range.
      simpa [slice, equalRange, ha, ha.not_gt, ha.ne] using ih
    · -- The range begins at `a`, and what follows is not before it.
      have hfirst : l.takeWhile (key · < key a) = [] := by
        cases l with
        | nil => rfl
        | cons b l => simp [hl.1 b (.head _)]
      rw [slice, equalRange, hfirst] at ih
      simpa [slice, equalRange] using ih
    · -- The range is empty.
      have hnone : ∀ b ∈ a :: l, ¬key b = d := fun b hb heq => by
        rcases List.mem_cons.1 hb with rfl | hb
        · exact ha.ne' heq
        · exact (ha.trans_le (hl.1 b hb)).ne' heq
      rw [List.filter_eq_nil_iff.2 (by simpa using hnone)]
      simp [slice, equalRange, ha, ha.not_gt]

theorem length_takeWhile_eq_iff {p : α → Bool} :
    (l.takeWhile p).length = l.length ↔ ∀ a ∈ l, p a = true := by
  rw [← List.takeWhile_eq_self_iff]
  exact ⟨(List.takeWhile_prefix p).eq_of_length, congrArg List.length⟩

/-- The range ends before the list does if there is something after the value. -/
theorem equalRange_ne_length_iff :
    (equalRange l (key · < d) (d < key ·)).1 ≠ l.length ∧
      (equalRange l (key · < d) (d < key ·)).2 ≠ l.length ↔ ∃ a ∈ l, d < key a := by
  simp only [equalRange, ne_eq, length_takeWhile_eq_iff, decide_eq_true_eq, Bool.not_eq_true',
    decide_eq_false_iff_not, not_forall, not_lt, not_le, exists_prop]
  exact ⟨And.right, fun ⟨a, ha, hlt⟩ => ⟨⟨a, ha, hlt.le⟩, a, ha, hlt⟩⟩

/-! ### Scans that stop early -/

section
variable {α : Type*} {take stop : α → Prop} [DecidablePred take] [DecidablePred stop] {l : List α}

/-- The elements with `take`, up to the first other one with `stop`. -/
def scanUntil (take stop : α → Prop) [DecidablePred take] [DecidablePred stop] : List α → List α
  | [] => []
  | a :: l =>
    if take a then a :: scanUntil take stop l else if stop a then [] else scanUntil take stop l

theorem scanUntil_sublist : (scanUntil take stop l).Sublist l := by
  induction l with
  | nil => exact .slnil
  | cons a l ih =>
    rw [scanUntil]
    split_ifs
    · exact ih.cons_cons a
    · exact List.nil_sublist _
    · exact ih.cons a

/-- A scan finds all there is to take if it stops at nothing that stands before such an element. -/
theorem scanUntil_eq_filter_iff :
    scanUntil take stop l = l.filter take ↔ l.Pairwise fun a b => stop a → take b → take a := by
  induction l with
  | nil => simp [scanUntil]
  | cons a l ih =>
    rw [List.pairwise_cons, scanUntil]
    split_ifs with ht hs
    · simp [ht, ih]
    · rw [List.filter_cons_of_neg (by simpa using ht), eq_comm, List.filter_eq_nil_iff]
      constructor
      · intro h
        have hnone : ∀ b ∈ l, ¬take b := by simpa using h
        exact ⟨fun b hb _ htb => absurd htb (hnone b hb),
          List.pairwise_of_forall_mem_list fun _ _ b hb _ htb => absurd htb (hnone b hb)⟩
      · rintro ⟨h, -⟩ b hb htb
        exact ht (h b hb hs (by simpa using htb))
    · simp [ht, hs, ih]

/-- Two scans find the same if their tests agree at the elements that the second one comes to. -/
theorem scanUntil_congr {take' stop' : α → Prop} [DecidablePred take'] [DecidablePred stop']
    (h : ∀ as b bs, l = as ++ b :: bs → (∀ a ∈ as, stop' a → take' a) →
      (take b ↔ take' b) ∧ (¬take' b → (stop b ↔ stop' b))) :
    scanUntil take stop l = scanUntil take' stop' l := by
  induction l with
  | nil => rfl
  | cons a l ih =>
    obtain ⟨ht, hs⟩ := h [] a l rfl (by simp)
    have ih (ha : stop' a → take' a) : scanUntil take stop l = scanUntil take' stop' l :=
      ih fun as b bs hl has => h (a :: as) b bs (by rw [hl, List.cons_append])
        (List.forall_mem_cons.2 ⟨ha, has⟩)
    simp only [scanUntil, ht]
    split_ifs with hta hsa hsa' hsa'
    · rw [ih fun _ => hta]
    · rfl
    · exact absurd ((hs hta).1 hsa) hsa'
    · exact absurd ((hs hta).2 hsa') hsa
    · exact ih fun hstop => absurd hstop hsa'

end

end MUtils
