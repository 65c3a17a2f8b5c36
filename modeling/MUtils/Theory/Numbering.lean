import Mathlib

/-!
# Numbering by first use

The elements of `Fin n` are gone through in order. An element without a number gets the next one and
gives it to those without a number that it reaches. What holds then: the elements that got a number
of their own are the first ones to have it, and every other element is reached from the one whose
number it has.
-/

namespace MUtils

structure Numbering (n : Nat) where
  /-- The elements that got a number of their own, which is their place in the list. -/
  firsts : List (Fin n)
  index : Fin n → Option Nat

namespace Numbering

variable {n : Nat}

/-- What holds after the elements below `i`. -/
structure Valid (reach : Fin n → Fin n → Prop) (a : Numbering n) (i : Nat) : Prop where
  sorted : a.firsts.Pairwise (· < ·)
  below : ∀ f ∈ a.firsts, f.val < i
  length_le : a.firsts.length ≤ i
  own : ∀ (k : Nat) (f : Fin n), a.firsts[k]? = some f → a.index f = some k
  rep : ∀ (j : Fin n) (k : Nat), a.index j = some k →
    ∃ f, a.firsts[k]? = some f ∧ f ≤ j ∧ (f = j ∨ reach f j)
  done : ∀ j : Fin n, j.val < i → a.index j ≠ none

variable {reach : Fin n → Fin n → Prop} {a : Numbering n} {i j : Fin n} {k m : Nat}

/-! ### What the numbers mean -/

namespace Valid

/-- A number is new at the element that got it as its own. -/
theorem new_iff (h : Valid reach a m) (hj : a.index j = some k) :
    (∀ j' < j, a.index j' ≠ some k) ↔ j ∈ a.firsts := by
  obtain ⟨f, hf, hle, -⟩ := h.rep j k hj
  constructor
  · intro hnew
    rcases hle.lt_or_eq with hlt | rfl
    · exact absurd (h.own k f hf) (hnew f hlt)
    · exact List.mem_of_getElem? hf
  · intro hmem j' hlt hj'
    obtain ⟨k', hk'⟩ := List.mem_iff_getElem?.1 hmem
    obtain rfl : k' = k := Option.some_inj.1 ((h.own k' j hk').symm.trans hj)
    obtain ⟨f', hf', hle', -⟩ := h.rep j' k' hj'
    obtain rfl : f' = j := Option.some_inj.1 (hf'.symm.trans hk')
    exact absurd hlt (not_lt.2 hle')

theorem getElem?_firsts (h : Valid reach a m) (hj : a.index j = some k) (hmem : j ∈ a.firsts) :
    a.firsts[k]? = some j := by
  obtain ⟨k', hk'⟩ := List.mem_iff_getElem?.1 hmem
  obtain rfl : k' = k := Option.some_inj.1 ((h.own k' j hk').symm.trans hj)
  exact hk'

/-- No number is left out. -/
theorem le_succ (h : Valid reach a m) (hj : a.index j = some k) :
    k = 0 ∨ ∃ j' < j, ∃ k', a.index j' = some k' ∧ k ≤ k' + 1 := by
  obtain ⟨f, hf, hle, -⟩ := h.rep j k hj
  cases k with
  | zero => exact .inl rfl
  | succ k =>
    obtain ⟨hlt, rfl⟩ := List.getElem?_eq_some_iff.1 hf
    have hlt' : k < a.firsts.length := Nat.lt_of_succ_lt hlt
    have hprev : a.firsts[k] < a.firsts[k + 1] :=
      List.pairwise_iff_getElem.1 h.sorted k (k + 1) hlt' hlt (Nat.lt_succ_self k)
    exact .inr ⟨a.firsts[k], hprev.trans_le hle, k,
      h.own k _ (List.getElem?_eq_getElem hlt'), le_rfl⟩

/-- An element that nothing reaches has a number of its own. -/
theorem eq_of_not_reach (h : Valid reach a m) (hreach : ∀ f, ¬reach f j)
    (hi : a.index i = some k) (hj : a.index j = some k) (hreach' : ∀ f, ¬reach f i) : i = j := by
  obtain ⟨f, hf, -, rfl | hfi⟩ := h.rep i k hi
  · obtain ⟨g, hg, -, rfl | hgj⟩ := h.rep j k hj
    · exact Option.some_inj.1 (hf.symm.trans hg)
    · exact absurd hgj (hreach g)
  · exact absurd hfi (hreach' f)

end Valid

/-! ### One step -/

section
variable (reach) [DecidableRel reach]

def step (a : Numbering n) (i : Fin n) : Numbering n :=
  if a.index i = none then
    { firsts := a.firsts ++ [i]
      index := fun j =>
        if j = i ∨ a.index j = none ∧ reach i j then some a.firsts.length else a.index j }
  else a

/-- The numbering after the elements below `i`. -/
def upTo : Nat → Numbering n
  | 0 => ⟨[], fun _ => none⟩
  | i + 1 => if h : i < n then step reach (upTo i) ⟨i, h⟩ else upTo i

end

variable [DecidableRel reach]

theorem step_of_some (h : a.index i = some k) : step reach a i = a := by
  rw [step, if_neg (by rw [h]; exact Option.some_ne_none k)]

theorem step_of_none (h : a.index i = none) :
    step reach a i =
      { firsts := a.firsts ++ [i]
        index := fun j =>
          if j = i ∨ a.index j = none ∧ reach i j then some a.firsts.length else a.index j } := by
  rw [step, if_pos h]

theorem index_step_of_some (h : a.index j = some k) : (step reach a i).index j = some k := by
  cases hi : a.index i with
  | some _ => rwa [step_of_some hi]
  | none =>
    rw [step_of_none hi]
    have hne : ¬(j = i ∨ a.index j = none ∧ reach i j) := by
      rintro (rfl | ⟨hj, -⟩) <;> simp_all
    exact (if_neg hne).trans h

theorem index_step_self : ∃ k, (step reach a i).index i = some k := by
  cases hi : a.index i with
  | some k => exact ⟨k, index_step_of_some hi⟩
  | none => exact ⟨a.firsts.length, by rw [step_of_none hi]; exact if_pos (.inl rfl)⟩

theorem Valid.index_ne_none_step (h : Valid reach a i) (hj : j.val < i + 1) :
    (step reach a i).index j ≠ none := by
  rcases Nat.lt_succ_iff_lt_or_eq.1 hj with hj | hj
  · obtain ⟨k, hk⟩ := Option.ne_none_iff_exists'.1 (h.done j hj)
    rw [index_step_of_some hk]
    exact Option.some_ne_none k
  · obtain rfl : j = i := Fin.ext hj
    obtain ⟨k, hk⟩ : ∃ k, (step reach a j).index j = some k := index_step_self
    rw [hk]
    exact Option.some_ne_none k

theorem valid_step (h : Valid reach a i) : Valid reach (step reach a i) (i + 1) := by
  cases hi : a.index i with
  | some k =>
    have hdone := fun j hj => h.index_ne_none_step (j := j) hj
    rw [step_of_some hi] at hdone ⊢
    exact ⟨h.sorted, fun f hf => (h.below f hf).trans (Nat.lt_succ_self _),
      h.length_le.trans (Nat.le_succ _), h.own, h.rep, hdone⟩
  | none =>
    have hfirsts : (step reach a i).firsts = a.firsts ++ [i] := by rw [step_of_none hi]
    have hlast : (step reach a i).firsts[a.firsts.length]? = some i := by simp [hfirsts]
    constructor
    case sorted =>
      rw [hfirsts, List.pairwise_append]
      exact ⟨h.sorted, List.pairwise_singleton _ _, fun f hf g hg =>
        List.mem_singleton.1 hg ▸ h.below f hf⟩
    case below =>
      rw [hfirsts]
      intro f hf
      rcases List.mem_append.1 hf with hf | hf
      · exact (h.below f hf).trans (Nat.lt_succ_self _)
      · exact List.mem_singleton.1 hf ▸ Nat.lt_succ_self _
    case length_le =>
      rw [hfirsts, List.length_append]
      exact Nat.succ_le_succ h.length_le
    case own =>
      intro k f hf
      rcases Nat.lt_trichotomy k a.firsts.length with hk | rfl | hk
      · rw [hfirsts, List.getElem?_append_left hk] at hf
        exact index_step_of_some (h.own k f hf)
      · obtain rfl : i = f := Option.some_inj.1 (hlast.symm.trans hf)
        rw [step_of_none hi]
        exact if_pos (.inl rfl)
      · rw [hfirsts, List.getElem?_eq_none (by simpa using hk)] at hf
        cases hf
    case rep =>
      intro j k hj
      by_cases hmark : j = i ∨ a.index j = none ∧ reach i j
      · rw [step_of_none hi] at hj
        obtain rfl : a.firsts.length = k := Option.some_inj.1 ((if_pos hmark).symm.trans hj)
        refine ⟨i, hlast, ?_, hmark.imp Eq.symm And.right⟩
        rcases hmark with rfl | ⟨hnone, -⟩
        · exact le_rfl
        · exact not_lt.1 fun hlt => h.done j hlt hnone
      · rw [step_of_none hi] at hj
        obtain ⟨f, hf, hrep⟩ := h.rep j k ((if_neg hmark).symm.trans hj)
        refine ⟨f, ?_, hrep⟩
        rw [hfirsts, List.getElem?_append_left (List.getElem?_eq_some_iff.1 hf).1, hf]
    case done => exact fun j hj => h.index_ne_none_step hj

/-! ### All steps -/

theorem upTo_succ (i : Fin n) : upTo reach (i + 1) = step reach (upTo reach i) i := by
  rw [upTo, dif_pos i.isLt]

theorem upTo_valid (hm : m ≤ n) : Valid reach (upTo reach m) m := by
  induction m with
  | zero => exact ⟨.nil, nofun, le_rfl, nofun, nofun, nofun⟩
  | succ m ih =>
    have hsucc : upTo reach (m + 1) = _ := upTo_succ ⟨m, hm⟩
    rw [hsucc]
    exact valid_step (i := ⟨m, hm⟩) (ih (Nat.le_of_succ_le hm))

/-- Elements that reach each other and are reached from the same elements get the same number. -/
theorem index_upTo_eq (hij : reach i j) (hji : reach j i) (hreach : ∀ f, reach f i ↔ reach f j) :
    (upTo reach m).index i = (upTo reach m).index j := by
  induction m with
  | zero => rfl
  | succ m ih =>
    rw [upTo]
    split
    · next hm =>
      generalize hr : (⟨m, hm⟩ : Fin n) = r
      cases hfree : (upTo reach m).index r with
      | some k => rwa [step_of_some hfree]
      | none =>
        have hmark : (i = r ∨ (upTo reach m).index i = none ∧ reach r i) ↔
            (j = r ∨ (upTo reach m).index j = none ∧ reach r j) := by
          rw [ih, hreach r]
          constructor
          · rintro (rfl | h)
            · exact .inr ⟨ih ▸ hfree, hij⟩
            · exact .inr h
          · rintro (rfl | h)
            · exact .inr ⟨hfree, (hreach j).1 hji⟩
            · exact .inr h
        rw [step_of_none hfree]
        exact if_congr hmark rfl ih
    · exact ih

end Numbering

end MUtils
