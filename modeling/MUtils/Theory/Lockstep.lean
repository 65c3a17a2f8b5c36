import Mathlib

/-!
# Two interpreters in lockstep

An interpreter of straight-line programs is a step function that can fail, and a run is its monadic
fold over the instructions. Two interpreters give the same result on every prefix of a program
exactly when, wherever one of them comes, they take the same step.
-/

namespace MUtils.Lockstep

variable {σ ι ε : Type} {f g : σ → ι → Except ε σ} {p : List ι} {s : σ} {k : Nat} {i : ι}

theorem foldlM_take_succ (h : p[k]? = some i) :
    (p.take (k + 1)).foldlM f s = (p.take k).foldlM f s >>= fun s' => f s' i := by
  rw [List.take_add_one, h, List.foldlM_append]
  simp

theorem foldlM_take_of_le (h : p.length ≤ k) : (p.take k).foldlM f s = p.foldlM f s := by
  rw [List.take_of_length_le h]

theorem agree_iff :
    (∀ k, (p.take k).foldlM f s = (p.take k).foldlM g s) ↔
      ∀ k i s', p[k]? = some i → (p.take k).foldlM g s = .ok s' → f s' i = g s' i := by
  constructor
  · intro h k i s' hi hs'
    have hstep := h (k + 1)
    rw [foldlM_take_succ hi, foldlM_take_succ hi, h k, hs'] at hstep
    exact hstep
  · intro h k
    induction k with
    | zero => rfl
    | succ k ih =>
      cases hi : p[k]? with
      | none =>
        have hlen := List.getElem?_eq_none_iff.1 hi
        rw [foldlM_take_of_le hlen, foldlM_take_of_le hlen] at ih
        rwa [foldlM_take_of_le (Nat.le_succ_of_le hlen), foldlM_take_of_le (Nat.le_succ_of_le hlen)]
      | some i =>
        rw [foldlM_take_succ hi, foldlM_take_succ hi, ih]
        cases hs' : (p.take k).foldlM g s with
        | error e => rfl
        | ok s' => exact h k i s' hi hs'

end MUtils.Lockstep
