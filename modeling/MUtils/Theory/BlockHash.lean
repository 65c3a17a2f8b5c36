import Mathlib

/-!
# Hashes that take their data in blocks

A `BlockHash` changes its state with each full block of the data and ends with what is left. No
state and no block is lost in a step, nor in the end, so that data which differ in one block only
have different hashes (`BlockHash.hash_ne`).
-/

namespace MUtils
variable {α ι σ ρ : Type}

/-! ### Blocks -/

/-- The `k`-th block of `n` elements, which is shorter at the end of the list. -/
def block (n : Nat) (l : List α) (k : Nat) : List α := (l.drop (n * k)).take n

section
variable {n : Nat} {l l' : List α} {i k : Nat}

theorem block_zero (l : List α) : block n l 0 = l.take n := by
  rw [block, Nat.mul_zero, List.drop_zero]

theorem block_drop (l : List α) (k : Nat) : block n (l.drop n) k = block n l (k + 1) := by
  rw [block, block, List.drop_drop, Nat.mul_add_one, Nat.add_comm]

theorem length_block (n : Nat) (l : List α) (k : Nat) :
    (block n l k).length = min n (l.length - n * k) := by
  rw [block, List.length_take, List.length_drop]

theorem length_block_of_lt (hk : k < l.length / n) : (block n l k).length = n := by
  have hle : n * (k + 1) ≤ l.length :=
    (Nat.mul_le_mul_left n hk).trans (Nat.mul_div_le l.length n)
  rw [Nat.mul_add_one] at hle
  rw [length_block]
  omega

theorem length_block_last (hn : 0 < n) (l : List α) :
    (block n l (l.length / n)).length = l.length % n := by
  have hdiv := Nat.div_add_mod l.length n
  have hmod := Nat.mod_lt l.length hn
  rw [length_block]
  omega

theorem block_of_gt (hn : 0 < n) (hk : l.length / n < k) : block n l k = [] := by
  have hle : l.length ≤ n * k :=
    Nat.mul_comm k n ▸ Nat.le_of_lt ((Nat.div_lt_iff_lt_mul hn).mp hk)
  rw [block, List.drop_eq_nil_of_le hle, List.take_nil]

theorem getElem?_block {j : Nat} (hj : j < n) : (block n l k)[j]? = l[n * k + j]? := by
  rw [block, List.getElem?_take_of_lt hj, List.getElem?_drop]

/-- The lists may differ in their `i`-th block only. -/
def AgreeOutside (n i : Nat) (l l' : List α) : Prop := ∀ j, j / n ≠ i → l[j]? = l'[j]?

theorem AgreeOutside.block_eq (h : AgreeOutside n i l l') (hk : k ≠ i) :
    block n l k = block n l' k := by
  apply List.ext_getElem?
  intro j
  rcases Nat.lt_or_ge j n with hj | hj
  · rw [getElem?_block hj, getElem?_block hj]
    apply h
    rwa [Nat.mul_add_div (by omega), Nat.div_eq_of_lt hj, Nat.add_zero]
  · have hout : ∀ l : List α, (block n l k)[j]? = none := fun l =>
      List.getElem?_eq_none (by rw [length_block]; omega)
    rw [hout, hout]

theorem AgreeOutside.block_ne (hn : 0 < n) (h : AgreeOutside n i l l') (hne : l ≠ l') :
    block n l i ≠ block n l' i := by
  intro hblock
  apply hne
  apply List.ext_getElem?
  intro j
  by_cases hj : j / n = i
  · have hbit := congrArg (·[j % n]?) hblock
    simpa only [getElem?_block (Nat.mod_lt j hn), ← hj, Nat.div_add_mod] using hbit
  · exact h j hj

end

/-! ### Folds of injective steps -/

theorem foldl_inj {step : σ → ι → σ} (hinj : ∀ k s s', step s k = step s' k → s = s') :
    ∀ (l : List ι) {s s' : σ}, l.foldl step s = l.foldl step s' → s = s'
  | [], _, _, h => h
  | k :: l, _, _, h => hinj k _ _ (foldl_inj hinj l h)

/-- Two folds whose steps differ at one place. -/
theorem foldl_ne {step step' : σ → ι → σ} {i : ι}
    (hinj : ∀ k s s', step s k = step s' k → s = s')
    (hsame : ∀ k, k ≠ i → ∀ s, step s k = step' s k) (hdiff : ∀ s, step s i ≠ step' s i)
    {l : List ι} (hnodup : l.Nodup) (hi : i ∈ l) (s : σ) : l.foldl step s ≠ l.foldl step' s := by
  induction l generalizing s with
  | nil => cases hi
  | cons k l ih =>
    obtain ⟨hk, hnodup⟩ := List.nodup_cons.mp hnodup
    rcases List.mem_cons.mp hi with rfl | hi
    · -- from here on the steps are the same
      have hrest : l.foldl step (step' s i) = l.foldl step' (step' s i) :=
        List.foldl_ext _ _ _ fun s k' hk' => hsame k' (fun h => hk (h ▸ hk')) s
      intro h
      rw [List.foldl_cons, List.foldl_cons, ← hrest] at h
      exact hdiff s (foldl_inj hinj l h)
    · have hne : k ≠ i := fun h => hk (h ▸ hi)
      rw [List.foldl_cons, List.foldl_cons, ← hsame k hne s]
      exact ih hnodup hi _

/-! ### Hashes -/

structure BlockHash (α σ ρ : Type) where
  n : Nat
  n_pos : 0 < n
  init : Nat → σ
  step : σ → List α → σ
  finish : σ → List α → ρ
  step_inj : ∀ b s s', step s b = step s' b → s = s'
  step_inj_block : ∀ s b b', b.length = n → b'.length = n → step s b = step s b' → b = b'
  finish_inj : ∀ b s s', finish s b = finish s' b → s = s'
  finish_inj_block : ∀ s b b', b.length < n → b.length = b'.length → finish s b = finish s b' →
    b = b'

namespace BlockHash
variable (H : BlockHash α σ ρ)

/-- The state after the full blocks. -/
def absorb (s : σ) (l : List α) : σ :=
  (List.range (l.length / H.n)).foldl (fun s k => H.step s (block H.n l k)) s

def hash (l : List α) : ρ :=
  H.finish (H.absorb (H.init l.length) l) (block H.n l (l.length / H.n))

theorem absorb_short {l : List α} (h : l.length < H.n) (s : σ) : H.absorb s l = s := by
  rw [absorb, Nat.div_eq_of_lt h]
  rfl

theorem absorb_long {l : List α} (h : H.n ≤ l.length) (s : σ) :
    H.absorb s l = H.absorb (H.step s (l.take H.n)) (l.drop H.n) := by
  have hdiv : l.length / H.n = (l.drop H.n).length / H.n + 1 := by
    rw [List.length_drop, Nat.div_eq_sub_div H.n_pos h]
  rw [absorb, hdiv, List.range_succ_eq_map, List.foldl_cons, List.foldl_map, block_zero, absorb]
  simp only [block_drop, Nat.succ_eq_add_one]

variable {H} {l l' : List α} {i : Nat}

/-- **A change within one block changes the hash.** -/
theorem hash_ne (hlength : l.length = l'.length) (hne : l ≠ l') (h : AgreeOutside H.n i l l') :
    H.hash l ≠ H.hash l' := by
  have hblock := h.block_ne H.n_pos hne
  rw [hash, hash, ← hlength, absorb, absorb, ← hlength]
  rcases Nat.lt_trichotomy i (l.length / H.n) with hi | hi | hi
  · -- the change is in a full block, and the end is the same
    rw [h.block_eq (Nat.ne_of_gt hi)]
    intro heq
    refine foldl_ne (fun k => H.step_inj (block H.n l k)) ?_ ?_ List.nodup_range
      (List.mem_range.mpr hi) _ (H.finish_inj _ _ _ heq)
    · intro k hk s
      exact congrArg (H.step s) (h.block_eq hk)
    · intro s hs
      exact hblock (H.step_inj_block s _ _ (length_block_of_lt hi)
        (length_block_of_lt (hlength ▸ hi)) hs)
  · -- the change is in the end
    have hsame : ∀ s, ∀ k ∈ List.range (l.length / H.n),
        H.step s (block H.n l k) = H.step s (block H.n l' k) := by
      intro s k hk
      rw [h.block_eq (hi ▸ Nat.ne_of_lt (List.mem_range.mp hk))]
    have hlast : (block H.n l (l.length / H.n)).length =
        (block H.n l' (l.length / H.n)).length := by
      rw [length_block, length_block, hlength]
    have hlt : (block H.n l (l.length / H.n)).length < H.n := by
      rw [length_block_last H.n_pos]
      exact Nat.mod_lt _ H.n_pos
    rw [List.foldl_ext _ _ _ hsame]
    intro heq
    exact hblock (hi ▸ H.finish_inj_block _ _ _ hlt hlast heq)
  · -- there is no such block
    exact absurd ((block_of_gt H.n_pos hi).trans (block_of_gt H.n_pos (hlength ▸ hi)).symm) hblock

end BlockHash

end MUtils
