import MUtils.Theory.Text

/-!
# Cutting a text at the occurrences of another

`findSubFrom` is `find` from a position on. `Cuts d s ps` says that `ps` are the pieces of `s`
between the leftmost occurrences of `d` that do not overlap. There is one such list
(`Cuts.exists_of_ne_nil`, `Cuts.unique`), no piece has an occurrence of `d` left
(`Cuts.not_infix`), and with `d` between them the pieces give `s` again (`Cuts.intercalate`).
-/

namespace MUtils.Text

/-- The pieces between the leftmost occurrences of `d` that do not overlap. -/
inductive Cuts (d : List α) : List α → List (List α) → Prop
  | whole : ¬d <:+: s → Cuts d s [s]
  | cut : OccursFirst d s u v → Cuts d v ps → Cuts d s (u :: ps)

variable {α : Type} {d s u v u' v' : List α} {ps qs : List (List α)} {pos i : Nat}

/-! ### The first occurrence -/

theorem OccursFirst.isInfix (h : OccursFirst d s u v) : d <:+: s := ⟨u, v, h.cut.symm⟩

theorem OccursFirst.length (h : OccursFirst d s u v) :
    u.length + d.length + v.length = s.length := by
  rw [h.cut, List.length_append, List.length_append]

theorem OccursFirst.length_lt (h : OccursFirst d s u v) (hd : d ≠ []) : v.length < s.length := by
  have := h.length
  have := List.length_pos_iff.2 hd
  omega

theorem OccursFirst.unique (h : OccursFirst d s u v) (h' : OccursFirst d s u' v') :
    u = u' ∧ v = v' := by
  have hlen : u.length = u'.length := Nat.le_antisymm (h.first u' v' h'.cut) (h'.first u v h.cut)
  have hcut := h.cut.symm.trans h'.cut
  rw [List.append_assoc, List.append_assoc] at hcut
  obtain ⟨hu, hdv⟩ := List.append_inj hcut hlen
  exact ⟨hu, List.append_cancel_left hdv⟩

/-- What stands before the first occurrence has none. -/
theorem OccursFirst.not_infix (h : OccursFirst d s u v) (hd : d ≠ []) : ¬d <:+: u := by
  rintro ⟨a, b, rfl⟩
  have hle := h.first a (b ++ d ++ v) (by rw [h.cut]; simp)
  have := List.length_pos_iff.2 hd
  simp only [List.length_append] at hle
  omega

section
variable [BEq α] [LawfulBEq α]

theorem findSub_eq_none : findSub d s = none ↔ ¬d <:+: s := by
  constructor
  · rintro h ⟨a, b, hab⟩
    -- the first of the occurrences would have been found
    have hfirst : ∃ n, ∃ u v, s = u ++ d ++ v ∧ u.length = n := ⟨_, a, b, hab.symm, rfl⟩
    classical
    obtain ⟨u, v, hcut, hlen⟩ := Nat.find_spec hfirst
    have hsome : findSub d s = some u.length := by
      refine findSub_eq_some.2 ⟨u, v, ⟨hcut, fun a b hab => ?_⟩, rfl⟩
      rw [hlen]
      exact Nat.find_min' hfirst ⟨a, b, hab, rfl⟩
    rw [h] at hsome
    cases hsome
  · intro h
    cases hfind : findSub d s with
    | none => rfl
    | some i =>
      obtain ⟨u, v, hocc, -⟩ := findSub_eq_some.1 hfind
      exact (h hocc.isInfix).elim

/-- `d` occurs first, or not at all. -/
theorem occursFirst_or (d s : List α) : (∃ u v, OccursFirst d s u v) ∨ ¬d <:+: s := by
  cases h : findSub d s with
  | none => exact .inr (findSub_eq_none.1 h)
  | some i =>
    obtain ⟨u, v, hocc, -⟩ := findSub_eq_some.1 h
    exact .inl ⟨u, v, hocc⟩

end

/-! ### `find` from a position on -/

/-- The first position from `pos` on at which `sub` occurs; `none` is `npos`. -/
def findSubFrom [BEq α] (sub s : List α) (pos : Nat) : Option Nat :=
  if pos ≤ s.length then (findSub sub (s.drop pos)).map (· + pos) else none

section
variable [BEq α] [LawfulBEq α]

theorem findSubFrom_some (h : findSubFrom d s pos = some i) :
    ∃ u v, OccursFirst d (s.drop pos) u v ∧ i = pos + u.length := by
  unfold findSubFrom at h
  split at h
  · obtain ⟨j, hj, rfl⟩ := Option.map_eq_some_iff.1 h
    obtain ⟨u, v, hocc, rfl⟩ := findSub_eq_some.1 hj
    exact ⟨u, v, hocc, Nat.add_comm _ _⟩
  · cases h

theorem findSubFrom_bounds (h : findSubFrom d s pos = some i) :
    pos ≤ i ∧ i + d.length ≤ s.length := by
  obtain ⟨u, v, hocc, rfl⟩ := findSubFrom_some h
  have hle : pos ≤ s.length := by
    by_contra hlt
    rw [findSubFrom, if_neg hlt] at h
    cases h
  have := hocc.length
  rw [List.length_drop] at this
  omega

theorem findSubFrom_append (h : OccursFirst d v u v') :
    findSubFrom d (s ++ v) s.length = some (s.length + u.length) := by
  rw [findSubFrom, if_pos (by simp), List.drop_left,
    findSub_eq_some.2 ⟨u, v', h, rfl⟩, Option.map_some, Nat.add_comm]

theorem findSubFrom_append_none (h : ¬d <:+: v) : findSubFrom d (s ++ v) s.length = none := by
  rw [findSubFrom, if_pos (by simp), List.drop_left, findSub_eq_none.2 h, Option.map_none]

end

/-! ### The pieces -/

namespace Cuts

theorem ne_nil (h : Cuts d s ps) : ps ≠ [] := by
  cases h <;> simp

theorem exists_of_ne_nil [BEq α] [LawfulBEq α] (hd : d ≠ []) (s : List α) : ∃ ps, Cuts d s ps := by
  induction hn : s.length using Nat.strong_induction_on generalizing s with
  | _ n ih =>
    rcases occursFirst_or d s with ⟨u, v, hocc⟩ | hnot
    · obtain ⟨ps, hps⟩ := ih v.length (hn ▸ hocc.length_lt hd) v rfl
      exact ⟨u :: ps, .cut hocc hps⟩
    · exact ⟨[s], .whole hnot⟩

theorem unique (h : Cuts d s ps) (h' : Cuts d s qs) : ps = qs := by
  induction h generalizing qs with
  | whole hnot =>
    cases h' with
    | whole => rfl
    | cut hocc => exact (hnot hocc.isInfix).elim
  | cut hocc _ ih =>
    cases h' with
    | whole hnot => exact (hnot hocc.isInfix).elim
    | cut hocc' hps' =>
      obtain ⟨rfl, rfl⟩ := hocc.unique hocc'
      rw [ih hps']

theorem intercalate (h : Cuts d s ps) : d.intercalate ps = s := by
  induction h with
  | whole => exact List.intercalate_singleton
  | cut hocc hps ih => rw [List.intercalate_cons_of_ne_nil hps.ne_nil, ih, hocc.cut]

theorem not_infix (h : Cuts d s ps) (hd : d ≠ []) : ∀ p ∈ ps, ¬d <:+: p := by
  induction h with
  | whole hnot =>
    intro p hp
    rwa [List.mem_singleton.1 hp]
  | cut hocc _ ih =>
    intro p hp
    rcases List.mem_cons.1 hp with rfl | hp
    · exact hocc.not_infix hd
    · exact ih p hp

end Cuts

end MUtils.Text
