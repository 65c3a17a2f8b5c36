import MUtils.Theory.Surface

/-!
# Stacks of rings

Rings of `n` points lie one over the other, with a pole at either end; neighbouring rings are joined
by triangles, and so are the poles and the rings next to them. A point is a row and a column, where
the rows are counted from one pole to the other and a pole is in column zero. With three columns or
more this is a closed surface.
-/

namespace MUtils

/-! ### The rows of a grid -/

/-- Rows of `b` elements one after the other, by row and column. -/
theorem getElem?_rows {α : Type} {a b : Nat} (f : Nat → Nat → α) {i j : Nat} (hi : i < a)
    (hj : j < b) :
    ((List.range a).flatMap fun i => (List.range b).map (f i))[i * b + j]? = some (f i j) := by
  have hlength (a : Nat) :
      ((List.range a).flatMap fun i => (List.range b).map (f i)).length = a * b := by
    simp [List.length_flatMap]
  induction a with
  | zero => omega
  | succ a ih =>
    rw [List.range_succ, List.flatMap_append, List.flatMap_singleton]
    obtain hlt | rfl := Nat.lt_or_eq_of_le (Nat.le_of_lt_succ hi)
    · rw [List.getElem?_append_left, ih hlt]
      rw [hlength]
      nlinarith
    · rw [List.getElem?_append_right (by rw [hlength]; omega), hlength, Nat.add_sub_cancel_left,
        List.getElem?_map, List.getElem?_range hj, Option.map_some]

variable {n : Nat}

/-! ### Rings -/

variable {m i : Nat} {j : ZMod n} {p q : Nat × ZMod n}

end MUtils
