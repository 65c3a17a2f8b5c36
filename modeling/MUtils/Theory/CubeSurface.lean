import MUtils.Theory.Surface

/-!
# The surface of a cube

Each side of the cube is a grid of squares. The two sides across the last axis are a third of the
surface, and turning the axes gives the others.
-/

namespace MUtils

/-- Each axis becomes the next one. -/
def turnAxes (p : Nat × Nat × Nat) : Nat × Nat × Nat := (p.2.2, p.1, p.2.1)

def atHeight (z : Nat) (p : Nat × Nat) : Nat × Nat × Nat := (p.1, p.2, z)

/-- The two sides across the last axis, as seen from outside. -/
def cubeThird (m : Nat) : List ((Nat × Nat × Nat) × (Nat × Nat × Nat) × (Nat × Nat × Nat)) :=
  (grid m m).map (mapTriangle (atHeight m)) ++
    ((grid m m).map flipTriangle).map (mapTriangle (atHeight 0))

def cubeSurface (m : Nat) : List ((Nat × Nat × Nat) × (Nat × Nat × Nat) × (Nat × Nat × Nat)) :=
  cubeThird m ++ ((cubeThird m).map (mapTriangle turnAxes) ++
    (cubeThird m).map (mapTriangle (turnAxes ∘ turnAxes)))

variable {m x y z x' y' z' : Nat} {p q : Nat × Nat × Nat}

theorem atHeight_injective (z : Nat) : Function.Injective (atHeight z) := by
  rintro ⟨x, y⟩ ⟨x', y'⟩ h
  simpa [atHeight] using h

theorem mem_edges_atHeight {T : List ((Nat × Nat) × (Nat × Nat) × (Nat × Nat))} {h : Nat} :
    ((x, y, z), (x', y', z')) ∈ edges (T.map (mapTriangle (atHeight h))) ↔
      z = h ∧ z' = h ∧ ((x, y), (x', y')) ∈ edges T := by
  rw [edges_map, List.mem_map]
  constructor
  · rintro ⟨⟨⟨a, b⟩, c, d⟩, hmem, heq⟩
    simp only [Prod.map_apply, atHeight, Prod.mk.injEq] at heq
    obtain ⟨⟨rfl, rfl, rfl⟩, rfl, rfl, rfl⟩ := heq
    exact ⟨rfl, rfl, hmem⟩
  · rintro ⟨rfl, rfl, hmem⟩
    exact ⟨_, hmem, rfl⟩

theorem mem_edges_cubeThird : ((x, y, z), (x', y', z')) ∈ edges (cubeThird m) ↔
    z = m ∧ z' = m ∧ GridEdge m m (x, y) (x', y') ∨
    z = 0 ∧ z' = 0 ∧ GridEdge m m (x', y') (x, y) := by
  rw [cubeThird, edges_append, List.mem_append, mem_edges_atHeight, mem_edges_atHeight,
    mem_edges_grid, edges_flip.mem_iff, List.mem_map]
  refine or_congr_right (and_congr_right fun _ => and_congr_right fun _ => ?_)
  rw [← mem_edges_grid]
  constructor
  · rintro ⟨⟨p, q⟩, hmem, heq⟩
    cases heq
    exact hmem
  · exact fun hmem => ⟨_, hmem, rfl⟩

theorem nodup_edges_cubeThird (hm : 0 < m) : (edges (cubeThird m)).Nodup := by
  have hinj (z : Nat) : Function.Injective (Prod.map (atHeight z) (atHeight z)) :=
    (atHeight_injective z).prodMap (atHeight_injective z)
  rw [cubeThird, edges_append, List.nodup_append']
  refine ⟨?_, ?_, ?_⟩
  · rw [edges_map]
    exact nodup_edges_grid.map (hinj m)
  · rw [edges_map]
    exact (edges_flip.nodup_iff.mpr (nodup_edges_grid.map Prod.swap_injective)).map (hinj 0)
  · rintro ⟨⟨x, y, z⟩, x', y', z'⟩ htop hbottom
    rw [mem_edges_atHeight] at htop hbottom
    omega

/-- The sides across two axes have no directed edge in common. -/
theorem cubeThird_disjoint (h : (p, q) ∈ edges (cubeThird m)) :
    (turnAxes p, turnAxes q) ∉ edges (cubeThird m) := by
  obtain ⟨x, y, z⟩ := p
  obtain ⟨x', y', z'⟩ := q
  intro h'
  simp only [turnAxes, mem_edges_cubeThird] at h h'
  obtain ⟨rfl, rfl, h⟩ | ⟨rfl, rfl, h⟩ := h <;> obtain ⟨rfl, rfl, h'⟩ | ⟨rfl, rfl, h'⟩ := h' <;>
  cases h <;> cases h' <;> omega

/-- The other triangle at an edge is on the same side of the cube, or at the border on the side
across another axis. -/
theorem cubeThird_twin (hm : 0 < m) (h : (p, q) ∈ edges (cubeThird m)) :
    (q, p) ∈ edges (cubeThird m) ∨ (turnAxes q, turnAxes p) ∈ edges (cubeThird m) ∨
      (turnAxes (turnAxes q), turnAxes (turnAxes p)) ∈ edges (cubeThird m) := by
  obtain ⟨x, y, z⟩ := p
  obtain ⟨x', y', z'⟩ := q
  obtain ⟨k, rfl⟩ : ∃ k, m = k + 1 := ⟨m - 1, by omega⟩
  simp only [turnAxes, mem_edges_cubeThird] at h ⊢
  obtain ⟨rfl, rfl, h⟩ | ⟨rfl, rfl, h⟩ := h
  · cases h with
    | diagonal ha hb => exact .inl (.inl ⟨rfl, rfl, .back ha hb⟩)
    | back ha hb => exact .inl (.inl ⟨rfl, rfl, .diagonal ha hb⟩)
    | bottom ha hb =>
      cases y with
      | zero => exact .inr (.inl (.inr ⟨rfl, rfl, .right k.lt_succ_self ha⟩))
      | succ b => exact .inl (.inl ⟨rfl, rfl, .top ha (by omega)⟩)
    | @top _ b ha hb =>
      obtain rfl | hlt := Nat.eq_or_lt_of_le (Nat.le_of_lt_succ hb)
      · exact .inr (.inl (.inl ⟨rfl, rfl, .right hb ha⟩))
      · exact .inl (.inl ⟨rfl, rfl, .bottom ha (Nat.succ_lt_succ hlt)⟩)
    | @right a _ ha hb =>
      obtain rfl | hlt := Nat.eq_or_lt_of_le (Nat.le_of_lt_succ ha)
      · exact .inr (.inr (.inl ⟨rfl, rfl, .top hb ha⟩))
      · exact .inl (.inl ⟨rfl, rfl, .left (Nat.succ_lt_succ hlt) hb⟩)
    | left ha hb =>
      cases x with
      | zero => exact .inr (.inr (.inr ⟨rfl, rfl, .top hb k.lt_succ_self⟩))
      | succ a => exact .inl (.inl ⟨rfl, rfl, .right (by omega) hb⟩)
  · cases h with
    | diagonal ha hb => exact .inl (.inr ⟨rfl, rfl, .back ha hb⟩)
    | back ha hb => exact .inl (.inr ⟨rfl, rfl, .diagonal ha hb⟩)
    | bottom ha hb =>
      cases y with
      | zero => exact .inr (.inl (.inr ⟨rfl, rfl, .left hb ha⟩))
      | succ b => exact .inl (.inr ⟨rfl, rfl, .top ha (by omega)⟩)
    | @top _ b ha hb =>
      obtain rfl | hlt := Nat.eq_or_lt_of_le (Nat.le_of_lt_succ hb)
      · exact .inr (.inl (.inl ⟨rfl, rfl, .left (by omega) ha⟩))
      · exact .inl (.inr ⟨rfl, rfl, .bottom ha (Nat.succ_lt_succ hlt)⟩)
    | @right a _ ha hb =>
      obtain rfl | hlt := Nat.eq_or_lt_of_le (Nat.le_of_lt_succ ha)
      · exact .inr (.inr (.inl ⟨rfl, rfl, .bottom hb (by omega)⟩))
      · exact .inl (.inr ⟨rfl, rfl, .left (Nat.succ_lt_succ hlt) hb⟩)
    | left ha hb =>
      cases x with
      | zero => exact .inr (.inr (.inr ⟨rfl, rfl, .bottom hb ha⟩))
      | succ a => exact .inl (.inr ⟨rfl, rfl, .right (by omega) hb⟩)

theorem closed_cubeSurface (hm : 0 < m) : Closed (cubeSurface m) := by
  refine closed_threefold (fun _ => rfl) (nodup_edges_cubeThird hm) ?_ cubeThird_disjoint
    (cubeThird_twin hm)
  rintro ⟨x, y, z⟩ ⟨x', y', z'⟩ h heq
  cases heq
  rw [mem_edges_cubeThird] at h
  obtain ⟨-, -, h⟩ | ⟨-, -, h⟩ := h
  · exact h.ne rfl
  · exact h.ne rfl

/-! ### Its points -/

/-- The points on one of the sides. -/
def cubePoints (m : Nat) : Finset (Nat × Nat × Nat) :=
  (Finset.range (m + 1) ×ˢ Finset.range (m + 1) ×ˢ Finset.range (m + 1)).filter fun p =>
    (p.1 = 0 ∨ p.1 = m) ∨ (p.2.1 = 0 ∨ p.2.1 = m) ∨ p.2.2 = 0 ∨ p.2.2 = m

theorem mem_cubePoints : (x, y, z) ∈ cubePoints m ↔
    (x ≤ m ∧ y ≤ m ∧ z ≤ m) ∧ ((x = 0 ∨ x = m) ∨ (y = 0 ∨ y = m) ∨ z = 0 ∨ z = m) := by
  simp only [cubePoints, Finset.mem_filter, Finset.mem_product, Finset.mem_range, Nat.lt_succ_iff]

theorem isVertex_cubeThird (hm : 0 < m) :
    IsVertex (cubeThird m) (x, y, z) ↔ (x ≤ m ∧ y ≤ m) ∧ (z = 0 ∨ z = m) := by
  constructor
  · rintro ⟨⟨x', y', z'⟩, h⟩
    rw [mem_edges_cubeThird] at h
    obtain ⟨hz, -, h⟩ | ⟨hz, -, h⟩ := h
    · exact ⟨h.le.1, .inr hz⟩
    · exact ⟨h.le.2, .inl hz⟩
  · rintro ⟨⟨hx, hy⟩, hz⟩
    obtain ⟨⟨⟨x', y'⟩, hout⟩, ⟨x'', y''⟩, hin⟩ := exists_gridEdge hm hm hx hy
    obtain hz | hz := hz
    · exact ⟨(x'', y'', z), mem_edges_cubeThird.mpr (.inr ⟨hz, hz, hin⟩)⟩
    · exact ⟨(x', y', z), mem_edges_cubeThird.mpr (.inl ⟨hz, hz, hout⟩)⟩

theorem isVertex_cubeSurface (hm : 0 < m) : IsVertex (cubeSurface m) p ↔ p ∈ cubePoints m := by
  obtain ⟨x, y, z⟩ := p
  simp only [cubeSurface, isVertex_append, isVertex_map, Prod.exists, isVertex_cubeThird hm,
    turnAxes, Function.comp_apply, Prod.mk.injEq, mem_cubePoints]
  constructor
  · rintro (h | ⟨a, b, c, h, rfl, rfl, rfl⟩ | ⟨a, b, c, h, rfl, rfl, rfl⟩) <;> omega
  · rintro ⟨⟨hx, hy, hz⟩, h | h | h⟩
    · exact .inr (.inl ⟨y, z, x, ⟨⟨hy, hz⟩, h⟩, rfl, rfl, rfl⟩)
    · exact .inr (.inr ⟨z, x, y, ⟨⟨hz, hx⟩, h⟩, rfl, rfl, rfl⟩)
    · exact .inl ⟨⟨hx, hy⟩, h⟩

theorem card_cubePoints (hm : 0 < m) : (cubePoints m).card = 6 * m ^ 2 + 2 := by
  obtain ⟨k, rfl⟩ := Nat.exists_eq_add_one.mpr hm
  -- The other points are those of a cube inside.
  have hinner : ((Finset.range (k + 2) ×ˢ Finset.range (k + 2) ×ˢ Finset.range (k + 2)).filter
      fun p => ¬((p.1 = 0 ∨ p.1 = k + 1) ∨ (p.2.1 = 0 ∨ p.2.1 = k + 1) ∨
        p.2.2 = 0 ∨ p.2.2 = k + 1)) =
      Finset.Ioo 0 (k + 1) ×ˢ Finset.Ioo 0 (k + 1) ×ˢ Finset.Ioo 0 (k + 1) := by
    ext ⟨x, y, z⟩
    simp only [Finset.mem_filter, Finset.mem_product, Finset.mem_range, Finset.mem_Ioo]
    omega
  have hcard := Finset.card_filter_add_card_filter_not
    (s := Finset.range (k + 2) ×ˢ Finset.range (k + 2) ×ˢ Finset.range (k + 2))
    (fun p => (p.1 = 0 ∨ p.1 = k + 1) ∨ (p.2.1 = 0 ∨ p.2.1 = k + 1) ∨ p.2.2 = 0 ∨ p.2.2 = k + 1)
  rw [hinner] at hcard
  simp only [Finset.card_product, Finset.card_range, Nat.card_Ioo, Nat.sub_zero,
    Nat.add_sub_cancel] at hcard
  have hpoints : (cubePoints (k + 1)).card + k * (k * k) = (k + 2) * ((k + 2) * (k + 2)) := hcard
  linarith [hpoints, (by ring : (k + 2) * ((k + 2) * (k + 2)) = 6 * (k + 1) ^ 2 + 2 + k * (k * k))]

theorem length_cubeSurface : (cubeSurface m).length = 12 * m ^ 2 := by
  simp only [cubeSurface, cubeThird, List.length_append, List.length_map, length_grid]
  ring

end MUtils
