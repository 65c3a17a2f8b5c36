import Mathlib

/-!
# Closed surfaces

A list of triangles is a closed surface, consistently oriented, when every directed edge belongs to
one triangle and its reversal to another: no edge is on a border, and none joins more than two
triangles.
-/

namespace MUtils

variable {α β : Type}

/-- The edges of a triangle in the order of its corners. -/
def triangleEdges (t : α × α × α) : List (α × α) := [(t.1, t.2.1), (t.2.1, t.2.2), (t.2.2, t.1)]

def edges (T : List (α × α × α)) : List (α × α) := T.flatMap triangleEdges

/-- The same triangle with the other orientation. -/
def flipTriangle (t : α × α × α) : α × α × α := (t.1, t.2.2, t.2.1)

def mapTriangle (f : α → β) (t : α × α × α) : β × β × β := (f t.1, f t.2.1, f t.2.2)

structure Closed (T : List (α × α × α)) : Prop where
  nodup : (edges T).Nodup
  twin : ∀ {a b}, (a, b) ∈ edges T → (b, a) ∈ edges T
  ne : ∀ {a b}, (a, b) ∈ edges T → a ≠ b

/-- A corner of one of the triangles. -/
def IsVertex (T : List (α × α × α)) (a : α) : Prop := ∃ b, (a, b) ∈ edges T

theorem map_flipTriangle_flipTriangle (T : List (α × α × α)) :
    (T.map flipTriangle).map flipTriangle = T := by
  rw [List.map_map]
  exact List.map_id T

theorem map_flipTriangle (f : α → β) (T : List (α × α × α)) :
    (T.map flipTriangle).map (mapTriangle f) = (T.map (mapTriangle f)).map flipTriangle := by
  rw [List.map_map, List.map_map]
  rfl

/-! ### Edges -/

variable {T T' : List (α × α × α)} {t : α × α × α} {a b c : α}

@[simp] theorem edges_nil : edges ([] : List (α × α × α)) = [] := rfl

@[simp] theorem edges_cons : edges (t :: T) = triangleEdges t ++ edges T := rfl

@[simp] theorem edges_append : edges (T ++ T') = edges T ++ edges T' := List.flatMap_append

theorem edges_perm (h : T.Perm T') : (edges T).Perm (edges T') := h.flatMap_right triangleEdges

theorem edges_map (f : α → β) : edges (T.map (mapTriangle f)) = (edges T).map (Prod.map f f) := by
  induction T with
  | nil => rfl
  | cons t T ih => rw [List.map_cons, edges_cons, edges_cons, List.map_append, ih]; rfl

theorem triangleEdges_flip :
    (triangleEdges (flipTriangle t)).Perm ((triangleEdges t).map Prod.swap) := by
  simp only [triangleEdges, flipTriangle, List.map_cons, List.map_nil, Prod.swap_prod_mk]
  exact (List.reverse_perm _).symm

theorem edges_flip : (edges (T.map flipTriangle)).Perm ((edges T).map Prod.swap) := by
  induction T with
  | nil => exact .refl _
  | cons t T ih =>
    rw [List.map_cons, edges_cons, edges_cons, List.map_append]
    exact triangleEdges_flip.append ih

theorem isVertex_iff_corner : IsVertex T a ↔ ∃ t ∈ T, a = t.1 ∨ a = t.2.1 ∨ a = t.2.2 := by
  constructor
  · rintro ⟨b, hab⟩
    obtain ⟨t, ht, hab⟩ := List.mem_flatMap.mp hab
    simp only [triangleEdges, List.mem_cons, Prod.mk.injEq, List.not_mem_nil, or_false] at hab
    exact ⟨t, ht, hab.imp And.left (Or.imp And.left And.left)⟩
  · rintro ⟨t, ht, rfl | rfl | rfl⟩
    · exact ⟨t.2.1, List.mem_flatMap.mpr ⟨t, ht, by simp [triangleEdges]⟩⟩
    · exact ⟨t.2.2, List.mem_flatMap.mpr ⟨t, ht, by simp [triangleEdges]⟩⟩
    · exact ⟨t.1, List.mem_flatMap.mpr ⟨t, ht, by simp [triangleEdges]⟩⟩

theorem isVertex_of_mem (h : (a, b) ∈ edges T) : IsVertex T a ∧ IsVertex T b := by
  refine ⟨⟨b, h⟩, isVertex_iff_corner.mpr ?_⟩
  obtain ⟨t, ht, hab⟩ := List.mem_flatMap.mp h
  simp only [triangleEdges, List.mem_cons, Prod.mk.injEq, List.not_mem_nil, or_false] at hab
  obtain ⟨-, rfl⟩ | ⟨-, rfl⟩ | ⟨-, rfl⟩ := hab
  · exact ⟨t, ht, .inr (.inl rfl)⟩
  · exact ⟨t, ht, .inr (.inr rfl)⟩
  · exact ⟨t, ht, .inl rfl⟩

theorem isVertex_perm (h : T.Perm T') : IsVertex T a ↔ IsVertex T' a :=
  exists_congr fun _ => (edges_perm h).mem_iff

theorem isVertex_append : IsVertex (T ++ T') a ↔ IsVertex T a ∨ IsVertex T' a := by
  simp only [IsVertex, edges_append, List.mem_append, exists_or]

theorem isVertex_map {f : α → β} {c : β} :
    IsVertex (T.map (mapTriangle f)) c ↔ ∃ a, IsVertex T a ∧ f a = c := by
  simp only [IsVertex, edges_map, List.mem_map, Prod.exists]
  constructor
  · rintro ⟨d, a, b, hab, heq⟩
    exact ⟨a, ⟨b, hab⟩, (Prod.mk.inj heq).1⟩
  · rintro ⟨a, ⟨b, hab⟩, rfl⟩
    exact ⟨f b, a, b, hab, rfl⟩

/-! ### Closed surfaces -/

namespace Closed

theorem perm (h : Closed T) (hperm : T.Perm T') : Closed T' where
  nodup := (edges_perm hperm).nodup_iff.mp h.nodup
  twin hab := (edges_perm hperm).mem_iff.mp (h.twin ((edges_perm hperm).mem_iff.mpr hab))
  ne hab := h.ne ((edges_perm hperm).mem_iff.mpr hab)

/-- Giving its corners other names does not open a surface. -/
theorem map (h : Closed T) {f : α → β}
    (hf : ∀ a b, IsVertex T a → IsVertex T b → f a = f b → a = b) :
    Closed (T.map (mapTriangle f)) where
  nodup := by
    rw [edges_map]
    refine h.nodup.map_on ?_
    rintro ⟨a, b⟩ hab ⟨a', b'⟩ hab' heq
    obtain ⟨ha, hb⟩ := isVertex_of_mem hab
    obtain ⟨ha', hb'⟩ := isVertex_of_mem hab'
    obtain ⟨hfa, hfb⟩ := Prod.mk.inj heq
    rw [hf a a' ha ha' hfa, hf b b' hb hb' hfb]
  twin := by
    intro c d hcd
    rw [edges_map, List.mem_map] at hcd ⊢
    obtain ⟨⟨a, b⟩, hab, heq⟩ := hcd
    obtain ⟨rfl, rfl⟩ := Prod.mk.inj heq
    exact ⟨(b, a), h.twin hab, rfl⟩
  ne := by
    intro c d hcd heq
    rw [edges_map, List.mem_map] at hcd
    obtain ⟨⟨a, b⟩, hab, hmap⟩ := hcd
    obtain ⟨rfl, rfl⟩ := Prod.mk.inj hmap
    obtain ⟨ha, hb⟩ := isVertex_of_mem hab
    exact h.ne hab (hf a b ha hb heq)

end Closed

/-! ### Surfaces with a symmetry of order three -/

section Threefold

variable {ρ : α → α} (hρ : ∀ a, ρ (ρ (ρ a)) = a)

include hρ

/-- A third of a surface, with its two images: what is to be checked of the third. -/
theorem closed_threefold (hnodup : (edges T).Nodup) (hne : ∀ {a b}, (a, b) ∈ edges T → a ≠ b)
    (hdisjoint : ∀ {a b}, (a, b) ∈ edges T → (ρ a, ρ b) ∉ edges T)
    (htwin : ∀ {a b}, (a, b) ∈ edges T →
      (b, a) ∈ edges T ∨ (ρ b, ρ a) ∈ edges T ∨ (ρ (ρ b), ρ (ρ a)) ∈ edges T) :
    Closed (T ++ (T.map (mapTriangle ρ) ++ T.map (mapTriangle (ρ ∘ ρ)))) := by
  have hinj : Function.Injective ρ := fun a b h => by rw [← hρ a, h, hρ]
  have hmem₁ {a b : α} : (a, b) ∈ edges (T.map (mapTriangle ρ)) ↔ (ρ (ρ a), ρ (ρ b)) ∈ edges T := by
    rw [edges_map, List.mem_map]
    constructor
    · rintro ⟨⟨c, d⟩, hcd, heq⟩
      obtain ⟨rfl, rfl⟩ := Prod.mk.inj heq
      rwa [hρ, hρ]
    · exact fun h => ⟨_, h, Prod.ext (hρ a) (hρ b)⟩
  have hmem₂ {a b : α} : (a, b) ∈ edges (T.map (mapTriangle (ρ ∘ ρ))) ↔ (ρ a, ρ b) ∈ edges T := by
    rw [edges_map, List.mem_map]
    constructor
    · rintro ⟨⟨c, d⟩, hcd, heq⟩
      obtain ⟨rfl, rfl⟩ := Prod.mk.inj heq
      rwa [Function.comp_apply, Function.comp_apply, hρ, hρ]
    · exact fun h => ⟨_, h, Prod.ext (hρ a) (hρ b)⟩
  have hmem {a b : α} :
      (a, b) ∈ edges (T ++ (T.map (mapTriangle ρ) ++ T.map (mapTriangle (ρ ∘ ρ)))) ↔
      (a, b) ∈ edges T ∨ (ρ (ρ a), ρ (ρ b)) ∈ edges T ∨ (ρ a, ρ b) ∈ edges T := by
    rw [edges_append, edges_append, List.mem_append, List.mem_append, hmem₁, hmem₂]
  constructor
  · rw [edges_append, edges_append, List.nodup_append', List.nodup_append']
    refine ⟨hnodup, ⟨?_, ?_, ?_⟩, ?_⟩
    · rw [edges_map]
      exact hnodup.map (hinj.prodMap hinj)
    · rw [edges_map]
      exact hnodup.map ((hinj.comp hinj).prodMap (hinj.comp hinj))
    · rintro ⟨a, b⟩ h₁ h₂
      exact hdisjoint (hmem₂.mp h₂) (hmem₁.mp h₁)
    · rintro ⟨a, b⟩ h h'
      obtain h₁ | h₂ := List.mem_append.mp h'
      · have := hdisjoint (hmem₁.mp h₁)
        rw [hρ, hρ] at this
        exact this h
      · exact hdisjoint h (hmem₂.mp h₂)
  · intro a b hab
    rw [hmem] at hab ⊢
    obtain hab | hab | hab := hab
    · have := htwin hab
      tauto
    · have := htwin hab
      rw [hρ, hρ] at this
      tauto
    · have := htwin hab
      rw [hρ, hρ] at this
      tauto
  · intro a b hab heq
    rw [hmem, heq] at hab
    obtain hab | hab | hab := hab
    · exact hne hab rfl
    · exact hne hab rfl
    · exact hne hab rfl

end Threefold

/-! ### A grid of squares -/

/-- A square of the grid, cut along the diagonal from its least corner. -/
def gridCell (c : Nat × Nat) : List ((Nat × Nat) × (Nat × Nat) × (Nat × Nat)) :=
  [((c.1, c.2), (c.1 + 1, c.2 + 1), (c.1, c.2 + 1)),
    ((c.1, c.2), (c.1 + 1, c.2), (c.1 + 1, c.2 + 1))]

def grid (m n : Nat) : List ((Nat × Nat) × (Nat × Nat) × (Nat × Nat)) :=
  (List.range m ×ˢ List.range n).flatMap gridCell

/-- The edges of the grid: diagonals in both directions, and sides of squares, which go round their
square counterclockwise. -/
inductive GridEdge (m n : Nat) : Nat × Nat → Nat × Nat → Prop
  | diagonal : i < m → j < n → GridEdge m n (i, j) (i + 1, j + 1)
  | back : i < m → j < n → GridEdge m n (i + 1, j + 1) (i, j)
  | bottom : i < m → j < n → GridEdge m n (i, j) (i + 1, j)
  | top : i < m → j < n → GridEdge m n (i + 1, j + 1) (i, j + 1)
  | right : i < m → j < n → GridEdge m n (i + 1, j) (i + 1, j + 1)
  | left : i < m → j < n → GridEdge m n (i, j + 1) (i, j)

variable {m n : Nat} {p q : Nat × Nat}

theorem mem_edges_gridCell {c : Nat × Nat} : (p, q) ∈ edges (gridCell c) ↔
    p = (c.1, c.2) ∧ q = (c.1 + 1, c.2 + 1) ∨ p = (c.1 + 1, c.2 + 1) ∧ q = (c.1, c.2 + 1) ∨
    p = (c.1, c.2 + 1) ∧ q = (c.1, c.2) ∨ p = (c.1, c.2) ∧ q = (c.1 + 1, c.2) ∨
    p = (c.1 + 1, c.2) ∧ q = (c.1 + 1, c.2 + 1) ∨ p = (c.1 + 1, c.2 + 1) ∧ q = (c.1, c.2) := by
  simp only [gridCell, edges_cons, edges_nil, triangleEdges, List.append_nil, List.cons_append,
    List.nil_append, List.mem_cons, Prod.mk.injEq, List.not_mem_nil, or_false]

theorem edges_grid :
    edges (grid m n) = (List.range m ×ˢ List.range n).flatMap fun c => edges (gridCell c) := by
  rw [grid, edges, List.flatMap_assoc]
  rfl

theorem mem_edges_grid : (p, q) ∈ edges (grid m n) ↔ GridEdge m n p q := by
  simp only [edges_grid, List.mem_flatMap, List.mem_product, List.mem_range, Prod.exists,
    mem_edges_gridCell]
  constructor
  · rintro ⟨a, b, ⟨ha, hb⟩, h⟩
    obtain ⟨rfl, rfl⟩ | ⟨rfl, rfl⟩ | ⟨rfl, rfl⟩ | ⟨rfl, rfl⟩ | ⟨rfl, rfl⟩ | ⟨rfl, rfl⟩ := h
    · exact .diagonal ha hb
    · exact .top ha hb
    · exact .left ha hb
    · exact .bottom ha hb
    · exact .right ha hb
    · exact .back ha hb
  · rintro (⟨ha, hb⟩ | ⟨ha, hb⟩ | ⟨ha, hb⟩ | ⟨ha, hb⟩ | ⟨ha, hb⟩ | ⟨ha, hb⟩) <;>
    exact ⟨_, _, ⟨ha, hb⟩, by simp⟩

theorem GridEdge.ne (h : GridEdge m n p q) : p ≠ q := by
  cases h <;> simp

theorem GridEdge.le (h : GridEdge m n p q) : (p.1 ≤ m ∧ p.2 ≤ n) ∧ q.1 ≤ m ∧ q.2 ≤ n := by
  cases h <;> simp only <;> omega

/-- An edge begins and an edge ends at every point of a grid that has squares. -/
theorem exists_gridEdge {x y : Nat} (hm : 0 < m) (hn : 0 < n) (hx : x ≤ m) (hy : y ≤ n) :
    (∃ q, GridEdge m n (x, y) q) ∧ ∃ q, GridEdge m n q (x, y) := by
  obtain hy | rfl := Nat.lt_or_eq_of_le hy
  · obtain hx | rfl := Nat.lt_or_eq_of_le hx
    · exact ⟨⟨_, .diagonal hx hy⟩, ⟨_, .back hx hy⟩⟩
    · obtain ⟨a, rfl⟩ := Nat.exists_eq_add_one.mpr hm
      exact ⟨⟨_, .right a.lt_add_one hy⟩, ⟨_, .bottom a.lt_add_one hy⟩⟩
  · obtain ⟨b, rfl⟩ := Nat.exists_eq_add_one.mpr hn
    obtain hx | rfl := Nat.lt_or_eq_of_le hx
    · exact ⟨⟨_, .left hx b.lt_add_one⟩, ⟨_, .top hx b.lt_add_one⟩⟩
    · obtain ⟨a, rfl⟩ := Nat.exists_eq_add_one.mpr hm
      exact ⟨⟨_, .back a.lt_add_one b.lt_add_one⟩, ⟨_, .diagonal a.lt_add_one b.lt_add_one⟩⟩

/-- Exchanging the axes turns the squares over. -/
theorem grid_swap :
    ((grid m n).map (mapTriangle Prod.swap)).Perm ((grid n m).map flipTriangle) := by
  have hcells : ((List.range m ×ˢ List.range n).map Prod.swap).Perm
      (List.range n ×ˢ List.range m) := by
    refine (List.perm_ext_iff_of_nodup ?_ ?_).mpr ?_
    · exact (List.nodup_range.product List.nodup_range).map Prod.swap_injective
    · exact List.nodup_range.product List.nodup_range
    · rintro ⟨a, b⟩
      simp [and_comm]
  have hcell (c : Nat × Nat) : ((gridCell c).map (mapTriangle Prod.swap)).Perm
      ((gridCell c.swap).map flipTriangle) := .swap ..
  rw [grid, grid, List.map_flatMap, List.map_flatMap]
  refine (List.Perm.flatMap_left _ fun c _ => hcell c).trans ?_
  have hmap := hcells.flatMap_right fun c => (gridCell c).map flipTriangle
  rwa [List.flatMap_map] at hmap

theorem length_grid : (grid m n).length = 2 * (m * n) := by
  simp [grid, gridCell, List.length_flatMap, List.length_product, mul_comm]

/-- An edge tells which square it is of. -/
theorem gridCell_unique {c d : Nat × Nat} (hc : (p, q) ∈ edges (gridCell c))
    (hd : (p, q) ∈ edges (gridCell d)) : c = d := by
  obtain ⟨x, y⟩ := p
  obtain ⟨x', y'⟩ := q
  obtain ⟨a, b⟩ := c
  obtain ⟨a', b'⟩ := d
  simp only [mem_edges_gridCell, Prod.mk.injEq] at hc hd ⊢
  omega

theorem nodup_edges_grid : (edges (grid m n)).Nodup := by
  rw [edges_grid, List.nodup_flatMap]
  constructor
  · rintro ⟨a, b⟩ -
    simp [gridCell, triangleEdges]
  · refine List.Nodup.pairwise_of_forall_ne (List.nodup_range.product List.nodup_range) ?_
    rintro c - d - hne ⟨p, q⟩ hc hd
    exact hne (gridCell_unique hc hd)

end MUtils
