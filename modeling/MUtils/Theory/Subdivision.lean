import MUtils.Theory.Surface

/-!
# Cutting triangles into four

The triangles of a surface are cut at the middles of their sides, again and again. Two things are
kept: whether the surface has a border, and whether two lists hold the same triangles.

On the lattice of the triangles with a side of one the middles of two sides are different points, so
a function on the corners extends to the middles, and there is one value for each point.
-/

namespace MUtils

variable {α β γ : Type}

/-- The four triangles of a triangle. Corners are kept, up to their new names. -/
def subdivide (keep : α → β) (half : α → α → β) (t : α × α × α) : List (β × β × β) :=
  let n₁ := half t.1 t.2.1
  let n₂ := half t.2.1 t.2.2
  let n₃ := half t.1 t.2.2
  [(keep t.1, n₁, n₃), (n₁, keep t.2.1, n₂), (n₁, n₂, n₃), (n₃, n₂, keep t.2.2)]

theorem length_flatMap_subdivide {keep : α → β} {half : α → α → β} (T : List (α × α × α)) :
    (T.flatMap (subdivide keep half)).length = 4 * T.length := by
  simp [List.length_flatMap, subdivide, mul_comm]

/-! ### Surfaces without a border -/

/-- Every edge is gone through as often in one direction as in the other. Corners may lie on each
other. -/
def Watertight (T : List (α × α × α)) : Prop := (edges T).Perm ((edges T).map Prod.swap)

instance [DecidableEq α] (T : List (α × α × α)) : Decidable (Watertight T) :=
  inferInstanceAs (Decidable (List.Perm _ _))

theorem Watertight.map {T : List (α × α × α)} (h : Watertight T) (f : α → β) :
    Watertight (T.map (mapTriangle f)) := by
  have hf := List.Perm.map (Prod.map f f) h
  rw [List.map_map] at hf
  rwa [Watertight, edges_map, List.map_map]

/-- The two halves of an edge. -/
def halves (keep : α → β) (half : α → α → β) (e : α × α) : List (β × β) :=
  [(keep e.1, half e.1 e.2), (half e.1 e.2, keep e.2)]

/-- The sides of the triangle in the middle, in both directions. -/
def innerEdges (half : α → α → β) (t : α × α × α) : List (β × β) :=
  let n₁ := half t.1 t.2.1
  let n₂ := half t.2.1 t.2.2
  let n₃ := half t.1 t.2.2
  [(n₁, n₂), (n₂, n₁), (n₂, n₃), (n₃, n₂), (n₃, n₁), (n₁, n₃)]

section
variable {keep : α → β} {half : α → α → β} (hhalf : ∀ a b, half a b = half b a)

theorem innerEdges_swap (t : α × α × α) :
    (innerEdges half t).Perm ((innerEdges half t).map Prod.swap) := by
  simp only [innerEdges, List.map_cons, List.map_nil, Prod.swap_prod_mk]
  have hpair (e e' : β × β) {l l' : List (β × β)} (hl : l.Perm l') :
      (e :: e' :: l).Perm (e' :: e :: l') := (List.Perm.swap ..).trans ((hl.cons _).cons _)
  exact hpair _ _ (hpair _ _ (hpair _ _ (.refl _)))

include hhalf

theorem halves_swap (e : α × α) :
    (halves keep half e.swap).Perm ((halves keep half e).map Prod.swap) := by
  simp only [halves, Prod.fst_swap, Prod.snd_swap, hhalf e.2 e.1, List.map_cons, List.map_nil,
    Prod.swap_prod_mk]
  exact List.Perm.swap ..

theorem edges_subdivide (t : α × α × α) : (edges (subdivide keep half t)).Perm
    ((triangleEdges t).flatMap (halves keep half) ++ innerEdges half t) := by
  classical
  simp only [subdivide, edges_cons, edges_nil, triangleEdges, halves, innerEdges,
    List.flatMap_cons, List.flatMap_nil, List.append_nil, List.cons_append, List.nil_append,
    hhalf t.2.2 t.1]
  rw [List.perm_iff_count]
  intro e
  simp only [List.count_cons, List.count_nil]
  omega

theorem edges_flatMap_subdivide (T : List (α × α × α)) :
    (edges (T.flatMap (subdivide keep half))).Perm
      ((edges T).flatMap (halves keep half) ++ T.flatMap (innerEdges half)) := by
  induction T with
  | nil => exact .refl _
  | cons t T ih =>
    rw [List.flatMap_cons, edges_append, edges_cons, List.flatMap_append, List.flatMap_cons]
    refine ((edges_subdivide hhalf t).append ih).trans ?_
    rw [List.append_assoc, List.append_assoc]
    refine .append_left _ ?_
    rw [← List.append_assoc, ← List.append_assoc]
    exact .append_right _ List.perm_append_comm

theorem Watertight.flatMap_subdivide {T : List (α × α × α)} (h : Watertight T) :
    Watertight (T.flatMap (subdivide keep half)) := by
  have hedges : (edges (T.flatMap (subdivide keep half))).Perm _ :=
    edges_flatMap_subdivide hhalf T
  have houter : ((edges T).flatMap (halves keep half)).Perm
      (((edges T).flatMap (halves keep half)).map Prod.swap) := by
    rw [List.map_flatMap]
    refine (List.Perm.flatMap_right _ h).trans ?_
    rw [List.flatMap_map]
    exact List.Perm.flatMap_left _ fun e _ => halves_swap hhalf e
  have hinner : (T.flatMap (innerEdges half)).Perm
      ((T.flatMap (innerEdges half)).map Prod.swap) := by
    rw [List.map_flatMap]
    exact List.Perm.flatMap_left _ fun t _ => innerEdges_swap t
  refine hedges.trans ((houter.append hinner).trans ?_)
  rw [← List.map_append]
  exact (hedges.map Prod.swap).symm

end

/-! ### The same triangles -/

/-- The same corners in the same cyclic order. -/
inductive Rotated : α × α × α → α × α × α → Prop
  | refl : Rotated t t
  | left : Rotated (a, b, c) (b, c, a)
  | right : Rotated (a, b, c) (c, a, b)

/-- The same triangles, which may come in another order and begin at another corner. -/
def SameFaces (T T' : List (α × α × α)) : Prop := ∃ U, T.Perm U ∧ List.Forall₂ Rotated U T'

theorem Rotated.mapTriangle {t t' : α × α × α} (h : Rotated t t') (f : α → β) :
    Rotated (MUtils.mapTriangle f t) (MUtils.mapTriangle f t') := by
  cases h with
  | refl => exact .refl
  | left => exact .left
  | right => exact .right

theorem SameFaces.map {T T' : List (α × α × α)} (h : SameFaces T T') (f : α → β) :
    SameFaces (T.map (mapTriangle f)) (T'.map (mapTriangle f)) := by
  obtain ⟨U, hperm, hrotated⟩ := h
  refine ⟨U.map (mapTriangle f), hperm.map _, ?_⟩
  rw [List.forall₂_map_left_iff, List.forall₂_map_right_iff]
  exact hrotated.imp fun _ _ h => h.mapTriangle f

theorem SameFaces.of_perm_left {T T' U : List (α × α × α)} (hperm : T.Perm U)
    (h : SameFaces U T') : SameFaces T T' := by
  obtain ⟨V, hV, hrotated⟩ := h
  exact ⟨V, hperm.trans hV, hrotated⟩

theorem SameFaces.refl (T : List (α × α × α)) : SameFaces T T :=
  ⟨T, .refl T, List.forall₂_same.mpr fun _ _ => .refl⟩

/-- What is true of the triangles, from whichever corner they begin, is true of the same ones. -/
theorem SameFaces.forall {T T' : List (α × α × α)} (h : SameFaces T T')
    {P : α × α × α → Prop} (hP : ∀ a b c, P (a, b, c) → P (b, c, a)) (hT : ∀ t ∈ T, P t) :
    ∀ t ∈ T', P t := by
  obtain ⟨U, hperm, hrotated⟩ := h
  have hU : ∀ t ∈ U, P t := fun t ht => hT t (hperm.mem_iff.mpr ht)
  clear hperm
  induction hrotated with
  | nil => exact fun t ht => (List.not_mem_nil ht).elim
  | @cons t t' U T' htt' _ ih =>
    have ht := hU t List.mem_cons_self
    intro u hu
    obtain rfl | hu := List.mem_cons.mp hu
    · cases htt' with
      | refl => exact ht
      | left => exact hP _ _ _ ht
      | right => exact hP _ _ _ (hP _ _ _ ht)
    · exact ih (fun v hv => hU v (List.mem_cons_of_mem _ hv)) u hu

theorem SameFaces.length_eq {T T' : List (α × α × α)} (h : SameFaces T T') :
    T.length = T'.length := by
  obtain ⟨U, hperm, hrotated⟩ := h
  exact hperm.length_eq.trans hrotated.length_eq

theorem SameFaces.append {T T' U U' : List (α × α × α)} (h : SameFaces T T')
    (h' : SameFaces U U') : SameFaces (T ++ U) (T' ++ U') := by
  obtain ⟨V, hV, hrotated⟩ := h
  obtain ⟨V', hV', hrotated'⟩ := h'
  exact ⟨V ++ V', hV.append hV', List.rel_append hrotated hrotated'⟩

theorem SameFaces.edges_perm {T T' : List (α × α × α)} (h : SameFaces T T') :
    (edges T).Perm (edges T') := by
  obtain ⟨U, hperm, hrotated⟩ := h
  refine (MUtils.edges_perm hperm).trans ?_
  clear hperm
  induction hrotated with
  | nil => exact .refl _
  | cons h _ ih =>
    rw [edges_cons, edges_cons]
    refine List.Perm.append ?_ ih
    cases h with
    | refl => exact .refl _
    | left => exact @List.perm_append_comm _ [_] [_, _]
    | right => exact @List.perm_append_comm _ [_, _] [_]

theorem SameFaces.watertight {T T' : List (α × α × α)} (h : SameFaces T T') (hT : Watertight T) :
    Watertight T' :=
  h.edges_perm.symm.trans (hT.trans (h.edges_perm.map Prod.swap))

section
variable {keep : α → β} {half : α → α → β} (hhalf : ∀ a b, half a b = half b a)

include hhalf

theorem Rotated.subdivide {t t' : α × α × α} (h : Rotated t t') :
    SameFaces (MUtils.subdivide keep half t) (MUtils.subdivide keep half t') := by
  classical
  cases h with
  | refl => exact ⟨_, .refl _, List.forall₂_same.mpr fun _ _ => .refl⟩
  | @left a b c =>
    simp only [MUtils.subdivide, hhalf c a, hhalf b a]
    refine ⟨[_, _, _, _], ?_, .cons .left (.cons .left (.cons .left (.cons .left .nil)))⟩
    rw [List.perm_iff_count]
    intro t
    simp only [List.count_cons, List.count_nil]
    omega
  | @right a b c =>
    simp only [MUtils.subdivide, hhalf c a, hhalf c b]
    refine ⟨[_, _, _, _], ?_, .cons .right (.cons .right (.cons .right (.cons .right .nil)))⟩
    rw [List.perm_iff_count]
    intro t
    simp only [List.count_cons, List.count_nil]
    omega

theorem SameFaces.flatMap_subdivide {T T' : List (α × α × α)} (h : SameFaces T T') :
    SameFaces (T.flatMap (MUtils.subdivide keep half))
      (T'.flatMap (MUtils.subdivide keep half)) := by
  obtain ⟨U, hperm, hrotated⟩ := h
  refine .of_perm_left (hperm.flatMap_right _) ?_
  clear hperm
  induction hrotated with
  | nil => exact ⟨[], .refl _, .nil⟩
  | cons h _ ih =>
    rw [List.flatMap_cons, List.flatMap_cons]
    exact (h.subdivide hhalf).append ih

end

/-! ### The lattice of triangles -/

/-- The points at a distance of one, along the three directions of the sides. -/
inductive Adjacent : ℤ × ℤ → ℤ × ℤ → Prop
  | right : Adjacent (a, b) (a + 1, b)
  | left : Adjacent (a + 1, b) (a, b)
  | up : Adjacent (a, b) (a, b + 1)
  | down : Adjacent (a, b + 1) (a, b)
  | across : Adjacent (a + 1, b) (a, b + 1)
  | back : Adjacent (a, b + 1) (a + 1, b)

abbrev LatticeTriangle : Type := (ℤ × ℤ) × (ℤ × ℤ) × (ℤ × ℤ)

/-- A triangle with a side of one. -/
structure UnitTriangle (t : LatticeTriangle) : Prop where
  first : Adjacent t.1 t.2.1
  second : Adjacent t.2.1 t.2.2
  third : Adjacent t.1 t.2.2

/-- The triangles of half the side, on the lattice that has half the side. -/
def latticeSubdivide : LatticeTriangle → List LatticeTriangle :=
  subdivide (fun p => p + p) (fun p q => p + q)

theorem adjacent_iff {p q : ℤ × ℤ} : Adjacent p q ↔
    q.1 = p.1 + 1 ∧ q.2 = p.2 ∨ p.1 = q.1 + 1 ∧ p.2 = q.2 ∨
    q.1 = p.1 ∧ q.2 = p.2 + 1 ∨ p.1 = q.1 ∧ p.2 = q.2 + 1 ∨
    p.1 = q.1 + 1 ∧ q.2 = p.2 + 1 ∨ q.1 = p.1 + 1 ∧ p.2 = q.2 + 1 := by
  obtain ⟨a, b⟩ := p
  obtain ⟨c, d⟩ := q
  constructor
  · intro h
    cases h <;> simp
  · rintro (⟨h₁, h₂⟩ | ⟨h₁, h₂⟩ | ⟨h₁, h₂⟩ | ⟨h₁, h₂⟩ | ⟨h₁, h₂⟩ | ⟨h₁, h₂⟩)
    all_goals
      dsimp only at h₁ h₂
      subst h₁ h₂
      constructor

instance (p q : ℤ × ℤ) : Decidable (Adjacent p q) := decidable_of_iff' _ adjacent_iff

instance (t : LatticeTriangle) : Decidable (UnitTriangle t) :=
  decidable_of_iff (Adjacent t.1 t.2.1 ∧ Adjacent t.2.1 t.2.2 ∧ Adjacent t.1 t.2.2)
    ⟨fun ⟨h₁, h₂, h₃⟩ => ⟨h₁, h₂, h₃⟩, fun ⟨h₁, h₂, h₃⟩ => ⟨h₁, h₂, h₃⟩⟩

theorem Adjacent.symm {p q : ℤ × ℤ} (h : Adjacent p q) : Adjacent q p := by
  cases h <;> constructor

theorem Adjacent.add_left {p q : ℤ × ℤ} (h : Adjacent p q) (r : ℤ × ℤ) :
    Adjacent (r + p) (r + q) := by
  rw [adjacent_iff] at h ⊢
  simp only [Prod.fst_add, Prod.snd_add]
  omega

theorem Adjacent.add_right {p q : ℤ × ℤ} (h : Adjacent p q) (r : ℤ × ℤ) :
    Adjacent (p + r) (q + r) := by
  rw [add_comm p, add_comm q]
  exact h.add_left r

/-- Two middles are as far apart as the corners they do not share. -/
theorem UnitTriangle.subdivide {t t' : LatticeTriangle} (h : UnitTriangle t)
    (ht' : t' ∈ latticeSubdivide t) : UnitTriangle t' := by
  obtain ⟨a, b, c⟩ := t
  obtain ⟨hab, hbc, hac⟩ := h
  have hmiddle : Adjacent (a + b) (b + c) := by
    rw [add_comm a]
    exact hac.add_left b
  simp only [latticeSubdivide, MUtils.subdivide, List.mem_cons, List.not_mem_nil, or_false] at ht'
  obtain rfl | rfl | rfl | rfl := ht'
  · exact ⟨hab.add_left a, hbc.add_left a, hac.add_left a⟩
  · exact ⟨hab.add_right b, hbc.add_left b, hmiddle⟩
  · exact ⟨hmiddle, hab.symm.add_right c, hbc.add_left a⟩
  · exact ⟨hab.add_right c, hbc.add_right c, hac.add_right c⟩

/-- The corners of the small triangles are the corners and the middles of the sides. -/
theorem isVertex_latticeSubdivide {N : List LatticeTriangle}
    {u : LatticeTriangle} (hu : u ∈ N) :
    IsVertex (N.flatMap latticeSubdivide) (u.1 + u.2.1) ∧
      IsVertex (N.flatMap latticeSubdivide) (u.2.1 + u.2.2) ∧
      IsVertex (N.flatMap latticeSubdivide) (u.1 + u.2.2) := by
  have hmiddle : (u.1 + u.2.1, u.2.1 + u.2.2, u.1 + u.2.2) ∈ N.flatMap latticeSubdivide :=
    List.mem_flatMap.mpr ⟨u, hu, by simp [latticeSubdivide, MUtils.subdivide]⟩
  exact ⟨isVertex_iff_corner.mpr ⟨_, hmiddle, .inl rfl⟩,
    isVertex_iff_corner.mpr ⟨_, hmiddle, .inr (.inl rfl)⟩,
    isVertex_iff_corner.mpr ⟨_, hmiddle, .inr (.inr rfl)⟩⟩

theorem isVertex_double {N : List LatticeTriangle} {p : ℤ × ℤ} (hp : IsVertex N p) :
    IsVertex (N.flatMap latticeSubdivide) (p + p) := by
  obtain ⟨u, hu, hp⟩ := isVertex_iff_corner.mp hp
  have hmem {t : LatticeTriangle} (ht : t ∈ latticeSubdivide u) :
      t ∈ N.flatMap latticeSubdivide := List.mem_flatMap.mpr ⟨u, hu, ht⟩
  rw [isVertex_iff_corner]
  obtain rfl | rfl | rfl := hp
  · exact ⟨_, hmem List.mem_cons_self, .inl rfl⟩
  · exact ⟨_, hmem (List.mem_cons_of_mem _ List.mem_cons_self), .inr (.inl rfl)⟩
  · exact ⟨(u.1 + u.2.2, u.2.1 + u.2.2, u.2.2 + u.2.2),
      hmem (by simp [latticeSubdivide, MUtils.subdivide]), .inr (.inr rfl)⟩

/-- A function on the corners taken to the lattice of half the side: the middle of a side is told by
which of its coordinates are odd. -/
def refine (half : α → α → α) (f : ℤ × ℤ → α) (p : ℤ × ℤ) : α :=
  let a := p.1 / 2
  let b := p.2 / 2
  if p.1 % 2 = 0 then
    if p.2 % 2 = 0 then f (a, b) else half (f (a, b)) (f (a, b + 1))
  else
    if p.2 % 2 = 0 then half (f (a, b)) (f (a + 1, b)) else half (f (a + 1, b)) (f (a, b + 1))

section
variable {half : α → α → α} {f : ℤ × ℤ → α}

theorem refine_double (p : ℤ × ℤ) : refine half f (p + p) = f p := by
  have hmod (x : ℤ) : (x + x) % 2 = 0 := by omega
  have hdiv (x : ℤ) : (x + x) / 2 = x := by omega
  simp only [refine, Prod.fst_add, Prod.snd_add, hmod, hdiv, if_true, Prod.mk.eta]

/-- What is known of the sums of points is known of the function. -/
theorem refine_eq {g : ℤ × ℤ → α} (hdouble : ∀ p, g (p + p) = f p)
    (hadd : ∀ p q, g (p + q) = half (f p) (f q)) : refine half f = g := by
  funext ⟨a, b⟩
  have heven {x : ℤ} (h : x % 2 = 0) : x = x / 2 + x / 2 := by omega
  have hodd {x : ℤ} (h : ¬x % 2 = 0) : x = x / 2 + (x / 2 + 1) := by omega
  have hodd' {x : ℤ} (h : ¬x % 2 = 0) : x = x / 2 + 1 + x / 2 := by omega
  unfold refine
  dsimp only
  split
  · next ha =>
    split
    · next hb =>
      rw [← hdouble, Prod.mk_add_mk, ← heven ha, ← heven hb]
    · next hb =>
      rw [← hadd, Prod.mk_add_mk, ← heven ha, ← hodd hb]
  · next ha =>
    split
    · next hb =>
      rw [← hadd, Prod.mk_add_mk, ← hodd ha, ← heven hb]
    · next hb =>
      rw [← hadd, Prod.mk_add_mk, ← hodd' ha, ← hodd hb]

/-- A part of the values may be taken before or after. -/
theorem refine_comp {half' : β → β → β} {φ : α → β}
    (hφ : ∀ a b, φ (half a b) = half' (φ a) (φ b)) : φ ∘ refine half f = refine half' (φ ∘ f) := by
  funext p
  simp only [refine, Function.comp_apply]
  split <;> split <;> simp only [hφ]

variable (hhalf : ∀ a b, half a b = half b a)

include hhalf

theorem refine_add {p q : ℤ × ℤ} (h : Adjacent p q) :
    refine half f (p + q) = half (f p) (f q) := by
  have hmod (x : ℤ) : (x + x) % 2 = 0 := by omega
  have hdiv (x : ℤ) : (x + x) / 2 = x := by omega
  have hmod₁ (x : ℤ) : (x + (x + 1)) % 2 ≠ 0 := by omega
  have hdiv₁ (x : ℤ) : (x + (x + 1)) / 2 = x := by omega
  have hmod₂ (x : ℤ) : (x + 1 + x) % 2 ≠ 0 := by omega
  have hdiv₂ (x : ℤ) : (x + 1 + x) / 2 = x := by omega
  cases h <;> simp only [refine, Prod.mk_add_mk, hmod, hdiv, hmod₁, hdiv₁, hmod₂, hdiv₂, if_true,
    if_false]
  · exact hhalf _ _
  · exact hhalf _ _
  · exact hhalf _ _

/-- Values on the corners of the small triangles are those found by cutting the values. -/
theorem map_refine {T : List LatticeTriangle} (hT : ∀ t ∈ T, UnitTriangle t) :
    (T.flatMap latticeSubdivide).map (mapTriangle (refine half f)) =
      (T.map (mapTriangle f)).flatMap (subdivide id half) := by
  rw [List.map_flatMap, List.flatMap_map]
  refine List.flatMap_congr fun t ht => ?_
  have h := hT t ht
  simp only [latticeSubdivide, subdivide, List.map_cons, List.map_nil, mapTriangle, refine_double,
    refine_add hhalf h.first, refine_add hhalf h.second, refine_add hhalf h.third, id]

end

/-! ### Many cuts -/

/-- The triangles after `n` cuts, on the lattice after as many. -/
def latticeNet (T : List LatticeTriangle) :
    Nat → List LatticeTriangle
  | 0 => T
  | n + 1 => (latticeNet T n).flatMap latticeSubdivide

/-- The values on the lattice after `n` cuts. -/
def refined (half : α → α → α) (f : ℤ × ℤ → α) : Nat → ℤ × ℤ → α
  | 0 => f
  | n + 1 => refine half (refined half f n)

variable {T T' : List LatticeTriangle} {n : Nat}

theorem length_latticeNet : (latticeNet T n).length = T.length * 4 ^ n := by
  induction n with
  | zero => simp [latticeNet]
  | succ n ih => rw [latticeNet, latticeSubdivide, length_flatMap_subdivide, ih, pow_succ]; ring

theorem unitTriangle_latticeNet (hT : ∀ t ∈ T, UnitTriangle t) :
    ∀ t ∈ latticeNet T n, UnitTriangle t := by
  induction n with
  | zero => exact hT
  | succ n ih =>
    intro t ht
    obtain ⟨u, hu, ht⟩ := List.mem_flatMap.mp ht
    exact (ih u hu).subdivide ht

theorem sameFaces_latticeNet (h : SameFaces T T') :
    SameFaces (latticeNet T n) (latticeNet T' n) := by
  induction n with
  | zero => exact h
  | succ n ih => exact ih.flatMap_subdivide fun p q => add_comm p q

theorem refined_comp {half : α → α → α} {half' : β → β → β} {f : ℤ × ℤ → α} {φ : α → β}
    (hφ : ∀ a b, φ (half a b) = half' (φ a) (φ b)) :
    φ ∘ refined half f n = refined half' (φ ∘ f) n := by
  induction n with
  | zero => rfl
  | succ n ih => rw [refined, refined, refine_comp hφ, ih]

/-- What one cut keeps of the values on the triangles, many cuts keep. -/
theorem latticeNet_invariant {half : α → α → α} {f : ℤ × ℤ → α}
    (hhalf : ∀ a b, half a b = half b a) (hT : ∀ t ∈ T, UnitTriangle t)
    {P : Nat → List (α × α × α) → Prop} (hstart : P 0 (T.map (mapTriangle f)))
    (hstep : ∀ n U, P n U → P (n + 1) (U.flatMap (subdivide id half))) (n : Nat) :
    P n ((latticeNet T n).map (mapTriangle (refined half f n))) := by
  induction n with
  | zero => exact hstart
  | succ n ih =>
    rw [latticeNet, refined, map_refine hhalf (unitTriangle_latticeNet hT)]
    exact hstep n _ ih

end MUtils
