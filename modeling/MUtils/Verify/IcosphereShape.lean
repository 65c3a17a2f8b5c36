import MUtils.Verify.IcosphereMesh
import MUtils.Verify.ShapePlacement

/-!
# Icospheres in space

With real numbers, and a constant near `π` as the source has it: the vertices are on the sphere and
every triangle is seen counterclockwise from outside. The triangles become so small that from the
tenth subdivision on `computeFaceNormal` takes each of them for one without a surface, and leaves
the flat icosphere without normals.
-/

namespace MUtils.Icosphere

/-! ### Vectors -/

section
variable {K : Type} [Field K]

/-- Six times the volume of the tetrahedron with the origin. -/
def triple (a b c : Vec3 K) : K := dot a (b.cross c)

variable (a b c : Vec3 K) (s t u : K)

theorem dot_comm : dot a b = dot b a := by
  simp only [dot]
  ring

theorem dot_add_right : dot a (b + c) = dot a b + dot a c := by
  simp only [dot, Vec3.add_def]
  ring

theorem dot_scale_right : dot a (b.scale s) = s * dot a b := by
  simp only [dot, Vec3.scale]
  ring

/-- The middles of two sides that meet, before they are put on the sphere. -/
theorem dot_middles : dot ((a + b).scale s) ((a + c).scale t) =
    s * t * (dot a a + dot a b + dot a c + dot b c) := by
  simp only [dot, Vec3.scale, Vec3.add_def]
  ring

theorem triple_rotate : triple b c a = triple a b c := by
  simp only [triple, dot, Vec3.cross]
  ring

theorem triple_corner : triple a ((a + b).scale s) ((a + c).scale t) = s * t * triple a b c := by
  simp only [triple, dot, Vec3.cross, Vec3.scale, Vec3.add_def]
  ring

theorem triple_middles : triple ((a + b).scale s) ((b + c).scale t) ((a + c).scale u) =
    s * t * u * (triple a b c + triple a b c) := by
  simp only [triple, dot, Vec3.cross, Vec3.scale, Vec3.add_def]
  ring

end

/-! ### Triangles seen from outside -/

variable {PI r : ℝ} {a b c : Vec3 ℝ}

/-- The middle of two points, put on the sphere. -/
noncomputable def halfOf (r : ℝ) (a b : Vec3 ℝ) : Vec3 ℝ :=
  (a + b).scale (r / √(dot (a + b) (a + b)))

theorem halfVertex_real : halfVertex (realCMath PI) r = halfOf r := rfl

theorem halfOf_comm (a b : Vec3 ℝ) : halfOf r a b = halfOf r b a :=
  (halfVertex_comm a b : halfVertex (realCMath 0) r a b = _)

/-- The middle is put on the sphere. -/
theorem exists_half (hr : 0 < r) (ha : dot a a = r ^ 2) (hb : dot b b = r ^ 2) (hab : 0 < dot a b) :
    ∃ s, 0 < s ∧ halfOf r a b = (a + b).scale s ∧
      dot ((a + b).scale s) ((a + b).scale s) = r ^ 2 := by
  have hsum : dot (a + b) (a + b) = 2 * r ^ 2 + 2 * dot a b := by
    rw [dot_add_right, dot_comm _ a, dot_comm _ b, dot_add_right, dot_add_right, ha, hb,
      dot_comm b a]
    ring
  have hpos : 0 < dot (a + b) (a + b) := by
    rw [hsum]
    positivity
  have hsqrt : 0 < √(dot (a + b) (a + b)) := Real.sqrt_pos.mpr hpos
  refine ⟨r / √(dot (a + b) (a + b)), div_pos hr hsqrt, rfl, ?_⟩
  rw [dot_scale_right, dot_comm (Vec3.scale _ _), dot_scale_right, ← mul_assoc, ← sq, div_pow,
    Real.sq_sqrt hpos.le, div_mul_cancel₀ _ hpos.ne']

/-- The corners are on the sphere, less than a right angle from each other, and counterclockwise. -/
structure Outward (r : ℝ) (a b c : Vec3 ℝ) : Prop where
  onFirst : dot a a = r ^ 2
  onSecond : dot b b = r ^ 2
  onThird : dot c c = r ^ 2
  first : 0 < dot a b
  second : 0 < dot b c
  third : 0 < dot a c
  out : 0 < triple a b c

namespace Outward

theorem rotate (h : Outward r a b c) : Outward r b c a where
  onFirst := h.onSecond
  onSecond := h.onThird
  onThird := h.onFirst
  first := h.second
  second := by
    rw [dot_comm]
    exact h.third
  third := by
    rw [dot_comm]
    exact h.first
  out := by
    rw [triple_rotate]
    exact h.out

/-- The small triangle at a corner. -/
theorem corner (hr : 0 < r) (h : Outward r a b c) :
    Outward r a (halfOf r a b) (halfOf r a c) := by
  obtain ⟨s, hs, hab, hon⟩ := exists_half hr h.onFirst h.onSecond h.first
  obtain ⟨t, ht, hac, hon'⟩ := exists_half hr h.onFirst h.onThird h.third
  have hfirst := h.first
  have hsecond := h.second
  have hthird := h.third
  have hout := h.out
  rw [hab, hac]
  refine ⟨h.onFirst, hon, hon', ?_, ?_, ?_, ?_⟩
  · rw [dot_scale_right, dot_add_right, h.onFirst]
    positivity
  · rw [dot_middles, h.onFirst]
    positivity
  · rw [dot_scale_right, dot_add_right, h.onFirst]
    positivity
  · rw [triple_corner]
    positivity

/-- The small triangle in the middle. -/
theorem middle (hr : 0 < r) (h : Outward r a b c) :
    Outward r (halfOf r a b) (halfOf r b c)
      (halfOf r a c) := by
  obtain ⟨s, hs, hab, honab⟩ := exists_half hr h.onFirst h.onSecond h.first
  obtain ⟨t, ht, hbc, honbc⟩ := exists_half hr h.onSecond h.onThird h.second
  obtain ⟨u, hu, hac, honac⟩ := exists_half hr h.onFirst h.onThird h.third
  -- Two of the middles are beside the corner they share.
  have hcorner := (h.corner hr).second
  have hcorner' := (h.rotate.corner hr).second
  have hcorner'' := (h.rotate.rotate.corner hr).second
  rw [halfOf_comm b a, dot_comm] at hcorner'
  rw [halfOf_comm c a, halfOf_comm c b, dot_comm] at hcorner''
  refine ⟨?_, ?_, ?_, hcorner', hcorner'', hcorner, ?_⟩
  · rwa [hab]
  · rwa [hbc]
  · rwa [hac]
  · have hout := h.out
    rw [hab, hbc, hac, triple_middles]
    positivity

theorem subdivide (hr : 0 < r) (h : Outward r a b c) :
    ∀ t ∈ MUtils.subdivide id (halfOf r) (a, b, c), Outward r t.1 t.2.1 t.2.2 := by
  intro t ht
  simp only [MUtils.subdivide, id, List.mem_cons, List.not_mem_nil, or_false] at ht
  obtain rfl | rfl | rfl | rfl := ht
  · exact h.corner hr
  · have hb := (h.rotate.corner hr).rotate.rotate
    rwa [halfOf_comm b a] at hb
  · exact h.middle hr
  · have hc := (h.rotate.rotate.corner hr).rotate
    rwa [halfOf_comm c a, halfOf_comm c b] at hc

end Outward

/-! ### The icosahedron -/

/-- The constant that the source has for `π` is not far from it. -/
structure NearPi (PI : ℝ) : Prop where
  le : PI ≤ Real.pi + 1 / 1000
  ge : Real.pi - 1 / 1000 ≤ PI

/-- The angle between two vertices of a row. -/
noncomputable def hAngle (PI : ℝ) : ℝ := PI / (180 : Nat) * (72 : Nat)

noncomputable def vAngle : ℝ := Real.arctan (1 / (2 : Nat))

/-- A vertex of a row. -/
noncomputable def polar (r z θ : ℝ) : Vec3 ℝ :=
  ⟨r * Real.cos vAngle * Real.cos θ, r * Real.cos vAngle * Real.sin θ, z⟩

theorem hAngle_eq (PI : ℝ) : hAngle PI = 2 * PI / 5 := by
  rw [hAngle]
  push_cast
  ring

/-- From a vertex of a row to the next one. What the last one lacks to a whole turn is not exactly
the angle between the others. -/
noncomputable def rowStep (PI : ℝ) (i : Nat) : ℝ :=
  if i = 4 then (2 : Nat) * Real.pi - (4 : Nat) * hAngle PI else hAngle PI

theorem polar_next (PI r z θ : ℝ) {i : Nat} (hi : i < 5) :
    polar r z (θ + (((i : ℤ) + 1) % 5).toNat * hAngle PI) =
      polar r z (θ + i * hAngle PI + rowStep PI i) := by
  by_cases hlast : i = 4
  · subst hlast
    have hturn : θ + (4 : Nat) * hAngle PI + rowStep PI 4 = θ + 2 * Real.pi := by
      rw [rowStep, if_pos rfl]
      push_cast
      ring
    have hfirst : θ + ((((4 : Nat) : ℤ) + 1) % 5).toNat * hAngle PI = θ := by norm_num
    rw [hturn, hfirst, polar, polar, Real.cos_add_two_pi, Real.sin_add_two_pi]
  · have hnext : (((i : ℤ) + 1) % 5).toNat = i + 1 := by omega
    rw [hnext, rowStep, if_neg hlast, Nat.cast_add_one, add_one_mul, add_assoc]

theorem getElem?_icosahedronRow (xy z θ H : ℝ) {k : Nat} (hk : k < 5) :
    (icosahedronRow (realCMath PI) xy z θ H)[k]? =
      some ⟨xy * Real.cos (θ + k * H), xy * Real.sin (θ + k * H), z⟩ := by
  rw [icosahedronRow, List.getElem?_map, List.getElem?_range hk, Option.map_some]
  simp only [add_right_iterate, nsmul_eq_mul]
  rfl

/-- Where the first vertex of the upper row is seen. -/
noncomputable def firstAngle (PI : ℝ) : ℝ := -PI / (2 : Nat) - hAngle PI / (2 : Nat)

theorem positionAt_top (r : ℝ) (a : ℤ) : positionAt (realCMath PI) r 0 (a, 0) = ⟨0, 0, r⟩ := rfl

theorem length_icosahedronRow (xy z θ H : ℝ) :
    (icosahedronRow (realCMath PI) xy z θ H).length = 5 := by
  simp [icosahedronRow]

theorem positionAt_upper (r : ℝ) (a : ℤ) : positionAt (realCMath PI) r 0 (a, 1) =
    polar r (r * Real.sin vAngle) (firstAngle PI + (a % 5).toNat * hAngle PI) := by
  have hlt : (a % 5).toNat < 5 := by omega
  have hnumber : vertexNumber (a, 1) = 1 + (a % 5).toNat := rfl
  simp only [positionAt, refined, hnumber, computeIcosahedronVertices]
  rw [List.getD_eq_getElem?_getD, List.append_assoc, List.append_assoc,
    List.getElem?_append_right (by simp),
    List.getElem?_append_left (by simpa [length_icosahedronRow] using hlt)]
  simp only [List.length_singleton, Nat.add_sub_cancel_left, getElem?_icosahedronRow _ _ _ _ hlt,
    Option.getD_some]
  rfl

theorem positionAt_lower (r : ℝ) (a : ℤ) : positionAt (realCMath PI) r 0 (a, 2) =
    polar r (-(r * Real.sin vAngle))
      (firstAngle PI + hAngle PI / 2 + (a % 5).toNat * hAngle PI) := by
  have hlt : (a % 5).toNat < 5 := by omega
  have hnumber : vertexNumber (a, 2) = 6 + (a % 5).toNat := rfl
  have hangle : firstAngle PI + hAngle PI / 2 = -PI / (2 : Nat) := by
    rw [firstAngle]
    push_cast
    ring
  rw [hangle]
  simp only [positionAt, refined, hnumber, computeIcosahedronVertices]
  rw [List.getD_eq_getElem?_getD, List.append_assoc,
    List.getElem?_append_right (by simp [length_icosahedronRow]),
    List.getElem?_append_left (by simpa [length_icosahedronRow] using hlt)]
  simp only [List.length_append, List.length_singleton, length_icosahedronRow, Nat.reduceAdd,
    Nat.add_sub_cancel_left, getElem?_icosahedronRow _ _ _ _ hlt, Option.getD_some]
  rfl

theorem positionAt_bottom (r : ℝ) (a : ℤ) : positionAt (realCMath PI) r 0 (a, 3) = ⟨0, 0, -r⟩ := rfl

/-! ### The angles between its vertices -/

/-- The angles `s` between neighbours of a row and `h` between the rows are about those of an
icosahedron. -/
structure Gaps (h s : ℝ) : Prop where
  cos_row : 3 / 10 ≤ Real.cos s
  sin_row : 0 < Real.sin s
  cos_before : 4 / 5 ≤ Real.cos h
  sin_before : 0 < Real.sin h
  cos_after : 4 / 5 ≤ Real.cos (s - h)
  sin_after : 0 < Real.sin (s - h)

theorem le_sqrt_five : 223 / 100 ≤ √5 := by
  rw [Real.le_sqrt' (by norm_num)]
  norm_num

/-- An angle near a fifth of half a turn. -/
theorem near_fifth {x : ℝ} (h : |x - Real.pi / 5| ≤ 1 / 500) :
    4 / 5 ≤ Real.cos x ∧ 0 < Real.sin x := by
  have hcos := (abs_le.mp ((Real.abs_cos_sub_cos_le x (Real.pi / 5)).trans h)).1
  have hfive := le_sqrt_five
  have hbounds := abs_le.mp h
  rw [Real.cos_pi_div_five] at hcos
  refine ⟨by linarith, Real.sin_pos_of_pos_of_lt_pi ?_ ?_⟩ <;> linarith [Real.pi_gt_three]

/-- An angle near a fifth of a turn. -/
theorem near_two_fifths {x : ℝ} (h : |x - 2 * (Real.pi / 5)| ≤ 1 / 500) :
    3 / 10 ≤ Real.cos x ∧ 0 < Real.sin x := by
  have hcos := (abs_le.mp ((Real.abs_cos_sub_cos_le x (2 * (Real.pi / 5))).trans h)).1
  have hfive := le_sqrt_five
  have hsq : √5 ^ 2 = 5 := Real.sq_sqrt (by norm_num)
  have hbounds := abs_le.mp h
  rw [Real.cos_two_mul, Real.cos_pi_div_five] at hcos
  refine ⟨by nlinarith, Real.sin_pos_of_pos_of_lt_pi ?_ ?_⟩ <;> linarith [Real.pi_gt_three]

theorem NearPi.gaps (hPI : NearPi PI) (i : Nat) : Gaps (hAngle PI / 2) (rowStep PI i) := by
  have hle := hPI.le
  have hge := hPI.ge
  have hrow : |rowStep PI i - 2 * (Real.pi / 5)| ≤ 1 / 500 := by
    rw [rowStep, hAngle_eq, abs_le]
    split <;> push_cast <;> constructor <;> linarith
  have hbefore : |hAngle PI / 2 - Real.pi / 5| ≤ 1 / 500 := by
    rw [hAngle_eq, abs_le]
    constructor <;> linarith
  have hafter : |rowStep PI i - hAngle PI / 2 - Real.pi / 5| ≤ 1 / 500 := by
    rw [rowStep, hAngle_eq, abs_le]
    split <;> push_cast <;> constructor <;> linarith
  exact ⟨(near_two_fifths hrow).1, (near_two_fifths hrow).2, (near_fifth hbefore).1,
    (near_fifth hbefore).2, (near_fifth hafter).1, (near_fifth hafter).2⟩

/-! ### Its triangles -/

theorem dot_polar (r z w θ φ : ℝ) :
    dot (polar r z θ) (polar r w φ) = (r * Real.cos vAngle) ^ 2 * Real.cos (φ - θ) + z * w := by
  rw [Real.cos_sub]
  simp only [dot, polar]
  ring

theorem triple_polar (r x y z θ φ ψ : ℝ) : triple (polar r x θ) (polar r y φ) (polar r z ψ) =
    (r * Real.cos vAngle) ^ 2 *
      (x * Real.sin (ψ - φ) + y * Real.sin (θ - ψ) + z * Real.sin (φ - θ)) := by
  rw [Real.sin_sub, Real.sin_sub, Real.sin_sub]
  simp only [triple, dot, polar, Vec3.cross]
  ring

theorem dot_pole (r x z θ : ℝ) : dot ⟨0, 0, x⟩ (polar r z θ) = x * z := by
  simp only [dot, polar]
  ring

theorem triple_pole (r x y z θ φ : ℝ) : triple ⟨0, 0, x⟩ (polar r y θ) (polar r z φ) =
    (r * Real.cos vAngle) ^ 2 * (x * Real.sin (φ - θ)) := by
  rw [Real.sin_sub]
  simp only [triple, dot, polar, Vec3.cross]
  ring

theorem cos_vAngle_sq : Real.cos vAngle ^ 2 = 4 / 5 := by
  rw [vAngle, Real.cos_sq_arctan]
  norm_num

theorem sin_vAngle_sq : Real.sin vAngle ^ 2 = 1 / 5 := by
  rw [Real.sin_sq, cos_vAngle_sq]
  norm_num

theorem sin_vAngle_pos : 0 < Real.sin vAngle := by
  rw [vAngle, Real.sin_arctan]
  positivity

theorem le_sin_vAngle : 11 / 25 ≤ Real.sin vAngle := by
  rw [← pow_le_pow_iff_left₀ (by norm_num) sin_vAngle_pos.le two_ne_zero, sin_vAngle_sq]
  norm_num

theorem cos_vAngle_pos : 0 < Real.cos vAngle := Real.cos_arctan_pos _

/-- A triangle that is about one of an icosahedron. -/
structure AlmostRegular (r : ℝ) (a b c : Vec3 ℝ) : Prop where
  onFirst : dot a a = r ^ 2
  onSecond : dot b b = r ^ 2
  onThird : dot c c = r ^ 2
  first : r ^ 2 * (11 / 25) ≤ dot a b
  second : r ^ 2 * (11 / 25) ≤ dot b c
  third : r ^ 2 * (11 / 25) ≤ dot a c
  out : 0 < r → 0 < triple a b c

section
variable {h s : ℝ} (gaps : Gaps h s) (r z θ : ℝ)

theorem dot_polar_self (hz : z = r * Real.sin vAngle ∨ z = -(r * Real.sin vAngle)) :
    dot (polar r z θ) (polar r z θ) = r ^ 2 := by
  have hz : z * z = r ^ 2 * Real.sin vAngle ^ 2 := by
    obtain rfl | rfl := hz <;> ring
  rw [dot_polar, sub_self, Real.cos_zero, hz, Real.sin_sq]
  ring

theorem le_dot_pole : r ^ 2 * (11 / 25) ≤ r * (r * Real.sin vAngle) := by
  calc r ^ 2 * (11 / 25) ≤ r ^ 2 * Real.sin vAngle := by
        gcongr
        exact le_sin_vAngle
    _ = r * (r * Real.sin vAngle) := by ring

include gaps

theorem le_dot_row (hz : z = r * Real.sin vAngle ∨ z = -(r * Real.sin vAngle)) :
    r ^ 2 * (11 / 25) ≤ dot (polar r z θ) (polar r z (θ + s)) := by
  have hz : z * z = r ^ 2 * Real.sin vAngle ^ 2 := by
    obtain rfl | rfl := hz <;> ring
  have hcos := mul_le_mul_of_nonneg_left gaps.cos_row (sq_nonneg r)
  rw [dot_polar, add_sub_cancel_left, hz, mul_pow, cos_vAngle_sq, sin_vAngle_sq]
  linarith

omit gaps in
theorem le_dot_rows {φ : ℝ} (hφ : 4 / 5 ≤ Real.cos (φ - θ)) : r ^ 2 * (11 / 25) ≤
    dot (polar r (r * Real.sin vAngle) θ) (polar r (-(r * Real.sin vAngle)) φ) := by
  have hz : r * Real.sin vAngle * -(r * Real.sin vAngle) = -(r ^ 2 * (1 / 5)) := by
    rw [← sin_vAngle_sq]
    ring
  have hcos := mul_le_mul_of_nonneg_left hφ (sq_nonneg r)
  rw [dot_polar, hz, mul_pow, cos_vAngle_sq]
  linarith

theorem regular_top : AlmostRegular r ⟨0, 0, r⟩ (polar r (r * Real.sin vAngle) θ)
    (polar r (r * Real.sin vAngle) (θ + s)) where
  onFirst := by simp [dot, sq]
  onSecond := dot_polar_self _ _ _ (.inl rfl)
  onThird := dot_polar_self _ _ _ (.inl rfl)
  first := by
    rw [dot_pole]
    exact le_dot_pole r
  second := le_dot_row gaps _ _ _ (.inl rfl)
  third := by
    rw [dot_pole]
    exact le_dot_pole r
  out hr := by
    have := cos_vAngle_pos
    have := gaps.sin_row
    rw [triple_pole, add_sub_cancel_left]
    positivity

theorem regular_upper : AlmostRegular r (polar r (r * Real.sin vAngle) θ)
    (polar r (-(r * Real.sin vAngle)) (θ + h)) (polar r (r * Real.sin vAngle) (θ + s)) where
  onFirst := dot_polar_self _ _ _ (.inl rfl)
  onSecond := dot_polar_self _ _ _ (.inr rfl)
  onThird := dot_polar_self _ _ _ (.inl rfl)
  first := le_dot_rows _ _ (by rw [add_sub_cancel_left]; exact gaps.cos_before)
  second := by
    rw [dot_comm]
    refine le_dot_rows _ _ ?_
    rw [add_sub_add_left_eq_sub, ← Real.cos_neg, neg_sub]
    exact gaps.cos_after
  third := le_dot_row gaps _ _ _ (.inl rfl)
  out hr := by
    have := cos_vAngle_pos
    have := sin_vAngle_pos
    have := gaps.sin_row
    have := gaps.sin_before
    have := gaps.sin_after
    rw [triple_polar, add_sub_add_left_eq_sub, sub_add_cancel_left, add_sub_cancel_left,
      Real.sin_neg, neg_mul_neg]
    positivity

theorem regular_lower : AlmostRegular r (polar r (r * Real.sin vAngle) (θ + s))
    (polar r (-(r * Real.sin vAngle)) (θ + h)) (polar r (-(r * Real.sin vAngle)) (θ + h + s)) where
  onFirst := dot_polar_self _ _ _ (.inl rfl)
  onSecond := dot_polar_self _ _ _ (.inr rfl)
  onThird := dot_polar_self _ _ _ (.inr rfl)
  first := by
    refine le_dot_rows _ _ ?_
    rw [add_sub_add_left_eq_sub, ← Real.cos_neg, neg_sub]
    exact gaps.cos_after
  second := le_dot_row gaps _ _ _ (.inr rfl)
  third := by
    refine le_dot_rows _ _ ?_
    rw [show θ + h + s - (θ + s) = h by ring]
    exact gaps.cos_before
  out hr := by
    have := cos_vAngle_pos
    have := sin_vAngle_pos
    have := gaps.sin_row
    have := gaps.sin_before
    have := gaps.sin_after
    rw [triple_polar, add_sub_cancel_left, show θ + s - (θ + h + s) = -h by ring,
      show θ + h - (θ + s) = -(s - h) by ring, Real.sin_neg, Real.sin_neg, neg_mul_neg, neg_mul_neg]
    positivity

theorem regular_bottom : AlmostRegular r (polar r (-(r * Real.sin vAngle)) θ) ⟨0, 0, -r⟩
    (polar r (-(r * Real.sin vAngle)) (θ + s)) where
  onFirst := dot_polar_self _ _ _ (.inr rfl)
  onSecond := by simp [dot, sq]
  onThird := dot_polar_self _ _ _ (.inr rfl)
  first := by
    rw [dot_comm, dot_pole, neg_mul_neg]
    exact le_dot_pole r
  second := by
    rw [dot_pole, neg_mul_neg]
    exact le_dot_pole r
  third := le_dot_row gaps _ _ _ (.inr rfl)
  out hr := by
    have := cos_vAngle_pos
    have := gaps.sin_row
    rw [← triple_rotate, triple_pole, sub_add_cancel_left, Real.sin_neg, neg_mul_neg]
    positivity

end

/-- The four triangles of a column of the unfolded icosahedron. -/
def column (a : ℤ) : List LatticeTriangle :=
  [((a + 1, 0), (a, 1), (a + 1, 1)), ((a, 1), (a, 2), (a + 1, 1)),
    ((a + 1, 1), (a, 2), (a + 1, 2)), ((a, 2), (a, 3), (a + 1, 2))]

theorem flatNet_eq : flatNet = (List.range 5).flatMap fun i : Nat => column i := by decide

theorem regular_flatNet (hPI : NearPi PI) (r : ℝ) :
    ∀ t ∈ flatNet, AlmostRegular r (positionAt (realCMath PI) r 0 t.1)
      (positionAt (realCMath PI) r 0 t.2.1) (positionAt (realCMath PI) r 0 t.2.2) := by
  intro t ht
  rw [flatNet_eq] at ht
  obtain ⟨i, hi, ht⟩ := List.mem_flatMap.mp ht
  have hi := List.mem_range.mp hi
  have hself : ((i : ℤ) % 5).toNat = i := by omega
  have hbetween (θ : ℝ) :
      θ + hAngle PI / 2 + i * hAngle PI = θ + i * hAngle PI + hAngle PI / 2 := by ring
  simp only [column, List.mem_cons, List.not_mem_nil, or_false] at ht
  obtain rfl | rfl | rfl | rfl := ht <;>
    simp only [positionAt_top, positionAt_upper, positionAt_lower, positionAt_bottom, hself,
      polar_next _ _ _ _ hi, hbetween]
  · exact regular_top (hPI.gaps i) _ _
  · exact regular_upper (hPI.gaps i) _ _
  · exact regular_lower (hPI.gaps i) _ _
  · exact regular_bottom (hPI.gaps i) _ _

theorem AlmostRegular.outward (hr : 0 < r) (h : AlmostRegular r a b c) : Outward r a b c := by
  have hpos : 0 < r ^ 2 * (11 / 25) := by positivity
  exact ⟨h.onFirst, h.onSecond, h.onThird, hpos.trans_le h.first, hpos.trans_le h.second,
    hpos.trans_le h.third, h.out hr⟩

/-! ### Every subdivision -/

theorem outward_positions (hPI : NearPi PI) (hr : 0 < r) (n : Nat) :
    ∀ t ∈ (latticeNet flatNet n).map (mapTriangle (positionAt (realCMath PI) r n)),
      Outward r t.1 t.2.1 t.2.2 := by
  refine latticeNet_invariant (P := fun _ U => ∀ t ∈ U, Outward r t.1 t.2.1 t.2.2) halfVertex_comm
    unitTriangle_flatNet ?_ ?_ n
  · intro t ht
    obtain ⟨u, hu, rfl⟩ := List.mem_map.mp ht
    exact (regular_flatNet hPI r u hu).outward hr
  · intro _ U hU t ht
    obtain ⟨u, hu, ht⟩ := List.mem_flatMap.mp ht
    rw [halfVertex_real] at ht
    exact (hU u hu).subdivide hr t ht

theorem exists_outward (hPI : NearPi PI) (hr : 0 < r) (n : Nat) (smooth : Bool) :
    ∃ arrays T, build (realCMath PI) r n smooth = .ok arrays ∧ arrays.Aligned ∧
      MeshOf arrays.vertices arrays.indices T ∧ (∀ v ∈ arrays.vertices, dot v v = r ^ 2) ∧
      ∀ t ∈ T, Outward r t.1 t.2.1 t.2.2 := by
  obtain ⟨arrays, T, harrays, haligned, hmesh, hvertices, hsame⟩ :=
    exists_build (realCMath PI) r n smooth
  have hT : ∀ t ∈ T, Outward r t.1 t.2.1 t.2.2 :=
    hsame.forall (P := fun t => Outward r t.1 t.2.1 t.2.2) (fun _ _ _ h => h.rotate)
      (outward_positions hPI hr n)
  refine ⟨arrays, T, harrays, haligned, hmesh, ?_, hT⟩
  intro v hv
  obtain ⟨t, ht, rfl | rfl | rfl⟩ := isVertex_iff_corner.mp (hvertices v hv)
  · exact (hT t ht).onFirst
  · exact (hT t ht).onSecond
  · exact (hT t ht).onThird

/-- All vertices of an icosphere are on the sphere, and all its triangles are counterclockwise when
they are seen from outside, whatever the number of subdivisions. -/
theorem build_outward (hPI : NearPi PI) (hr : 0 < r) (n : Nat) (smooth : Bool) :
    ∃ arrays T, build (realCMath PI) r n smooth = .ok arrays ∧
      MeshOf arrays.vertices arrays.indices T ∧ (∀ v ∈ arrays.vertices, dot v v = r ^ 2) ∧
      ∀ t ∈ T, 0 < triple t.1 t.2.1 t.2.2 := by
  obtain ⟨arrays, T, harrays, -, hmesh, hvertices, hT⟩ := exists_outward hPI hr n smooth
  exact ⟨arrays, T, harrays, hmesh, hvertices, fun t ht => (hT t ht).out⟩

/-- The constant of the source. -/
theorem nearPi_source : NearPi 3.1415926 where
  le := by linarith [Real.pi_gt_d6]
  ge := by linarith [Real.pi_lt_d6]

theorem build_outward_one : ∃ arrays T, build (realCMath 3.1415926) 1 3 true = .ok arrays ∧
    MeshOf arrays.vertices arrays.indices T ∧ (∀ v ∈ arrays.vertices, dot v v = 1 ^ 2) ∧
    ∀ t ∈ T, 0 < triple t.1 t.2.1 t.2.2 :=
  build_outward nearPi_source one_pos 3 true

end MUtils.Icosphere
