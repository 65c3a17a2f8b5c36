import MUtils.Verify.IcosphereShape

/-!
# The normals of flat icospheres

Every subdivision makes the sides of the triangles of an icosphere about half as long. After ten of
them twice the surface of a triangle is less than the `EPSILON` of `computeFaceNormal`, which then
leaves the normal at zero.
-/

namespace MUtils.Icosphere

/-! ### Distances on the sphere -/

section
variable {K : Type} [Field K]

def distSq (a b : Vec3 K) : K := dot (a - b) (a - b)

theorem distSq_eq (a b : Vec3 K) : distSq a b = dot a a + dot b b - 2 * dot a b := by
  obtain ⟨a₁, a₂, a₃⟩ := a
  obtain ⟨b₁, b₂, b₃⟩ := b
  change (a₁ - b₁) * (a₁ - b₁) + (a₂ - b₂) * (a₂ - b₂) + (a₃ - b₃) * (a₃ - b₃) = _
  simp only [dot]
  ring

theorem distSq_comm (a b : Vec3 K) : distSq a b = distSq b a := by
  rw [distSq_eq, distSq_eq, dot_comm b a]
  ring

end

variable {PI r D : ℝ} {a b c : Vec3 ℝ}

theorem distSq_sphere (ha : dot a a = r ^ 2) (hb : dot b b = r ^ 2) :
    distSq a b = 2 * r ^ 2 - 2 * dot a b := by
  rw [distSq_eq, ha, hb]
  ring

theorem dot_sum_self (ha : dot a a = r ^ 2) (hb : dot b b = r ^ 2) :
    dot (a + b) (a + b) = 4 * r ^ 2 - distSq a b := by
  rw [distSq_sphere ha hb, dot_add_right, dot_comm _ a, dot_comm _ b, dot_add_right, dot_add_right,
    ha, hb, dot_comm b a]
  ring

theorem distSq_nonneg (a b : Vec3 ℝ) : 0 ≤ distSq a b :=
  add_nonneg (add_nonneg (mul_self_nonneg _) (mul_self_nonneg _)) (mul_self_nonneg _)

/-- A point is the middle between itself and itself. -/
theorem halfOf_self (hr : 0 < r) (ha : dot a a = r ^ 2) : halfOf r a a = a := by
  have hself : distSq a a = 0 := by
    rw [distSq_eq]
    ring
  have hsqrt : √(dot (a + a) (a + a)) = 2 * r := by
    rw [dot_sum_self ha ha, hself, show 4 * r ^ 2 - 0 = (2 * r) ^ 2 by ring,
      Real.sqrt_sq (by positivity)]
  have hhalf : halfOf r a a = (a + a).scale (r / √(dot (a + a) (a + a))) := rfl
  have hfactor : r / (2 * r) = 1 / 2 := by
    field_simp
  rw [hhalf, hsqrt, hfactor, Vec3.add_def, Vec3.scale]
  obtain ⟨x, y, z⟩ := a
  simp only [Vec3.mk.injEq]
  refine ⟨?_, ?_, ?_⟩ <;> ring

/-- The factor that puts the sum of two points on the sphere. -/
theorem sq_mul_of_scale {s : ℝ} (ha : dot a a = r ^ 2) (hb : dot b b = r ^ 2)
    (hon : dot ((a + b).scale s) ((a + b).scale s) = r ^ 2) :
    s ^ 2 * (4 * r ^ 2 - distSq a b) = r ^ 2 := by
  rw [← dot_sum_self ha hb, ← hon, dot_scale_right, dot_comm (Vec3.scale _ _), dot_scale_right]
  ring

/-- Putting two points on the sphere does not move them apart, when they are not far inside. -/
theorem distSq_half (hr : 0 < r) (ha : dot a a = r ^ 2) (hb : dot b b = r ^ 2)
    (hc : dot c c = r ^ 2) (hD : D < 2 * r ^ 2) (hab : distSq a b ≤ D) (hbc : distSq b c ≤ D)
    (hac : distSq a c ≤ D) :
    distSq (halfOf r a b) (halfOf r b c) ≤
      r ^ 2 * D / (4 * r ^ 2 - D) := by
  have hr2 : 0 < r ^ 2 := by positivity
  have hL : 0 < 4 * r ^ 2 - D := by linarith
  have hnear {a b : Vec3 ℝ} (ha : dot a a = r ^ 2) (hb : dot b b = r ^ 2) (hab : distSq a b ≤ D) :
      0 < dot a b := by
    have := distSq_sphere ha hb
    linarith
  obtain ⟨s, hs, hhalf, hon⟩ := exists_half hr ha hb (hnear ha hb hab)
  obtain ⟨t, ht, hhalf', hon'⟩ := exists_half hr hb hc (hnear hb hc hbc)
  -- The lengths before, and the factors by which they become the radius.
  have hA : s ^ 2 * (4 * r ^ 2 - distSq a b) = r ^ 2 := sq_mul_of_scale ha hb hon
  have hB : t ^ 2 * (4 * r ^ 2 - distSq b c) = r ^ 2 := sq_mul_of_scale hb hc hon'
  have hdist : distSq ((a + b).scale s) ((b + c).scale t) =
      2 * r ^ 2 - s * t * (4 * r ^ 2 - distSq a b + (4 * r ^ 2 - distSq b c)) +
        s * t * distSq a c := by
    rw [distSq_sphere hon hon', distSq_sphere ha hb, distSq_sphere hb hc, distSq_sphere ha hc,
      dot_scale_right, dot_comm (Vec3.scale _ _), dot_scale_right, dot_add_right, dot_comm _ a,
      dot_comm _ b, dot_add_right, dot_add_right, hb]
    ring
  have hmean : 2 * r ^ 2 ≤ s * t * (4 * r ^ 2 - distSq a b + (4 * r ^ 2 - distSq b c)) := by
    have hsum : s * t * (s * t * (4 * r ^ 2 - distSq a b + (4 * r ^ 2 - distSq b c))) =
        r ^ 2 * (t ^ 2 + s ^ 2) := by
      linear_combination t ^ 2 * hA + s ^ 2 * hB
    refine le_of_mul_le_mul_left ?_ (mul_pos hs ht)
    rw [hsum]
    nlinarith [mul_nonneg hr2.le (sq_nonneg (s - t))]
  have hfactor : s * t ≤ r ^ 2 / (4 * r ^ 2 - D) := by
    rw [le_div_iff₀ hL]
    have hs2 : s ^ 2 * (4 * r ^ 2 - D) ≤ r ^ 2 := le_of_le_of_eq (by gcongr) hA
    have ht2 : t ^ 2 * (4 * r ^ 2 - D) ≤ r ^ 2 := le_of_le_of_eq (by gcongr) hB
    nlinarith [mul_nonneg hL.le (sq_nonneg (s - t))]
  have hdist_nonneg := distSq_nonneg a c
  rw [hhalf, hhalf', hdist]
  calc 2 * r ^ 2 - s * t * (4 * r ^ 2 - distSq a b + (4 * r ^ 2 - distSq b c)) +
        s * t * distSq a c ≤ s * t * distSq a c := by linarith
    _ ≤ r ^ 2 / (4 * r ^ 2 - D) * D := by gcongr
    _ = r ^ 2 * D / (4 * r ^ 2 - D) := by ring

/-- The corners are on the sphere, and no two of them farther apart than the square root of `D`. -/
structure Within (r D : ℝ) (a b c : Vec3 ℝ) : Prop where
  onFirst : dot a a = r ^ 2
  onSecond : dot b b = r ^ 2
  onThird : dot c c = r ^ 2
  first : distSq a b ≤ D
  second : distSq b c ≤ D
  third : distSq a c ≤ D

namespace Within

theorem rotate (h : Within r D a b c) : Within r D b c a where
  onFirst := h.onSecond
  onSecond := h.onThird
  onThird := h.onFirst
  first := h.second
  second := by
    rw [distSq_comm]
    exact h.third
  third := by
    rw [distSq_comm]
    exact h.first

theorem dot_half (hr : 0 < r) (h : Within r D a b c) (hD : D < 2 * r ^ 2) :
    dot (halfOf r a b) (halfOf r a b) = r ^ 2 := by
  have hdist := distSq_sphere h.onFirst h.onSecond
  have hfirst := h.first
  obtain ⟨s, -, hhalf, hon⟩ := exists_half hr h.onFirst h.onSecond (by linarith)
  rw [hhalf, hon]

/-- The middles of the two sides at a corner. -/
theorem middles (hr : 0 < r) (h : Within r D a b c) (hD : D < 2 * r ^ 2) :
    distSq (halfOf r a b) (halfOf r a c) ≤
      r ^ 2 * D / (4 * r ^ 2 - D) := by
  rw [halfOf_comm a b]
  refine distSq_half hr h.onSecond h.onFirst h.onThird hD ?_ h.third h.second
  rw [distSq_comm]
  exact h.first

/-- A corner and the middle of a side. -/
theorem side (hr : 0 < r) (h : Within r D a b c) (hD : D < 2 * r ^ 2) :
    distSq a (halfOf r a b) ≤ r ^ 2 * D / (4 * r ^ 2 - D) := by
  have hself : distSq a a ≤ D := by
    have hzero : distSq a a = 0 := by
      rw [distSq_eq]
      ring
    rw [hzero]
    exact (distSq_nonneg a b).trans h.first
  have hhalf := distSq_half hr h.onFirst h.onFirst h.onSecond hD hself h.first h.first
  rwa [halfOf_self hr h.onFirst] at hhalf

/-- The same triangle with the other orientation. -/
theorem swap (h : Within r D a b c) : Within r D a c b where
  onFirst := h.onFirst
  onSecond := h.onThird
  onThird := h.onSecond
  first := h.third
  second := by
    rw [distSq_comm]
    exact h.second
  third := h.first

theorem corner (hr : 0 < r) (h : Within r D a b c) (hD : D < 2 * r ^ 2) :
    Within r (r ^ 2 * D / (4 * r ^ 2 - D)) a (halfOf r a b)
      (halfOf r a c) where
  onFirst := h.onFirst
  onSecond := h.dot_half hr hD
  onThird := h.swap.dot_half hr hD
  first := h.side hr hD
  second := h.middles hr hD
  third := h.swap.side hr hD

theorem middle (hr : 0 < r) (h : Within r D a b c) (hD : D < 2 * r ^ 2) :
    Within r (r ^ 2 * D / (4 * r ^ 2 - D)) (halfOf r a b)
      (halfOf r b c) (halfOf r a c) where
  onFirst := h.dot_half hr hD
  onSecond := h.rotate.dot_half hr hD
  onThird := h.swap.dot_half hr hD
  first := by
    rw [halfOf_comm a b]
    exact h.rotate.swap.middles hr hD
  second := by
    rw [halfOf_comm b c, halfOf_comm a c]
    exact h.rotate.rotate.swap.middles hr hD
  third := h.middles hr hD

theorem subdivide (hr : 0 < r) (h : Within r D a b c) (hD : D < 2 * r ^ 2) :
    ∀ t ∈ MUtils.subdivide id (halfOf r) (a, b, c),
      Within r (r ^ 2 * D / (4 * r ^ 2 - D)) t.1 t.2.1 t.2.2 := by
  intro t ht
  simp only [MUtils.subdivide, id, List.mem_cons, List.not_mem_nil, or_false] at ht
  obtain rfl | rfl | rfl | rfl := ht
  · exact h.corner hr hD
  · have hb := (h.rotate.corner hr hD).rotate.rotate
    rwa [halfOf_comm b a] at hb
  · exact h.middle hr hD
  · have hc := (h.rotate.rotate.corner hr hD).rotate
    rwa [halfOf_comm c a, halfOf_comm c b] at hc

end Within

/-! ### The triangles of an icosphere with the diameter one -/

/-- The square of a length that no side is longer than, after `n` subdivisions. -/
noncomputable def spread (n : Nat) : ℝ :=
  1 / ((4 : Nat) ^ n * ((47 : Nat) / (21 : Nat)) + (4 : Nat) / (3 : Nat))

theorem spread_eq (n : Nat) : spread n = 1 / (4 ^ n * (47 / 21) + 4 / 3) := by
  simp only [spread, Nat.cast_ofNat]

theorem spread_succ (n : Nat) :
    (1 / 2) ^ 2 * spread n / (4 * (1 / 2) ^ 2 - spread n) = spread (n + 1) := by
  have hpos : (0 : ℝ) < 4 ^ n := by positivity
  obtain ⟨u, hu⟩ : ∃ u : ℝ, u = 4 ^ n * (47 / 21) + 4 / 3 := ⟨_, rfl⟩
  have hnext : (4 : ℝ) ^ (n + 1) * (47 / 21) + 4 / 3 = 4 * (u - 1) := by
    rw [hu]
    ring
  have hu₀ : u ≠ 0 := by linarith
  have hu₁ : u - 1 ≠ 0 := by linarith
  have hrest : 4 * (1 / 2) ^ 2 - 1 / u = (u - 1) / u := by
    field_simp
    ring
  rw [spread_eq, spread_eq, hnext, ← hu, hrest]
  field_simp
  norm_num

theorem spread_lt (n : Nat) : spread n < 2 * (1 / 2) ^ 2 := by
  have hpos : (1 : ℝ) ≤ 4 ^ n := one_le_pow₀ (by norm_num)
  rw [spread_eq, div_lt_iff₀ (by positivity)]
  linarith

theorem spread_le {n : Nat} (hn : 10 ≤ n) : spread n ≤ 1 / 1000000 := by
  have hpow : (4 : ℝ) ^ 10 ≤ 4 ^ n := pow_le_pow_right₀ (by norm_num) hn
  rw [spread_eq]
  refine one_div_le_one_div_of_le (by norm_num) ?_
  linarith

theorem AlmostRegular.within (h : AlmostRegular (1 / 2) a b c) :
    Within (1 / 2) (spread 0) a b c := by
  have hspread : spread 0 = 7 / 25 := by
    rw [spread_eq]
    norm_num
  have hdist {a b : Vec3 ℝ} (ha : dot a a = (1 / 2) ^ 2) (hb : dot b b = (1 / 2) ^ 2)
      (hab : (1 / 2) ^ 2 * (11 / 25) ≤ dot a b) : distSq a b ≤ spread 0 := by
    rw [distSq_sphere ha hb, hspread]
    linarith
  exact ⟨h.onFirst, h.onSecond, h.onThird, hdist h.onFirst h.onSecond h.first,
    hdist h.onSecond h.onThird h.second, hdist h.onFirst h.onThird h.third⟩

theorem within_positions (hPI : NearPi PI) (n : Nat) :
    ∀ t ∈ (latticeNet flatNet n).map (mapTriangle (positionAt (realCMath PI) (1 / 2) n)),
      Within (1 / 2) (spread n) t.1 t.2.1 t.2.2 := by
  refine latticeNet_invariant
    (P := fun n U => ∀ t ∈ U, Within (1 / 2) (spread n) t.1 t.2.1 t.2.2) halfVertex_comm
    unitTriangle_flatNet ?_ ?_ n
  · intro t ht
    obtain ⟨u, hu, rfl⟩ := List.mem_map.mp ht
    exact (regular_flatNet hPI (1 / 2) u hu).within
  · intro k U hU t ht
    obtain ⟨u, hu, ht⟩ := List.mem_flatMap.mp ht
    rw [halfVertex_real] at ht
    have hsub := (hU u hu).subdivide (by norm_num) (spread_lt k) t ht
    rwa [spread_succ] at hsub

/-! ### Normals -/

/-- A triangle with short sides has no normal. -/
theorem Within.computeFaceNormal_eq (h : Within r D a b c) (hD : D ≤ 1 / 1000000) :
    computeFaceNormal (realCMath PI) a b c = 0 := by
  have hlagrange : dot ((b - a).cross (c - a)) ((b - a).cross (c - a)) ≤
      distSq b a * distSq c a := by
    have hsquare : dot ((b - a).cross (c - a)) ((b - a).cross (c - a)) =
        distSq b a * distSq c a - dot (b - a) (c - a) ^ 2 := by
      simp only [distSq, dot, Vec3.cross]
      ring
    rw [hsquare]
    linarith [sq_nonneg (dot (b - a) (c - a))]
  have hfirst := h.first
  have hthird := h.third
  rw [distSq_comm] at hfirst hthird
  have hnonneg : 0 ≤ D := (distSq_nonneg b a).trans hfirst
  have hlength : √(dot ((b - a).cross (c - a)) ((b - a).cross (c - a))) ≤ D := by
    rw [Real.sqrt_le_left hnonneg, sq]
    exact hlagrange.trans (mul_le_mul hfirst hthird (distSq_nonneg c a) hnonneg)
  exact if_neg (not_lt.mpr (hlength.trans hD))

/-- With ten subdivisions or more, a flat icosphere of the size that shapes are built with has no
normals: all of them are zero. -/
theorem build_flat_normals_zero (hPI : NearPi PI) {n : Nat} (hn : 10 ≤ n) :
    ∃ arrays, build (realCMath PI) (1 / 2) n false = .ok arrays ∧ arrays.Aligned ∧
      arrays.vertices.length = 60 * 4 ^ n ∧ ∀ normal ∈ arrays.normals, normal = 0 := by
  obtain ⟨arrays, harrays, hshows⟩ := exists_buildVerticesFlat (realCMath PI) (1 / 2) n
  refine ⟨arrays, harrays, hshows.aligned, ?_, ?_⟩
  · rw [hshows.length, List.length_map, length_latticeNet, ← mul_assoc]
    rfl
  · intro normal hnormal
    obtain ⟨t, ht, rfl⟩ := hshows.normals normal hnormal
    obtain ⟨u, hu, rfl⟩ := List.mem_map.mp ht
    have hwithin := within_positions hPI n _ (List.mem_map_of_mem hu)
    rw [← fst_attribsAt] at hwithin
    exact hwithin.computeFaceNormal_eq (spread_le hn)

end MUtils.Icosphere
