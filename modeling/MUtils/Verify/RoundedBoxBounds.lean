import MUtils.Verify.RoundedBox

/-!
# How far a rounded box reaches

`shape_create_rounded_box` rounds the box outwards: half of the size that it is given is where the
corners of the inner box lie. The bounds of the shape are those of the inner box, moved by the
offset. The mesh is not moved, and sticks out of the inner box by the radius on every side.
-/

namespace MUtils

inductive Axis where
  | x
  | y
  | z
  deriving DecidableEq, Repr

def Vec3.on (v : Vec3 K) : Axis → K
  | .x => v.x
  | .y => v.y
  | .z => v.z

namespace RoundCornerBox

def Point.on (p : Point) : Axis → Nat
  | .x => p.1
  | .y => p.2.1
  | .z => p.2.2

variable {K : Type} [Field K]

/-- The functions of `glm` without rounding. -/
structure Glm.Exact [LinearOrder K] (glm : Glm K) : Prop where
  length_pos : ∀ v, v ≠ 0 → 0 < glm.length v
  normalize_scale : ∀ v, v ≠ 0 → ∃ c, 0 < c ∧ v = (glm.normalize v).scale c
  normalize_unit : ∀ v, v ≠ 0 → (glm.normalize v).x ^ 2 + (glm.normalize v).y ^ 2 +
    (glm.normalize v).z ^ 2 = 1

variable {glm : Glm K} {N : Nat} {radius : K} {b v : Vec3 K} {a : Axis} {p : Point}

theorem direction_on : (direction N radius p).on a = offset N radius (Point.on p a) := by
  cases a <;> rfl

theorem vertex_on {n : Vec3 K} :
    (corner N b p + n.scale radius).on a = side N (b.on a) (Point.on p a) + n.on a * radius := by
  cases a <;> rfl

/-- The middle of a side of the grid. -/
def middle (N : Nat) (a : Axis) (t : Nat) : Point :=
  (if a = .x then t else N, if a = .y then t else N, if a = .z then t else N)

theorem middle_on (a a' : Axis) (t : Nat) :
    Point.on (middle N a t) a' = if a = a' then t else N := by
  cases a <;> cases a' <;> rfl

theorem direction_middle (hN : (N : K) ≠ 0) {t : Nat} {a' : Axis} (ha' : a' ≠ a) :
    (direction N radius (middle N a t)).on a' = 0 := by
  rw [direction_on, middle_on, if_neg ha'.symm, offset_low N.lt_succ_self, div_mul_cancel₀ _ hN,
    sub_self]

theorem middle_mem {t : Nat} (ht : t = 0 ∨ t = 2 * N + 1) :
    middle N a t ∈ cubePoints (2 * N + 1) := by
  cases a <;> rw [middle, mem_cubePoints] <;> simp only [if_true, reduceCtorEq, if_false] <;> omega

variable [LinearOrder K] [IsStrictOrderedRing K]

theorem Glm.Exact.sq_le_one (h : glm.Exact) (hv : v ≠ 0) : (glm.normalize v).on a ^ 2 ≤ 1 := by
  have hunit := h.normalize_unit v hv
  have hx := sq_nonneg (glm.normalize v).x
  have hy := sq_nonneg (glm.normalize v).y
  have hz := sq_nonneg (glm.normalize v).z
  cases a <;> simp only [Vec3.on] <;> linarith

/-- Along an axis normalizing keeps the sign. -/
theorem Glm.Exact.normalize_axis (h : glm.Exact) (hv : v ≠ 0)
    (hothers : ∀ a', a' ≠ a → v.on a' = 0) :
    (0 < v.on a → (glm.normalize v).on a = 1) ∧ (v.on a < 0 → (glm.normalize v).on a = -1) := by
  obtain ⟨c, hc, hscale⟩ := h.normalize_scale v hv
  have hcomponent (a' : Axis) : v.on a' = (glm.normalize v).on a' * c := by
    conv_lhs => rw [hscale]
    cases a' <;> rfl
  have hzero (a' : Axis) (ha' : a' ≠ a) : (glm.normalize v).on a' = 0 := by
    have := hcomponent a'
    rw [hothers a' ha', eq_comm, mul_eq_zero] at this
    exact this.resolve_right hc.ne'
  have hsq : (glm.normalize v).on a ^ 2 = 1 := by
    have hunit := h.normalize_unit v hv
    cases a with
    | x =>
      have hy : (glm.normalize v).y = 0 := hzero .y nofun
      have hz : (glm.normalize v).z = 0 := hzero .z nofun
      simp only [hy, hz, zero_pow two_ne_zero, add_zero] at hunit
      exact hunit
    | y =>
      have hx : (glm.normalize v).x = 0 := hzero .x nofun
      have hz : (glm.normalize v).z = 0 := hzero .z nofun
      simp only [hx, hz, zero_pow two_ne_zero, add_zero, zero_add] at hunit
      exact hunit
    | z =>
      have hx : (glm.normalize v).x = 0 := hzero .x nofun
      have hy : (glm.normalize v).y = 0 := hzero .y nofun
      simp only [hx, hy, zero_pow two_ne_zero, zero_add] at hunit
      exact hunit
  rw [hcomponent a]
  rw [sq] at hsq
  obtain hone | hone := mul_self_eq_one_iff.mp hsq
  · rw [hone]
    exact ⟨fun _ => rfl, fun hneg => by linarith⟩
  · rw [hone]
    exact ⟨fun hpos => by linarith, fun _ => rfl⟩

/-- The vertices of a box that was made without rounding. -/
theorem vertices_within (h : glm.Exact) (hr : 0 < radius) (hN : (N : K) ≠ 0) (hb : 0 ≤ b.on a)
    (hp : p ∈ cubePoints (2 * N + 1)) :
    -(b.on a + radius) ≤ (corner N b p +
      (glm.normalize (direction N radius p)).scale radius).on a ∧
    (corner N b p + (glm.normalize (direction N radius p)).scale radius).on a ≤
      b.on a + radius := by
  have hunit := h.sq_le_one (a := a) (direction_ne_zero hN hr.ne' hp)
  rw [sq_le_one_iff_abs_le_one, abs_le] at hunit
  have hside : -b.on a ≤ side N (b.on a) (Point.on p a) ∧
      side N (b.on a) (Point.on p a) ≤ b.on a := by
    unfold side
    split
    · exact ⟨le_rfl, by linarith⟩
    · exact ⟨by linarith, le_rfl⟩
  rw [vertex_on]
  constructor <;> nlinarith

theorem vertices_reach (h : glm.Exact) (hr : 0 < radius) (hN : (N : K) ≠ 0) :
    (corner N b (middle N a (2 * N + 1)) +
      (glm.normalize (direction N radius (middle N a (2 * N + 1)))).scale radius).on a =
        b.on a + radius ∧
    (corner N b (middle N a 0) +
      (glm.normalize (direction N radius (middle N a 0))).scale radius).on a =
        -(b.on a + radius) := by
  have hout : offset N radius (2 * N + 1) = radius := by
    have h : offset N radius (ks N 1) = radius * sign 1 := offset_ks hN
    rw [← ks_one, h, sign, if_neg Nat.one_ne_zero, mul_one]
  have hin : offset N radius 0 = -radius := by
    rw [offset_low N.succ_pos]
    simp
  have hmax := (h.normalize_axis (direction_ne_zero hN hr.ne' (middle_mem (a := a) (.inr rfl)))
    fun _ => direction_middle hN).1
  have hmin := (h.normalize_axis (direction_ne_zero hN hr.ne' (middle_mem (a := a) (.inl rfl)))
    fun _ => direction_middle hN).2
  rw [direction_on, middle_on, if_pos rfl, hout] at hmax
  rw [direction_on, middle_on, if_pos rfl, hin] at hmin
  constructor
  · rw [vertex_on, middle_on, if_pos rfl, hmax hr, side, if_neg (by omega), one_mul]
  · rw [vertex_on, middle_on, if_pos rfl, hmin (by linarith), side, if_pos N.zero_le]
    ring

omit [LinearOrder K] [IsStrictOrderedRing K] in
/-- Without the offset, the bounds reach to half of the size on both sides. -/
theorem boundsOf_on (sz off : Vec3 K) (a : Axis) :
    (boundsOf sz off).max.on a - off.on a = (sz.scale half).on a ∧
      (boundsOf sz off).min.on a - off.on a = -(sz.scale half).on a := by
  cases a <;> exact ⟨add_sub_cancel_left _ _, sub_sub_cancel_left _ _⟩

theorem scale_half_on_nonneg {sz : Vec3 K} (hsz : 0 ≤ sz.on a) : 0 ≤ (sz.scale half).on a := by
  have hscale : (sz.scale half).on a = sz.on a * half := by cases a <;> rfl
  rw [hscale]
  exact mul_nonneg hsz (by unfold half; positivity)

/-- The bounds of a rounded box, without its offset, are too small by the radius: that far its
vertices reach along every axis, and no further. The offset moves the bounds only. -/
theorem rounded_box_exceeds_bounds (h : glm.Exact) (env : ShapeEnv K) {box : Builder K}
    (sz : Vec3 K) (a : Axis) (color : Vec4 K) (off : Vec3 K) (hN : (2 * (N + 1)) ^ 3 < 2 ^ 31)
    (hN₀ : 0 < N) (hr : 0 < radius) (hsz : 0 ≤ sz.on a)
    (hbox : Create glm N (sz.scale half) radius = .ok box)
    (henv : env.RoundCornerBox N (sz.scale half) radius = box.toRoundCornerBox) :
    ∃ shape, shape_create_rounded_box env sz N radius color off = .ok shape ∧
      (∀ v ∈ shape.vertices, shape.bounds.min.on a - off.on a - radius ≤ v.position.on a ∧
        v.position.on a ≤ shape.bounds.max.on a - off.on a + radius) ∧
      (∃ v ∈ shape.vertices, v.position.on a = shape.bounds.max.on a - off.on a + radius) ∧
      ∃ v ∈ shape.vertices, v.position.on a = shape.bounds.min.on a - off.on a - radius := by
  have hN₁ : (N : K) ≠ 0 := Nat.cast_ne_zero.mpr hN₀.ne'
  obtain ⟨box', sketch, hbox', hdraws, -, hpoints, hdata⟩ :=
    exists_create_placed glm h.length_pos (sz.scale half) radius hr.ne' hN hN₁
  obtain rfl : box = box' := Except.ok.inj (hbox.symm.trans hbox')
  have hmesh : box.meshVertices color = sketch.seen.map fun p =>
      { position := corner N (sz.scale half) p +
          (glm.normalize (direction N radius p)).scale radius
        normal := glm.normalize (direction N radius p), color, texcoord := ⟨0, 0⟩ } := by
    rw [meshVertices, hdraws.vertices, hdraws.normals, List.zipWith_map, List.zipWith_self, hdata,
      List.map_map]
    rfl
  obtain ⟨hmax, hmin⟩ := boundsOf_on sz off a
  have hvertex {t : Nat} (ht : t = 0 ∨ t = 2 * N + 1) : middle N a t ∈ sketch.seen :=
    (hpoints _).mpr (middle_mem ht)
  obtain ⟨hhigh, hlow⟩ := vertices_reach (b := sz.scale half) (a := a) h hr hN₁
  refine ⟨{
    vertices := box.meshVertices color
    indices := box.meshIndices
    size := sz
    offset := off
    bounds := boundsOf sz off }, ?_, ?_, ?_, ?_⟩
  · rw [shape_create_rounded_box, henv]
  · intro v hv
    rw [hmesh] at hv
    obtain ⟨p, hp, rfl⟩ := List.mem_map.mp hv
    rw [hmax, hmin, ← neg_add']
    exact vertices_within h hr hN₁ (scale_half_on_nonneg hsz) ((hpoints p).mp hp)
  · rw [hmesh, hmax]
    exact ⟨_, List.mem_map_of_mem (hvertex (.inr rfl)), hhigh⟩
  · rw [hmesh, hmin, ← neg_add']
    exact ⟨_, List.mem_map_of_mem (hvertex (.inl rfl)), hlow⟩

/-! ### Real numbers -/

noncomputable def realGlm : Glm ℝ where
  length v := √(v.x ^ 2 + v.y ^ 2 + v.z ^ 2)
  normalize v := v.scale (√(v.x ^ 2 + v.y ^ 2 + v.z ^ 2))⁻¹

theorem realGlm_exact : realGlm.Exact := by
  have hpos (v : Vec3 ℝ) (hv : v ≠ 0) : 0 < v.x ^ 2 + v.y ^ 2 + v.z ^ 2 := by
    by_contra hle
    have hx : v.x = 0 := by nlinarith [sq_nonneg v.x, sq_nonneg v.y, sq_nonneg v.z]
    have hy : v.y = 0 := by nlinarith [sq_nonneg v.x, sq_nonneg v.y, sq_nonneg v.z]
    have hz : v.z = 0 := by nlinarith [sq_nonneg v.x, sq_nonneg v.y, sq_nonneg v.z]
    refine hv ?_
    obtain ⟨x, y, z⟩ := v
    dsimp only at hx hy hz
    rw [hx, hy, hz]
    rfl
  refine ⟨fun v hv => Real.sqrt_pos.mpr (hpos v hv), fun v hv => ?_, fun v hv => ?_⟩
  · have hlength := (Real.sqrt_pos.mpr (hpos v hv)).ne'
    refine ⟨_, Real.sqrt_pos.mpr (hpos v hv), ?_⟩
    simp only [realGlm, Vec3.scale, inv_mul_cancel_right₀ hlength]
  · simp only [realGlm, Vec3.scale, mul_pow, ← add_mul, inv_pow, Real.sq_sqrt (hpos v hv).le]
    exact mul_inv_cancel₀ (hpos v hv).ne'

/-- What `Create` gives the builder of the shape; a box without vertices where it fails, and for a
negative `N`. -/
def generated (glm : Glm K) (N : Int) (b : Vec3 K) (radius : K) : RoundCornerBox K :=
  if N < 0 then (start 0 radius).toRoundCornerBox
  else
    match Create glm N.toNat b radius with
    | .ok box => box.toRoundCornerBox
    | .error _ => (start N.toNat radius).toRoundCornerBox

noncomputable def realEnv : ShapeEnv ℝ where
  cosf := Real.cos
  sinf := Real.sin
  normalize := realGlm.normalize
  infinity := 1
  one_le_infinity := le_rfl
  uninitialized := ⟨0, 0, 0, 0⟩
  Icosahedron _ := ⟨[], [], [], [], rfl, rfl, rfl⟩
  Sphere _ _ _ _ := ⟨[], [], [], [], rfl, rfl, rfl⟩
  Icosphere _ _ _ := ⟨[], [], [], [], rfl, rfl, rfl⟩
  RoundCornerBox := generated realGlm

theorem rounded_box_exceeds_bounds_real :
    ∃ shape, shape_create_rounded_box realEnv ⟨2, 2, 2⟩ 1 1 ⟨1, 1, 1, 1⟩ ⟨5, 0, 0⟩ = .ok shape ∧
      (∀ v ∈ shape.vertices, shape.bounds.min.on .x - 5 - 1 ≤ v.position.on .x ∧
        v.position.on .x ≤ shape.bounds.max.on .x - 5 + 1) ∧
      (∃ v ∈ shape.vertices, v.position.on .x = shape.bounds.max.on .x - 5 + 1) ∧
      ∃ v ∈ shape.vertices, v.position.on .x = shape.bounds.min.on .x - 5 - 1 := by
  obtain ⟨box, -, hbox, -⟩ := exists_create (N := 1) realGlm ((⟨2, 2, 2⟩ : Vec3 ℝ).scale half) 1
    (by norm_num)
  refine rounded_box_exceeds_bounds (N := 1) realGlm_exact realEnv ⟨2, 2, 2⟩ .x ⟨1, 1, 1, 1⟩
    ⟨5, 0, 0⟩ (by norm_num) one_pos one_pos zero_le_two hbox ?_
  have hcreate : Create realGlm (1 : Int).toNat ((⟨2, 2, 2⟩ : Vec3 ℝ).scale half) 1 = .ok box :=
    hbox
  have hN : ¬(1 : Int) < 0 := by decide
  simp only [realEnv, generated, Nat.cast_one, if_neg hN, hcreate]

end RoundCornerBox

end MUtils
