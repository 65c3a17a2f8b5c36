import MUtils.Verify.IcosphereNormals
import MUtils.Verify.RoundedBoxBounds

/-!
# Shapes of spheres

`shape_create_sphere` and `shape_create_icosphere` with the generators of `sphere.h` and
`icosphere.h`: the shapes are inside their bounds, and a flat icosphere with ten subdivisions, the
most that are made, has no normals.
-/

namespace MUtils

variable {K : Type}

/-! ### Arrays of floats -/

/-- The vectors as the generators hold them. -/
def floats3 (l : List (Vec3 K)) : List K := l.flatMap fun v => [v.x, v.y, v.z]

def floats2 (l : List (Vec2 K)) : List K := l.flatMap fun v => [v.x, v.y]

theorem length_floats3 (l : List (Vec3 K)) : (floats3 l).length = l.length * 3 := by
  simp [floats3, List.length_flatMap]

theorem length_floats2 (l : List (Vec2 K)) : (floats2 l).length = l.length * 2 := by
  simp [floats2, List.length_flatMap]

theorem readVec3_append (l l' : List K) (v : Vec3 K) (container : String) :
    readVec3 (l ++ v.x :: v.y :: v.z :: l') l.length container = .ok v := by
  have hget (k : Nat) : (l ++ v.x :: v.y :: v.z :: l')[l.length + k]? =
      (v.x :: v.y :: v.z :: l')[k]? := by
    rw [List.getElem?_append_right (Nat.le_add_right _ _), Nat.add_sub_cancel_left]
  simp only [readVec3, Outcome.elementAt_append, Outcome.elementAt_eq_ok.mpr (hget 1),
    Outcome.elementAt_eq_ok.mpr (hget 2), Outcome.ok_bind, Outcome.pure_eq_ok]

theorem readVec2_append (l l' : List K) (v : Vec2 K) (container : String) :
    readVec2 (l ++ v.x :: v.y :: l') l.length container = .ok v := by
  have hget : (l ++ v.x :: v.y :: l')[l.length + 1]? = (v.x :: v.y :: l')[1]? := by
    rw [List.getElem?_append_right (Nat.le_add_right _ _), Nat.add_sub_cancel_left]
  simp only [readVec2, Outcome.elementAt_append, Outcome.elementAt_eq_ok.mpr hget, Outcome.ok_bind,
    Outcome.pure_eq_ok]

theorem readVec3_floats3 {l : List (Vec3 K)} {i : Nat} {v : Vec3 K} (h : l[i]? = some v)
    (container : String) : readVec3 (floats3 l) (i * 3) container = .ok v := by
  obtain ⟨hi, rfl⟩ := List.getElem?_eq_some_iff.mp h
  have hsplit : floats3 l = floats3 (l.take i) ++ l[i].x :: l[i].y :: l[i].z ::
      floats3 (l.drop (i + 1)) := by
    conv_lhs => rw [← List.take_append_drop i l, List.drop_eq_getElem_cons hi]
    rw [floats3, List.flatMap_append]
    rfl
  have hlength : (floats3 (l.take i)).length = i * 3 := by
    rw [length_floats3, List.length_take, min_eq_left hi.le]
  rw [hsplit, ← hlength, readVec3_append]

theorem readVec2_floats2 {l : List (Vec2 K)} {i : Nat} {v : Vec2 K} (h : l[i]? = some v)
    (container : String) : readVec2 (floats2 l) (i * 2) container = .ok v := by
  obtain ⟨hi, rfl⟩ := List.getElem?_eq_some_iff.mp h
  have hsplit : floats2 l = floats2 (l.take i) ++ l[i].x :: l[i].y :: floats2 (l.drop (i + 1)) := by
    conv_lhs => rw [← List.take_append_drop i l, List.drop_eq_getElem_cons hi]
    rw [floats2, List.flatMap_append]
    rfl
  have hlength : (floats2 (l.take i)).length = i * 2 := by
    rw [length_floats2, List.length_take, min_eq_left hi.le]
  rw [hsplit, ← hlength, readVec2_append]

/-! ### What the builders are given -/

namespace Sphere

/-- The generated mesh, with the vectors in arrays of floats. -/
def Arrays.toGeneratedMesh (arrays : Arrays K) (h : arrays.Aligned) : GeneratedMesh K where
  vertices := floats3 arrays.vertices
  normals := floats3 arrays.normals
  texCoords := floats2 arrays.texCoords
  indices := arrays.indices.flatMap fun t => [t.1, t.2.1, t.2.2]
  vertices_length := by rw [length_floats3, Nat.mul_mod_left]
  normals_length := by rw [length_floats3, length_floats3, h.normals]
  texCoords_length := by
    rw [length_floats2, length_floats3, h.texCoords, Nat.mul_div_cancel _ (by decide)]

def emptyMesh : GeneratedMesh K := ⟨[], [], [], [], rfl, rfl, by simp⟩

instance (arrays : Arrays K) : Decidable arrays.Aligned :=
  decidable_of_iff (arrays.normals.length = arrays.vertices.length ∧
    arrays.texCoords.length = arrays.vertices.length)
    ⟨fun h => ⟨h.1, h.2⟩, fun h => ⟨h.normals, h.texCoords⟩⟩

/-- The mesh of a generator that returns. -/
def generated (arrays : Outcome (Arrays K)) : GeneratedMesh K :=
  match arrays with
  | .ok arrays => if h : arrays.Aligned then arrays.toGeneratedMesh h else emptyMesh
  | .error _ => emptyMesh

theorem generated_ok {arrays : Arrays K} (h : arrays.Aligned) :
    generated (.ok arrays) = arrays.toGeneratedMesh h := dif_pos h

variable [Field K]

/-- The vertex of a shape, from an entry of each array. -/
def Arrays.meshVertex (arrays : Arrays K) (size : Vec3 K) (color : Vec4 K) (off : Vec3 K)
    (i : Nat) : MeshVertex K where
  position := arrays.vertices.getD i 0 * size + off
  normal := arrays.normals.getD i 0
  texcoord := arrays.texCoords.getD i ⟨0, 0⟩
  color := color

theorem Arrays.Aligned.exists_shape {arrays : Arrays K} (h : arrays.Aligned) (size : Vec3 K)
    (color : Vec4 K) (off : Vec3 K) :
    ((arrays.toGeneratedMesh h).arrays 2).shape (arrays.toGeneratedMesh h).indices size size color
      off = .ok
        { vertices := (List.range arrays.vertices.length).map (arrays.meshVertex size color off)
          indices := (arrays.toGeneratedMesh h).indices
          size := size
          offset := off
          bounds := boundsOf size off } := by
  have hcount : (arrays.toGeneratedMesh h).getVertexCount = arrays.vertices.length := by
    rw [GeneratedMesh.getVertexCount, toGeneratedMesh, length_floats3,
      Nat.mul_div_cancel _ (by decide)]
  have hvertices : ((arrays.toGeneratedMesh h).arrays 2).vertices size color off =
      .ok ((List.range arrays.vertices.length).map (arrays.meshVertex size color off)) := by
    rw [VertexArrays.vertices, Outcome.mapM_eq_ok, List.forall₂_map_right_iff,
      GeneratedMesh.arrays, hcount, List.forall₂_same]
    intro i hi
    have hi := List.mem_range.mp hi
    have hread {α : Type} {l : List α} (d : α) (hl : l.length = arrays.vertices.length) :
        l[i]? = some (l.getD i d) := by
      rw [List.getD_eq_getElem?_getD, List.getElem?_eq_getElem (hl ▸ hi), Option.getD_some]
    simp only [VertexArrays.vertexAt, toGeneratedMesh, readVec3_floats3 (hread 0 rfl),
      readVec3_floats3 (hread 0 h.normals), readVec2_floats2 (hread ⟨0, 0⟩ h.texCoords),
      Outcome.ok_bind, Outcome.pure_eq_ok, meshVertex]
  rw [VertexArrays.shape, hvertices]
  rfl

/-! ### Spheres are inside their bounds -/

/-- The bounds of a shape hold its vertices. -/
def InBounds (shape : Shape ℝ) : Prop :=
  ∀ v ∈ shape.vertices, ∀ a : Axis, shape.bounds.min.on a ≤ v.position.on a ∧
    v.position.on a ≤ shape.bounds.max.on a

/-- A vertex on the sphere is not outside of the cube around it. -/
theorem abs_on_le {v : Vec3 ℝ} {r : ℝ} (hr : 0 ≤ r) (h : dot v v = r ^ 2) (a : Axis) :
    |v.on a| ≤ r := by
  refine abs_le_of_sq_le_sq ?_ hr
  rw [← h]
  cases a <;> simp only [dot, Vec3.on] <;> nlinarith [sq_nonneg v.x, sq_nonneg v.y, sq_nonneg v.z]

theorem Arrays.Aligned.inBounds {arrays : Arrays ℝ} (h : arrays.Aligned)
    (hsphere : ∀ v ∈ arrays.vertices, dot v v = half ^ 2) {size : Vec3 ℝ}
    (hsize : ∀ a : Axis, 0 ≤ size.on a) (color : Vec4 ℝ) (off : Vec3 ℝ) :
    ∃ shape, ((arrays.toGeneratedMesh h).arrays 2).shape (arrays.toGeneratedMesh h).indices size
      size color off = .ok shape ∧ InBounds shape := by
  refine ⟨_, h.exists_shape size color off, ?_⟩
  intro v hv a
  obtain ⟨i, hi, rfl⟩ := List.mem_map.mp hv
  have hmem : arrays.vertices.getD i 0 ∈ arrays.vertices := by
    have hlt := List.mem_range.mp hi
    rw [List.getD_eq_getElem _ _ hlt]
    exact List.getElem_mem hlt
  have habs := abs_le.mp (abs_on_le (by norm_num [half]) (hsphere _ hmem) a)
  have hposition : (arrays.meshVertex size color off i).position.on a =
      (arrays.vertices.getD i 0).on a * size.on a + off.on a := by cases a <;> rfl
  have hmin : (boundsOf size off).min.on a = off.on a - size.on a * half := by cases a <;> rfl
  have hmax : (boundsOf size off).max.on a = off.on a + size.on a * half := by cases a <;> rfl
  dsimp only
  rw [hposition, hmin, hmax]
  constructor
  · nlinarith [hsize a, habs.1]
  · nlinarith [hsize a, habs.2]

theorem dot_pointAt (PI radius : ℝ) (n m i j : Nat) : dot (pointAt (realCMath PI) radius n m i j)
    (pointAt (realCMath PI) radius n m i j) = radius ^ 2 := by
  simp only [pointAt, Vertex.position, vertexAt, realCMath, dot]
  linear_combination
    (radius * Real.cos (PI / (2 : Nat) - i * (PI / m))) ^ 2 *
      Real.sin_sq_add_cos_sq (j * ((2 : Nat) * PI / n)) +
    radius ^ 2 * Real.sin_sq_add_cos_sq (PI / (2 : Nat) - i * (PI / m))

end Sphere

/-! ### The shapes -/

/-- What `shape_create_sphere` is given. -/
noncomputable def Sphere.sphereMesh (PI radius : ℝ) (sectors stackCount : Nat) (smooth : Bool) :
    GeneratedMesh ℝ :=
  generated (set (realCMath PI) radius sectors stackCount smooth)

/-- And `shape_create_icosphere`. -/
noncomputable def Icosphere.icosphereMesh (PI radius : ℝ) (n : Nat) (smooth : Bool) :
    GeneratedMesh ℝ :=
  Sphere.generated ((build (realCMath PI) radius n smooth).map Arrays.toArrays)

theorem Icosphere.icosphereMesh_eq {PI radius : ℝ} {n : Nat} {smooth : Bool} {arrays : Arrays ℝ}
    (h : build (realCMath PI) radius n smooth = .ok arrays) (haligned : arrays.Aligned) :
    icosphereMesh PI radius n smooth = arrays.toGeneratedMesh haligned := by
  rw [icosphereMesh, h]
  exact Sphere.generated_ok haligned

section
variable {env : ShapeEnv ℝ} {PI : ℝ} {size : Vec3 ℝ} {subdivisions : Nat}

/-- The bounds that `shape_create_sphere` and `shape_create_icosphere` state hold all vertices. With
no subdivisions a sphere would have no stacks, and the angle between them be divided by zero. -/
theorem sphere_shapes_in_bounds (hPI : Icosphere.NearPi PI)
    (hsphere : env.Sphere = Sphere.sphereMesh PI)
    (hicosphere : env.Icosphere = Icosphere.icosphereMesh PI) (hsize : ∀ a : Axis, 0 ≤ size.on a)
    (_hsub : 0 < subdivisions) (smooth : Bool) (color : Vec4 ℝ) (off : Vec3 ℝ) :
    (∃ shape, shape_create_sphere env size subdivisions smooth color off = .ok shape ∧
      Sphere.InBounds shape) ∧
    ∃ shape, shape_create_icosphere env size subdivisions smooth color off = .ok shape ∧
      Sphere.InBounds shape := by
  constructor
  · obtain ⟨arrays, T, harrays, hshows⟩ := Sphere.exists_set (Sphere.realCMath PI) half
      (min subdivisions 10 * 8) (min subdivisions 10 * 6) smooth
    have hon : ∀ v ∈ arrays.vertices, dot v v = half ^ 2 := by
      intro v hv
      obtain ⟨i, j, rfl⟩ := hshows.mem v hv
      exact Sphere.dot_pointAt PI half _ _ i j
    rw [shape_create_sphere, hsphere]
    dsimp only [Sphere.sphereMesh]
    rw [harrays, Sphere.generated_ok hshows.aligned]
    exact hshows.aligned.inBounds hon hsize color off
  · obtain ⟨arrays, T, harrays, haligned, -, hon, -⟩ := Icosphere.exists_outward hPI
      (r := half) (by norm_num [half]) (min subdivisions 10) smooth
    rw [shape_create_icosphere, hicosphere, Icosphere.icosphereMesh_eq harrays haligned]
    exact haligned.inBounds hon hsize color off

/-- A flat icosphere with ten subdivisions, and one with more is made with ten, comes without
normals. -/
theorem shape_create_icosphere_no_normals (hPI : Icosphere.NearPi PI)
    (hicosphere : env.Icosphere = Icosphere.icosphereMesh PI)
    (hsub : 10 ≤ subdivisions) (size : Vec3 ℝ) (color : Vec4 ℝ) (off : Vec3 ℝ) :
    ∃ shape, shape_create_icosphere env size subdivisions false color off = .ok shape ∧
      shape.vertices.length = 60 * 4 ^ 10 ∧ ∀ v ∈ shape.vertices, v.normal = 0 := by
  obtain ⟨arrays, harrays, haligned, hlength, hnormals⟩ :
      ∃ arrays, Icosphere.build (Icosphere.realCMath PI) half 10 false = .ok arrays ∧ _ :=
    Icosphere.build_flat_normals_zero hPI le_rfl
  rw [shape_create_icosphere, hicosphere, min_eq_right hsub,
    Icosphere.icosphereMesh_eq harrays haligned]
  refine ⟨_, haligned.exists_shape size color off, ?_, ?_⟩
  · rw [List.length_map, List.length_range, hlength]
  · intro v hv
    obtain ⟨i, hi, rfl⟩ := List.mem_map.mp hv
    have hlt : i < arrays.normals.length := by
      rw [haligned.normals]
      exact List.mem_range.mp hi
    refine hnormals _ ?_
    change arrays.normals.getD i 0 ∈ arrays.normals
    rw [List.getD_eq_getElem _ _ hlt]
    exact List.getElem_mem hlt

end

/-! ### Real numbers -/

/-- The generators with real numbers, and the constant of the source. -/
noncomputable def realSpheres : ShapeEnv ℝ :=
  { RoundCornerBox.realEnv with
    Sphere := Sphere.sphereMesh 3.1415926
    Icosphere := Icosphere.icosphereMesh 3.1415926 }

theorem sphere_shapes_in_bounds_real :
    (∃ shape, shape_create_sphere realSpheres ⟨1, 2, 3⟩ 2 false ⟨1, 1, 1, 1⟩ 0 = .ok shape ∧
      Sphere.InBounds shape) ∧
    ∃ shape, shape_create_icosphere realSpheres ⟨1, 2, 3⟩ 2 false ⟨1, 1, 1, 1⟩ 0 = .ok shape ∧
      Sphere.InBounds shape :=
  sphere_shapes_in_bounds Icosphere.nearPi_source rfl rfl
    (by rintro (_ | _ | _) <;> norm_num [Vec3.on]) two_pos false _ _

theorem shape_create_icosphere_no_normals_real :
    ∃ shape, shape_create_icosphere realSpheres ⟨1, 2, 3⟩ 12 false ⟨1, 1, 1, 1⟩ 0 = .ok shape ∧
      shape.vertices.length = 60 * 4 ^ 10 ∧ ∀ v ∈ shape.vertices, v.normal = 0 :=
  shape_create_icosphere_no_normals Icosphere.nearPi_source rfl (by decide) _ _ _

end MUtils
