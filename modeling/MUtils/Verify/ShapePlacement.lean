import MUtils.Verify.TorusMesh

/-!
# Where shapes are built

A shape is placed when it is the one built at the origin, moved by the offset, and has the colour
that was asked for. The builders that read arrays place their shapes if they read inside the arrays;
of these, the box and the icosahedron do not. The torus and the rounded box do not look at the
offset, nor the torus at the colour.
-/

namespace MUtils

variable {K : Type}

/-! ### Reads inside the arrays -/

theorem exists_readVec3 {table : List K} {i : Nat} {container : String} :
    (∃ v, readVec3 table i container = .ok v) ↔ i + 2 < table.length := by
  simp only [readVec3, Outcome.exists_bind_eq_ok, Outcome.pure_eq_ok, Except.ok.injEq, exists_eq',
    and_true, exists_and_right, Outcome.exists_elementAt]
  omega

theorem exists_readVec2 {table : List K} {i : Nat} {container : String} :
    (∃ v, readVec2 table i container = .ok v) ↔ i + 1 < table.length := by
  simp only [readVec2, Outcome.exists_bind_eq_ok, Outcome.pure_eq_ok, Except.ok.injEq, exists_eq',
    and_true, exists_and_right, Outcome.exists_elementAt]
  omega

/-- All reads are inside the arrays. -/
def VertexArrays.InRange (arrays : VertexArrays K) : Prop :=
  ∀ i < arrays.count, i * arrays.stride + 2 < arrays.positions.length ∧
    i * 3 + 2 < arrays.normals.length ∧ i * arrays.texStride + 1 < arrays.texCoords.length

theorem GeneratedMesh.inRange_iff {mesh : GeneratedMesh K} {texStride : Nat} :
    (mesh.arrays texStride).InRange ↔
      ∀ i < mesh.getVertexCount, i * texStride + 1 < mesh.getVertexCount * 2 := by
  have hvertices := mesh.vertices_length
  have hnormals := mesh.normals_length
  have htexCoords := mesh.texCoords_length
  refine forall₂_congr fun i hi => ?_
  simp only [arrays, getVertexCount] at hi ⊢
  omega

/-! ### Placed shapes -/

variable [Field K]

/-- `v` is `v₀` moved by `off`, in the colour `color`. -/
structure MeshVertex.Placed (color : Vec4 K) (off : Vec3 K) (v₀ v : MeshVertex K) : Prop where
  position : v.position = v₀.position + off
  normal : v.normal = v₀.normal
  texcoord : v.texcoord = v₀.texcoord
  color : v.color = color

/-- A builder returns, at the origin and at `off`, and the shape at `off` is placed. -/
def Placed (create : Vec4 K → Vec3 K → Outcome (Shape K)) (color : Vec4 K) (off : Vec3 K) : Prop :=
  ∃ s₀ s, create color 0 = .ok s₀ ∧ create color off = .ok s ∧ s.indices = s₀.indices ∧
    List.Forall₂ (MeshVertex.Placed color off) s₀.vertices s.vertices

namespace Vec3

theorem add_def (a b : Vec3 K) : a + b = ⟨a.x + b.x, a.y + b.y, a.z + b.z⟩ := rfl

theorem zero_def : (0 : Vec3 K) = ⟨0, 0, 0⟩ := rfl

theorem add_origin (a : Vec3 K) : a + 0 = a := by
  simp only [add_def, zero_def, add_zero]

theorem eq_add_iff {a off : Vec3 K} : a = a + off ↔ off = 0 := by
  cases a
  cases off
  simp only [add_def, zero_def, mk.injEq, left_eq_add]

end Vec3

theorem MeshVertex.placed_self_iff {color : Vec4 K} {off : Vec3 K} {v : MeshVertex K} :
    v.Placed color off v ↔ off = 0 ∧ v.color = color := by
  rw [← Vec3.eq_add_iff (a := v.position)]
  exact ⟨fun h => ⟨h.position, h.color⟩, fun h => ⟨h.1, rfl, rfl, h.2⟩⟩

/-- A builder that does not look at the offset. -/
theorem placed_fixed_iff {create : Vec4 K → Vec3 K → Outcome (Shape K)} {color : Vec4 K}
    {off : Vec3 K} {vertices : List (MeshVertex K)} {indices : List Nat}
    (h : ∀ off, ∃ s, create color off = .ok s ∧ s.vertices = vertices ∧ s.indices = indices) :
    Placed create color off ↔ ∀ v ∈ vertices, off = 0 ∧ v.color = color := by
  obtain ⟨s₀, hs₀, hvertices₀, hindices₀⟩ := h 0
  obtain ⟨s, hs, hvertices, hindices⟩ := h off
  have hplaced : Placed create color off ↔
      List.Forall₂ (MeshVertex.Placed color off) s₀.vertices s.vertices := by
    constructor
    · rintro ⟨t₀, t, ht₀, ht, -, hall⟩
      cases hs₀.symm.trans ht₀
      cases hs.symm.trans ht
      exact hall
    · exact fun hall => ⟨s₀, s, hs₀, hs, hindices.trans hindices₀.symm, hall⟩
  rw [hplaced, hvertices, hvertices₀, List.forall₂_same]
  simp only [MeshVertex.placed_self_iff]

/-! ### Shapes read from arrays -/

namespace VertexArrays

variable {arrays : VertexArrays K} {factor off : Vec3 K} {color : Vec4 K}

theorem exists_vertexAt {i : Nat} : (∃ v, arrays.vertexAt factor color off i = .ok v) ↔
    i * arrays.stride + 2 < arrays.positions.length ∧ i * 3 + 2 < arrays.normals.length ∧
      i * arrays.texStride + 1 < arrays.texCoords.length := by
  simp only [vertexAt, Outcome.exists_bind_eq_ok, Outcome.pure_eq_ok, Except.ok.injEq, exists_eq',
    and_true, exists_and_right, exists_readVec3, exists_readVec2]

theorem vertexAt_placed (off : Vec3 K) (i : Nat) (v₀ : MeshVertex K)
    (h : arrays.vertexAt factor color 0 i = .ok v₀) :
    ∃ v, arrays.vertexAt factor color off i = .ok v ∧ v₀.Placed color off v := by
  simp only [vertexAt, Outcome.bind_eq_ok, Outcome.pure_eq_ok, Except.ok.injEq] at h
  obtain ⟨position, hposition, normal, hnormal, texcoord, htexcoord, rfl⟩ := h
  refine ⟨{ position := position * factor + off, normal, texcoord, color }, ?_, ?_, rfl, rfl, rfl⟩
  · simp only [vertexAt, hposition, hnormal, htexcoord, Outcome.ok_bind, Outcome.pure_eq_ok]
  · rw [Vec3.add_origin]

theorem shape_placed_iff {indices : List Nat} {size : Vec3 K} :
    Placed (arrays.shape indices size factor) color off ↔ arrays.InRange := by
  have hrange : arrays.InRange ↔ ∃ vertices, arrays.vertices factor color 0 = .ok vertices := by
    simp only [vertices, Outcome.exists_mapM_eq_ok, List.mem_range, exists_vertexAt]
    rfl
  rw [hrange]
  constructor
  · rintro ⟨s₀, -, hs₀, -⟩
    obtain ⟨vertices, hvertices, -⟩ := Outcome.bind_eq_ok.mp hs₀
    exact ⟨vertices, hvertices⟩
  · rintro ⟨vertices₀, hvertices₀⟩
    obtain ⟨vertices, hvertices, hplaced⟩ :=
      Outcome.mapM_related (vertexAt_placed off) hvertices₀
    refine ⟨_, _, Outcome.bind_eq_ok.mpr ⟨_, hvertices₀, rfl⟩,
      Outcome.bind_eq_ok.mpr ⟨_, hvertices, rfl⟩, rfl, hplaced⟩

end VertexArrays

theorem quadArrays_count : (quadArrays (K := K)).count = 4 := by
  simp [quadArrays, quadVertices]

theorem cubeArrays_count : (cubeArrays (K := K)).count = 32 := by
  simp [cubeArrays, cubeVertices]

theorem quadArrays_inRange : (quadArrays (K := K)).InRange := by
  intro i hi
  have hi : i < 4 := by simpa only [quadArrays_count] using hi
  exact ⟨show i * 3 + 2 < 12 by omega, show i * 3 + 2 < 12 by omega, show i * 2 + 1 < 8 by omega⟩

/-- There are positions of 24 vertices. -/
theorem cubeArrays_not_inRange : ¬(cubeArrays (K := K)).InRange := by
  intro h
  have hcount : 24 < (cubeArrays (K := K)).count := by
    rw [cubeArrays_count]
    norm_num
  have hread : 24 * 4 + 2 < 96 := (h 24 hcount).1
  omega

namespace RoundCornerBox
variable {box : RoundCornerBox K}

theorem meshVertices_color {color : Vec4 K} : ∀ v ∈ box.meshVertices color, v.color = color := by
  intro v hv
  rw [meshVertices, ← List.map_uncurry_zip_eq_zipWith, List.mem_map] at hv
  obtain ⟨_, -, rfl⟩ := hv
  rfl

theorem meshVertices_eq_nil (color : Vec4 K) : box.meshVertices color = [] ↔ box.vertices = [] := by
  rw [← List.length_eq_zero_iff, meshVertices, List.length_zipWith, box.normals_length, min_self,
    List.length_eq_zero_iff]

end RoundCornerBox

/-! ### The builders -/

/-- A builder, with its arguments except for the colour and the offset. -/
inductive Builder (K : Type) where
  | icosahedron (size : Vec3 K)
  | sphere (size : Vec3 K) (subdivisions : Nat) (smooth : Bool)
  | icosphere (size : Vec3 K) (subdivisions : Nat) (smooth : Bool)
  | torus (size : Vec3 K) (innerRatio : K) (sides rings : Nat) (smooth : Bool)
  | quad (sz : Vec3 K)
  | rounded_box (sz : Vec3 K) (N : Int) (radius : K)
  | box (sz : Vec3 K)

variable [LinearOrder K] (env : ShapeEnv K)

def Builder.create : Builder K → Vec4 K → Vec3 K → Outcome (Shape K)
  | icosahedron size => shape_create_icosahedron env size
  | sphere size subdivisions smooth => shape_create_sphere env size subdivisions smooth
  | icosphere size subdivisions smooth => shape_create_icosphere env size subdivisions smooth
  | torus size innerRatio sides rings smooth =>
    shape_create_torus env size innerRatio sides rings smooth
  | quad sz => shape_create_quad sz
  | rounded_box sz N radius => shape_create_rounded_box env sz N radius
  | box sz => shape_create_box sz

/-- When the builder places its shape. -/
def Builder.Places (color : Vec4 K) (off : Vec3 K) : Builder K → Prop
  | sphere .. | icosphere .. | quad _ => True
  | icosahedron _ => (env.Icosahedron half).getVertexCount ≤ 1
  | torus .. => off = 0 ∧ env.uninitialized = color
  | rounded_box sz N radius =>
    off = 0 ∨ (env.RoundCornerBox N (sz.scale half) radius).vertices = []
  | box _ => False

variable {color : Vec4 K} {off : Vec3 K}

theorem sphere_placed (size : Vec3 K) (subdivisions : Nat) (smooth : Bool) :
    Placed (shape_create_sphere env size subdivisions smooth) color off :=
  VertexArrays.shape_placed_iff.mpr (GeneratedMesh.inRange_iff.mpr (by omega))

theorem icosphere_placed (size : Vec3 K) (subdivisions : Nat) (smooth : Bool) :
    Placed (shape_create_icosphere env size subdivisions smooth) color off :=
  VertexArrays.shape_placed_iff.mpr (GeneratedMesh.inRange_iff.mpr (by omega))

theorem icosahedron_placed_iff (size : Vec3 K) :
    Placed (shape_create_icosahedron env size) color off ↔
      (env.Icosahedron half).getVertexCount ≤ 1 := by
  refine VertexArrays.shape_placed_iff.trans (GeneratedMesh.inRange_iff.trans ?_)
  constructor
  · intro h
    have := h ((env.Icosahedron half).getVertexCount - 1)
    omega
  · omega

theorem rounded_box_placed_iff (sz : Vec3 K) (N : Int) (radius : K) :
    Placed (shape_create_rounded_box env sz N radius) color off ↔
      off = 0 ∨ (env.RoundCornerBox N (sz.scale half) radius).vertices = [] := by
  have hcreate (off : Vec3 K) : ∃ s, shape_create_rounded_box env sz N radius color off = .ok s ∧
      s.vertices = (env.RoundCornerBox N (sz.scale half) radius).meshVertices color ∧
      s.indices = (env.RoundCornerBox N (sz.scale half) radius).meshIndices :=
    ⟨_, rfl, rfl, rfl⟩
  rw [placed_fixed_iff hcreate, ← RoundCornerBox.meshVertices_eq_nil color]
  constructor
  · intro h
    refine or_iff_not_imp_right.mpr fun hne => ?_
    obtain ⟨v, hv⟩ := List.exists_mem_of_ne_nil _ hne
    exact (h v hv).1
  · rintro (hoff | hnil) v hv
    · exact ⟨hoff, RoundCornerBox.meshVertices_color v hv⟩
    · rw [hnil] at hv
      cases hv

theorem torus_placed_iff [IsStrictOrderedRing K] (size : Vec3 K) (innerRatio : K)
    (sides rings : Nat) (smooth : Bool) :
    Placed (shape_create_torus env size innerRatio sides rings smooth) color off ↔
      off = 0 ∧ env.uninitialized = color := by
  obtain ⟨mesh, hcreate, hne, hcolor, -⟩ :=
    shape_create_torus_ok env size innerRatio sides rings smooth
  rw [placed_fixed_iff (hcreate color)]
  constructor
  · intro h
    obtain ⟨v, hv⟩ := List.exists_mem_of_ne_nil _ hne
    rw [← hcolor v hv]
    exact h v hv
  · intro h v hv
    rw [hcolor v hv]
    exact h

/-- **Shapes are placed** by the sphere, the icosphere and the quad, whatever the offset and the
colour, and by the others as `Builder.Places` says. -/
theorem builder_placed_iff [IsStrictOrderedRing K] (b : Builder K) (color : Vec4 K)
    (off : Vec3 K) : Placed (b.create env) color off ↔ b.Places env color off := by
  cases b with
  | icosahedron size => exact icosahedron_placed_iff env size
  | sphere size subdivisions smooth =>
    exact iff_of_true (sphere_placed env size subdivisions smooth) trivial
  | icosphere size subdivisions smooth =>
    exact iff_of_true (icosphere_placed env size subdivisions smooth) trivial
  | torus size innerRatio sides rings smooth =>
    exact torus_placed_iff env size innerRatio sides rings smooth
  | quad sz => exact iff_of_true (VertexArrays.shape_placed_iff.mpr quadArrays_inRange) trivial
  | rounded_box sz N radius => exact rounded_box_placed_iff env sz N radius
  | box sz => exact VertexArrays.shape_placed_iff.trans (iff_false_intro cubeArrays_not_inRange)

def twoVertices : GeneratedMesh ℚ where
  vertices := [0, 0, 1, 0, 1, 0]
  normals := [0, 0, 1, 0, 1, 0]
  texCoords := [0, 0, 1, 1]
  indices := [0, 1]
  vertices_length := rfl
  normals_length := rfl
  texCoords_length := rfl

/-- Meshes of two vertices and a box of one. -/
def smallEnv : ShapeEnv ℚ where
  cosf := id
  sinf := id
  normalize := id
  infinity := 1
  one_le_infinity := le_refl 1
  uninitialized := ⟨0, 0, 0, 0⟩
  Icosahedron _ := twoVertices
  Sphere _ _ _ _ := twoVertices
  Icosphere _ _ _ := twoVertices
  RoundCornerBox _ _ _ := ⟨[⟨1, 1, 1⟩], [⟨1, 1, 1⟩], [], rfl⟩

theorem builder_placed_iff_sphere :
    Placed ((Builder.sphere ⟨2, 2, 2⟩ 2 true).create smallEnv) ⟨1, 0, 0, 1⟩ ⟨5, 6, 7⟩ :=
  (builder_placed_iff smallEnv (.sphere ⟨2, 2, 2⟩ 2 true) ⟨1, 0, 0, 1⟩ ⟨5, 6, 7⟩).mpr trivial

theorem builder_not_placed :
    ¬Placed ((Builder.rounded_box ⟨2, 2, 2⟩ 4 (1 / 4)).create smallEnv) ⟨1, 1, 1, 1⟩ ⟨5, 0, 0⟩ ∧
      ¬Placed ((Builder.torus ⟨2, 2, 2⟩ (1 / 2) 20 20 true).create smallEnv) ⟨1, 1, 1, 1⟩ 0 ∧
      ¬Placed ((Builder.icosahedron ⟨2, 2, 2⟩).create smallEnv) ⟨1, 1, 1, 1⟩ 0 ∧
      ¬Placed ((Builder.box ⟨2, 2, 2⟩).create smallEnv) ⟨1, 1, 1, 1⟩ 0 := by
  refine ⟨fun h => ?_, fun h => ?_, fun h => ?_, fun h => ?_⟩
  · obtain hoff | hnil := (rounded_box_placed_iff smallEnv _ _ _).mp h
    · have hx : (5 : ℚ) = 0 := congrArg Vec3.x hoff
      norm_num at hx
    · cases hnil
  · have hcolor := ((torus_placed_iff smallEnv _ _ _ _ _).mp h).2
    have hx : (0 : ℚ) = 1 := congrArg Vec4.x hcolor
    norm_num at hx
  · have hcount : 2 ≤ 1 := (icosahedron_placed_iff smallEnv _).mp h
    omega
  · exact cubeArrays_not_inRange (VertexArrays.shape_placed_iff.mp h)

end MUtils
