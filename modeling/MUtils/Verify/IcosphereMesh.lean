import MUtils.Geometry.Icosphere
import MUtils.Theory.IndexedMesh
import MUtils.Theory.Subdivision
import MUtils.Verify.SphereMesh

/-!
# Icospheres

The texture coordinates of the corners are the points of a lattice of triangles, on which the
icosahedron is unfolded, and cutting the triangles of the icosphere is cutting those of the lattice.
So two vertices with the same texture coordinates are at the same place, and a smooth icosphere,
which shares them, has the triangles of the one with flat shading: it does not matter what
`isSharedTexCoord` answers.
-/

namespace MUtils.Icosphere

section
variable {K : Type}

/-! ### What the arrays show -/

/-- The position of a vertex, with its texture coordinates. -/
abbrev Attribs (K : Type) : Type := Vec3 K × Vec2 K

def Arrays.attribs (arrays : Arrays K) : List (Attribs K) :=
  arrays.vertices.zip arrays.texCoords

theorem length_attribs {arrays : Arrays K} (h : arrays.Aligned) :
    arrays.attribs.length = arrays.vertices.length := by
  rw [Arrays.attribs, List.length_zip, h.texCoords, min_self]

theorem map_fst_attribs {arrays : Arrays K} (h : arrays.Aligned) :
    arrays.attribs.map Prod.fst = arrays.vertices :=
  List.map_fst_zip h.texCoords.ge

theorem elementAt_of_attribs {arrays : Arrays K} {k : Nat} {c : Attribs K}
    (h : arrays.attribs[k]? = some c) :
    (∀ name, Outcome.elementAt arrays.vertices k name = .ok c.1) ∧
      ∀ name, Outcome.elementAt arrays.texCoords k name = .ok c.2 := by
  obtain ⟨hv, ht⟩ := List.getElem?_zip_eq_some.mp h
  exact ⟨fun _ => Outcome.elementAt_eq_ok.mpr hv, fun _ => Outcome.elementAt_eq_ok.mpr ht⟩

/-! ### Vertices on the lattice -/

/-- Every vertex is at a corner of the triangles of the lattice, and the entries of the map are
right. -/
structure Arrays.OnLattice (arrays : Arrays K) (N : List LatticeTriangle)
    (f : ℤ × ℤ → Attribs K) : Prop where
  aligned : arrays.Aligned
  points : ∀ c ∈ arrays.attribs, ∃ p, IsVertex N p ∧ c = f p
  shared : ∀ entry ∈ arrays.sharedIndices, ∃ c, arrays.attribs[entry.2]? = some c ∧ c.2 = entry.1

/-- The vertex of a point is there under an index, and what was there before is where it was. -/
structure Arrays.Has (arrays : Arrays K) (N : List LatticeTriangle)
    (f : ℤ × ℤ → Attribs K) (p : ℤ × ℤ) (arrays' : Arrays K) (index : Nat) : Prop where
  onLattice : arrays'.OnLattice N f
  extends_attribs : ∃ more, arrays'.attribs = arrays.attribs ++ more
  vertex : arrays'.attribs[index]? = some (f p)
  indices : arrays'.indices = arrays.indices

variable {arrays : Arrays K} {N : List LatticeTriangle}
  {f : ℤ × ℤ → Attribs K}

theorem attribs_addAttribs (h : arrays.Aligned) (v n : Vec3 K) (t : Vec2 K) :
    (arrays.addAttribs v n t).attribs = arrays.attribs ++ [(v, t)] := by
  rw [Arrays.attribs, Arrays.addAttribs, List.zip_append h.texCoords.symm]
  rfl

theorem Arrays.OnLattice.addAttribs (h : arrays.OnLattice N f) (n : Vec3 K) {p : ℤ × ℤ}
    (hp : IsVertex N p) :
    arrays.Has N f p (arrays.addAttribs (f p).1 n (f p).2)
      ((arrays.addAttribs (f p).1 n (f p).2).texCoords.length - 1) := by
  have hattribs := attribs_addAttribs h.aligned (f p).1 n (f p).2
  refine ⟨⟨⟨?_, ?_⟩, ?_, ?_⟩, ⟨_, hattribs⟩, ?_, rfl⟩
  · simp [Arrays.addAttribs, h.aligned.normals]
  · simp [Arrays.addAttribs, h.aligned.texCoords]
  · intro c hc
    rw [hattribs] at hc
    obtain hc | hc := List.mem_append.mp hc
    · exact h.points c hc
    · exact ⟨p, hp, List.mem_singleton.mp hc⟩
  · intro entry hentry
    obtain ⟨c, hc, hkey⟩ := h.shared entry hentry
    refine ⟨c, ?_, hkey⟩
    rw [hattribs, List.getElem?_append_left (List.getElem?_eq_some_iff.mp hc).1, hc]
  · have hlast : (arrays.addAttribs (f p).1 n (f p).2).texCoords.length - 1 =
        arrays.attribs.length := by
      rw [length_attribs h.aligned, ← h.aligned.texCoords]
      simp [Arrays.addAttribs]
    rw [hattribs, hlast, List.getElem?_concat_length]

theorem Arrays.Has.share {arrays' : Arrays K} {p : ℤ × ℤ}
    (h : arrays.Has N f p arrays' (arrays'.texCoords.length - 1)) :
    arrays.Has N f p (arrays'.share (f p).2) (arrays'.texCoords.length - 1) where
  onLattice :=
    { aligned := ⟨h.onLattice.aligned.normals, h.onLattice.aligned.texCoords⟩
      points := h.onLattice.points
      shared := by
        intro entry hentry
        obtain rfl | hentry := List.mem_cons.mp hentry
        · exact ⟨f p, h.vertex, rfl⟩
        · exact h.onLattice.shared entry hentry }
  extends_attribs := h.extends_attribs
  vertex := h.vertex
  indices := h.indices

theorem Arrays.Has.attribs {arrays' : Arrays K} {p : ℤ × ℤ} {index k : Nat} {c : Attribs K}
    (h : arrays.Has N f p arrays' index) (hk : arrays.attribs[k]? = some c) :
    arrays'.attribs[k]? = some c := by
  obtain ⟨more, hmore⟩ := h.extends_attribs
  rw [hmore, List.getElem?_append_left (List.getElem?_eq_some_iff.mp hk).1, hk]

theorem Arrays.Has.mesh {arrays' : Arrays K} {p : ℤ × ℤ} {index : Nat}
    (h : arrays.Has N f p arrays' index) {T : List (Attribs K × Attribs K × Attribs K)}
    (hmesh : MeshOf arrays.attribs arrays.indices T) :
    MeshOf arrays'.attribs arrays'.indices T := by
  obtain ⟨more, hmore⟩ := h.extends_attribs
  rw [hmore, h.indices]
  exact hmesh.extend more

end

variable {K : Type} [Field K] {cmath : CMath K} {radius : K}

/-! ### The middle of an edge -/

/-- Where the middle is put. -/
def halfVertex (cmath : CMath K) (radius : K) (v w : Vec3 K) : Vec3 K :=
  computeHalfVertex cmath v w radius

/-- With its texture coordinates. -/
def halfAttribs (cmath : CMath K) (radius : K) (a b : Attribs K) : Attribs K :=
  (halfVertex cmath radius a.1 b.1, computeHalfTexCoord a.2 b.2)

theorem halfVertex_comm (v w : Vec3 K) :
    halfVertex cmath radius v w = halfVertex cmath radius w v := by
  have hsum : v + w = w + v := by
    change Vec3.mk _ _ _ = Vec3.mk _ _ _
    rw [add_comm v.x, add_comm v.y, add_comm v.z]
  rw [halfVertex, computeHalfVertex, hsum, halfVertex, computeHalfVertex]

theorem halfAttribs_comm (a b : Attribs K) :
    halfAttribs cmath radius a b = halfAttribs cmath radius b a := by
  rw [halfAttribs, halfAttribs, halfVertex_comm, computeHalfTexCoord, computeHalfTexCoord,
    add_comm a.2.x, add_comm a.2.y]

/-! ### The lattice of the texture coordinates -/

/-- The point of a corner of the icosahedron. -/
def Corner.point (c : Corner) : ℤ × ℤ := (((c.s : ℤ) + 1 - c.t) / 2, c.t)

/-- The vertex of the icosahedron that is at a point: the first row is one pole, the last the other,
and five steps go round. -/
def vertexNumber (p : ℤ × ℤ) : Nat :=
  if p.2 = 0 then 0
  else if p.2 = 1 then 1 + (p.1 % 5).toNat
  else if p.2 = 2 then 6 + (p.1 % 5).toNat
  else 11

/-- The texture coordinates of a point, after `n` cuts. -/
def texCoordAt (n : Nat) (p : ℤ × ℤ) : Vec2 K :=
  ⟨(((2 * p.1 + p.2 : ℤ) : K) / (2 ^ n : Nat) - 1) * S_STEP, (p.2 : K) / (2 ^ n : Nat) * T_STEP⟩

/-- What is at a point before the first cut. -/
def start (cmath : CMath K) (radius : K) (p : ℤ × ℤ) : Attribs K :=
  ((computeIcosahedronVertices cmath radius).getD (vertexNumber p) 0, texCoordAt 0 p)

/-- What is at a point after `n` cuts. -/
def attribsAt (cmath : CMath K) (radius : K) : Nat → ℤ × ℤ → Attribs K :=
  refined (halfAttribs cmath radius) (start cmath radius)

/-- The corner has the vertex and the texture coordinates of its point. -/
def Corner.Placed (c : Corner) : Prop :=
  vertexNumber c.point = c.vertex ∧ c.vertex < 12 ∧ 2 * c.point.1 + c.point.2 = c.s + 1

instance (c : Corner) : Decidable c.Placed := inferInstanceAs (Decidable (_ ∧ _ ∧ _))

theorem length_computeIcosahedronVertices :
    (computeIcosahedronVertices cmath radius).length = 12 := by
  simp [computeIcosahedronVertices, icosahedronRow]

theorem Corner.Placed.read {c : Corner} (h : c.Placed) :
    c.read (computeIcosahedronVertices cmath radius) = .ok (start cmath radius c.point) := by
  obtain ⟨hvertex, hlt, hs⟩ := h
  have hget : (computeIcosahedronVertices cmath radius)[c.vertex]? =
      some ((computeIcosahedronVertices cmath radius).getD c.vertex 0) := by
    rw [List.getD_eq_getElem?_getD, List.getElem?_eq_getElem
      (by rwa [length_computeIcosahedronVertices]), Option.getD_some]
  have htex : (c.texCoord : Vec2 K) = texCoordAt 0 c.point := by
    rw [texCoordAt, hs, Corner.texCoord]
    simp [Corner.point]
  rw [Corner.read, Outcome.elementAt_eq_ok.mpr hget, start, hvertex, ← htex]
  rfl

/-! ### Texture coordinates tell points apart -/

theorem texCoordAt_double [CharZero K] (n : Nat) (p : ℤ × ℤ) :
    (texCoordAt (n + 1) (p + p) : Vec2 K) = texCoordAt n p := by
  have hne : ((2 ^ n : Nat) : K) ≠ 0 := Nat.cast_ne_zero.mpr (pow_ne_zero n two_ne_zero)
  have htwo : ((2 : Nat) : K) ≠ 0 := Nat.cast_ne_zero.mpr two_ne_zero
  simp only [texCoordAt, Prod.fst_add, Prod.snd_add, pow_succ, Nat.cast_mul]
  push_cast
  congr 1
  · field_simp
    ring
  · field_simp
    ring

theorem texCoordAt_add [CharZero K] (n : Nat) (p q : ℤ × ℤ) :
    (texCoordAt (n + 1) (p + q) : Vec2 K) =
      computeHalfTexCoord (texCoordAt n p) (texCoordAt n q) := by
  simp only [texCoordAt, computeHalfTexCoord, half, Prod.fst_add, Prod.snd_add, pow_succ,
    Nat.cast_mul]
  push_cast
  congr 1
  · field_simp
    ring
  · field_simp

theorem snd_attribsAt [CharZero K] (n : Nat) (p : ℤ × ℤ) :
    (attribsAt cmath radius n p).2 = texCoordAt n p := by
  have h : Prod.snd ∘ attribsAt cmath radius n = texCoordAt n := by
    have hhalf (a b : Attribs K) : (halfAttribs cmath radius a b).2 =
        computeHalfTexCoord a.2 b.2 := rfl
    rw [attribsAt, refined_comp hhalf]
    induction n with
    | zero => rfl
    | succ n ih =>
      rw [refined, ih]
      exact refine_eq (texCoordAt_double n) (texCoordAt_add n)
  exact congrFun h p

theorem texCoordAt_inj [CharZero K] {n : Nat} {p q : ℤ × ℤ}
    (h : (texCoordAt n p : Vec2 K) = texCoordAt n q) : p = q := by
  have hne : ((2 ^ n : Nat) : K) ≠ 0 := Nat.cast_ne_zero.mpr (pow_ne_zero n two_ne_zero)
  have hS : (S_STEP : K) ≠ 0 := by
    rw [S_STEP]
    exact div_ne_zero (Nat.cast_ne_zero.mpr (by decide)) (Nat.cast_ne_zero.mpr (by decide))
  have hT : (T_STEP : K) ≠ 0 := by
    rw [T_STEP]
    exact div_ne_zero (Nat.cast_ne_zero.mpr (by decide)) (Nat.cast_ne_zero.mpr (by decide))
  have hx := congrArg Vec2.x h
  have hy := congrArg Vec2.y h
  simp only [texCoordAt] at hx hy
  have hb : p.2 = q.2 := by
    exact_mod_cast (div_left_inj' hne).mp (mul_right_cancel₀ hT hy)
  have ha : 2 * p.1 + p.2 = 2 * q.1 + q.2 := by
    exact_mod_cast (div_left_inj' hne).mp (sub_left_inj.mp (mul_right_cancel₀ hS hx))
  exact Prod.ext (by omega) hb

/-! ### The unfolded icosahedron -/

/-- The unfolded icosahedron, as the loop of `buildVerticesFlat` goes through it. -/
def flatNet : List LatticeTriangle :=
  ((List.range 5).flatMap fun i => flatFaces (i + 1)).map (mapTriangle Corner.point)

theorem unitTriangle_flatNet : ∀ t ∈ flatNet, UnitTriangle t := by decide

theorem placed_flatFaces : ∀ face ∈ (List.range 5).flatMap fun i => flatFaces (i + 1),
    face.1.Placed ∧ face.2.1.Placed ∧ face.2.2.Placed := by decide

/-! ### Positions -/

/-- Where the vertex of a point is put after `n` cuts. -/
def positionAt (cmath : CMath K) (radius : K) : Nat → ℤ × ℤ → Vec3 K :=
  refined (halfVertex cmath radius) fun p =>
    (computeIcosahedronVertices cmath radius).getD (vertexNumber p) 0

theorem fst_attribsAt (n : Nat) :
    Prod.fst ∘ attribsAt cmath radius n = positionAt cmath radius n := by
  have hhalf (a b : Attribs K) : (halfAttribs cmath radius a b).1 =
      halfVertex cmath radius a.1 b.1 := rfl
  rw [attribsAt, refined_comp hhalf]
  rfl

theorem meshOf_vertices {N : List LatticeTriangle} {n : Nat} {arrays : Arrays K}
    (h : arrays.Aligned)
    (hmesh : MeshOf arrays.attribs arrays.indices
      (N.map (mapTriangle (attribsAt cmath radius n)))) :
    MeshOf arrays.vertices arrays.indices (N.map (mapTriangle (positionAt cmath radius n))) := by
  have hmap := hmesh.map Prod.fst
  rw [map_fst_attribs h, List.map_map] at hmap
  rw [← fst_attribsAt]
  exact hmap

/-- Glued at the seams, the unfolded icosahedron has no border. -/
theorem watertight_flatNet : Watertight (flatNet.map (mapTriangle vertexNumber)) := by
  decide

theorem watertight_positions (n : Nat) :
    Watertight ((latticeNet flatNet n).map (mapTriangle (positionAt cmath radius n))) := by
  refine latticeNet_invariant (P := fun _ U => Watertight U) halfVertex_comm
    unitTriangle_flatNet ?_ ?_ n
  · have h := watertight_flatNet.map fun k => (computeIcosahedronVertices cmath radius).getD k 0
    rw [List.map_map] at h
    exact h
  · intro _ U hU
    exact hU.flatMap_subdivide halfVertex_comm

/-! ### The smooth icosahedron -/

/-- The corners of the vertices that `buildVerticesSmooth` begins with. -/
def smoothCorners : List Corner := nonSharedCorners ++ sharedCorners

/-- Its triangles. -/
def smoothFaces : List (Corner × Corner × Corner) :=
  smoothIndices.map (mapTriangle fun k => smoothCorners.getD k ⟨0, 0, 0⟩)

def smoothNet : List LatticeTriangle := smoothFaces.map (mapTriangle Corner.point)

theorem unitTriangle_smoothNet : ∀ t ∈ smoothNet, UnitTriangle t := by decide

theorem placed_smoothCorners : ∀ c ∈ smoothCorners, c.Placed := by decide

theorem isVertex_smoothNet : ∀ c ∈ smoothCorners, IsVertex smoothNet c.point := by
  simp only [isVertex_iff_corner]
  decide

theorem meshOf_smoothCorners : MeshOf smoothCorners smoothIndices smoothFaces := rfl

theorem Arrays.OnLattice.addSmoothCorner {arrays : Arrays K}
    (h : arrays.OnLattice smoothNet (start cmath radius)) {c : Corner} (hc : c ∈ smoothCorners) :
    ∃ arrays', Icosphere.addSmoothCorner cmath
        (computeIcosahedronVertices cmath radius) arrays c = .ok arrays' ∧
      arrays.Has smoothNet (start cmath radius) c.point arrays' (arrays'.texCoords.length - 1) ∧
      arrays'.attribs = arrays.attribs ++ [start cmath radius c.point] := by
  rw [Icosphere.addSmoothCorner, (placed_smoothCorners c hc).read]
  exact ⟨_, rfl, h.addAttribs _ (isVertex_smoothNet c hc), attribs_addAttribs h.aligned _ _ _⟩

theorem Corner.Placed.texCoord_eq {c : Corner} (hc : c.Placed) :
    (c.texCoord : Vec2 K) = (start cmath radius c.point).2 := by
  have hread : c.read (computeIcosahedronVertices cmath radius) = _ := hc.read
  rw [Corner.read, Outcome.bind_eq_ok] at hread
  obtain ⟨v, -, hv⟩ := hread
  exact congrArg Prod.snd (Except.ok.inj hv)

/-- The first loop puts the corners into the arrays. -/
theorem exists_nonSharedCorners (cmath : CMath K) (radius : K) :
    ∃ arrays, nonSharedCorners.foldlM (addSmoothCorner cmath
        (computeIcosahedronVertices cmath radius)) {} = .ok arrays ∧
      arrays.OnLattice smoothNet (start cmath radius) ∧
      arrays.attribs = nonSharedCorners.map fun c => start cmath radius c.point := by
  refine Outcome.foldlM_invariant (I := fun before arrays =>
    Arrays.OnLattice arrays smoothNet (start cmath radius) ∧
      arrays.attribs = before.map fun c : Corner => start cmath radius c.point) ?_ ?_
  · exact ⟨⟨⟨rfl, rfl⟩, fun _ h => (List.not_mem_nil h).elim, fun _ h => (List.not_mem_nil h).elim⟩,
      rfl⟩
  · rintro before c arrays hc ⟨hlattice, hattribs⟩
    obtain ⟨arrays', harrays', hhas, hattribs'⟩ :=
      hlattice.addSmoothCorner (List.mem_append_left _ hc)
    refine ⟨arrays', harrays', hhas.onLattice, ?_⟩
    rw [hattribs', hattribs, List.map_append]
    rfl

/-- The second puts those that are shared into the map as well. -/
theorem exists_sharedCorners {arrays : Arrays K}
    (h : arrays.OnLattice smoothNet (start cmath radius))
    (hattribs : arrays.attribs = nonSharedCorners.map fun c => start cmath radius c.point) :
    ∃ arrays', sharedCorners.foldlM (addSharedCorner cmath
        (computeIcosahedronVertices cmath radius)) arrays = .ok arrays' ∧
      arrays'.OnLattice smoothNet (start cmath radius) ∧
      arrays'.attribs = smoothCorners.map fun c => start cmath radius c.point := by
  refine Outcome.foldlM_invariant (I := fun before arrays =>
    Arrays.OnLattice arrays smoothNet (start cmath radius) ∧
      arrays.attribs =
        (nonSharedCorners ++ before).map fun c : Corner => start cmath radius c.point)
      ?_ ?_
  · exact ⟨h, by rw [List.append_nil, hattribs]⟩
  · rintro before c arrays hc ⟨hlattice, hattribs⟩
    have hmem : c ∈ smoothCorners := List.mem_append_right _ hc
    obtain ⟨arrays', harrays', hhas, hattribs'⟩ := hlattice.addSmoothCorner hmem
    refine ⟨arrays'.share c.texCoord, ?_, ?_, ?_⟩
    · rw [addSharedCorner, harrays']
      rfl
    · rw [(placed_smoothCorners c hmem).texCoord_eq]
      exact hhas.share.onLattice
    · rw [← List.append_assoc, List.map_append, ← hattribs]
      exact hattribs'

theorem exists_smoothIcosahedron (cmath : CMath K) (radius : K) :
    ∃ arrays, smoothIcosahedron cmath radius = .ok arrays ∧
      arrays.OnLattice smoothNet (start cmath radius) ∧
      MeshOf arrays.attribs arrays.indices (smoothNet.map (mapTriangle (start cmath radius))) := by
  obtain ⟨arrays₁, harrays₁, hlattice₁, hattribs₁⟩ := exists_nonSharedCorners cmath radius
  obtain ⟨arrays₂, harrays₂, hlattice₂, hattribs₂⟩ := exists_sharedCorners hlattice₁ hattribs₁
  refine ⟨{ arrays₂ with indices := smoothIndices }, ?_, ?_, ?_⟩
  · rw [smoothIcosahedron, harrays₁, Outcome.ok_bind, harrays₂]
    rfl
  · exact ⟨⟨hlattice₂.aligned.normals, hlattice₂.aligned.texCoords⟩, hlattice₂.points,
      hlattice₂.shared⟩
  · have hmesh := meshOf_smoothCorners.map fun c => start cmath radius c.point
    rw [← hattribs₂] at hmesh
    rw [smoothNet, List.map_map]
    exact hmesh

/-! ### Flat shading -/

section
variable [LinearOrder K]

/-- The arrays stand for these triangles, which have vertices of their own with the normal of the
triangle. -/
structure Arrays.Shows (cmath : CMath K) (arrays : Arrays K)
    (T : List (Attribs K × Attribs K × Attribs K)) : Prop where
  aligned : arrays.Aligned
  length : arrays.vertices.length = 3 * T.length
  mesh : MeshOf arrays.attribs arrays.indices T
  corners : ∀ c ∈ arrays.attribs, IsVertex T c
  normals : ∀ n ∈ arrays.normals, ∃ t ∈ T, n = computeFaceNormal cmath t.1.1 t.2.1.1 t.2.2.1

variable {arrays tmp : Arrays K}
  {T : List (Attribs K × Attribs K × Attribs K)}

theorem Arrays.Shows.addTriangle (h : arrays.Shows cmath T) (c1 c2 c3 : Attribs K) :
    (arrays.addTriangle cmath c1 c2 c3).Shows cmath (T ++ [(c1, c2, c3)]) := by
  have hattribs : (arrays.addTriangle cmath c1 c2 c3).attribs = arrays.attribs ++ [c1, c2, c3] := by
    rw [Arrays.attribs, Arrays.addTriangle, List.zip_append h.aligned.texCoords.symm]
    rfl
  refine ⟨⟨?_, ?_⟩, ?_, ?_, ?_, ?_⟩
  · simp [Arrays.addTriangle, h.aligned.normals]
  · simp [Arrays.addTriangle, h.aligned.texCoords]
  · simp only [Arrays.addTriangle, List.length_append, h.length, List.length_cons, List.length_nil]
    ring
  · have hnew : MeshOf [c1, c2, c3] [(0, 1, 2)] [(c1, c2, c3)] := rfl
    have hjoin := h.mesh.join hnew
    rw [length_attribs h.aligned] at hjoin
    rw [hattribs]
    exact hjoin
  · intro c hc
    rw [hattribs, List.mem_append] at hc
    rw [isVertex_append]
    refine hc.imp (h.corners c) fun hc => isVertex_iff_corner.mpr ⟨_, List.mem_singleton_self _, ?_⟩
    simpa using hc
  · intro n hn
    obtain hn | hn := List.mem_append.mp hn
    · obtain ⟨t, ht, hn⟩ := h.normals n hn
      exact ⟨t, List.mem_append_left _ ht, hn⟩
    · refine ⟨_, List.mem_append_right _ (List.mem_singleton_self _), ?_⟩
      simpa using hn

theorem Arrays.Shows.addFlatFace (h : arrays.Shows cmath T) {face : Corner × Corner × Corner}
    (h₁ : face.1.Placed) (h₂ : face.2.1.Placed) (h₃ : face.2.2.Placed) :
    ∃ arrays', Icosphere.addFlatFace cmath (computeIcosahedronVertices cmath radius) arrays face =
        .ok arrays' ∧
      arrays'.Shows cmath (T ++ [mapTriangle (fun c => start cmath radius c.point) face]) := by
  refine ⟨_, ?_, h.addTriangle _ _ _⟩
  rw [Icosphere.addFlatFace, h₁.read, h₂.read, h₃.read]
  rfl

theorem exists_flatIcosahedron (cmath : CMath K) (radius : K) : ∃ arrays,
    flatIcosahedron cmath radius = .ok arrays ∧
    arrays.Shows cmath (flatNet.map (mapTriangle (start cmath radius))) := by
  rw [flatNet, List.map_map]
  refine Outcome.foldlM_invariant (I := fun before arrays => Arrays.Shows cmath arrays
    (before.map (mapTriangle (start cmath radius) ∘ mapTriangle Corner.point))) ?_ ?_
  · exact ⟨⟨rfl, rfl⟩, rfl, MeshOf.nil, fun _ h => (List.not_mem_nil h).elim,
      fun _ h => (List.not_mem_nil h).elim⟩
  · intro before face arrays hface harrays
    obtain ⟨h₁, h₂, h₃⟩ := placed_flatFaces face hface
    rw [List.map_append]
    exact harrays.addFlatFace h₁ h₂ h₃

theorem Arrays.Shows.addTriangles (h : arrays.Shows cmath T)
    (L : List (Attribs K × Attribs K × Attribs K)) :
    (L.foldl (fun arrays c => arrays.addTriangle cmath c.1 c.2.1 c.2.2) arrays).Shows cmath
      (T ++ L) := by
  induction L generalizing arrays T with
  | nil => rwa [List.append_nil]
  | cons c L ih =>
    have hrest := ih (h.addTriangle c.1 c.2.1 c.2.2)
    rwa [List.append_assoc] at hrest

/-- A turn adds the four triangles of a triangle. -/
theorem subdivideFlatTriangle_eq {t : Nat × Nat × Nat}
    {c : Attribs K × Attribs K × Attribs K}
    (hc : tmp.attribs[t.1]? = some c.1 ∧ tmp.attribs[t.2.1]? = some c.2.1 ∧
      tmp.attribs[t.2.2]? = some c.2.2) :
    subdivideFlatTriangle cmath radius tmp arrays t =
      .ok ((subdivide id (halfAttribs cmath radius) c).foldl
        (fun arrays c => arrays.addTriangle cmath c.1 c.2.1 c.2.2) arrays) := by
  obtain ⟨h₁, h₂, h₃⟩ := hc
  simp only [subdivideFlatTriangle, (elementAt_of_attribs h₁).1, (elementAt_of_attribs h₁).2,
    (elementAt_of_attribs h₂).1, (elementAt_of_attribs h₂).2, (elementAt_of_attribs h₃).1,
    (elementAt_of_attribs h₃).2, Outcome.ok_bind, Outcome.pure_eq_ok]
  rfl

theorem exists_subdivideFlat (h : tmp.Shows cmath T) :
    ∃ arrays, tmp.indices.foldlM (subdivideFlatTriangle cmath radius tmp)
        { sharedIndices := tmp.sharedIndices } = .ok arrays ∧
      arrays.Shows cmath (T.flatMap (subdivide id (halfAttribs cmath radius))) := by
  refine Outcome.foldlM_forall₂ (I := fun before arrays => Arrays.Shows cmath arrays
    (before.flatMap (subdivide id (halfAttribs cmath radius)))) h.mesh.forall₂ ?_ ?_
  · exact ⟨⟨rfl, rfl⟩, rfl, MeshOf.nil, fun _ h => (List.not_mem_nil h).elim,
      fun _ h => (List.not_mem_nil h).elim⟩
  · intro before t c arrays _ hc harrays
    rw [List.flatMap_append, List.flatMap_singleton]
    exact ⟨_, subdivideFlatTriangle_eq hc, harrays.addTriangles _⟩

theorem exists_buildVerticesFlat (cmath : CMath K) (radius : K) (n : Nat) :
    ∃ arrays, buildVerticesFlat cmath radius n = .ok arrays ∧
      arrays.Shows cmath ((latticeNet flatNet n).map (mapTriangle (attribsAt cmath radius n))) := by
  obtain ⟨arrays₀, harrays₀, hshows₀⟩ := exists_flatIcosahedron cmath radius
  rw [buildVerticesFlat, harrays₀, Outcome.ok_bind, subdivideVerticesFlat]
  refine Outcome.foldlM_range (I := fun k arrays => Arrays.Shows cmath arrays
    ((latticeNet flatNet k).map (mapTriangle (attribsAt cmath radius k)))) hshows₀ ?_ n
  intro k arrays harrays
  rw [latticeNet, attribsAt, refined,
    map_refine halfAttribs_comm (unitTriangle_latticeNet unitTriangle_flatNet)]
  exact exists_subdivideFlat harrays

/-! ### Smooth shading -/

variable {N : List LatticeTriangle} {f : ℤ × ℤ → Attribs K}

/-- Whether or not a vertex counts as shared, the index is one of a vertex at its point. -/
theorem Arrays.OnLattice.addSubVertexAttribs (h : arrays.OnLattice N f)
    (hf : ∀ p q, (f p).2 = (f q).2 → p = q) (n : Vec3 K) {p : ℤ × ℤ} (hp : IsVertex N p) :
    ∃ arrays' index, Icosphere.addSubVertexAttribs arrays (f p).1 n (f p).2 = (arrays', index) ∧
      arrays.Has N f p arrays' index := by
  unfold Icosphere.addSubVertexAttribs
  split
  · split
    · exact ⟨_, _, rfl, (h.addAttribs n hp).share⟩
    · next entry hfind =>
      obtain ⟨c, hc, hkey⟩ := h.shared entry (List.mem_of_find?_eq_some hfind)
      have hsame := List.find?_some hfind
      obtain ⟨q, -, rfl⟩ := h.points c (List.mem_of_getElem? hc)
      obtain rfl : q = p := by
        refine hf q p (hkey.trans ?_)
        obtain ⟨hx, hy⟩ := of_decide_eq_true hsame
        exact congr (congrArg Vec2.mk hx) hy
      exact ⟨_, _, rfl, h, ⟨[], (List.append_nil _).symm⟩, hc, rfl⟩
  · exact ⟨_, _, rfl, h.addAttribs n hp⟩

variable {g : ℤ × ℤ → Attribs K}

/-- A turn puts the middles of the sides of a triangle on the finer lattice. -/
theorem Arrays.OnLattice.subdivideSmoothTriangle
    (h : arrays.OnLattice (N.flatMap latticeSubdivide) g)
    (hg : ∀ p q, (g p).2 = (g q).2 → p = q) (hdouble : ∀ p, g (p + p) = f p)
    (hadd : ∀ {p q}, Adjacent p q → g (p + q) = halfAttribs cmath radius (f p) (f q))
    {before : List LatticeTriangle}
    (hmesh : MeshOf arrays.attribs arrays.indices (before.map (mapTriangle g)))
    {t : Nat × Nat × Nat} {u : LatticeTriangle} (hu : u ∈ N) (hunit : UnitTriangle u)
    (h₁ : arrays.attribs[t.1]? = some (f u.1)) (h₂ : arrays.attribs[t.2.1]? = some (f u.2.1))
    (h₃ : arrays.attribs[t.2.2]? = some (f u.2.2)) :
    ∃ arrays', Icosphere.subdivideSmoothTriangle cmath radius arrays t = .ok arrays' ∧
      arrays'.OnLattice (N.flatMap latticeSubdivide) g ∧
      (∃ more, arrays'.attribs = arrays.attribs ++ more) ∧
      MeshOf arrays'.attribs arrays'.indices
        ((before ++ latticeSubdivide u).map (mapTriangle g)) := by
  obtain ⟨i1, i2, i3⟩ := t
  obtain ⟨p1, p2, p3⟩ := u
  dsimp only at h₁ h₂ h₃
  obtain ⟨hvertex1, hvertex2, hvertex3⟩ := isVertex_latticeSubdivide hu
  obtain ⟨arrays1, newI1, heq1, has1⟩ := h.addSubVertexAttribs hg
    (computeVertexNormal cmath (g (p1 + p2)).1) hvertex1
  obtain ⟨arrays2, newI2, heq2, has2⟩ := has1.onLattice.addSubVertexAttribs hg
    (computeVertexNormal cmath (g (p2 + p3)).1) hvertex2
  obtain ⟨arrays3, newI3, heq3, has3⟩ := has2.onLattice.addSubVertexAttribs hg
    (computeVertexNormal cmath (g (p1 + p3)).1) hvertex3
  refine ⟨{ arrays3 with indices := arrays3.indices ++
      [(i1, newI1, newI3), (newI1, i2, newI2), (newI1, newI2, newI3), (newI3, newI2, i3)] },
    ?_, ?_, ?_, ?_⟩
  · dsimp only at heq1 heq2 heq3
    rw [hadd hunit.first] at heq1
    rw [hadd hunit.second] at heq2
    rw [hadd hunit.third] at heq3
    dsimp only [halfAttribs, halfVertex] at heq1 heq2 heq3
    simp only [Icosphere.subdivideSmoothTriangle, elementAt_of_attribs h₁, elementAt_of_attribs h₂,
      elementAt_of_attribs h₃, Outcome.ok_bind, Outcome.pure_eq_ok, heq1, heq2, heq3]
  · exact ⟨⟨has3.onLattice.aligned.normals, has3.onLattice.aligned.texCoords⟩,
      has3.onLattice.points, has3.onLattice.shared⟩
  · obtain ⟨more1, hmore1⟩ := has1.extends_attribs
    obtain ⟨more2, hmore2⟩ := has2.extends_attribs
    obtain ⟨more3, hmore3⟩ := has3.extends_attribs
    refine ⟨more1 ++ (more2 ++ more3), ?_⟩
    rw [← List.append_assoc, ← List.append_assoc, ← hmore1, ← hmore2, ← hmore3]
    rfl
  · rw [List.map_append]
    refine (has3.mesh (has2.mesh (has1.mesh hmesh))).append ?_
    have hold {k : Nat} {c : Attribs K} (hk : arrays.attribs[k]? = some c) :
        arrays3.attribs[k]? = some c := has3.attribs (has2.attribs (has1.attribs hk))
    have hfirst := has3.attribs (has2.attribs has1.vertex)
    have hsecond := has3.attribs has2.vertex
    simp [MeshOf, latticeSubdivide, subdivide, mapTriangle, hold h₁, hold h₂, hold h₃, hfirst,
      hsecond, has3.vertex, hdouble]

theorem exists_subdivideSmooth (h : arrays.OnLattice N f) (hg : ∀ p q, (g p).2 = (g q).2 → p = q)
    (hdouble : ∀ p, g (p + p) = f p)
    (hadd : ∀ {p q}, Adjacent p q → g (p + q) = halfAttribs cmath radius (f p) (f q))
    (hN : ∀ u ∈ N, UnitTriangle u)
    (hmesh : MeshOf arrays.attribs arrays.indices (N.map (mapTriangle f))) :
    ∃ arrays', arrays.indices.foldlM (subdivideSmoothTriangle cmath radius)
        { arrays with indices := [] } = .ok arrays' ∧
      arrays'.OnLattice (N.flatMap latticeSubdivide) g ∧
      (∃ more, arrays'.attribs = arrays.attribs ++ more) ∧
      MeshOf arrays'.attribs arrays'.indices
        ((N.flatMap latticeSubdivide).map (mapTriangle g)) := by
  refine Outcome.foldlM_forall₂ (I := fun before arrays' =>
    Arrays.OnLattice arrays' (N.flatMap latticeSubdivide) g ∧
      (∃ more, arrays'.attribs = arrays.attribs ++ more) ∧
      MeshOf arrays'.attribs arrays'.indices
        ((before.flatMap latticeSubdivide).map (mapTriangle g)))
    (List.forall₂_map_right_iff.mp hmesh.forall₂) ?_ ?_
  · refine ⟨⟨⟨h.aligned.normals, h.aligned.texCoords⟩, ?_, h.shared⟩,
      ⟨[], (List.append_nil _).symm⟩, MeshOf.nil⟩
    -- The vertices that are there stay where they are.
    intro c hc
    obtain ⟨p, hp, rfl⟩ := h.points c hc
    exact ⟨p + p, isVertex_double hp, (hdouble p).symm⟩
  · rintro before t u arrays' hu ⟨h₁, h₂, h₃⟩ ⟨hlattice, ⟨more, hmore⟩, hmesh'⟩
    have hold {k : Nat} {c : Attribs K} (hk : arrays.attribs[k]? = some c) :
        arrays'.attribs[k]? = some c := by
      rw [hmore, List.getElem?_append_left (List.getElem?_eq_some_iff.mp hk).1, hk]
    obtain ⟨arrays'', heq, hlattice', ⟨more', hmore'⟩, hmesh''⟩ :=
      hlattice.subdivideSmoothTriangle hg hdouble hadd hmesh' hu (hN u hu) (hold h₁) (hold h₂)
        (hold h₃)
    refine ⟨arrays'', heq, hlattice', ⟨more ++ more', ?_⟩, ?_⟩
    · rw [hmore', hmore, List.append_assoc]
    · rw [List.flatMap_append, List.flatMap_singleton]
      exact hmesh''

theorem exists_buildVerticesSmooth [CharZero K] (cmath : CMath K) (radius : K) (n : Nat) :
    ∃ arrays, buildVerticesSmooth cmath radius n = .ok arrays ∧
      arrays.OnLattice (latticeNet smoothNet n) (attribsAt cmath radius n) ∧
      MeshOf arrays.attribs arrays.indices
        ((latticeNet smoothNet n).map (mapTriangle (attribsAt cmath radius n))) := by
  obtain ⟨arrays₀, harrays₀, hlattice₀, hmesh₀⟩ := exists_smoothIcosahedron cmath radius
  rw [buildVerticesSmooth, harrays₀, Outcome.ok_bind, subdivideVerticesSmooth]
  refine Outcome.foldlM_range (I := fun k arrays =>
    Arrays.OnLattice arrays (latticeNet smoothNet k) (attribsAt cmath radius k) ∧
      MeshOf arrays.attribs arrays.indices
        ((latticeNet smoothNet k).map (mapTriangle (attribsAt cmath radius k))))
    ⟨hlattice₀, hmesh₀⟩ ?_ n
  rintro k arrays ⟨hlattice, hmesh⟩
  have hinj (p q : ℤ × ℤ) (hpq : (attribsAt cmath radius (k + 1) p).2 =
      (attribsAt cmath radius (k + 1) q).2) : p = q := by
    rw [snd_attribsAt, snd_attribsAt] at hpq
    exact texCoordAt_inj hpq
  obtain ⟨arrays', heq, hlattice', -, hmesh'⟩ := exists_subdivideSmooth hlattice hinj refine_double
    (refine_add halfAttribs_comm) (unitTriangle_latticeNet unitTriangle_smoothNet) hmesh
  exact ⟨arrays', heq, hlattice', hmesh'⟩

/-! ### The two kinds of icospheres -/

/-- The flat icosahedron in the order of the smooth one: row by row. -/
theorem sameFaces_start : SameFaces flatNet smoothNet := by
  let rows (k : Nat) := (List.range 5).map fun i =>
    mapTriangle Corner.point ((flatFaces (i + 1)).getD k (⟨0, 0, 0⟩, ⟨0, 0, 0⟩, ⟨0, 0, 0⟩))
  refine ⟨rows 0 ++ ((List.zip (rows 1) (rows 2)).flatMap fun t => [t.1, t.2]) ++ rows 3, ?_, ?_⟩
  · decide
  · repeat first
    | exact .nil
    | refine .cons .refl ?_
    | refine .cons .left ?_

/-- The `int` that counts the indices before a subdivision. -/
theorem indexCount_lt {n k : Nat} (hn : n ≤ 13) (hk : k < n) : 3 * (20 * 4 ^ k) < 2 ^ 31 := by
  have hpow : 4 ^ k ≤ 4 ^ 12 := Nat.pow_le_pow_right (by decide) (by omega)
  omega

/-- A smooth icosphere has the triangles of the flat one, with the same texture coordinates. Without
a radius the middles of its sides would be divided by zero, and from the fourteenth subdivision on
the count of the indices would not be an `int`. -/
theorem build_same_faces [CharZero K] (cmath : CMath K) {radius : K} (_hr : radius ≠ 0) {n : Nat}
    (hn : n ≤ 13) :
    (∀ k < n, 3 * (20 * 4 ^ k) < 2 ^ 31) ∧
    ∃ flat smooth T T', build cmath radius n false = .ok flat ∧
      build cmath radius n true = .ok smooth ∧ MeshOf flat.attribs flat.indices T ∧
      MeshOf smooth.attribs smooth.indices T' ∧ SameFaces T T' ∧ T.length = 20 * 4 ^ n := by
  obtain ⟨flat, hflat, hshows⟩ := exists_buildVerticesFlat cmath radius n
  obtain ⟨smooth, hsmooth, -, hmesh⟩ := exists_buildVerticesSmooth cmath radius n
  refine ⟨fun k hk => indexCount_lt hn hk, flat, smooth, _, _, hflat, hsmooth, hshows.mesh, hmesh,
    (sameFaces_latticeNet sameFaces_start).map _, ?_⟩
  rw [List.length_map, length_latticeNet]
  rfl

/-- The functions of `<cmath>` with real numbers. -/
noncomputable def realCMath (PI : ℝ) : CMath ℝ :=
  { Sphere.realCMath PI with atanf := Real.arctan }

theorem build_same_faces_real :
    (∀ k < 2, 3 * (20 * 4 ^ k) < 2 ^ 31) ∧
    ∃ flat smooth T T', build (realCMath 3.1415926) 1 2 false = .ok flat ∧
      build (realCMath 3.1415926) 1 2 true = .ok smooth ∧ MeshOf flat.attribs flat.indices T ∧
      MeshOf smooth.attribs smooth.indices T' ∧ SameFaces T T' ∧ T.length = 20 * 4 ^ 2 :=
  build_same_faces _ one_ne_zero (by decide)

/-- What an icosphere of either kind is made of, in space. -/
theorem exists_build [CharZero K] (cmath : CMath K) (radius : K) (n : Nat) (smooth : Bool) :
    ∃ arrays T, build cmath radius n smooth = .ok arrays ∧ arrays.Aligned ∧
      MeshOf arrays.vertices arrays.indices T ∧ (∀ v ∈ arrays.vertices, IsVertex T v) ∧
      SameFaces ((latticeNet flatNet n).map (mapTriangle (positionAt cmath radius n))) T := by
  cases smooth with
  | false =>
    obtain ⟨arrays, harrays, hshows⟩ := exists_buildVerticesFlat cmath radius n
    refine ⟨arrays, _, harrays, hshows.aligned, meshOf_vertices hshows.aligned hshows.mesh, ?_,
      .refl _⟩
    intro v hv
    rw [← map_fst_attribs hshows.aligned] at hv
    obtain ⟨c, hc, rfl⟩ := List.mem_map.mp hv
    obtain ⟨p, hp, rfl⟩ := isVertex_map.mp (hshows.corners c hc)
    exact isVertex_map.mpr ⟨p, hp, (congrFun (fst_attribsAt n) p).symm⟩
  | true =>
    obtain ⟨arrays, harrays, hlattice, hmesh⟩ := exists_buildVerticesSmooth cmath radius n
    refine ⟨arrays, _, harrays, hlattice.aligned, meshOf_vertices hlattice.aligned hmesh, ?_,
      (sameFaces_latticeNet sameFaces_start).map _⟩
    intro v hv
    rw [← map_fst_attribs hlattice.aligned] at hv
    obtain ⟨c, hc, rfl⟩ := List.mem_map.mp hv
    obtain ⟨p, hp, rfl⟩ := hlattice.points c hc
    exact isVertex_map.mpr ⟨p, hp, (congrFun (fst_attribsAt n) p).symm⟩

/-- An icosphere of either kind has no border in space, and four times the triangles for each
subdivision. The radius and the subdivisions are bounded as above. -/
theorem build_watertight [CharZero K] (cmath : CMath K) {radius : K} (_hr : radius ≠ 0) {n : Nat}
    (hn : n ≤ 13) (smooth : Bool) :
    (∀ k < n, 3 * (20 * 4 ^ k) < 2 ^ 31) ∧
    ∃ arrays T, build cmath radius n smooth = .ok arrays ∧
      MeshOf arrays.vertices arrays.indices T ∧ Watertight T ∧ T.length = 20 * 4 ^ n := by
  obtain ⟨arrays, T, harrays, -, hmesh, -, hsame⟩ := exists_build cmath radius n smooth
  refine ⟨fun k hk => indexCount_lt hn hk, arrays, T, harrays, hmesh,
    hsame.watertight (watertight_positions n), ?_⟩
  rw [← hsame.length_eq, List.length_map, length_latticeNet]
  rfl

theorem build_watertight_real :
    (∀ k < 2, 3 * (20 * 4 ^ k) < 2 ^ 31) ∧
    ∃ arrays T, build (realCMath 3.1415926) 1 2 true = .ok arrays ∧
      MeshOf arrays.vertices arrays.indices T ∧ Watertight T ∧ T.length = 20 * 4 ^ 2 :=
  build_watertight _ one_ne_zero (by decide) true

end

end MUtils.Icosphere
