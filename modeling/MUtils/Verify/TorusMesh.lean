import MUtils.Geometry.StandardShapes
import MUtils.Theory.TriangleStrips

/-!
# The mesh of a torus

The loops of `shape_create_torus` build `m` strips of `n + 1` pairs of vertices. The indices of a
pair's triangles are computed from a counter that the loops keep beside the vertices; the invariant
of the loops is that it counts the vertices of the strips so far, and then the indices are those of
`strips m n`. Flat shading copies the corners of every triangle in order.
-/

namespace MUtils

variable {K : Type}

/-! ### Strips -/

section
variable {s : StripState K} {b : Nat}

theorem StripState.addTriangles_eq (hs : s.index = b + 2) :
    s.addTriangles = { s with indices := s.indices ++ quad b } := by
  simp only [addTriangles, hs, quad, Nat.add_sub_cancel, Nat.add_succ_sub_one]

variable [Field K] (AddVertex : K → K → MeshVertex K) (stepU : K)

/-- The vertices of one strip, pair by pair; the last pair closes the ring. -/
def stripVertices (vs : List K) (u : K) : List (MeshVertex K) :=
  (vs ++ [1]).flatMap fun v => [AddVertex u v, AddVertex (u + stepU) v]

theorem length_stripVertices (vs : List K) (u : K) :
    (stripVertices AddVertex stepU vs u).length = 2 * vs.length + 2 := by
  simp only [stripVertices, List.length_flatMap, List.length_cons, List.length_nil, List.map_const',
    List.sum_replicate, List.length_append, smul_eq_mul]
  omega

variable {AddVertex stepU} [LinearOrder K] {u : K}

theorem ringStep_zero : ringStep AddVertex stepU u s 0 =
    { s.addPair AddVertex stepU u 0 with index := s.index + 2 } := by
  simp only [ringStep, lt_irrefl, if_false, StripState.addPair]

theorem ringStep_pos {v : K} (hv : 0 < v) (hs : s.index = b + 2) :
    ringStep AddVertex stepU u s v =
      { vertices := s.vertices ++ [AddVertex u v, AddVertex (u + stepU) v]
        indices := s.indices ++ quad b
        index := b + 2 + 2 } := by
  have hpair : (s.addPair AddVertex stepU u v).index = b + 2 := hs
  simp only [ringStep, if_pos hv]
  rw [StripState.addTriangles_eq hpair, hpair]
  rfl

theorem foldl_ringStep {vs : List K} (hvs : ∀ v ∈ vs, 0 < v) (hs : s.index = b + 2) :
    vs.foldl (ringStep AddVertex stepU u) s =
      { vertices := s.vertices ++ vs.flatMap fun v => [AddVertex u v, AddVertex (u + stepU) v]
        indices := s.indices ++ strip b vs.length
        index := b + 2 * vs.length + 2 } := by
  induction vs generalizing s b with
  | nil => simp [strip, ← hs]
  | cons v vs ih =>
    obtain ⟨hv, hvs⟩ := List.forall_mem_cons.mp hvs
    rw [List.foldl_cons, ringStep_pos hv hs, ih hvs rfl]
    simp only [List.append_assoc, List.flatMap_cons, List.length_cons, strip,
      StripState.mk.injEq, true_and]
    omega

theorem stripStep_eq {vs : List K} (hvs : ∀ v ∈ vs, 0 < v) :
    stripStep AddVertex stepU (0 :: vs) s u =
      { vertices := s.vertices ++ stripVertices AddVertex stepU (0 :: vs) u
        indices := s.indices ++ strip s.index (vs.length + 1)
        index := s.index + (2 * (vs.length + 1) + 2) } := by
  rw [stripStep, List.foldl_cons, ringStep_zero, foldl_ringStep hvs rfl]
  simp only [StripState.addPair]
  rw [StripState.addTriangles_eq rfl, strip_succ]
  simp only [stripVertices, List.append_assoc, List.flatMap_cons, List.flatMap_append,
    List.cons_append, List.nil_append, List.flatMap_nil, StripState.mk.injEq, true_and]
  omega

theorem foldl_stripStep (us : List K) {vs : List K} (hvs : ∀ v ∈ vs, 0 < v) :
    us.foldl (stripStep AddVertex stepU (0 :: vs)) {} =
      { vertices := us.flatMap (stripVertices AddVertex stepU (0 :: vs))
        indices := strips us.length (vs.length + 1)
        index := us.length * (2 * (vs.length + 1) + 2) } := by
  induction us using List.reverseRecOn with
  | nil => simp [strips]
  | append_singleton us u ih =>
    rw [List.foldl_append, ih, List.foldl_cons, List.foldl_nil, stripStep_eq hvs]
    simp only [List.flatMap_append, List.flatMap_singleton, List.length_append,
      List.length_singleton, strips_succ, add_one_mul]

end

/-! ### Flat shading -/

/-- The vertex is that of the index, except for its normal. -/
def CopyOf (vertices : List (MeshVertex K)) (i : Nat) (v : MeshVertex K) : Prop :=
  ∃ w, vertices[i]? = some w ∧ v = { w with normal := v.normal }

namespace TriangleMesh

/-- The positions of the indexed vertices. -/
def corners (mesh : TriangleMesh K) : List (Option (Vec3 K)) :=
  mesh.indices.map fun i => mesh.vertices[i]?.map (·.position)

def triangles (mesh : TriangleMesh K) :
    List (Option (Vec3 K) × Option (Vec3 K) × Option (Vec3 K)) :=
  triples mesh.corners

/-- `flat` has own vertices for each triangle of `smooth`, which lie where the corners of the
triangle do. -/
structure Flattens (flat smooth : TriangleMesh K) : Prop where
  vertices : flat.vertices.length = 3 * (triples smooth.indices).length
  indices : flat.indices = List.range flat.vertices.length
  triangles : flat.triangles = smooth.triangles

end TriangleMesh

theorem map_of_copies {vertices own : List (MeshVertex K)} {indices : List Nat}
    (h : List.Forall₂ (CopyOf vertices) indices own) :
    (indices.map fun i => vertices[i]?.map (·.position)) = own.map fun v => some v.position := by
  rw [← List.forall₂_eq_eq_eq, List.forall₂_map_left_iff, List.forall₂_map_right_iff]
  refine h.imp ?_
  rintro i v ⟨w, hw, hv⟩
  rw [hw, hv, Option.map_some]

theorem corners_range (own : List (MeshVertex K)) :
    TriangleMesh.corners { vertices := own, indices := List.range own.length } =
      own.map fun v => some v.position := by
  refine List.ext_getElem (by simp [TriangleMesh.corners]) fun i _ h => ?_
  have hi : i < own.length := by simpa using h
  simp only [TriangleMesh.corners, List.getElem_map, List.getElem_range,
    List.getElem?_eq_getElem hi, Option.map_some]

section
variable [Field K] (normalize : Vec3 K → Vec3 K) {vertices : List (MeshVertex K)}

theorem flatTriangle_copies {i0 i1 i2 : Nat} {p0 p1 p2 : MeshVertex K}
    (h0 : vertices[i0]? = some p0) (h1 : vertices[i1]? = some p1) (h2 : vertices[i2]? = some p2) :
    List.Forall₂ (CopyOf vertices) [i0, i1, i2] (flatTriangle normalize p0 p1 p2) :=
  .cons ⟨p0, h0, rfl⟩ (.cons ⟨p1, h1, rfl⟩ (.cons ⟨p2, h2, rfl⟩ .nil))

theorem flatLoop_ok {indices : List Nat} (hlength : 3 ∣ indices.length)
    (hlt : ∀ i ∈ indices, i < vertices.length) (tri : Nat) (flat : TriangleMesh K) :
    ∃ own, List.Forall₂ (CopyOf vertices) indices own ∧
      flatLoop normalize vertices indices tri flat =
        .ok { vertices := flat.vertices ++ own
              indices := flat.indices ++ List.range' tri indices.length } := by
  induction indices, hlength using triples_induction generalizing tri flat with
  | nil => exact ⟨[], .nil, by simp [flatLoop]⟩
  | cons i0 i1 i2 indices _ _ ih =>
    simp only [List.forall_mem_cons] at hlt
    obtain ⟨h0, h1, h2, hlt⟩ := hlt
    have h0 := List.getElem?_eq_getElem h0
    have h1 := List.getElem?_eq_getElem h1
    have h2 := List.getElem?_eq_getElem h2
    obtain ⟨own, hown, hloop⟩ := ih hlt (tri + 3)
      { vertices := flat.vertices ++ flatTriangle normalize vertices[i0] vertices[i1] vertices[i2]
        indices := flat.indices ++ [tri, tri + 1, tri + 2] }
    refine ⟨_, List.rel_append (flatTriangle_copies normalize h0 h1 h2) hown, ?_⟩
    simp only [flatLoop, Outcome.elementAt_eq_ok.mpr h0, Outcome.elementAt_eq_ok.mpr h1,
      Outcome.elementAt_eq_ok.mpr h2, Outcome.ok_bind, hloop, List.append_assoc, List.length_cons,
      List.range'_succ, List.cons_append, List.nil_append]

/-- Flat shading of a mesh of whole triangles. -/
theorem flatLoop_flattens {smooth : TriangleMesh K} (hlength : 3 ∣ smooth.indices.length)
    (hlt : ∀ i ∈ smooth.indices, i < smooth.vertices.length) :
    ∃ flat, flatLoop normalize smooth.vertices smooth.indices 0 {} = .ok flat ∧
      flat.Flattens smooth ∧
      List.Forall₂ (CopyOf smooth.vertices) smooth.indices flat.vertices := by
  obtain ⟨own, hown, hloop⟩ := flatLoop_ok normalize hlength hlt 0 {}
  have hcount : own.length = smooth.indices.length := hown.length_eq.symm
  refine ⟨{ vertices := own, indices := List.range own.length }, ?_, ⟨?_, rfl, ?_⟩, hown⟩
  · rw [hloop, hcount, List.range_eq_range']
    rfl
  · rw [hcount]
    exact length_triples hlength
  · rw [TriangleMesh.triangles, corners_range, ← map_of_copies hown]
    rfl

end

/-! ### The mesh -/

/-- A mesh of `m` strips of `n + 1` pairs. -/
structure TriangleMesh.IsStrips (m n : Nat) (mesh : TriangleMesh K) : Prop where
  vertices : mesh.vertices.length = m * (2 * n + 2)
  count : mesh.indices.length = 3 * (2 * m * n)
  triangles : (triples mesh.indices).length = 2 * m * n
  lt : ∀ i ∈ mesh.indices, i < mesh.vertices.length
  joins : ∀ t ∈ triples mesh.indices, ∃ s < m, ∃ j < n, JoinsPairs n s j t

section
variable [Field K] [LinearOrder K] (AddVertex : K → K → MeshVertex K) (stepU : K) (us : List K)
  {vs : List K} (hvs : ∀ v ∈ vs, 0 < v)

include hvs

theorem stripMesh_eq : stripMesh AddVertex stepU us (0 :: vs) =
    { vertices := us.flatMap (stripVertices AddVertex stepU (0 :: vs))
      indices := strips us.length (vs.length + 1) } := by
  rw [stripMesh, foldl_stripStep us hvs]

theorem stripMesh_isStrips :
    (stripMesh AddVertex stepU us (0 :: vs)).IsStrips us.length (vs.length + 1) := by
  have hvertices : (us.flatMap (stripVertices AddVertex stepU (0 :: vs))).length =
      us.length * (2 * (vs.length + 1) + 2) := by
    simp only [List.length_flatMap, length_stripVertices, List.length_cons, List.map_const',
      List.sum_replicate, smul_eq_mul]
  have hcount := length_strips us.length (vs.length + 1)
  rw [stripMesh_eq AddVertex stepU us hvs]
  refine ⟨hvertices, hcount, ?_, fun i hi => ?_, fun t ht => joinsPairs_of_mem_strips ht⟩
  · exact Nat.eq_of_mul_eq_mul_left three_pos ((length_triples ⟨_, hcount⟩).symm.trans hcount)
  · rw [hvertices]
    exact lt_of_mem_strips hi

theorem torusMesh_ok (normalize : Vec3 K → Vec3 K) (smooth : Bool) :
    ∃ mesh, torusMesh normalize AddVertex stepU us (0 :: vs) smooth = .ok mesh ∧
      mesh.vertices.length =
        (if smooth then us.length * (2 * (vs.length + 1) + 2)
          else 3 * (2 * us.length * (vs.length + 1))) ∧
      (∀ i ∈ mesh.indices, i < mesh.vertices.length) ∧
      ∀ v ∈ mesh.vertices, ∃ u w, v.color = (AddVertex u w).color := by
  have hstrips := stripMesh_isStrips AddVertex stepU us hvs
  have hcolor : ∀ v ∈ (stripMesh AddVertex stepU us (0 :: vs)).vertices,
      ∃ u w, v.color = (AddVertex u w).color := by
    rw [stripMesh_eq AddVertex stepU us hvs]
    simp only [stripVertices, List.mem_flatMap, List.mem_cons, List.not_mem_nil, or_false]
    rintro _ ⟨u, -, w, -, rfl | rfl⟩
    exacts [⟨u, w, rfl⟩, ⟨u + stepU, w, rfl⟩]
  cases smooth with
  | true => exact ⟨_, rfl, hstrips.vertices, hstrips.lt, hcolor⟩
  | false =>
    obtain ⟨flat, hflat, hflattens, hcopies⟩ :=
      flatLoop_flattens normalize ⟨_, hstrips.count⟩ hstrips.lt
    refine ⟨flat, hflat, hflattens.vertices.trans (by rw [hstrips.triangles]; rfl), ?_, ?_⟩
    · rw [hflattens.indices]
      exact fun i hi => List.mem_range.mp hi
    · intro v hv
      obtain ⟨i, -, w, hw, hcopy⟩ := Outcome.exists_of_mem_right hcopies hv
      rw [hcopy]
      exact hcolor w (List.mem_of_getElem? hw)

/-- **The mesh is well formed**, whatever its vertices are and however often the loops run, as long
as `v` is zero at first and then positive. -/
theorem torusMesh_wellFormed (normalize : Vec3 K → Vec3 K) :
    ∃ smooth flat, torusMesh normalize AddVertex stepU us (0 :: vs) true = .ok smooth ∧
      torusMesh normalize AddVertex stepU us (0 :: vs) false = .ok flat ∧
      smooth.vertices = us.flatMap (stripVertices AddVertex stepU (0 :: vs)) ∧
      smooth.IsStrips us.length (0 :: vs).length ∧ flat.Flattens smooth := by
  have hstrips := stripMesh_isStrips AddVertex stepU us hvs
  obtain ⟨flat, hflat, hflattens, -⟩ :=
    flatLoop_flattens normalize ⟨_, hstrips.count⟩ hstrips.lt
  refine ⟨_, flat, rfl, hflat, ?_, hstrips, hflattens⟩
  rw [stripMesh_eq AddVertex stepU us hvs]

end

theorem torusMesh_wellFormed_two : (∀ v ∈ [(1 / 2 : ℚ)], 0 < v) ∧
    ∃ smooth flat : TriangleMesh ℚ,
      torusMesh id (fun u v => ⟨⟨u, v, 0⟩, ⟨u, v⟩, ⟨0, 0, 1⟩, ⟨1, 1, 1, 1⟩⟩) (1 / 2) [0, 1 / 2]
        [0, 1 / 2] true = .ok smooth ∧
      torusMesh id (fun u v => ⟨⟨u, v, 0⟩, ⟨u, v⟩, ⟨0, 0, 1⟩, ⟨1, 1, 1, 1⟩⟩) (1 / 2) [0, 1 / 2]
        [0, 1 / 2] false = .ok flat ∧
      smooth.IsStrips 2 2 ∧ flat.Flattens smooth := by
  have hvs : ∀ v ∈ [(1 / 2 : ℚ)], 0 < v := by simp
  obtain ⟨smooth, flat, hsmooth, hflat, -, hstrips, hflattens⟩ :=
    torusMesh_wellFormed (fun u v => ⟨⟨u, v, 0⟩, ⟨u, v⟩, ⟨0, 0, 1⟩, ⟨1, 1, 1, 1⟩⟩) (1 / 2)
      [0, 1 / 2] hvs id
  exact ⟨hvs, smooth, flat, hsmooth, hflat, hstrips, hflattens⟩

/-! ### The loops in exact arithmetic -/

section
variable [Field K] [LinearOrder K] [IsStrictOrderedRing K]

theorem loopValues_eq {step x : K} {k fuel : Nat} (hlt : ∀ j < k, x + j * step < 1)
    (hle : 1 ≤ x + k * step) (hfuel : k < fuel) :
    loopValues step fuel x = .ok ((List.range k).map fun j : Nat => x + j * step) := by
  induction k generalizing x fuel with
  | zero =>
    obtain ⟨fuel, rfl⟩ := Nat.exists_eq_add_one_of_ne_zero hfuel.ne_bot
    have hx : ¬x < 1 := by simpa using hle
    rw [loopValues, if_neg hx]
    rfl
  | succ k ih =>
    obtain ⟨fuel, rfl⟩ := Nat.exists_eq_add_one_of_ne_zero (Nat.ne_zero_of_lt hfuel)
    have hx : x < 1 := by simpa using hlt 0 k.succ_pos
    have hstep (j : Nat) : x + step + j * step = x + (j + 1 : Nat) * step := by
      push_cast
      ring
    have hrest := ih (fun j hj => (hstep j).trans_lt (hlt (j + 1) (Nat.succ_lt_succ hj)))
      (hle.trans_eq (hstep k).symm) (Nat.lt_of_succ_lt_succ hfuel)
    simp only [loopValues, if_pos hx, hrest, hstep, List.range_succ_eq_map, Outcome.ok_bind,
      Outcome.pure_eq_ok, List.map_cons, List.map_map, Nat.cast_zero, zero_mul, add_zero]
    rfl

theorem vertexCount_bounds (smooth : Bool) {m n : Nat} (hm : 1 ≤ m ∧ m ≤ 50)
    (hn : 1 ≤ n ∧ n ≤ 50) :
    0 < (if smooth then m * (2 * n + 2) else 3 * (2 * m * n)) ∧
      (if smooth then m * (2 * n + 2) else 3 * (2 * m * n)) ≤ 15000 := by
  have hpos : 0 < m * n := Nat.mul_pos hm.1 hn.1
  have hle : m * n ≤ 50 * 50 := Nat.mul_le_mul hm.2 hn.2
  have hstrip : m * (2 * n + 2) = 2 * (m * n) + 2 * m := by ring
  have hflat : 3 * (2 * m * n) = 6 * (m * n) := by ring
  rw [hstrip, hflat]
  split <;> omega

/-- The number of turns of a loop that is to take `count` steps. -/
def turns (count : Nat) : Nat := max 1 count

variable (env : ShapeEnv K)

theorem stepOf_pos (count : Nat) : 0 < stepOf env count := by
  unfold stepOf
  split
  · exact one_pos.trans_le env.one_le_infinity
  · next h => exact one_div_pos.mpr (Nat.cast_pos.mpr (Nat.pos_of_ne_zero h))

theorem lt_turns_iff {count j : Nat} : j < turns count ↔ j * stepOf env count < 1 := by
  unfold stepOf turns
  split
  · next h =>
    subst h
    cases j with
    | zero => simp
    | succ j =>
      have hle : 1 ≤ (j + 1 : Nat) * env.infinity :=
        one_le_mul_of_one_le_of_one_le (Nat.one_le_cast.mpr j.succ_pos) env.one_le_infinity
      exact iff_of_false (by omega) hle.not_gt
  · next h =>
    have hcount : (0 : K) < count := Nat.cast_pos.mpr (Nat.pos_of_ne_zero h)
    rw [mul_one_div, div_lt_one hcount, Nat.cast_lt]
    omega

theorem loopValues_stepOf {count fuel : Nat} (hfuel : turns count < fuel) :
    ∃ vs, loopValues (stepOf env count) fuel 0 = .ok (0 :: vs) ∧
      (∀ v ∈ vs, 0 < v) ∧ vs.length + 1 = turns count := by
  have hlt (j : Nat) (hj : j < turns count) : 0 + j * stepOf env count < 1 :=
    (zero_add _).trans_lt ((lt_turns_iff env).mp hj)
  have hle : 1 ≤ 0 + turns count * stepOf env count := by
    rw [zero_add, ← not_lt, ← lt_turns_iff]
    exact lt_irrefl _
  obtain ⟨k, hk⟩ : ∃ k, turns count = k + 1 :=
    Nat.exists_eq_add_one_of_ne_zero (Nat.ne_of_gt (le_max_left 1 count))
  refine ⟨(List.range k).map fun j : Nat => (j + 1 : Nat) * stepOf env count, ?_, ?_, ?_⟩
  · rw [loopValues_eq hlt hle hfuel, hk, List.range_succ_eq_map]
    simp only [List.map_cons, List.map_map, Nat.cast_zero, zero_mul, zero_add]
    rfl
  · simp only [List.mem_map, forall_exists_index, and_imp, forall_apply_eq_imp_iff₂]
    exact fun j _ => mul_pos (Nat.cast_pos.mpr j.succ_pos) (stepOf_pos env count)
  · rw [List.length_map, List.length_range, hk]

/-- The colour and the offset have no part in the mesh. Its indices are far from an overflow. -/
theorem shape_create_torus_ok (size : Vec3 K) (innerRatio : K) (sides rings : Nat) (smooth : Bool) :
    ∃ mesh : TriangleMesh K,
      (∀ color off, ∃ s,
        shape_create_torus env size innerRatio sides rings smooth color off = .ok s ∧
        s.vertices = mesh.vertices ∧ s.indices = mesh.indices) ∧
      mesh.vertices ≠ [] ∧ (∀ v ∈ mesh.vertices, v.color = env.uninitialized) ∧
      ∀ i ∈ mesh.indices, i < 2 ^ 32 := by
  have hturns (count : Nat) : 1 ≤ turns (min count 50) ∧ turns (min count 50) ≤ 50 :=
    ⟨le_max_left 1 _, max_le (by norm_num) (min_le_right count 50)⟩
  obtain ⟨us', hus, -, hm⟩ := loopValues_stepOf env (Nat.lt_succ_of_le (hturns sides).2)
  obtain ⟨vs, hvs, hpos, hn⟩ := loopValues_stepOf env (Nat.lt_succ_of_le (hturns rings).2)
  obtain ⟨mesh, hmesh, hlength, hlt, hcolor⟩ := torusMesh_ok
    (torusVertex env size (max (1 / 100) (min (99 / 100) innerRatio) * (1 / 4))
      (half - max (1 / 100) (min (99 / 100) innerRatio) * (1 / 4)))
    (stepOf env (min sides 50)) (0 :: us') hpos env.normalize smooth
  rw [List.length_cons, hm, hn] at hlength
  have hcount := vertexCount_bounds smooth (hturns sides) (hturns rings)
  rw [← hlength] at hcount
  refine ⟨mesh, fun color off => ?_, ?_, ?_, ?_⟩
  · refine ⟨{ vertices := mesh.vertices, indices := mesh.indices, offset := off,
              size := ⟨size.x * 2, size.y * 2, size.z * 2⟩, bounds := boundsOf size off },
      ?_, rfl, rfl⟩
    simp only [shape_create_torus, hus, hvs, hmesh, Outcome.ok_bind, Outcome.pure_eq_ok]
  · exact List.ne_nil_of_length_pos hcount.1
  · intro v hv
    obtain ⟨u, w, h⟩ := hcolor v hv
    exact h
  · intro i hi
    have := hlt i hi
    omega

end

end MUtils
