import MUtils.Geometry.Indexer
import MUtils.Theory.Numbering

/-!
# What `geometry_index` numbers

Below `2 ^ 32` elements, `geometry_index` numbers the input by first use, where an element reaches
those that are the same up to `epsilon` and at the same distance from the plane, unless no vertex is
further away: `Find` does not return a range that ends where the sorted vertices do. From `2 ^ 32`
elements on its counter wraps around and it does not return.
-/

namespace MUtils

variable {K : Type} [Field K] [LinearOrder K] {n : Nat}
  {settings : GeometrySettings K n} {mesh : Mesh K n} {i j : Fin n}

variable (settings mesh) in
/-- The distance of a vertex from the plane. -/
def Mesh.distance (i : Fin n) : K := dot (mesh.in_vertices i) settings.m_rootPlane

/-! ### `VertexSpacialSort` -/

namespace VertexSpacialSort

theorem mem_sortedVertices (hn : n < 2 ^ 32) {v : SortedVertex K n} :
    v ∈ (new settings mesh.in_vertices).m_sortedVertices ↔
      ∃ i, v = ⟨i, mesh.distance settings i⟩ := by
  have hlt (i : Fin n) : i.val < n % 2 ^ 32 := by rw [Nat.mod_eq_of_lt hn]; exact i.isLt
  simp only [new, (settings.std.perm _).mem_iff, List.mem_ofFn, hlt, if_true, Mesh.distance,
    eq_comm]

theorem sortedVertices_sorted :
    (new settings mesh.in_vertices).m_sortedVertices.Pairwise fun a b => a.distance ≤ b.distance :=
  (settings.std.sorted _).imp not_lt.1

theorem find_eq_some_iff (hn : n < 2 ^ 32) {range : Nat × Nat} :
    (new settings mesh.in_vertices).Find (mesh.in_vertices i) = some range ↔
      (∃ j, mesh.distance settings i < mesh.distance settings j) ∧
        equalRange (new settings mesh.in_vertices).m_sortedVertices
          (·.distance < mesh.distance settings i) (mesh.distance settings i < ·.distance) =
            range := by
  have hmem : (∃ v ∈ (new settings mesh.in_vertices).m_sortedVertices,
      mesh.distance settings i < v.distance) ↔
        ∃ j, mesh.distance settings i < mesh.distance settings j := by
    simp [mem_sortedVertices hn]
  rw [← hmem, ← equalRange_ne_length_iff]
  simp only [Find, Option.ite_none_right_eq_some, Option.some.injEq]
  rfl

/-- `Find` succeeds for a vertex unless no other one is further away. -/
theorem find_isSome_iff (hn : n < 2 ^ 32) :
    ((new settings mesh.in_vertices).Find (mesh.in_vertices i)).isSome ↔
      ∃ j, mesh.distance settings i < mesh.distance settings j := by
  simp [Option.isSome_iff_exists, find_eq_some_iff hn]

/-- The range that `Find` gives out has the vertices at the same distance. -/
theorem mem_slice_find (hn : n < 2 ^ 32) {range : Nat × Nat} {v : SortedVertex K n}
    (h : (new settings mesh.in_vertices).Find (mesh.in_vertices i) = some range) :
    v ∈ slice (new settings mesh.in_vertices).m_sortedVertices range ↔
      v ∈ (new settings mesh.in_vertices).m_sortedVertices ∧
        v.distance = mesh.distance settings i := by
  obtain ⟨-, rfl⟩ := (find_eq_some_iff hn).1 h
  rw [slice_equalRange sortedVertices_sorted, List.mem_filter, decide_eq_true_eq]

end VertexSpacialSort

/-! ### One element -/

theorem markSame_apply {indices : Fin n → Int} {range : List (SortedVertex K n)}
    (hi : indices i ≠ -1) :
    markSame settings mesh i indices range j =
      if indices j = -1 ∧ (∃ v ∈ range, v.index = j) ∧ mesh.same settings i j then indices i
      else indices j := by
  induction range generalizing indices with
  | nil => simp [markSame]
  | cons v range ih =>
    by_cases hv : indices v.index = -1 ∧ mesh.same settings i v.index
    · have hne : i ≠ v.index := fun h => hi (h ▸ hv.1)
      have hstep : markSame settings mesh i indices (v :: range) =
          markSame settings mesh i (Function.update indices v.index (indices i)) range := by
        rw [markSame, List.foldl_cons, if_pos hv.1, if_pos hv.2, markSame]
      have hi' : Function.update indices v.index (indices i) i = indices i :=
        Function.update_of_ne hne ..
      rw [hstep, ih (by rwa [hi']), hi']
      by_cases hj : j = v.index
      · subst hj
        simp [hi, hv]
      · have hother : v.index ≠ j := fun h => hj h.symm
        simp [Function.update_of_ne hj, hother]
    · have hstep : markSame settings mesh i indices (v :: range) =
          markSame settings mesh i indices range := by
        rw [markSame, List.foldl_cons, ← ite_and, if_neg hv, markSame]
      rw [hstep, ih hi]
      refine if_congr ?_ rfl rfl
      simp only [List.mem_cons, exists_eq_or_imp]
      refine ⟨fun ⟨h, hrange, hsame⟩ => ⟨h, .inr hrange, hsame⟩, ?_⟩
      rintro ⟨h, rfl | hrange, hsame⟩
      · exact absurd ⟨h, hsame⟩ hv
      · exact ⟨h, hrange, hsame⟩

variable (settings mesh) in
/-- What `f` marks: what is the same, at the same distance, if there is anything further away. -/
def Mesh.reach (f j : Fin n) : Prop :=
  (∃ m, mesh.distance settings f < mesh.distance settings m) ∧
    mesh.distance settings j = mesh.distance settings f ∧ mesh.same settings f j

instance : DecidableRel (mesh.reach settings) := fun _ _ => inferInstanceAs (Decidable (_ ∧ _ ∧ _))

/-- An element without a number takes the next one and gives it to what it reaches. -/
theorem indexStep_indices (hn : n < 2 ^ 32) {s : IndexState K n} (hi : s.indices i = -1) {x : Int}
    (hx : toInt32 (s.out.out_vertices.length % 2 ^ 32) = x) (hfree : x ≠ -1) :
    (indexStep settings mesh (.new settings mesh.in_vertices) s i).indices j =
      if j = i ∨ s.indices j = -1 ∧ mesh.reach settings i j then x else s.indices j := by
  have hself : Function.update s.indices i x i = x := Function.update_self ..
  rw [indexStep, if_pos hi]
  dsimp only
  rw [List.length_append, List.length_singleton, Nat.add_sub_cancel, hx]
  cases hfind : (VertexSpacialSort.new settings mesh.in_vertices).Find (mesh.in_vertices i) with
  | some range =>
    obtain ⟨hfar, -⟩ := (VertexSpacialSort.find_eq_some_iff hn).1 hfind
    have hrange : (∃ v ∈ slice (VertexSpacialSort.new settings mesh.in_vertices).m_sortedVertices
        range, v.index = j) ↔ mesh.distance settings j = mesh.distance settings i := by
      simp only [VertexSpacialSort.mem_slice_find hn hfind, VertexSpacialSort.mem_sortedVertices hn]
      constructor
      · rintro ⟨v, ⟨⟨j, rfl⟩, hv⟩, rfl⟩
        exact hv
      · exact fun h => ⟨⟨j, mesh.distance settings j⟩, ⟨⟨j, rfl⟩, h⟩, rfl⟩
    dsimp only
    rw [markSame_apply (by rwa [hself]), hself]
    simp only [hrange]
    by_cases hj : j = i
    · subst hj
      simp [hfree]
    · simp [hj, Mesh.reach, hfar]
  | none =>
    have hreach : ¬mesh.reach settings i j := fun h => by
      have hsome := (VertexSpacialSort.find_isSome_iff hn).2 h.1
      rw [hfind] at hsome
      cases hsome
    simp only [hreach, and_false, or_false]
    exact Function.update_apply ..

/-! ### Codes of numbers -/

/-- How `indices` holds a number. -/
def code : Option Nat → Int
  | none => -1
  | some k => toInt32 k

theorem toInt32_ne {k : Nat} (hk : k < 2 ^ 32 - 1) : toInt32 k ≠ -1 := by
  unfold toInt32 Int.bmod
  dsimp only
  split <;> omega

theorem toUInt32_toInt32 {k : Nat} (hk : k < 2 ^ 32) : toUInt32 (toInt32 k) = k := by
  unfold toUInt32 toInt32 Int.bmod
  dsimp only
  split <;> omega

/-! ### The loop -/

/-- The state after the elements below `m`, for a numbering of them. -/
structure Represents (mesh : Mesh K n) (a : Numbering n) (m : Nat) (s : IndexState K n) :
    Prop where
  indices : ∀ j, s.indices j = code (a.index j)
  length : s.out.out_indices.length = m
  out_indices : ∀ j : Fin n, j.val < m → s.out.out_indices[j.val]? = a.index j
  vertices : s.out.out_vertices = a.firsts.map mesh.in_vertices
  uvs : s.out.out_uvs = a.firsts.map mesh.in_uvs
  normals : s.out.out_normals = a.firsts.map mesh.in_normals

variable {a : Numbering n} {m fuel : Nat} {s s' : IndexState K n}

/-- A number that has been given is not taken for the mark of a free element. -/
theorem code_eq_iff (hn : n < 2 ^ 32) (hvalid : a.Valid (mesh.reach settings) i) :
    code (a.index j) = -1 ↔ a.index j = none := by
  cases hj : a.index j with
  | none => exact iff_of_true rfl rfl
  | some k =>
    obtain ⟨f, hf, -⟩ := hvalid.rep j k hj
    have hk := (List.getElem?_eq_some_iff.1 hf).1
    have := hvalid.length_le
    exact iff_of_false (toInt32_ne (by omega)) (Option.some_ne_none k)

/-- A list of the first values of a function, with the next one at the end. -/
theorem getElem?_concat {l : List Nat} {f : Fin n → Option Nat} {x : Nat} (hl : l.length = i)
    (h : ∀ j : Fin n, j.val < i → l[j.val]? = f j) (hi : f i = some x) (j : Fin n)
    (hj : j.val < i + 1) : (l ++ [x])[j.val]? = f j := by
  rcases Nat.lt_succ_iff_lt_or_eq.1 hj with hj | hj
  · rw [List.getElem?_append_left (by rwa [hl]), h j hj]
  · obtain rfl : j = i := Fin.ext hj
    rw [← hl, List.getElem?_concat_length, hi]

/-- A numbered vertex only appends its number to the indices. -/
theorem Represents.step_of_some (hn : n < 2 ^ 32) (hvalid : a.Valid (mesh.reach settings) i)
    (h : Represents mesh a i s) {k : Nat} (hk : a.index i = some k) :
    Represents mesh (a.step (mesh.reach settings) i) (i + 1)
      (indexStep settings mesh (.new settings mesh.in_vertices) s i) := by
  have hlt : k < 2 ^ 32 := by
    obtain ⟨f, hf, -⟩ := hvalid.rep i k hk
    have := (List.getElem?_eq_some_iff.1 hf).1
    have := hvalid.length_le
    omega
  have hi : s.indices i ≠ -1 := by
    rw [h.indices, Ne, code_eq_iff hn hvalid, hk]
    exact nofun
  rw [Numbering.step_of_some hk, indexStep, if_neg hi]
  refine ⟨h.indices, by simp [h.length], ?_, h.vertices, h.uvs, h.normals⟩
  refine getElem?_concat h.length h.out_indices ?_
  rw [h.indices, hk, code, toUInt32_toInt32 hlt]

/-- A free vertex gets the next number, with every free vertex it reaches. -/
theorem Represents.step_of_none (hn : n < 2 ^ 32) (hvalid : a.Valid (mesh.reach settings) i)
    (h : Represents mesh a i s) (hfree : a.index i = none) :
    Represents mesh (a.step (mesh.reach settings) i) (i + 1)
      (indexStep settings mesh (.new settings mesh.in_vertices) s i) := by
  have hlength := hvalid.length_le
  have hi : s.indices i = -1 := by rw [h.indices, code_eq_iff hn hvalid, hfree]
  have hcount : s.out.out_vertices.length = a.firsts.length := by simp [h.vertices]
  have hx : toInt32 (s.out.out_vertices.length % 2 ^ 32) = toInt32 a.firsts.length := by
    rw [hcount, Nat.mod_eq_of_lt (by omega)]
  have hindices (j : Fin n) :
      (indexStep settings mesh (.new settings mesh.in_vertices) s i).indices j = _ :=
    indexStep_indices hn hi hx (toInt32_ne (by omega))
  have hstep : (a.step (mesh.reach settings) i).firsts = a.firsts ++ [i] := by
    rw [Numbering.step_of_none hfree]
  constructor
  case indices =>
    intro j
    rw [hindices, Numbering.step_of_none hfree, h.indices]
    dsimp only
    rw [apply_ite code]
    exact if_congr (by rw [code_eq_iff hn hvalid]) rfl rfl
  case length =>
    rw [indexStep, if_pos hi, List.length_append, h.length]
    rfl
  case out_indices =>
    rw [indexStep, if_pos hi]
    refine getElem?_concat h.length (fun j hj => ?_) ?_
    · obtain ⟨k, hk⟩ := Option.ne_none_iff_exists'.1 (hvalid.done j hj)
      rw [h.out_indices j hj, hk, Numbering.index_step_of_some hk]
    · rw [Numbering.step_of_none hfree]
      dsimp only
      rw [if_pos (.inl rfl), Function.update_self, List.length_append, List.length_singleton,
        Nat.add_sub_cancel, hx, toUInt32_toInt32 (by omega)]
  all_goals rw [hstep, List.map_append, indexStep, if_pos hi]
  case vertices => rw [h.vertices]; rfl
  case uvs => rw [h.uvs]; rfl
  case normals => rw [h.normals]; rfl

theorem Represents.step (hn : n < 2 ^ 32) (hvalid : a.Valid (mesh.reach settings) i)
    (h : Represents mesh a i s) :
    Represents mesh (a.step (mesh.reach settings) i) (i + 1)
      (indexStep settings mesh (.new settings mesh.in_vertices) s i) := by
  cases hfree : a.index i with
  | some k => exact h.step_of_some hn hvalid hfree
  | none => exact h.step_of_none hn hvalid hfree

theorem indexLoop_of_le (hm : n ≤ m) :
    indexLoop settings mesh (.new settings mesh.in_vertices) fuel m s = some s := by
  cases fuel <;> rw [indexLoop, dif_neg (Nat.not_lt.2 hm)]

theorem indexLoop_represents (hn : n < 2 ^ 32) (hm : m ≤ n)
    (h : Represents mesh (.upTo (mesh.reach settings) m) m s)
    (hloop : indexLoop settings mesh (.new settings mesh.in_vertices) fuel m s = some s') :
    Represents mesh (.upTo (mesh.reach settings) n) n s' := by
  induction fuel generalizing m s with
  | zero =>
    rcases hm.lt_or_eq with hlt | rfl
    · rw [indexLoop, dif_pos hlt] at hloop
      cases hloop
    · rw [indexLoop_of_le le_rfl] at hloop
      cases hloop
      exact h
  | succ fuel ih =>
    rcases hm.lt_or_eq with hlt | rfl
    · rw [indexLoop, dif_pos hlt, Nat.mod_eq_of_lt (by omega)] at hloop
      have hsucc : Numbering.upTo (mesh.reach settings) (m + 1) = _ := Numbering.upTo_succ ⟨m, hlt⟩
      have hvalid : Numbering.Valid (mesh.reach settings) _ m := Numbering.upTo_valid hm
      refine ih hlt ?_ hloop
      rw [hsucc]
      exact Represents.step (i := ⟨m, hlt⟩) hn hvalid h
    · rw [indexLoop_of_le le_rfl] at hloop
      cases hloop
      exact h

theorem indexLoop_isSome (hn : n < 2 ^ 32) (hfuel : n ≤ m + fuel) :
    (indexLoop settings mesh (.new settings mesh.in_vertices) fuel m s).isSome := by
  induction fuel generalizing m s with
  | zero =>
    rw [indexLoop_of_le (by exact hfuel)]
    rfl
  | succ fuel ih =>
    rcases Nat.lt_or_ge m n with hlt | hle
    · rw [indexLoop, dif_pos hlt, Nat.mod_eq_of_lt (by omega)]
      exact ih (by omega)
    · rw [indexLoop_of_le hle]
      rfl

/-- The counter stays below `2 ^ 32`, so it does not get to the end of more elements. -/
theorem indexLoop_eq_none (hn : 2 ^ 32 ≤ n) (hm : m < 2 ^ 32) :
    indexLoop settings mesh (.new settings mesh.in_vertices) fuel m s = none := by
  induction fuel generalizing m s with
  | zero => rw [indexLoop, dif_pos (by omega)]
  | succ fuel ih =>
    rw [indexLoop, dif_pos (by omega)]
    exact ih (Nat.mod_lt _ (by decide))

/-! ### The whole input -/

variable (settings mesh) in
theorem geometry_index_returns_iff :
    (∃ fuel out, geometry_index settings mesh fuel {} = some out) ↔ n < 2 ^ 32 := by
  constructor
  · rintro ⟨fuel, out, h⟩
    by_contra hn
    rw [geometry_index, indexLoop_eq_none (Nat.not_lt.1 hn) (by decide)] at h
    cases h
  · intro hn
    have hsome : (geometry_index settings mesh n {}).isSome := by
      rw [geometry_index, Option.isSome_map]
      exact indexLoop_isSome hn (by omega)
    exact ⟨n, Option.isSome_iff_exists.1 hsome⟩

variable {out : IndexedMesh K}

/-- What is returned, in terms of the numbering by first use. -/
theorem geometry_index_represents (h : geometry_index settings mesh fuel {} = some out) :
    ∃ s, s.out = out ∧ Represents mesh (.upTo (mesh.reach settings) n) n s := by
  have hn := (geometry_index_returns_iff settings mesh).1 ⟨fuel, out, h⟩
  obtain ⟨s, hs, rfl⟩ := Option.map_eq_some_iff.1 h
  refine ⟨s, rfl, indexLoop_represents hn (Nat.zero_le n) ?_ hs⟩
  exact ⟨fun _ => rfl, rfl, nofun, rfl, rfl, rfl⟩

/-- The output holds the input: see each field. -/
structure Mesh.IndexedBy (settings : GeometrySettings K n) (mesh : Mesh K n)
    (out : IndexedMesh K) : Prop where
  length : out.out_indices.length = n
  uvs_length : out.out_uvs.length = out.out_vertices.length
  normals_length : out.out_normals.length = out.out_vertices.length
  lt : ∀ k ∈ out.out_indices, k < out.out_vertices.length
  same : ∀ (i : Fin n) (k : Nat) (vertex : Vec3 K) (uv : Vec2 K) (normal : Vec3 K),
    out.out_indices[i.val]? = some k → out.out_vertices[k]? = some vertex →
    out.out_uvs[k]? = some uv → out.out_normals[k]? = some normal →
    vertex.epsilonEqual (mesh.in_vertices i) settings.epsilon ∧
      normal.epsilonEqual (mesh.in_normals i) settings.epsilon ∧
      uv.epsilonEqual (mesh.in_uvs i) settings.epsilon
  /-- An index is at most one more than the largest before it. -/
  le_succ : ∀ (i : Fin n) (k : Nat), out.out_indices[i.val]? = some k →
    k = 0 ∨ ∃ j < i, ∃ k', out.out_indices[j.val]? = some k' ∧ k ≤ k' + 1
  /-- The output has the elements of the input that are appended, in their order, and an index is
  new where the element itself is appended. -/
  first_use : ∃ firsts : List (Fin n), firsts.Pairwise (· < ·) ∧
    out.out_vertices = firsts.map mesh.in_vertices ∧ out.out_uvs = firsts.map mesh.in_uvs ∧
    out.out_normals = firsts.map mesh.in_normals ∧
    ∀ (i : Fin n) (k : Nat), out.out_indices[i.val]? = some k →
      ((∀ j < i, out.out_indices[j.val]? ≠ some k) ↔ i ∈ firsts) ∧
        (i ∈ firsts → firsts[k]? = some i)

theorem Mesh.same_refl [IsStrictOrderedRing K] (i : Fin n) : mesh.same settings i i := by
  simp [Mesh.same, Vec2.epsilonEqual, Vec3.epsilonEqual, settings.epsilon_pos]

variable [IsStrictOrderedRing K]

theorem geometry_index_indexedBy
    (h : geometry_index settings mesh fuel {} = some out) : mesh.IndexedBy settings out := by
  obtain ⟨s, rfl, hs⟩ := geometry_index_represents h
  have hvalid : Numbering.Valid (mesh.reach settings) _ n := Numbering.upTo_valid le_rfl
  have hindex (i : Fin n) := hs.out_indices i i.isLt
  constructor
  case length => exact hs.length
  case uvs_length => simp [hs.uvs, hs.vertices]
  case normals_length => simp [hs.normals, hs.vertices]
  case lt =>
    intro k hk
    obtain ⟨m, hm⟩ := List.mem_iff_getElem?.1 hk
    have hlt : m < n := hs.length ▸ (List.getElem?_eq_some_iff.1 hm).1
    have hk : _ = some k := (hindex ⟨m, hlt⟩).symm.trans hm
    obtain ⟨f, hf, -⟩ := hvalid.rep _ k hk
    rw [hs.vertices, List.length_map]
    exact (List.getElem?_eq_some_iff.1 hf).1
  case same =>
    intro i k vertex uv normal hk hvertex huv hnormal
    rw [hindex] at hk
    obtain ⟨f, hf, -, hsame⟩ := hvalid.rep i k hk
    rw [hs.vertices, List.getElem?_map, hf] at hvertex
    rw [hs.uvs, List.getElem?_map, hf] at huv
    rw [hs.normals, List.getElem?_map, hf] at hnormal
    cases hvertex
    cases huv
    cases hnormal
    rcases hsame with rfl | hreach
    · exact mesh.same_refl f
    · exact hreach.2.2
  case le_succ =>
    intro i k hk
    simp only [hindex] at hk ⊢
    exact hvalid.le_succ hk
  case first_use =>
    refine ⟨_, hvalid.sorted, hs.vertices, hs.uvs, hs.normals, fun i k hk => ?_⟩
    simp only [hindex] at hk ⊢
    exact ⟨hvalid.new_iff hk, hvalid.getElem?_firsts hk⟩

variable (settings mesh) in
/-- `geometry_index` returns an indexed mesh for every input that its counter can run over. -/
theorem geometry_index_indexes_iff :
    (∃ fuel out, geometry_index settings mesh fuel {} = some out ∧ mesh.IndexedBy settings out) ↔
      n < 2 ^ 32 := by
  rw [← geometry_index_returns_iff settings mesh]
  exact ⟨fun ⟨fuel, out, h, _⟩ => ⟨fuel, out, h⟩,
    fun ⟨fuel, out, h⟩ => ⟨fuel, out, h, geometry_index_indexedBy h⟩⟩

/-- Settings over the rationals, with a plane of the direction the source has. -/
def rationalSettings (n : Nat) : GeometrySettings ℚ n where
  m_rootPlane := ⟨5, 1, 8⟩
  epsilon := 1 / 2 ^ 23
  epsilon_pos := by norm_num
  std :=
    { sort := List.insertionSort fun a b => a.distance ≤ b.distance
      perm := List.perm_insertionSort _
      sorted := fun l => by
        have : Std.Total fun a b : SortedVertex ℚ n => a.distance ≤ b.distance :=
          ⟨fun a b => le_total _ _⟩
        have : IsTrans (SortedVertex ℚ n) fun a b => a.distance ≤ b.distance :=
          ⟨fun a b c => le_trans⟩
        exact (List.pairwise_insertionSort _ l).imp not_lt.2 }

/-- The same element everywhere. -/
def constantMesh (n : Nat) : Mesh ℚ n :=
  ⟨fun _ => ⟨0, 0, 0⟩, fun _ => ⟨0, 0⟩, fun _ => ⟨0, 0, 0⟩⟩

theorem geometry_index_indexes_iff_three :
    ∃ fuel out, geometry_index (rationalSettings 3) (constantMesh 3) fuel {} = some out ∧
      (constantMesh 3).IndexedBy (rationalSettings 3) out :=
  (geometry_index_indexes_iff (rationalSettings 3) (constantMesh 3)).2 (by decide)

/-- With `2 ^ 32` elements the counter never gets to the end. -/
theorem geometry_index_endless :
    ¬∃ fuel out, geometry_index (rationalSettings (2 ^ 32)) (constantMesh (2 ^ 32)) fuel {} =
      some out :=
  fun h => absurd ((geometry_index_returns_iff _ _).1 h) (by decide)

section Merging

variable {i j : Fin n} (hvertex : mesh.in_vertices i = mesh.in_vertices j)
  (huv : mesh.in_uvs i = mesh.in_uvs j) (hnormal : mesh.in_normals i = mesh.in_normals j)
include hvertex huv hnormal

theorem out_indices_eq_iff (h : geometry_index settings mesh fuel {} = some out) :
    out.out_indices[i.val]? = out.out_indices[j.val]? ↔
      i = j ∨ ∃ m, mesh.distance settings i < mesh.distance settings m := by
  obtain ⟨s, rfl, hs⟩ := geometry_index_represents h
  rw [hs.out_indices i i.isLt, hs.out_indices j j.isLt]
  have hdistance : mesh.distance settings i = mesh.distance settings j := by
    rw [Mesh.distance, hvertex, Mesh.distance]
  have hsame (f : Fin n) : mesh.same settings f i ↔ mesh.same settings f j := by
    rw [Mesh.same, hvertex, hnormal, huv, Mesh.same]
  have hreach (f : Fin n) : mesh.reach settings f i ↔ mesh.reach settings f j := by
    rw [Mesh.reach, hdistance, hsame, Mesh.reach]
  by_cases hfar : ∃ m, mesh.distance settings i < mesh.distance settings m
  · refine iff_of_true (Numbering.index_upTo_eq ?_ ?_ hreach) (.inr hfar)
    · exact ⟨hfar, hdistance.symm, (hsame i).1 (mesh.same_refl i)⟩
    · exact ⟨hdistance ▸ hfar, hdistance, (hsame j).2 (mesh.same_refl j)⟩
  · rw [or_iff_left hfar]
    have hnone (f : Fin n) : ¬mesh.reach settings f i := fun ⟨hm, heq, _⟩ => hfar (heq ▸ hm)
    have hvalid : Numbering.Valid (mesh.reach settings) _ n := Numbering.upTo_valid le_rfl
    obtain ⟨k, hk⟩ := Option.ne_none_iff_exists'.1 (hvalid.done i i.isLt)
    refine ⟨fun heq => ?_, fun heq => heq ▸ rfl⟩
    exact hvalid.eq_of_not_reach (fun f hf => hnone f ((hreach f).2 hf)) hk (heq ▸ hk) hnone

variable (settings) in
/-- Identical elements get the same index if the counter can run over the input and there is a
vertex further away from the plane, and only then; it does not matter how long the call is let run.
For such elements `Find` succeeds, and its range has the vertices at the same distance. -/
theorem geometry_index_merges_iff :
    ((∃ fuel out, geometry_index settings mesh fuel {} = some out ∧
        out.out_indices[i.val]? = out.out_indices[j.val]?) ↔
      n < 2 ^ 32 ∧ (i = j ∨ ∃ m, mesh.distance settings i < mesh.distance settings m)) ∧
    (∀ fuel out, geometry_index settings mesh fuel {} = some out →
      (out.out_indices[i.val]? = out.out_indices[j.val]? ↔
        i = j ∨ ∃ m, mesh.distance settings i < mesh.distance settings m)) ∧
    (n < 2 ^ 32 →
      let sorter := VertexSpacialSort.new settings mesh.in_vertices
      ((sorter.Find (mesh.in_vertices i)).isSome ↔
        ∃ m, mesh.distance settings i < mesh.distance settings m) ∧
      ∀ range, sorter.Find (mesh.in_vertices i) = some range → ∀ v,
        v ∈ slice sorter.m_sortedVertices range ↔
          v ∈ sorter.m_sortedVertices ∧ v.distance = mesh.distance settings i) := by
  refine ⟨?_, fun fuel out h => out_indices_eq_iff hvertex huv hnormal h,
    fun hn => ⟨VertexSpacialSort.find_isSome_iff hn,
      fun range hfind v => VertexSpacialSort.mem_slice_find hn hfind⟩⟩
  rw [← geometry_index_returns_iff settings mesh]
  constructor
  · rintro ⟨fuel, out, h, heq⟩
    exact ⟨⟨fuel, out, h⟩, (out_indices_eq_iff hvertex huv hnormal h).1 heq⟩
  · rintro ⟨⟨fuel, out, h⟩, hmerged⟩
    exact ⟨fuel, out, h, (out_indices_eq_iff hvertex huv hnormal h).2 hmerged⟩

end Merging

/-- Two identical elements and one that is further away. -/
def cornerMesh : Mesh ℚ 3 :=
  { constantMesh 3 with in_vertices := fun i => ⟨if i = 2 then 1 else 0, 0, 0⟩ }

theorem geometry_index_merges_iff_corner :
    ∃ fuel out, geometry_index (rationalSettings 3) cornerMesh fuel {} = some out ∧
      out.out_indices[0]? = out.out_indices[1]? := by
  have hfar : cornerMesh.distance (rationalSettings 3) 0 <
      cornerMesh.distance (rationalSettings 3) 2 := by decide +kernel
  exact (geometry_index_merges_iff (rationalSettings 3) (i := 0) (j := 1) rfl rfl rfl).1.2
    ⟨by decide, .inr ⟨2, hfar⟩⟩

/-- Without it, both are in the output. -/
theorem geometry_index_duplicates :
    (geometry_index (rationalSettings 2) (constantMesh 2) 2 {}).map (·.out_indices) =
      some [0, 1] := by
  decide +kernel

end MUtils
