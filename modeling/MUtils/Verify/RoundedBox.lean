import MUtils.Geometry.RoundedBox
import MUtils.Theory.CubeSurface

/-!
# The surface of a rounded box

`Create` numbers the points of a grid as it comes to them, and its faces are those of the surface of
a cube of `2 * N + 1` squares on a side. The table of numbers is read and written within its bounds,
and a face is never made of a point that has no vertex yet. The mesh is therefore a closed surface.
-/

namespace MUtils.RoundCornerBox

variable {K : Type} {n : Nat} {p q : Point} {box : Builder K}

/-! ## Numbering the points -/

def InGrid (n : Nat) (p : Point) : Prop := p.1 < n ∧ p.2.1 < n ∧ p.2.2 < n

theorem pidx_lt (hedge : box.m_N_edge = n) (hp : InGrid n p) : box.pidx p < n * n * n := by
  obtain ⟨x, y, z⟩ := p
  obtain ⟨hx, hy, hz⟩ := hp
  dsimp only at hx hy hz
  rw [Builder.pidx, hedge]
  dsimp only
  have h₁ : z * n + y < n * n := by nlinarith
  nlinarith

theorem pidx_inj (hedge : box.m_N_edge = n) (hp : InGrid n p) (hq : InGrid n q)
    (h : box.pidx p = box.pidx q) : p = q := by
  obtain ⟨x, y, z⟩ := p
  obtain ⟨x', y', z'⟩ := q
  obtain ⟨hx, hy, hz⟩ := hp
  obtain ⟨hx', hy', hz'⟩ := hq
  dsimp only at hx hy hz hx' hy' hz'
  simp only [Builder.pidx, hedge] at h
  have hdigits {a b c d : Nat} (ha : a < n) (hb : b < n) (h : c * n + a = d * n + b) :
      a = b ∧ c = d := by
    have hn : 0 < n := by omega
    have hmod : (c * n + a) % n = (d * n + b) % n := by rw [h]
    rw [Nat.mul_add_mod_of_lt ha, Nat.mul_add_mod_of_lt hb] at hmod
    exact ⟨hmod, Nat.eq_of_mul_eq_mul_right hn (by omega)⟩
  rw [← Nat.add_mul, ← Nat.add_mul] at h
  obtain ⟨rfl, hyz⟩ := hdigits hx hx' h
  obtain ⟨rfl, rfl⟩ := hdigits hy hy' hyz
  rfl

/-! ## The calls in their order -/

/-- The point is in the table, and a face has vertices to refer to. -/
def Call.Valid (n : Nat) (seen : List Point) : Call K → Prop
  | .AddVertex p _ _ => InGrid n p
  | .AddFace i j k _ => i ∈ seen ∧ j ∈ seen ∧ k ∈ seen

/-- The points that have a vertex after a call. -/
def Call.seenAfter (seen : List Point) : Call K → List Point
  | .AddVertex p _ _ => if p ∈ seen then seen else seen ++ [p]
  | .AddFace _ _ _ _ => seen

def Call.point? : Call K → Option Point
  | .AddVertex p _ _ => some p
  | .AddFace _ _ _ _ => none

def Call.face? : Call K → Option (Point × Point × Point)
  | .AddVertex _ _ _ => none
  | .AddFace i j k inversed => some (if inversed then (i, k, j) else (i, j, k))

/-- Each call is valid when its turn comes. -/
def ValidCalls (n : Nat) (seen : List Point) : List (Call K) → Prop
  | [] => True
  | call :: calls => call.Valid n seen ∧ ValidCalls n (call.seenAfter seen) calls

section
variable {call : Call K} {calls calls' : List (Call K)} {seen : List Point}

theorem mem_foldl_seenAfter :
    p ∈ calls.foldl Call.seenAfter seen ↔ p ∈ seen ∨ p ∈ calls.filterMap Call.point? := by
  induction calls generalizing seen with
  | nil => simp
  | cons call calls ih =>
    rw [List.foldl_cons, ih]
    cases call with
    | AddVertex q pos base_pos =>
      have hmem : p ∈ (Call.AddVertex q pos base_pos :: calls).filterMap Call.point? ↔
          p = q ∨ p ∈ calls.filterMap Call.point? := List.mem_cons
      rw [Call.seenAfter, hmem]
      by_cases hq : q ∈ seen
      · rw [if_pos hq]
        constructor
        · rintro (h | h)
          · exact .inl h
          · exact .inr (.inr h)
        · rintro (h | rfl | h)
          · exact .inl h
          · exact .inl hq
          · exact .inr h
      · rw [if_neg hq, List.mem_append, List.mem_singleton, or_assoc]
    | AddFace i j k inversed => rfl

theorem validCalls_append : ValidCalls n seen (calls ++ calls') ↔
    ValidCalls n seen calls ∧ ValidCalls n (calls.foldl Call.seenAfter seen) calls' := by
  induction calls generalizing seen with
  | nil => simp [ValidCalls]
  | cons call calls ih => rw [List.cons_append, ValidCalls, ValidCalls, ih, and_assoc]; rfl

theorem validCalls_flatMap {f : β → List (Call K)} {l : List β}
    (h : ∀ b ∈ l, ∀ seen, ValidCalls n seen (f b)) : ValidCalls n seen (l.flatMap f) := by
  induction l generalizing seen with
  | nil => trivial
  | cons b l ih =>
    rw [List.flatMap_cons, validCalls_append]
    exact ⟨h b List.mem_cons_self seen, ih fun c hc => h c (List.mem_cons_of_mem _ hc)⟩

/-- Calls of `AddFace` alone. -/
theorem validCalls_faces (h : ∀ call ∈ calls, call.point? = none ∧ call.Valid n seen) :
    ValidCalls n seen calls := by
  induction calls with
  | nil => trivial
  | cons call calls ih =>
    obtain ⟨⟨hpoint, hvalid⟩, hcalls⟩ := List.forall_mem_cons.mp h
    refine ⟨hvalid, ?_⟩
    cases call with
    | AddVertex => cases hpoint
    | AddFace => exact ih hcalls

end

/-! ## What the builder holds -/

variable [Field K] [LinearOrder K]

/-- What `AddVertex` stores: a vertex and its normal. -/
def placed (glm : Glm K) (radius : K) (pos base_pos : Vec3 K) : Vec3 K × Vec3 K :=
  let dir := pos - base_pos
  if 0 < glm.length dir then
    (base_pos + (glm.normalize dir).scale radius, glm.normalize dir)
  else
    (pos, glm.normalize pos)

/-- A mesh with points of the grid in place of indices. -/
structure Sketch (K : Type) where
  seen : List Point := []
  data : List (Vec3 K × Vec3 K) := []
  faces : List (Point × Point × Point) := []

def Sketch.perform (glm : Glm K) (radius : K) (sketch : Sketch K) : Call K → Sketch K
  | .AddVertex p pos base_pos =>
    if p ∈ sketch.seen then sketch
    else { sketch with
      seen := sketch.seen ++ [p]
      data := sketch.data ++ [placed glm radius pos base_pos] }
  | .AddFace i j k inversed =>
    { sketch with faces := sketch.faces ++ [if inversed then (i, k, j) else (i, j, k)] }

/-- The builder holds what the sketch says, with the numbers of the points in its table. -/
structure Draws (n : Nat) (radius : K) (sketch : Sketch K) (box : Builder K) : Prop where
  edge : box.m_N_edge = n
  radius_eq : box.m_radius = radius
  size : box.m_index_to_verts.size = n * n * n
  inGrid : ∀ p ∈ sketch.seen, InGrid n p
  nodup : sketch.seen.Nodup
  faces : ∀ t ∈ sketch.faces, t.1 ∈ sketch.seen ∧ t.2.1 ∈ sketch.seen ∧ t.2.2 ∈ sketch.seen
  length : sketch.data.length = sketch.seen.length
  index : ∀ p, InGrid n p → box.m_index_to_verts.get (box.pidx p) =
    if p ∈ sketch.seen then (sketch.seen.idxOf p : Int) else -1
  vertices : box.vertices = sketch.data.map Prod.fst
  normals : box.normals = sketch.data.map Prod.snd
  indices : box.indices = sketch.faces.map (mapTriangle sketch.seen.idxOf)

variable {glm : Glm K} {radius : K} {sketch : Sketch K}

namespace Draws

omit [Field K] [LinearOrder K] in
theorem index_get (h : Draws n radius sketch box) (hp : InGrid n p) :
    Outcome.index (box.pidx p) box.m_index_to_verts.size "m_index_to_verts" = .ok (box.pidx p) :=
  Outcome.index_ofNat (h.size ▸ pidx_lt h.edge hp)

omit [Field K] [LinearOrder K] in
theorem translateIndices (h : Draws n radius sketch box) (hp : p ∈ sketch.seen) :
    box.translateIndices p = .ok (sketch.seen.idxOf p : Int) := by
  rw [Builder.translateIndices, h.index_get (h.inGrid p hp), Outcome.ok_bind,
    h.index p (h.inGrid p hp), if_pos hp]
  rfl

theorem addVertex_old (h : Draws n radius sketch box) (hp : p ∈ sketch.seen)
    {pos base_pos : Vec3 K} : box.AddVertex glm p pos base_pos = .ok box := by
  rw [Builder.AddVertex, h.index_get (h.inGrid p hp), Outcome.ok_bind,
    h.index p (h.inGrid p hp), if_pos hp, if_neg (by omega)]
  rfl

/-- A new point gets the next number. -/
theorem addVertex_new (h : Draws n radius sketch box) (hgrid : InGrid n p) (hp : p ∉ sketch.seen)
    {pos base_pos : Vec3 K} : ∃ box', box.AddVertex glm p pos base_pos = .ok box' ∧
      Draws n radius (sketch.perform glm radius (.AddVertex p pos base_pos)) box' := by
  have hadd : box.AddVertex glm p pos base_pos = .ok
      ({ box with m_index_to_verts :=
        box.m_index_to_verts.set (box.pidx p) box.vertices.length }.push
        (placed glm radius pos base_pos).1 (placed glm radius pos base_pos).2) := by
    rw [Builder.AddVertex, h.index_get hgrid, Outcome.ok_bind, h.index p hgrid, if_neg hp,
      if_pos (by omega), placed, ← h.radius_eq]
    dsimp only
    split <;> rfl
  refine ⟨_, hadd, ?_⟩
  rw [Sketch.perform, if_neg hp]
  have hlength : box.vertices.length = sketch.seen.length := by
    rw [h.vertices, List.length_map, h.length]
  exact {
    edge := h.edge
    radius_eq := h.radius_eq
    size := h.size
    inGrid := by
      intro q hq
      rw [List.mem_append, List.mem_singleton] at hq
      obtain hq | rfl := hq
      · exact h.inGrid q hq
      · exact hgrid
    nodup := List.nodup_append'.mpr ⟨h.nodup, List.nodup_singleton p, by simpa using hp⟩
    faces := fun t ht =>
      have hseen := h.faces t ht
      ⟨List.mem_append_left _ hseen.1, List.mem_append_left _ hseen.2.1,
        List.mem_append_left _ hseen.2.2⟩
    length := by simp [h.length]
    index := by
      intro q hq
      by_cases hqp : q = p
      · subst hqp
        rw [if_pos (by simp), List.idxOf_append_of_notMem hp]
        simpa [Builder.push, Builder.pidx] using hlength
      · have hne : box.pidx q ≠ box.pidx p := fun heq => hqp (pidx_inj h.edge hq hgrid heq)
        have hget : (box.m_index_to_verts.set (box.pidx p) box.vertices.length).get (box.pidx q) =
            box.m_index_to_verts.get (box.pidx q) := Vec.get_set_of_ne hne
        refine hget.trans ((h.index q hq).trans ?_)
        by_cases hmem : q ∈ sketch.seen
        · rw [if_pos hmem, if_pos (List.mem_append_left _ hmem), List.idxOf_append_of_mem hmem]
        · rw [if_neg hmem, if_neg (by simp [hmem, hqp])]
    vertices := by simp [Builder.push, h.vertices]
    normals := by simp [Builder.push, h.normals]
    indices := by
      refine h.indices.trans (List.map_congr_left fun t ht => ?_)
      obtain ⟨h₁, h₂, h₃⟩ := h.faces t ht
      simp only [mapTriangle, List.idxOf_append_of_mem h₁, List.idxOf_append_of_mem h₂,
        List.idxOf_append_of_mem h₃] }

omit [Field K] [LinearOrder K] in
theorem length_seen_le (h : Draws n radius sketch box) : sketch.seen.length ≤ n ^ 3 := by
  rw [← List.toFinset_card_of_nodup h.nodup]
  calc sketch.seen.toFinset.card
    _ ≤ (Finset.range n ×ˢ Finset.range n ×ˢ Finset.range n).card := by
      refine Finset.card_le_card fun p hp => ?_
      have hgrid := h.inGrid p (List.mem_toFinset.mp hp)
      simpa [InGrid] using hgrid
    _ = n ^ 3 := by
      simp only [Finset.card_product, Finset.card_range]
      ring

omit [Field K] [LinearOrder K] in
/-- The numbers of the vertices are not changed by the conversion of a face. -/
theorem toUnsigned_idxOf (h : Draws n radius sketch box) (hn : n ^ 3 < 2 ^ 31)
    (hp : p ∈ sketch.seen) : Builder.toUnsigned (sketch.seen.idxOf p) = sketch.seen.idxOf p := by
  have hlt : sketch.seen.idxOf p < n ^ 3 :=
    (List.idxOf_lt_length_of_mem hp).trans_le h.length_seen_le
  rw [Builder.toUnsigned, Int.emod_eq_of_lt (by omega) (by omega), Int.toNat_natCast]

theorem addFace (h : Draws n radius sketch box) (hn : n ^ 3 < 2 ^ 31) {i j k : Point}
    {inversed : Bool} (hface : (Call.AddFace (K := K) i j k inversed).Valid n sketch.seen) :
    ∃ box', box.perform glm (.AddFace i j k inversed) = .ok box' ∧
      Draws n radius (sketch.perform glm radius (.AddFace i j k inversed)) box' := by
  obtain ⟨hi, hj, hk⟩ := hface
  refine ⟨box.AddFace (sketch.seen.idxOf i) (sketch.seen.idxOf j) (sketch.seen.idxOf k) inversed,
    ?_, ?_⟩
  · simp only [Builder.perform, h.translateIndices hi, h.translateIndices hj,
      h.translateIndices hk, Outcome.ok_bind]
    rfl
  · refine ⟨h.edge, h.radius_eq, h.size, h.inGrid, h.nodup, ?_, h.length, h.index, h.vertices,
      h.normals, ?_⟩
    · intro t ht
      rw [Sketch.perform, List.mem_append, List.mem_singleton] at ht
      obtain ht | rfl := ht
      · exact h.faces t ht
      · cases inversed
        · exact ⟨hi, hj, hk⟩
        · exact ⟨hi, hk, hj⟩
    · rw [Sketch.perform, List.map_append, Builder.AddFace, h.indices]
      dsimp only
      rw [h.toUnsigned_idxOf hn hi, h.toUnsigned_idxOf hn hj, h.toUnsigned_idxOf hn hk]
      cases inversed <;> rfl

end Draws

section
variable {call : Call K} {calls : List (Call K)}

theorem perform_seen : (sketch.perform glm radius call).seen = call.seenAfter sketch.seen := by
  cases call with
  | AddVertex p pos base_pos =>
    rw [Sketch.perform, Call.seenAfter]
    split <;> rfl
  | AddFace i j k inversed => rfl

theorem foldl_seen : (calls.foldl (Sketch.perform glm radius) sketch).seen =
    calls.foldl Call.seenAfter sketch.seen := by
  induction calls generalizing sketch with
  | nil => rfl
  | cons call calls ih => rw [List.foldl_cons, List.foldl_cons, ih, perform_seen]

theorem foldl_faces : (calls.foldl (Sketch.perform glm radius) sketch).faces =
    sketch.faces ++ calls.filterMap Call.face? := by
  induction calls generalizing sketch with
  | nil => exact (List.append_nil _).symm
  | cons call calls ih =>
    rw [List.foldl_cons, ih]
    cases call with
    | AddVertex p pos base_pos =>
      rw [Sketch.perform]
      split <;> rfl
    | AddFace i j k inversed =>
      rw [Sketch.perform, List.append_assoc]
      rfl

theorem Draws.foldlM (hn : n ^ 3 < 2 ^ 31) (h : Draws n radius sketch box)
    (hcalls : ValidCalls n sketch.seen calls) :
    ∃ box', calls.foldlM (Builder.perform glm) box = .ok box' ∧
      Draws n radius (calls.foldl (Sketch.perform glm radius) sketch) box' := by
  induction calls generalizing sketch box with
  | nil => exact ⟨box, rfl, h⟩
  | cons call calls ih =>
    obtain ⟨hcall, hcalls⟩ := hcalls
    have hstep : ∃ box', box.perform glm call = .ok box' ∧
        Draws n radius (sketch.perform glm radius call) box' := by
      cases call with
      | AddVertex p pos base_pos =>
        by_cases hp : p ∈ sketch.seen
        · refine ⟨box, h.addVertex_old hp, ?_⟩
          rw [Sketch.perform, if_pos hp]
          exact h
        · exact h.addVertex_new hcall hp
      | AddFace i j k inversed => exact h.addFace hn hcall
    obtain ⟨box', hperform, h'⟩ := hstep
    rw [List.foldlM_cons, hperform, Outcome.ok_bind, List.foldl_cons]
    refine ih h' ?_
    rw [perform_seen]
    exact hcalls

end

/-! ## The calls of `Create` -/

section
variable {N kidx : Nat} {plane : Plane} {b : Vec3 K} {a c : Nat}

theorem mem_squares : (a, c) ∈ squares N ↔ a < 2 * N + 1 ∧ c < 2 * N + 1 := by
  simp only [squares, List.mem_append, List.mem_flatMap, List.mem_range, List.mem_cons,
    Prod.mk.injEq, List.not_mem_nil, or_false]
  constructor
  · rintro ((⟨j, hj, i, hi, h⟩ | ⟨i, hi, h⟩) | h) <;> omega
  · rintro ⟨ha, hc⟩
    obtain ha | ha | ha := Nat.lt_trichotomy a N <;> obtain hc | hc | hc := Nat.lt_trichotomy c N
    · exact .inl (.inl ⟨c, hc, a, ha, by omega⟩)
    · exact .inl (.inr ⟨a, ha, by omega⟩)
    · exact .inl (.inl ⟨c - N - 1, by omega, a, ha, by omega⟩)
    · exact .inl (.inr ⟨c, hc, by omega⟩)
    · exact .inr ⟨ha, hc⟩
    · exact .inl (.inr ⟨c - N - 1, by omega, by omega⟩)
    · exact .inl (.inl ⟨c, hc, a - N - 1, by omega, by omega⟩)
    · exact .inl (.inr ⟨a - N - 1, by omega, by omega⟩)
    · exact .inl (.inl ⟨c - N - 1, by omega, a - N - 1, by omega, by omega⟩)

theorem length_squares : (squares N).length = (2 * N + 1) * (2 * N + 1) := by
  simp only [squares, List.length_append, List.length_flatMap, List.length_cons, List.length_nil,
    List.map_const', List.length_range, List.sum_replicate, smul_eq_mul]
  ring

/-- The loops come to every square once. -/
theorem squares_perm :
    (squares N).Perm (List.range (2 * N + 1) ×ˢ List.range (2 * N + 1)) := by
  have hsub : (List.range (2 * N + 1) ×ˢ List.range (2 * N + 1)).Subperm (squares N) := by
    refine (List.nodup_range.product List.nodup_range).subperm ?_
    rintro ⟨a, c⟩ h
    rw [List.mem_product, List.mem_range, List.mem_range] at h
    exact mem_squares.mpr h
  refine (hsub.perm_of_length_le ?_).symm
  rw [length_squares, List.length_product, List.length_range]

/-- A point of a plane. -/
def Plane.place (plane : Plane) (k : Nat) (p : Nat × Nat) : Point := plane.arrange p.1 p.2 k

omit [LinearOrder K] in
theorem mem_points_planeCalls {radius : K} :
    p ∈ (planeCalls plane N kidx b radius).filterMap Call.point? ↔
      ∃ i ≤ 2 * N + 1, ∃ j ≤ 2 * N + 1, p = plane.place (ks N kidx) (i, j) := by
  simp only [planeCalls, List.mem_filterMap, List.mem_append, List.mem_flatMap, List.mem_range,
    vertexCalls, faceCalls, List.mem_cons, List.not_mem_nil, or_false]
  constructor
  · rintro ⟨call, ⟨j, hj, i, hi, rfl | rfl | rfl | rfl⟩ | ⟨c, hc, rfl | rfl⟩, h⟩
    · exact ⟨i, by omega, j, by omega, (Option.some.inj h).symm⟩
    · exact ⟨i + N + 1, by omega, j, by omega, (Option.some.inj h).symm⟩
    · exact ⟨i + N + 1, by omega, j + N + 1, by omega, (Option.some.inj h).symm⟩
    · exact ⟨i, by omega, j + N + 1, by omega, (Option.some.inj h).symm⟩
    · cases h
    · cases h
  · rintro ⟨i, hi, j, hj, rfl⟩
    obtain ⟨i, hi', rfl | rfl⟩ : ∃ i', i' < N + 1 ∧ (i = i' ∨ i = i' + N + 1) := by
      by_cases hle : i ≤ N
      · exact ⟨i, by omega, .inl rfl⟩
      · exact ⟨i - N - 1, by omega, .inr (by omega)⟩
    all_goals
      obtain ⟨j, hj', rfl | rfl⟩ : ∃ j', j' < N + 1 ∧ (j = j' ∨ j = j' + N + 1) := by
        by_cases hle : j ≤ N
        · exact ⟨j, by omega, .inl rfl⟩
        · exact ⟨j - N - 1, by omega, .inr (by omega)⟩
    · exact ⟨_, .inl ⟨j, hj', i, hi', .inl rfl⟩, rfl⟩
    · exact ⟨_, .inl ⟨j, hj', i, hi', .inr (.inr (.inr rfl))⟩, rfl⟩
    · exact ⟨_, .inl ⟨j, hj', i, hi', .inr (.inl rfl)⟩, rfl⟩
    · exact ⟨_, .inl ⟨j, hj', i, hi', .inr (.inr (.inl rfl))⟩, rfl⟩

theorem ks_le : ks N kidx ≤ 2 * N + 1 := by
  unfold ks
  split <;> omega

theorem inGrid_place {i j : Nat} (hi : i ≤ 2 * N + 1) (hj : j ≤ 2 * N + 1) :
    InGrid (2 * (N + 1)) (plane.place (ks N kidx) (i, j)) := by
  have hk : ks N kidx ≤ 2 * N + 1 := ks_le
  cases plane <;> simp only [InGrid, Plane.place, Plane.arrange] <;> omega

omit [LinearOrder K] in
/-- The faces of a plane are made of its own points. -/
theorem validCalls_planeCalls {radius : K} (seen : List Point) :
    ValidCalls (2 * (N + 1)) seen (planeCalls plane N kidx b radius) := by
  have hpoints {i j : Nat} (hi : i ≤ 2 * N + 1) (hj : j ≤ 2 * N + 1) :
      plane.arrange i j (ks N kidx) ∈
        (planeCalls plane N kidx b radius).filterMap Call.point? :=
    mem_points_planeCalls.mpr ⟨i, hi, j, hj, rfl⟩
  rw [planeCalls, List.filterMap_append] at hpoints
  rw [planeCalls, validCalls_append]
  constructor
  · refine validCalls_flatMap fun j hj seen => validCalls_flatMap fun i hi seen => ?_
    rw [List.mem_range] at hi hj
    exact ⟨inGrid_place (by omega) (by omega), inGrid_place (by omega) (by omega),
      inGrid_place (by omega) (by omega), inGrid_place (by omega) (by omega), trivial⟩
  · refine validCalls_faces fun call hcall => ?_
    obtain ⟨⟨a, c⟩, hsquare, hcall⟩ := List.mem_flatMap.mp hcall
    obtain ⟨ha, hc⟩ := mem_squares.mp hsquare
    have hseen {i j : Nat} (hi : i ≤ 2 * N + 1) (hj : j ≤ 2 * N + 1) :
        plane.arrange i j (ks N kidx) ∈
          ((List.range (N + 1)).flatMap fun j => (List.range (N + 1)).flatMap fun i =>
            vertexCalls plane N kidx b radius i j).foldl Call.seenAfter seen := by
      obtain h | h := List.mem_append.mp (hpoints hi hj)
      · exact mem_foldl_seenAfter.mpr (.inr h)
      · obtain ⟨call, hcall, hpoint⟩ := List.mem_filterMap.mp h
        obtain ⟨c, -, hcall⟩ := List.mem_flatMap.mp hcall
        simp only [faceCalls, List.mem_cons, List.not_mem_nil, or_false] at hcall
        obtain rfl | rfl := hcall <;> cases hpoint
    simp only [faceCalls, List.mem_cons, List.not_mem_nil, or_false] at hcall
    obtain rfl | rfl := hcall
    · exact ⟨rfl, hseen (by omega) (by omega), hseen (by omega) (by omega),
        hseen (by omega) (by omega)⟩
    · exact ⟨rfl, hseen (by omega) (by omega), hseen (by omega) (by omega),
        hseen (by omega) (by omega)⟩

omit [LinearOrder K] in
theorem validCalls_calls {radius : K} :
    ValidCalls (2 * (N + 1)) [] (calls N b radius) :=
  validCalls_flatMap fun _ _ _ => validCalls_flatMap fun _ _ seen => validCalls_planeCalls seen

/-! ## The surface -/

/-- The faces of a plane, with the orientation of the code. -/
def planeFaces (plane : Plane) (N kidx : Nat) : List (Point × Point × Point) :=
  (((squares N).flatMap gridCell).map fun t =>
    if plane.inversed kidx then flipTriangle t else t).map (mapTriangle (plane.place (ks N kidx)))

omit [LinearOrder K] in
theorem faces_planeCalls {radius : K} :
    (planeCalls plane N kidx b radius).filterMap Call.face? = planeFaces plane N kidx := by
  have hvertices : ((List.range (N + 1)).flatMap fun j => (List.range (N + 1)).flatMap fun i =>
      vertexCalls plane N kidx b radius i j).filterMap Call.face? = [] := by
    rw [List.filterMap_eq_nil_iff]
    intro call hcall
    simp only [List.mem_flatMap, vertexCalls, List.mem_cons, List.not_mem_nil, or_false] at hcall
    obtain ⟨j, -, i, -, rfl | rfl | rfl | rfl⟩ := hcall <;> rfl
  rw [planeCalls, List.filterMap_append, hvertices, List.nil_append, List.filterMap_flatMap,
    planeFaces, List.map_map, List.map_flatMap]
  refine List.flatMap_congr fun c _ => ?_
  simp only [faceCalls, gridCell, List.map_cons, List.map_nil]
  cases plane.inversed kidx <;> rfl

theorem planeFaces_of_inversed {k : Nat} (hk : ks N kidx = k) (h : plane.inversed kidx = true) :
    (planeFaces plane N kidx).Perm (((grid (2 * N + 1) (2 * N + 1)).map flipTriangle).map
      (mapTriangle (plane.place k))) := by
  simp only [planeFaces, h, hk, if_true]
  exact ((squares_perm.flatMap_right gridCell).map _).map _

theorem planeFaces_of_not_inversed {k : Nat} (hk : ks N kidx = k)
    (h : plane.inversed kidx = false) :
    (planeFaces plane N kidx).Perm ((grid (2 * N + 1) (2 * N + 1)).map
      (mapTriangle (plane.place k))) := by
  simp only [planeFaces, h, hk, Bool.false_eq_true, if_false, List.map_id']
  exact (squares_perm.flatMap_right gridCell).map _

omit [LinearOrder K] in
theorem faces_calls {radius : K} : (calls N b radius).filterMap Call.face? =
    [Plane.xy, .xz, .yz].flatMap fun plane => planeFaces plane N 0 ++ planeFaces plane N 1 := by
  rw [calls, List.filterMap_flatMap]
  refine List.flatMap_congr fun plane _ => ?_
  rw [List.flatMap_cons, List.flatMap_singleton, List.filterMap_append, faces_planeCalls,
    faces_planeCalls]

theorem ks_one : ks N 1 = 2 * N + 1 := by
  rw [ks, if_neg Nat.one_ne_zero, mul_comm]

/-- The two planes of a pair are a third of the surface, turned to their place. -/
theorem xy_perm : (planeFaces .xy N 0 ++ planeFaces .xy N 1).Perm (cubeThird (2 * N + 1)) :=
  ((planeFaces_of_inversed rfl rfl).append (planeFaces_of_not_inversed ks_one rfl)).trans
    List.perm_append_comm

theorem yz_perm : (planeFaces .yz N 0 ++ planeFaces .yz N 1).Perm
    ((cubeThird (2 * N + 1)).map (mapTriangle turnAxes)) := by
  rw [cubeThird, List.map_append, List.map_map, List.map_map]
  exact ((planeFaces_of_inversed rfl rfl).append (planeFaces_of_not_inversed ks_one rfl)).trans
    List.perm_append_comm

/-- Here the axes are exchanged, and so are the planes that are inversed. -/
theorem xz_perm : (planeFaces .xz N 0 ++ planeFaces .xz N 1).Perm
    ((cubeThird (2 * N + 1)).map (mapTriangle (turnAxes ∘ turnAxes))) := by
  have hplace (k : Nat) : mapTriangle (Plane.xz.place k) =
      mapTriangle (turnAxes ∘ turnAxes) ∘ mapTriangle (atHeight k) ∘ mapTriangle Prod.swap := rfl
  have hgrid := grid_swap (m := 2 * N + 1) (n := 2 * N + 1)
  rw [cubeThird, List.map_append]
  refine (((planeFaces_of_not_inversed rfl rfl).trans ?_).append
    ((planeFaces_of_inversed ks_one rfl).trans ?_)).trans List.perm_append_comm
  · rw [hplace, ← List.map_map, ← List.map_map]
    exact (hgrid.map _).map _
  · rw [hplace, ← List.map_map, ← List.map_map, map_flipTriangle]
    have hflip := hgrid.map flipTriangle
    rw [map_flipTriangle_flipTriangle] at hflip
    exact (hflip.map _).map _

omit [LinearOrder K] in
theorem faces_calls_perm {radius : K} :
    ((calls N b radius).filterMap Call.face?).Perm (cubeSurface (2 * N + 1)) := by
  rw [faces_calls, cubeSurface]
  simp only [List.flatMap_cons, List.flatMap_nil, List.append_nil]
  exact xy_perm.append ((xz_perm.append yz_perm).trans List.perm_append_comm)

omit [LinearOrder K] in
/-- Every point of the surface gets a vertex, and no other point does. -/
theorem mem_points_calls {radius : K} :
    p ∈ (calls N b radius).filterMap Call.point? ↔ p ∈ cubePoints (2 * N + 1) := by
  have hks {k : Nat} : (∃ kidx ∈ [0, 1], k = ks N kidx) ↔ k = 0 ∨ k = 2 * N + 1 := by
    simp only [List.mem_cons, List.not_mem_nil, or_false, exists_eq_or_imp, exists_eq_left, ks_one]
    rfl
  obtain ⟨x, y, z⟩ := p
  rw [calls, List.filterMap_flatMap, mem_cubePoints]
  simp only [List.filterMap_flatMap, List.mem_flatMap, mem_points_planeCalls]
  constructor
  · rintro ⟨plane, -, kidx, hkidx, i, hi, j, hj, heq⟩
    have hk := hks.mp ⟨kidx, hkidx, rfl⟩
    cases plane <;> simp only [Plane.place, Plane.arrange, Prod.mk.injEq] at heq <;> omega
  · rintro ⟨⟨hx, hy, hz⟩, h | h | h⟩
    · obtain ⟨kidx, hkidx, rfl⟩ := hks.mpr h
      exact ⟨.yz, by simp, kidx, hkidx, y, hy, z, hz, rfl⟩
    · obtain ⟨kidx, hkidx, rfl⟩ := hks.mpr h
      exact ⟨.xz, by simp, kidx, hkidx, x, hx, z, hz, rfl⟩
    · obtain ⟨kidx, hkidx, rfl⟩ := hks.mpr h
      exact ⟨.xy, by simp, kidx, hkidx, x, hx, y, hy, rfl⟩

omit [Field K] [LinearOrder K] in
theorem draws_start (N : Nat) (radius : K) :
    Draws (2 * (N + 1)) radius { seen := [], data := [], faces := [] } (start N radius) where
  edge := rfl
  radius_eq := rfl
  size := rfl
  inGrid := nofun
  nodup := List.nodup_nil
  faces := nofun
  length := rfl
  index _ _ := rfl
  vertices := rfl
  normals := rfl
  indices := rfl

/-- `Create` returns, and what it has made is the surface of the cube with its points numbered. -/
theorem exists_create (glm : Glm K) (b : Vec3 K) (radius : K)
    (hN : (2 * (N + 1)) ^ 3 < 2 ^ 31) :
    ∃ box sketch, Create glm N b radius = .ok box ∧ Draws (2 * (N + 1)) radius sketch box ∧
      sketch = (calls N b radius).foldl (Sketch.perform glm radius) {} ∧
      sketch.faces.Perm (cubeSurface (2 * N + 1)) ∧
      ∀ p, p ∈ sketch.seen ↔ p ∈ cubePoints (2 * N + 1) := by
  have hrun : ∃ box, Create glm N b radius = .ok box ∧ Draws (2 * (N + 1)) radius _ box :=
    (draws_start N radius).foldlM hN validCalls_calls
  obtain ⟨box, hcreate, hdraws⟩ := hrun
  refine ⟨box, _, hcreate, hdraws, rfl, ?_, fun p => ?_⟩
  · rw [foldl_faces]
    exact faces_calls_perm
  · rw [foldl_seen, mem_foldl_seenAfter, mem_points_calls]
    simp

/-- For every `N`: no index is out of range, the faces are a closed surface with one orientation,
and they use every vertex. -/
theorem create_closed_surface (glm : Glm K) (b : Vec3 K) (radius : K)
    (hN : (2 * (N + 1)) ^ 3 < 2 ^ 31) :
    ∃ box, Create glm N b radius = .ok box ∧ Closed box.indices ∧
      (∀ v, IsVertex box.indices v ↔ v < box.vertices.length) ∧
      box.vertices.length = 24 * N ^ 2 + 24 * N + 8 ∧
      box.indices.length = 12 * (2 * N + 1) ^ 2 := by
  obtain ⟨box, sketch, hcreate, hdraws, -, hfaces, hseen⟩ := exists_create glm b radius hN
  have hm : 0 < 2 * N + 1 := Nat.succ_pos _
  have hvertex (p : Point) : IsVertex sketch.faces p ↔ p ∈ sketch.seen := by
    rw [isVertex_perm hfaces, isVertex_cubeSurface hm, hseen]
  have hlength : box.vertices.length = sketch.seen.length := by
    rw [hdraws.vertices, List.length_map, hdraws.length]
  refine ⟨box, hcreate, ?_, fun v => ?_, ?_, ?_⟩
  · rw [hdraws.indices]
    refine ((closed_cubeSurface hm).perm hfaces.symm).map fun p q hp hq heq => ?_
    exact (List.idxOf_inj ((hvertex p).mp hp)).mp heq
  · rw [hdraws.indices, isVertex_map, hlength]
    constructor
    · rintro ⟨p, hp, rfl⟩
      exact List.idxOf_lt_length_of_mem ((hvertex p).mp hp)
    · intro hv
      exact ⟨sketch.seen[v], (hvertex _).mpr (List.getElem_mem hv), hdraws.nodup.idxOf_getElem v hv⟩
  · have hset : sketch.seen.toFinset = cubePoints (2 * N + 1) := by
      ext p
      rw [List.mem_toFinset, hseen]
    rw [hlength, ← List.toFinset_card_of_nodup hdraws.nodup, hset, card_cubePoints hm]
    ring
  · rw [hdraws.indices, List.length_map, hfaces.length_eq, length_cubeSurface]

theorem create_closed_surface_one :
    ∃ box, Create (K := ℚ) ⟨fun v => v.x ^ 2 + v.y ^ 2 + v.z ^ 2, id⟩ 1 ⟨1, 1, 1⟩ 1 = .ok box ∧
      Closed box.indices ∧ (∀ v, IsVertex box.indices v ↔ v < box.vertices.length) ∧
      box.vertices.length = 24 * 1 ^ 2 + 24 * 1 + 8 ∧
      box.indices.length = 12 * (2 * 1 + 1) ^ 2 :=
  create_closed_surface _ _ _ (by norm_num)

/-! ## The vertices -/

/-- The part of a corner of the inner box along an axis. -/
def side (N : Nat) (b : K) (t : Nat) : K := if t ≤ N then -b else b

/-- How far the grid is from that corner along the axis. -/
def offset (N : Nat) (radius : K) (t : Nat) : K :=
  if t ≤ N then radius / N * t - radius else radius / N * (t - N - 1 : Nat)

def corner (N : Nat) (b : Vec3 K) (p : Point) : Vec3 K :=
  ⟨side N b.x p.1, side N b.y p.2.1, side N b.z p.2.2⟩

def direction (N : Nat) (radius : K) (p : Point) : Vec3 K :=
  ⟨offset N radius p.1, offset N radius p.2.1, offset N radius p.2.2⟩

omit [LinearOrder K] in
theorem corner_arrange {i j k : Nat} : corner N b (plane.arrange i j k) =
    plane.vector (side N (plane.components b).1 i) (side N (plane.components b).2.1 j)
      (side N (plane.components b).2.2 k) := by
  cases plane <;> rfl

omit [LinearOrder K] in
theorem direction_arrange {radius : K} {i j k : Nat} : direction N radius (plane.arrange i j k) =
    plane.vector (offset N radius i) (offset N radius j) (offset N radius k) := by
  cases plane <;> rfl

omit [LinearOrder K] in
theorem vector_sub {u v w u' v' w' : K} : plane.vector u v w - plane.vector u' v' w' =
    plane.vector (u - u') (v - v') (w - w') := by
  cases plane <;> rfl

omit [LinearOrder K] in
theorem vector_add {u v w u' v' w' : K} : plane.vector u v w + plane.vector u' v' w' =
    plane.vector (u + u') (v + v') (w + w') := by
  cases plane <;> rfl

section
variable {radius c : K} {i j : Nat}

omit [LinearOrder K]

theorem side_low (hi : i < N + 1) : side N c i = -c := if_pos (Nat.le_of_lt_succ hi)

theorem side_high : side N c (i + N + 1) = c := if_neg (by omega)

theorem side_ks : side N c (ks N kidx) = c * sign kidx := by
  unfold side ks sign
  by_cases h : kidx = 0
  · simp [h]
  · rw [if_neg h, if_neg h, if_neg (by omega), mul_one]

theorem offset_low (hi : i < N + 1) : offset N radius i = radius / N * i - radius :=
  if_pos (Nat.le_of_lt_succ hi)

theorem offset_high : offset N radius (i + N + 1) = radius / N * i := by
  rw [offset, if_neg (by omega), Nat.sub_sub, Nat.add_assoc, Nat.add_sub_cancel]

/-- Out on a plane the grid is a radius away. -/
theorem offset_ks (hN : (N : K) ≠ 0) : offset N radius (ks N kidx) = radius * sign kidx := by
  unfold offset ks sign
  by_cases h : kidx = 0
  · simp [h]
  · have hsub : N * 2 + 1 - N - 1 = N := by omega
    rw [if_neg h, if_neg h, if_neg (by omega), hsub, div_mul_cancel₀ _ hN, mul_one]

/-- Every plane puts a point of the grid in the same place, seen from the same corner. -/
theorem vertexCalls_eq (hN : (N : K) ≠ 0) (hi : i < N + 1) (hj : j < N + 1) {pos base_pos : Vec3 K}
    (h : .AddVertex p pos base_pos ∈ vertexCalls plane N kidx b radius i j) :
    base_pos = corner N b p ∧ pos - base_pos = direction N radius p := by
  simp only [vertexCalls, List.mem_cons, Call.AddVertex.injEq, List.not_mem_nil, or_false] at h
  obtain ⟨rfl, rfl, rfl⟩ | ⟨rfl, rfl, rfl⟩ | ⟨rfl, rfl, rfl⟩ | ⟨rfl, rfl, rfl⟩ := h <;>
  · rw [corner_arrange, direction_arrange, vector_add, vector_sub]
    simp only [side_low hi, side_low hj, side_high, side_ks, offset_low hi, offset_low hj,
      offset_high, offset_ks hN, true_and]
    congr 1 <;> push_cast <;> ring

theorem calls_eq (hN : (N : K) ≠ 0) {pos base_pos : Vec3 K}
    (h : .AddVertex p pos base_pos ∈ calls N b radius) :
    base_pos = corner N b p ∧ pos - base_pos = direction N radius p := by
  simp only [calls, planeCalls, List.mem_flatMap, List.mem_append, List.mem_range] at h
  obtain ⟨plane, -, kidx, -, ⟨j, hj, i, hi, h⟩ | ⟨c, -, h⟩⟩ := h
  · exact vertexCalls_eq hN hi hj h
  · simp [faceCalls] at h

end

omit [LinearOrder K] in
/-- On the surface the direction is not zero. -/
theorem direction_ne_zero {radius : K} (hN : (N : K) ≠ 0) (hr : radius ≠ 0)
    (hp : p ∈ cubePoints (2 * N + 1)) : direction N radius p ≠ 0 := by
  have hout {t : Nat} (ht : t = 0 ∨ t = 2 * N + 1) : offset N radius t ≠ 0 := by
    obtain rfl | rfl := ht
    · rw [offset_low N.succ_pos]
      simpa using hr
    · have h : offset N radius (ks N 1) = radius * sign 1 := offset_ks hN
      rw [← ks_one, h]
      simpa [sign] using hr
  obtain ⟨x, y, z⟩ := p
  obtain ⟨-, hx | hy | hz⟩ := mem_cubePoints.mp hp
  · exact fun h => hout hx (congrArg Vec3.x h)
  · exact fun h => hout hy (congrArg Vec3.y h)
  · exact fun h => hout hz (congrArg Vec3.z h)

theorem foldl_data {glm : Glm K} {radius : K} {calls : List (Call K)} {sketch : Sketch K}
    {f : Point → Vec3 K × Vec3 K}
    (hf : ∀ p pos base_pos, .AddVertex p pos base_pos ∈ calls →
      placed glm radius pos base_pos = f p) (hdata : sketch.data = sketch.seen.map f) :
    (calls.foldl (Sketch.perform glm radius) sketch).data =
      (calls.foldl (Sketch.perform glm radius) sketch).seen.map f := by
  induction calls generalizing sketch with
  | nil => exact hdata
  | cons call calls ih =>
    rw [List.foldl_cons]
    refine ih (fun p pos base_pos h => hf p pos base_pos (List.mem_cons_of_mem _ h)) ?_
    cases call with
    | AddVertex p pos base_pos =>
      rw [Sketch.perform]
      split
      · exact hdata
      · simp only [List.map_append, hdata, hf p pos base_pos List.mem_cons_self, List.map_cons,
          List.map_nil]
    | AddFace i j k inversed => exact hdata

/-- What `Create` puts at each point of the surface, when no direction it normalizes is zero. -/
theorem exists_create_placed (glm : Glm K) (hlength : ∀ v, v ≠ 0 → 0 < glm.length v) (b : Vec3 K)
    (radius : K) (hr : radius ≠ 0) (hN : (2 * (N + 1)) ^ 3 < 2 ^ 31) (hN₀ : (N : K) ≠ 0) :
    ∃ box sketch, Create glm N b radius = .ok box ∧ Draws (2 * (N + 1)) radius sketch box ∧
      sketch.faces.Perm (cubeSurface (2 * N + 1)) ∧
      (∀ p, p ∈ sketch.seen ↔ p ∈ cubePoints (2 * N + 1)) ∧
      sketch.data = sketch.seen.map fun p =>
        (corner N b p + (glm.normalize (direction N radius p)).scale radius,
          glm.normalize (direction N radius p)) := by
  obtain ⟨box, sketch, hcreate, hdraws, hsketch, hfaces, hseen⟩ := exists_create glm b radius hN
  refine ⟨box, sketch, hcreate, hdraws, hfaces, hseen, ?_⟩
  rw [hsketch]
  refine foldl_data (fun p pos base_pos h => ?_) rfl
  obtain ⟨hbase, hdir⟩ := calls_eq hN₀ h
  have hmem : p ∈ cubePoints (2 * N + 1) :=
    mem_points_calls.mp (List.mem_filterMap.mpr ⟨_, h, rfl⟩)
  rw [placed, hdir, if_pos (hlength _ (direction_ne_zero hN₀ hr hmem)), hbase]

/-- For a positive `N` the mesh is the surface of the cube with each of its points moved: to the
distance of the radius from a corner of the inner box, in the direction in which the grid lies from
there. It does not depend on which of its planes comes to a point first. -/
theorem create_vertices (glm : Glm K) (hlength : ∀ v, v ≠ 0 → 0 < glm.length v) (b : Vec3 K)
    (radius : K) (hr : radius ≠ 0) (hN : (2 * (N + 1)) ^ 3 < 2 ^ 31) (hN₀ : (N : K) ≠ 0) :
    ∃ (box : Builder K) (points : List Point) (faces : List (Point × Point × Point)),
      Create glm N b radius = .ok box ∧
      points.Nodup ∧ (∀ p, p ∈ points ↔ p ∈ cubePoints (2 * N + 1)) ∧
      faces.Perm (cubeSurface (2 * N + 1)) ∧ box.indices = faces.map (mapTriangle points.idxOf) ∧
      box.normals = points.map (fun p => glm.normalize (direction N radius p)) ∧
      box.vertices = points.map (fun p =>
        corner N b p + (glm.normalize (direction N radius p)).scale radius) := by
  obtain ⟨box, sketch, hcreate, hdraws, hfaces, hseen, hdata⟩ :=
    exists_create_placed glm hlength b radius hr hN hN₀
  refine ⟨box, sketch.seen, sketch.faces, hcreate, hdraws.nodup, hseen, hfaces, hdraws.indices,
    ?_, ?_⟩
  · rw [hdraws.normals, hdata, List.map_map]
    rfl
  · rw [hdraws.vertices, hdata, List.map_map]
    rfl

theorem create_vertices_one : ∃ (box : Builder ℚ) (points : List Point)
      (faces : List (Point × Point × Point)),
      Create ⟨fun v => v.x ^ 2 + v.y ^ 2 + v.z ^ 2, id⟩ 1 ⟨1, 1, 1⟩ 1 = .ok box ∧
      points.Nodup ∧ (∀ p, p ∈ points ↔ p ∈ cubePoints (2 * 1 + 1)) ∧
      faces.Perm (cubeSurface (2 * 1 + 1)) ∧ box.indices = faces.map (mapTriangle points.idxOf) ∧
      box.normals = points.map (fun p => direction 1 1 p) ∧
      box.vertices = points.map (fun p =>
        corner 1 ⟨1, 1, 1⟩ p + (direction 1 1 p).scale 1) := by
  refine create_vertices _ (fun v hv => ?_) _ _ one_ne_zero (by norm_num) (by norm_num)
  by_contra hle
  have hzero : v.x ^ 2 + v.y ^ 2 + v.z ^ 2 ≤ 0 := not_lt.mp hle
  have hx : v.x = 0 := by nlinarith [sq_nonneg v.x, sq_nonneg v.y, sq_nonneg v.z]
  have hy : v.y = 0 := by nlinarith [sq_nonneg v.x, sq_nonneg v.y, sq_nonneg v.z]
  have hz : v.z = 0 := by nlinarith [sq_nonneg v.x, sq_nonneg v.y, sq_nonneg v.z]
  exact hv (by cases v; cases hx; cases hy; cases hz; rfl)

end

end MUtils.RoundCornerBox
