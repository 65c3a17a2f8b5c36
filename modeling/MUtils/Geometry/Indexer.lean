import MUtils.Theory.Sorted

/-!
# Indexing a mesh

`VertexSpacialSort` and `geometry_index`, with coordinates in an ordered field. A vector of `n`
elements is a function on `Fin n`; the outputs, which grow, are lists. The plane by which vertices
are sorted is a parameter, since normalising it takes a square root, and so is the implementation of
`std::sort`.
-/

namespace MUtils

structure Vec2 (K : Type) where
  x : K
  y : K

structure Vec3 (K : Type) where
  x : K
  y : K
  z : K

structure SortedVertex (K : Type) (n : Nat) where
  index : Fin n
  distance : K

structure VertexSpacialSort (K : Type) (n : Nat) where
  m_rootPlane : Vec3 K
  m_sortedVertices : List (SortedVertex K n)

/-- The input, three vectors of the same size. -/
structure Mesh (K : Type) (n : Nat) where
  in_vertices : Fin n → Vec3 K
  in_uvs : Fin n → Vec2 K
  in_normals : Fin n → Vec3 K

/-- The output; `out_indices` are `uint32_t`s. -/
structure IndexedMesh (K : Type) where
  out_indices : List Nat := []
  out_vertices : List (Vec3 K) := []
  out_uvs : List (Vec2 K) := []
  out_normals : List (Vec3 K) := []

variable {K : Type} [Field K] [LinearOrder K] {n : Nat}

def dot (a b : Vec3 K) : K := a.x * b.x + a.y * b.y + a.z * b.z

/-- `glm::all(glm::epsilonEqual(a, b, epsilon))` -/
def Vec2.epsilonEqual (a b : Vec2 K) (epsilon : K) : Prop :=
  |a.x - b.x| < epsilon ∧ |a.y - b.y| < epsilon

@[inherit_doc Vec2.epsilonEqual]
def Vec3.epsilonEqual (a b : Vec3 K) (epsilon : K) : Prop :=
  |a.x - b.x| < epsilon ∧ |a.y - b.y| < epsilon ∧ |a.z - b.z| < epsilon

instance (a b : Vec2 K) (epsilon : K) : Decidable (a.epsilonEqual b epsilon) :=
  inferInstanceAs (Decidable (_ ∧ _))

instance (a b : Vec3 K) (epsilon : K) : Decidable (a.epsilonEqual b epsilon) :=
  inferInstanceAs (Decidable (_ ∧ _ ∧ _))

def SortedVertex.lt (a b : SortedVertex K n) : Prop := a.distance < b.distance

/-- What the program is built with. -/
structure GeometrySettings (K : Type) [Field K] [LinearOrder K] (n : Nat) where
  m_rootPlane : Vec3 K
  epsilon : K
  epsilon_pos : 0 < epsilon
  std : StdSort (α := SortedVertex K n) SortedVertex.lt

variable (settings : GeometrySettings K n)

/-! ### Vertices by distance -/

/-- The constructor. The loop that fills the entries has a `uint32_t` bound; what it does not get to
is as `resize` leaves it. -/
def VertexSpacialSort.new (vertices : Fin n → Vec3 K) : VertexSpacialSort K n where
  m_rootPlane := settings.m_rootPlane
  m_sortedVertices := settings.std.sort <| List.ofFn fun index =>
    if index.val < n % 2 ^ 32 then ⟨index, dot (vertices index) settings.m_rootPlane⟩
    else ⟨⟨0, index.pos⟩, 0⟩

def VertexSpacialSort.Find (sorter : VertexSpacialSort K n) (position : Vec3 K) :
    Option (Nat × Nat) :=
  let distance := dot position sorter.m_rootPlane
  let ret := equalRange sorter.m_sortedVertices (·.distance < distance) (distance < ·.distance)
  if ret.1 ≠ sorter.m_sortedVertices.length ∧ ret.2 ≠ sorter.m_sortedVertices.length then some ret
  else none

/-! ### Indexing -/

/-- The `int32_t` a `uint32_t` is stored in. -/
def toInt32 (x : Nat) : Int := (x : Int).bmod (2 ^ 32)

/-- The `uint32_t` that an `int32_t` is converted to. -/
def toUInt32 (x : Int) : Nat := (x % 2 ^ 32).toNat

structure IndexState (K : Type) (n : Nat) where
  indices : Fin n → Int
  out : IndexedMesh K

variable (mesh : Mesh K n)

/-- The three tests that two elements are the same. -/
def Mesh.same (i j : Fin n) : Prop :=
  (mesh.in_vertices i).epsilonEqual (mesh.in_vertices j) settings.epsilon ∧
    (mesh.in_normals i).epsilonEqual (mesh.in_normals j) settings.epsilon ∧
    (mesh.in_uvs i).epsilonEqual (mesh.in_uvs j) settings.epsilon

instance (i j : Fin n) : Decidable (mesh.same settings i j) :=
  inferInstanceAs (Decidable (_ ∧ _ ∧ _))

/-- The loop over the vertices at the same distance. -/
def markSame (i : Fin n) (indices : Fin n → Int) (range : List (SortedVertex K n)) : Fin n → Int :=
  range.foldl (fun indices itr =>
    if indices itr.index = -1 then
      if mesh.same settings i itr.index then Function.update indices itr.index (indices i)
      else indices
    else indices) indices

/-- The body of the loop over the input. -/
def indexStep (sorter : VertexSpacialSort K n) (s : IndexState K n) (i : Fin n) :
    IndexState K n :=
  if s.indices i = -1 then
    let out_vertices := s.out.out_vertices ++ [mesh.in_vertices i]
    let indices := Function.update s.indices i (toInt32 ((out_vertices.length - 1) % 2 ^ 32))
    { indices :=
        match sorter.Find (mesh.in_vertices i) with
        | some range => markSame settings mesh i indices (slice sorter.m_sortedVertices range)
        | none => indices
      out :=
        { out_indices := s.out.out_indices ++ [toUInt32 (indices i)]
          out_vertices
          out_uvs := s.out.out_uvs ++ [mesh.in_uvs i]
          out_normals := s.out.out_normals ++ [mesh.in_normals i] } }
  else { s with out.out_indices := s.out.out_indices ++ [toUInt32 (s.indices i)] }

/-- The loop over the input, whose counter is a `uint32_t`. It takes `fuel` passes at most; `none`
means that it needs more. -/
def indexLoop (sorter : VertexSpacialSort K n) :
    Nat → Nat → IndexState K n → Option (IndexState K n)
  | fuel, i, s =>
    if h : i < n then
      match fuel with
      | 0 => none
      | fuel + 1 =>
        indexLoop sorter fuel ((i + 1) % 2 ^ 32) (indexStep settings mesh sorter s ⟨i, h⟩)
    else some s

def geometry_index (fuel : Nat) (out : IndexedMesh K) : Option (IndexedMesh K) :=
  let sorter := VertexSpacialSort.new settings mesh.in_vertices
  (indexLoop settings mesh sorter fuel 0 { indices := fun _ => -1, out }).map (·.out)

end MUtils
