import MUtils.Geometry.Indexer
import MUtils.Theory.Outcome

/-!
# The shapes of `standard_shapes.cpp`

Coordinates are in an ordered field, so that arithmetic is exact. What the builders call and what
they find in memory is given by a `ShapeEnv`: the trigonometric functions, the generators of round
meshes, and the value of a colour that nobody has set. A read past the end of a table is a fault.
-/

namespace MUtils

structure Vec4 (K : Type) where
  x : K
  y : K
  z : K
  w : K

structure MeshVertex (K : Type) where
  position : Vec3 K
  texcoord : Vec2 K
  normal : Vec3 K
  color : Vec4 K

structure Bounds (K : Type) where
  min : Vec3 K
  max : Vec3 K

structure Shape (K : Type) where
  vertices : List (MeshVertex K)
  indices : List Nat
  size : Vec3 K
  offset : Vec3 K
  bounds : Bounds K

variable {K : Type} [Field K]

/-! ### Vectors of `glm` -/

namespace Vec3

instance : Zero (Vec3 K) := ⟨⟨0, 0, 0⟩⟩

instance : Add (Vec3 K) := ⟨fun a b => ⟨a.x + b.x, a.y + b.y, a.z + b.z⟩⟩

instance : Sub (Vec3 K) := ⟨fun a b => ⟨a.x - b.x, a.y - b.y, a.z - b.z⟩⟩

/-- Vectors are multiplied component by component. -/
instance : Mul (Vec3 K) := ⟨fun a b => ⟨a.x * b.x, a.y * b.y, a.z * b.z⟩⟩

def scale (a : Vec3 K) (val : K) : Vec3 K := ⟨a.x * val, a.y * val, a.z * val⟩

def cross (a b : Vec3 K) : Vec3 K :=
  ⟨a.y * b.z - b.y * a.z, a.z * b.x - b.z * a.x, a.x * b.y - b.x * a.y⟩

end Vec3

/-! ### The generators -/

/-- What `Sphere`, `Icosphere` and `Icosahedron` hold: flat arrays, with three floats of a vertex,
three of its normal and two of its texture coordinates. -/
structure GeneratedMesh (K : Type) where
  vertices : List K
  normals : List K
  texCoords : List K
  indices : List Nat
  vertices_length : vertices.length % 3 = 0
  normals_length : normals.length = vertices.length
  texCoords_length : texCoords.length = vertices.length / 3 * 2

def GeneratedMesh.getVertexCount (mesh : GeneratedMesh K) : Nat := mesh.vertices.length / 3

structure RoundCornerBox (K : Type) where
  vertices : List (Vec3 K)
  normals : List (Vec3 K)
  indices : List (Nat × Nat × Nat)
  normals_length : normals.length = vertices.length

/-- What the builders are run with. -/
structure ShapeEnv (K : Type) [Field K] [LinearOrder K] where
  cosf : K → K
  sinf : K → K
  normalize : Vec3 K → Vec3 K
  /-- `1.0f / 0.0f` -/
  infinity : K
  one_le_infinity : 1 ≤ infinity
  /-- The colour of a vertex that has been declared and not assigned. -/
  uninitialized : Vec4 K
  Icosahedron : (radius : K) → GeneratedMesh K
  Sphere : (radius : K) → (sectorCount stackCount : Nat) → (smooth : Bool) → GeneratedMesh K
  Icosphere : (radius : K) → (subdivision : Nat) → (smooth : Bool) → GeneratedMesh K
  RoundCornerBox : (N : Int) → (b : Vec3 K) → (radius : K) → RoundCornerBox K

/-! ### Shapes read from arrays -/

/-- `.5f` -/
def half : K := 1 / 2

def boundsOf (size off : Vec3 K) : Bounds K := ⟨off - size.scale half, off + size.scale half⟩

def readVec3 (table : List K) (i : Nat) (container : String) : Outcome (Vec3 K) := do
  let x ← Outcome.elementAt table i container
  let y ← Outcome.elementAt table (i + 1) container
  let z ← Outcome.elementAt table (i + 2) container
  return ⟨x, y, z⟩

def readVec2 (table : List K) (i : Nat) (container : String) : Outcome (Vec2 K) := do
  let x ← Outcome.elementAt table i container
  let y ← Outcome.elementAt table (i + 1) container
  return ⟨x, y⟩

/-- Arrays of floats that a loop reads `count` vertices from, and how far apart it takes the
positions and the texture coordinates of two vertices to be. -/
structure VertexArrays (K : Type) where
  positions : List K
  normals : List K
  texCoords : List K
  count : Nat
  stride : Nat
  texStride : Nat

/-- One turn of the loop. -/
def VertexArrays.vertexAt (arrays : VertexArrays K) (factor : Vec3 K) (color : Vec4 K)
    (off : Vec3 K) (i : Nat) : Outcome (MeshVertex K) := do
  let position ← readVec3 arrays.positions (i * arrays.stride) "vertices"
  let normal ← readVec3 arrays.normals (i * 3) "normals"
  let texcoord ← readVec2 arrays.texCoords (i * arrays.texStride) "texCoords"
  return { position := position * factor + off, normal, texcoord, color }

def VertexArrays.vertices (arrays : VertexArrays K) (factor : Vec3 K) (color : Vec4 K)
    (off : Vec3 K) : Outcome (List (MeshVertex K)) :=
  (List.range arrays.count).mapM (arrays.vertexAt factor color off)

def VertexArrays.shape (arrays : VertexArrays K) (indices : List Nat) (size factor : Vec3 K)
    (color : Vec4 K) (off : Vec3 K) : Outcome (Shape K) := do
  let vertices ← arrays.vertices factor color off
  return { vertices, indices, size, offset := off, bounds := boundsOf size off }

def GeneratedMesh.arrays (mesh : GeneratedMesh K) (texStride : Nat) : VertexArrays K where
  positions := mesh.vertices
  normals := mesh.normals
  texCoords := mesh.texCoords
  count := mesh.getVertexCount
  stride := 3
  texStride

section
variable [LinearOrder K] (env : ShapeEnv K)

/-- The texture coordinates are read as if there were three of a vertex. -/
def shape_create_icosahedron (size : Vec3 K) (color : Vec4 K) (off : Vec3 K) : Outcome (Shape K) :=
  let sphere := env.Icosahedron half
  (sphere.arrays 3).shape sphere.indices size size color off

def shape_create_sphere (size : Vec3 K) (subdivisions : Nat) (smooth : Bool) (color : Vec4 K)
    (off : Vec3 K) : Outcome (Shape K) :=
  let subdivisions := min subdivisions 10
  let sphere := env.Sphere half (subdivisions * 8) (subdivisions * 6) smooth
  (sphere.arrays 2).shape sphere.indices size size color off

def shape_create_icosphere (size : Vec3 K) (subdivisions : Nat) (smooth : Bool) (color : Vec4 K)
    (off : Vec3 K) : Outcome (Shape K) :=
  let sphere := env.Icosphere half (min subdivisions 10) smooth
  (sphere.arrays 2).shape sphere.indices size size color off

end

def quadVertices : List K := [-1, -1, 0, 1, -1, 0, 1, 1, 0, -1, 1, 0]

def quadNormals : List K := [0, 1, 0, 0, 1, 0, 0, 1, 0, 0, 1, 0]

def quadTexCoords : List K := [0, 0, 1, 0, 1, 1, 0, 1]

def quadIndices : List Nat := [0, 3, 2, 0, 2, 1]

def quadArrays : VertexArrays K where
  positions := quadVertices
  normals := quadNormals
  texCoords := quadTexCoords
  count := (quadVertices (K := K)).length / 3
  stride := 3
  texStride := 2

def shape_create_quad (sz : Vec3 K) (color : Vec4 K) (off : Vec3 K) : Outcome (Shape K) :=
  quadArrays.shape quadIndices sz (sz.scale half) color off

def cubeVertices : List K :=
  [-1, -1, -1, 1, -1, -1, 1, 1, 1, -1, 1, 1, 1, -1, -1, 1,
    -1, 1, -1, 1, -1, 1, 1, 1, 1, 1, 1, 1, 1, 1, -1, 1,
    -1, -1, -1, 1, -1, 1, -1, 1, 1, 1, -1, 1, 1, -1, -1, 1,
    -1, -1, 1, 1, -1, 1, 1, 1, 1, 1, 1, 1, 1, -1, 1, 1,
    -1, -1, -1, 1, -1, -1, 1, 1, -1, 1, 1, 1, -1, 1, -1, 1,
    1, -1, -1, 1, 1, -1, 1, 1, 1, 1, 1, 1, 1, 1, -1, 1]

def cubeNormals : List K :=
  [0, -1, 0, 0, -1, 0, 0, -1, 0, 0, -1, 0,
    0, 1, 0, 0, 1, 0, 0, 1, 0, 0, 1, 0,
    0, 0, -1, 0, 0, -1, 0, 0, -1, 0, 0, -1,
    0, 0, 1, 0, 0, 1, 0, 0, 1, 0, 0, 1,
    -1, 0, 0, -1, 0, 0, -1, 0, 0, -1, 0, 0,
    1, 0, 0, 1, 0, 0, 1, 0, 0, 1, 0, 0]

def cubeTexCoords : List K :=
  [0, 0, 0, 1, 1, 1, 1, 0,
    0, 1, 0, 0, 1, 0, 1, 1,
    1, 0, 1, 1, 0, 1, 0, 0,
    0, 0, 0, 1, 1, 1, 1, 0,
    0, 0, 1, 0, 1, 1, 0, 1,
    1, 0, 0, 0, 0, 1, 1, 1]

def cubeIndices : List Nat :=
  [0, 2, 1, 0, 3, 2, 4, 5, 6, 4, 6, 7, 8, 9, 10, 8, 10, 11, 12, 15, 14, 12, 14, 13, 16, 17, 18,
    16, 18, 19, 20, 23, 22, 20, 22, 21]

/-- The positions stand four floats apart, but there are taken to be as many vertices as if they
stood three apart. -/
def cubeArrays : VertexArrays K where
  positions := cubeVertices
  normals := cubeNormals
  texCoords := cubeTexCoords
  count := (cubeVertices (K := K)).length / 3
  stride := 4
  texStride := 2

def shape_create_box (sz : Vec3 K) (color : Vec4 K) (off : Vec3 K) : Outcome (Shape K) :=
  cubeArrays.shape cubeIndices sz (sz.scale half) color off

/-! ### The rounded box -/

def RoundCornerBox.meshVertices (box : RoundCornerBox K) (color : Vec4 K) : List (MeshVertex K) :=
  List.zipWith (fun position normal => { position, normal, color, texcoord := ⟨0, 0⟩ })
    box.vertices box.normals

def RoundCornerBox.meshIndices (box : RoundCornerBox K) : List Nat :=
  box.indices.flatMap fun (x, y, z) => [x, y, z]

variable [LinearOrder K]

def shape_create_rounded_box (env : ShapeEnv K) (sz : Vec3 K) (N : Int) (radius : K)
    (color : Vec4 K) (off : Vec3 K) : Outcome (Shape K) :=
  let box := env.RoundCornerBox N (sz.scale half) radius
  .ok {
    vertices := box.meshVertices color
    indices := box.meshIndices
    size := sz
    offset := off
    bounds := boundsOf sz off }

/-! ### The torus -/

structure TriangleMesh (K : Type) where
  vertices : List (MeshVertex K) := []
  indices : List Nat := []

/-- The loops of the torus work on a mesh and on the index of the next vertex. There are at most 50
rings of at most 50 sides, so that no `uint32_t` overflows. -/
structure StripState (K : Type) extends TriangleMesh K where
  index : Nat := 0

section
variable (AddVertex : K → K → MeshVertex K) (stepU : K)

def StripState.addPair (u v : K) (s : StripState K) : StripState K :=
  { s with vertices := s.vertices ++ [AddVertex u v, AddVertex (u + stepU) v] }

def StripState.addTriangles (s : StripState K) : StripState K :=
  let index := s.index
  { s with indices := s.indices ++ [index - 1, index - 2, index, index - 1, index, index + 1] }

/-- The body of the loop over `v`. -/
def ringStep (u : K) (s : StripState K) (v : K) : StripState K :=
  let s := s.addPair AddVertex stepU u v
  let s := if 0 < v then s.addTriangles else s
  { s with index := s.index + 2 }

/-- The body of the loop over `u`. -/
def stripStep (vs : List K) (s : StripState K) (u : K) : StripState K :=
  let s := vs.foldl (ringStep AddVertex stepU u) s
  let s := (s.addPair AddVertex stepU u 1).addTriangles
  { s with index := s.index + 2 }

/-- The two nested loops, which give `u` and `v` the values `us` and `vs`. -/
def stripMesh (us vs : List K) : TriangleMesh K :=
  (us.foldl (stripStep AddVertex stepU vs) {}).toTriangleMesh

end

section
variable (normalize : Vec3 K → Vec3 K)

/-- A triangle's vertices, with the normal of the triangle. -/
def flatTriangle (p0 p1 p2 : MeshVertex K) : List (MeshVertex K) :=
  let v1 := p1.position - p0.position
  let v2 := p2.position - p1.position
  let norm := normalize (v2.cross v1)
  [{ p0 with normal := norm }, { p1 with normal := norm }, { p2 with normal := norm }]

/-- The loop of flat shading, from the index `tri` on. -/
def flatLoop (vertices : List (MeshVertex K)) :
    List Nat → (tri : Nat) → TriangleMesh K → Outcome (TriangleMesh K)
  | [], _, flat => .ok flat
  | i0 :: i1 :: i2 :: indices, tri, flat => do
    let p0 ← Outcome.elementAt vertices i0 "vertices"
    let p1 ← Outcome.elementAt vertices i1 "vertices"
    let p2 ← Outcome.elementAt vertices i2 "vertices"
    flatLoop vertices indices (tri + 3)
      { vertices := flat.vertices ++ flatTriangle normalize p0 p1 p2
        indices := flat.indices ++ [tri, tri + 1, tri + 2] }
  | _, _, _ => .error (.outOfRange "indices")

/-- The mesh of a torus whose loops give `u` and `v` the values `us` and `vs`. -/
def torusMesh (AddVertex : K → K → MeshVertex K) (stepU : K) (us vs : List K) (smooth : Bool) :
    Outcome (TriangleMesh K) :=
  let mesh := stripMesh AddVertex stepU us vs
  if smooth then .ok mesh else flatLoop normalize mesh.vertices mesh.indices 0 {}

end

/-- The values of `x` in `for (; x < 1.0f; x += step)`. -/
def loopValues (step : K) : Nat → K → Outcome (List K)
  | 0, _ => .error .diverged
  | fuel + 1, x =>
    if x < 1 then do
      let xs ← loopValues step fuel (x + step)
      return x :: xs
    else .ok []

section
variable (env : ShapeEnv K)

/-- `1.0f / (float)count` -/
def stepOf (count : Nat) : K := if count = 0 then env.infinity else 1 / count

/-- `AddVertex`, with the size and the radii that it captures. The colour is not set. -/
def torusVertex (size : Vec3 K) (innerRadius outerRadius u v : K) : MeshVertex K :=
  let _2_PI : K := 6283185307179586476925286766559 / 10 ^ 30
  let cu := env.cosf (u * _2_PI)
  let su := env.sinf (u * _2_PI)
  let cv := env.cosf (v * _2_PI)
  let sv := env.sinf (v * _2_PI)
  { position :=
      ⟨(outerRadius + innerRadius * cv) * cu * size.x,
        (outerRadius + innerRadius * cv) * su * size.y, innerRadius * sv * size.z⟩
    normal := ⟨cu * cv, su * cv, sv⟩
    texcoord := ⟨u * 2 + v * 0, v * 0 + v * 1⟩
    color := env.uninitialized }

/-- With at most 50 sides and rings, no loop makes more than 50 turns. -/
def shape_create_torus (size : Vec3 K) (innerRatio : K) (sides rings : Nat) (smooth : Bool)
    (_color : Vec4 K) (off : Vec3 K) : Outcome (Shape K) := do
  let sides := min sides 50
  let rings := min rings 50
  let innerRatio := min (99 / 100) innerRatio
  let innerRatio := max (1 / 100) innerRatio
  let outerRadius := half - innerRatio * (1 / 4)
  let innerRadius := innerRatio * (1 / 4)
  let us ← loopValues (stepOf env sides) 51 0
  let vs ← loopValues (stepOf env rings) 51 0
  let mesh ← torusMesh env.normalize (torusVertex env size innerRadius outerRadius)
    (stepOf env sides) us vs smooth
  return {
    vertices := mesh.vertices
    indices := mesh.indices
    size := ⟨size.x * 2, size.y * 2, size.z * 2⟩
    offset := off
    bounds := boundsOf size off }

end

end MUtils
