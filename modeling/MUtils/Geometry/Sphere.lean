import MUtils.Geometry.StandardShapes

/-!
# The mesh of `sphere.h`

The arrays hold vectors where the source pushes their components one after the other. The indices of
lines and the interleaved copy of the vertices are left out, since no shape is built from them.
Numbers are exact, the counts are not negative, and no index overflows.
-/

namespace MUtils.Sphere

def MIN_SECTOR_COUNT : Nat := 3

def MIN_STACK_COUNT : Nat := 2

/-- What is called from `<cmath>`, and the constants of the functions. -/
structure CMath (K : Type) where
  cosf : K → K
  sinf : K → K
  sqrtf : K → K
  PI : K
  EPSILON : K

/-- A vertex before it is put into the arrays. -/
structure Vertex (K : Type) where
  x : K
  y : K
  z : K
  s : K
  t : K

structure Arrays (K : Type) where
  vertices : List (Vec3 K) := []
  normals : List (Vec3 K) := []
  texCoords : List (Vec2 K) := []
  indices : List (Nat × Nat × Nat) := []

def Vertex.position (v : Vertex K) : Vec3 K := ⟨v.x, v.y, v.z⟩

def Vertex.texCoord (v : Vertex K) : Vec2 K := ⟨v.s, v.t⟩

variable {K : Type} [Field K] (cmath : CMath K)

/-- The vertex of a stack and a sector, which both ways of building compute. -/
def vertexAt (radius : K) (sectorCount stackCount i j : Nat) : Vertex K :=
  let sectorStep := (2 : Nat) * cmath.PI / sectorCount
  let stackStep := cmath.PI / stackCount
  let stackAngle := cmath.PI / (2 : Nat) - i * stackStep
  let xy := radius * cmath.cosf stackAngle
  let sectorAngle := j * sectorStep
  { x := xy * cmath.cosf sectorAngle
    y := xy * cmath.sinf sectorAngle
    z := radius * cmath.sinf stackAngle
    s := j / sectorCount
    t := i / stackCount }

/-- The vertices of the loops over the stacks and the sectors. -/
def gridVertices (radius : K) (sectorCount stackCount : Nat) : List (Vertex K) :=
  (List.range (stackCount + 1)).flatMap fun i => (List.range (sectorCount + 1)).map fun j =>
    vertexAt cmath radius sectorCount stackCount i j

/-- The indices of the second loop of `buildVerticesSmooth`. -/
def smoothIndices (sectorCount stackCount : Nat) : List (Nat × Nat × Nat) :=
  (List.range stackCount).flatMap fun i => (List.range sectorCount).flatMap fun j =>
    let k1 := i * (sectorCount + 1) + j
    let k2 := k1 + sectorCount + 1
    (if i ≠ 0 then [(k1, k2, k1 + 1)] else []) ++
      (if i + 1 ≠ stackCount then [(k1 + 1, k2, k2 + 1)] else [])

def buildVerticesSmooth (radius : K) (sectorCount stackCount : Nat) : Arrays K :=
  let grid := gridVertices cmath radius sectorCount stackCount
  { vertices := grid.map Vertex.position
    normals := grid.map fun v => v.position.scale (1 / radius)
    texCoords := grid.map Vertex.texCoord
    indices := smoothIndices sectorCount stackCount }

/-- Put the corners of one or two triangles at the end of the arrays, all with one normal. -/
def Arrays.addCorners (arrays : Arrays K) (corners : List (Vertex K)) (n : Vec3 K)
    (triangles : List (Nat × Nat × Nat)) : Arrays K :=
  let index := arrays.vertices.length
  { vertices := arrays.vertices ++ corners.map Vertex.position
    normals := arrays.normals ++ corners.map fun _ => n
    texCoords := arrays.texCoords ++ corners.map Vertex.texCoord
    indices := arrays.indices ++
      triangles.map fun (a, b, c) => (index + a, index + b, index + c) }

section
variable [LinearOrder K]

def computeFaceNormal (v1 v2 v3 : Vertex K) : Vec3 K :=
  let n := (v2.position - v1.position).cross (v3.position - v1.position)
  let length := cmath.sqrtf (n.x * n.x + n.y * n.y + n.z * n.z)
  if cmath.EPSILON < length then n.scale (1 / length) else 0

/-- One turn of the loops of `buildVerticesFlat`. The index of the next vertex is the number of
vertices so far. -/
def flatCell (tmpVertices : List (Vertex K)) (sectorCount stackCount : Nat) (arrays : Arrays K)
    (i j : Nat) : Outcome (Arrays K) := do
  let vi1 := i * (sectorCount + 1) + j
  let vi2 := (i + 1) * (sectorCount + 1) + j
  let v1 ← Outcome.elementAt tmpVertices vi1 "tmpVertices"
  let v2 ← Outcome.elementAt tmpVertices vi2 "tmpVertices"
  let v3 ← Outcome.elementAt tmpVertices (vi1 + 1) "tmpVertices"
  let v4 ← Outcome.elementAt tmpVertices (vi2 + 1) "tmpVertices"
  if i = 0 then
    return arrays.addCorners [v1, v2, v4] (computeFaceNormal cmath v1 v2 v4) [(0, 1, 2)]
  else if i + 1 = stackCount then
    return arrays.addCorners [v1, v2, v3] (computeFaceNormal cmath v1 v2 v3) [(0, 1, 2)]
  else
    return arrays.addCorners [v1, v2, v3, v4] (computeFaceNormal cmath v1 v2 v3)
      [(0, 1, 2), (2, 1, 3)]

def buildVerticesFlat (radius : K) (sectorCount stackCount : Nat) : Outcome (Arrays K) :=
  let tmpVertices := gridVertices cmath radius sectorCount stackCount
  (List.range stackCount).foldlM (fun arrays i =>
    (List.range sectorCount).foldlM (fun arrays j =>
      flatCell cmath tmpVertices sectorCount stackCount arrays i j) arrays) {}

/-- The number of sectors that `set` goes on with. The second test is on the sectors again. -/
def sectorCount (sectors : Nat) : Nat :=
  let sectorCount := if sectors < MIN_SECTOR_COUNT then MIN_SECTOR_COUNT else sectors
  if sectors < MIN_STACK_COUNT then MIN_STACK_COUNT else sectorCount

def set (radius : K) (sectors stackCount : Nat) (smooth : Bool) : Outcome (Arrays K) :=
  if smooth then
    .ok (buildVerticesSmooth cmath radius (sectorCount sectors) stackCount)
  else
    buildVerticesFlat cmath radius (sectorCount sectors) stackCount

end

end MUtils.Sphere
