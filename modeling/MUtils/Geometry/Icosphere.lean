import MUtils.Geometry.Sphere

/-!
# The mesh of `icosphere.h`

As for the sphere, the arrays hold vectors, indices of lines and the interleaved copy are left out,
and numbers are exact. Texture coordinates are what tells two vertices apart: `sharedIndices` is a
map from them, here a list in which the latest entry for a key comes first.
-/

namespace MUtils.Icosphere

structure CMath (K : Type) extends Sphere.CMath K where
  atanf : K → K

structure Arrays (K : Type) extends Sphere.Arrays K where
  sharedIndices : List (Vec2 K × Nat) := []

variable {K : Type} [Field K] (cmath : CMath K) (radius : K)

/-! ### Vectors -/

def computeScaleForLength (v : Vec3 K) (length : K) : K :=
  length / cmath.sqrtf (v.x * v.x + v.y * v.y + v.z * v.z)

def computeVertexNormal (v : Vec3 K) : Vec3 K := v.scale (computeScaleForLength cmath v 1)

def computeHalfVertex (v1 v2 : Vec3 K) (length : K) : Vec3 K :=
  let newV := v1 + v2
  newV.scale (computeScaleForLength cmath newV length)

def computeHalfTexCoord (t1 t2 : Vec2 K) : Vec2 K := ⟨(t1.x + t2.x) * half, (t1.y + t2.y) * half⟩

def computeFaceNormal [LinearOrder K] (v1 v2 v3 : Vec3 K) : Vec3 K :=
  let n := (v2 - v1).cross (v3 - v1)
  let length := cmath.sqrtf (n.x * n.x + n.y * n.y + n.z * n.z)
  if cmath.EPSILON < length then n.scale (1 / length) else 0

/-! ### The icosahedron -/

/-- Five vertices at one height. -/
def icosahedronRow (xy z hAngle H_ANGLE : K) : List (Vec3 K) :=
  (List.range 5).map fun i =>
    let hAngle := (· + H_ANGLE)^[i] hAngle
    ⟨xy * cmath.cosf hAngle, xy * cmath.sinf hAngle, z⟩

/-- The poles first and last, and between them two rows of five vertices. -/
def computeIcosahedronVertices : List (Vec3 K) :=
  let H_ANGLE := cmath.PI / (180 : Nat) * (72 : Nat)
  let V_ANGLE := cmath.atanf (1 / (2 : Nat))
  let hAngle1 := -cmath.PI / (2 : Nat) - H_ANGLE / (2 : Nat)
  let hAngle2 := -cmath.PI / (2 : Nat)
  let z := radius * cmath.sinf V_ANGLE
  let xy := radius * cmath.cosf V_ANGLE
  [⟨0, 0, radius⟩] ++ icosahedronRow cmath xy z hAngle1 H_ANGLE ++
    icosahedronRow cmath xy (-z) hAngle2 H_ANGLE ++ [⟨0, 0, -radius⟩]

def S_STEP : K := (186 : Nat) / (2048 : Nat)

def T_STEP : K := (322 : Nat) / (1024 : Nat)

/-- A corner of the icosahedron: the number of its vertex, and the steps of its texture coordinates,
since a vertex can be at several places of the texture. -/
structure Corner where
  vertex : Nat
  s : Nat
  t : Nat

def Corner.texCoord (c : Corner) : Vec2 K := ⟨c.s * S_STEP, c.t * T_STEP⟩

/-- The position of a corner, and its texture coordinates. -/
def Corner.read (tmpVertices : List (Vec3 K)) (c : Corner) : Outcome (Vec3 K × Vec2 K) := do
  let v ← Outcome.elementAt tmpVertices c.vertex "tmpVertices"
  return (v, c.texCoord)

/-! ### Flat shading -/

section
variable [LinearOrder K]

/-- Add a triangle with corners of its own. The index of the next vertex is the number of vertices
so far. -/
def Arrays.addTriangle (arrays : Arrays K) (c1 c2 c3 : Vec3 K × Vec2 K) : Arrays K :=
  let n := computeFaceNormal cmath c1.1 c2.1 c3.1
  let index := arrays.vertices.length
  { arrays with
    vertices := arrays.vertices ++ [c1.1, c2.1, c3.1]
    normals := arrays.normals ++ [n, n, n]
    texCoords := arrays.texCoords ++ [c1.2, c2.2, c3.2]
    indices := arrays.indices ++ [(index, index + 1, index + 2)] }

/-- The four triangles of a turn of the loop of `buildVerticesFlat`, with `i` from one to five. -/
def flatFaces (i : Nat) : List (Corner × Corner × Corner) :=
  let v0 : Corner := ⟨0, 2 * i - 1, 0⟩
  let v1 : Corner := ⟨i, 2 * i - 2, 1⟩
  let v2 : Corner := ⟨if i < 5 then i + 1 else 1, 2 * i, 1⟩
  let v3 : Corner := ⟨i + 5, 2 * i - 1, 2⟩
  let v4 : Corner := ⟨if i + 5 < 10 then i + 6 else 6, 2 * i + 1, 2⟩
  let v11 : Corner := ⟨11, 2 * i, 3⟩
  [(v0, v1, v2), (v1, v3, v2), (v2, v3, v4), (v3, v11, v4)]

def addFlatFace (tmpVertices : List (Vec3 K)) (arrays : Arrays K)
    (face : Corner × Corner × Corner) : Outcome (Arrays K) := do
  let c1 ← face.1.read tmpVertices
  let c2 ← face.2.1.read tmpVertices
  let c3 ← face.2.2.read tmpVertices
  return arrays.addTriangle cmath c1 c2 c3

/-- The icosahedron that `buildVerticesFlat` begins with. -/
def flatIcosahedron : Outcome (Arrays K) :=
  let tmpVertices := computeIcosahedronVertices cmath radius
  ((List.range 5).flatMap fun i => flatFaces (i + 1)).foldlM (addFlatFace cmath tmpVertices) {}

/-- One turn of the inner loop of `subdivideVerticesFlat`, with the arrays before the outer turn. -/
def subdivideFlatTriangle (tmp arrays : Arrays K) (t : Nat × Nat × Nat) : Outcome (Arrays K) := do
  let v1 ← Outcome.elementAt tmp.vertices t.1 "tmpVertices"
  let v2 ← Outcome.elementAt tmp.vertices t.2.1 "tmpVertices"
  let v3 ← Outcome.elementAt tmp.vertices t.2.2 "tmpVertices"
  let t1 ← Outcome.elementAt tmp.texCoords t.1 "tmpTexCoords"
  let t2 ← Outcome.elementAt tmp.texCoords t.2.1 "tmpTexCoords"
  let t3 ← Outcome.elementAt tmp.texCoords t.2.2 "tmpTexCoords"
  let newV1 := computeHalfVertex cmath v1 v2 radius
  let newV2 := computeHalfVertex cmath v2 v3 radius
  let newV3 := computeHalfVertex cmath v1 v3 radius
  let newT1 := computeHalfTexCoord t1 t2
  let newT2 := computeHalfTexCoord t2 t3
  let newT3 := computeHalfTexCoord t1 t3
  let arrays := arrays.addTriangle cmath (v1, t1) (newV1, newT1) (newV3, newT3)
  let arrays := arrays.addTriangle cmath (newV1, newT1) (v2, t2) (newV2, newT2)
  let arrays := arrays.addTriangle cmath (newV1, newT1) (newV2, newT2) (newV3, newT3)
  return arrays.addTriangle cmath (newV3, newT3) (newV2, newT2) (v3, t3)

def subdivideVerticesFlat (subdivision : Nat) (arrays : Arrays K) : Outcome (Arrays K) :=
  (List.range subdivision).foldlM (fun tmp _ =>
    tmp.indices.foldlM (subdivideFlatTriangle cmath radius tmp)
      { sharedIndices := tmp.sharedIndices }) arrays

def buildVerticesFlat (subdivision : Nat) : Outcome (Arrays K) := do
  let arrays ← flatIcosahedron cmath radius
  subdivideVerticesFlat cmath radius subdivision arrays

/-! ### Which texture coordinates are shared -/

def isOnLineSegment (a b c : Vec2 K) : Bool :=
  let EPSILON : K := 1 / (10000 : Nat)
  let cross := (b.x - a.x) * (c.y - a.y) - (b.y - a.y) * (c.x - a.x)
  if cross > EPSILON ∨ cross < -EPSILON then false
  else if (c.x > a.x ∧ c.x > b.x) ∨ (c.x < a.x ∧ c.x < b.x) then false
  else if (c.y > a.y ∧ c.y > b.y) ∨ (c.y < a.y ∧ c.y < b.y) then false
  else true

/-- The ends of the twenty segments, in steps: `1.0f / 11` for the first coordinate, and `1.0f / 3`
for the second. -/
def segments : List ((Nat × Nat) × (Nat × Nat)) :=
  [((1, 0), (0, 1)), ((1, 0), (2, 1)), ((3, 0), (2, 1)), ((3, 0), (4, 1)), ((5, 0), (4, 1)),
    ((5, 0), (6, 1)), ((7, 0), (6, 1)), ((7, 0), (8, 1)), ((9, 0), (8, 1)), ((9, 0), (11, 2)),
    ((0, 1), (2, 3)), ((3, 2), (2, 3)), ((3, 2), (4, 3)), ((5, 2), (4, 3)), ((5, 2), (6, 3)),
    ((7, 2), (6, 3)), ((7, 2), (8, 3)), ((9, 2), (8, 3)), ((9, 2), (10, 3)), ((11, 2), (10, 3))]

def isSharedTexCoord (t : Vec2 K) : Bool :=
  let S : K := 1 / (11 : Nat)
  let T : K := 1 / (3 : Nat)
  !segments.any fun segment => isOnLineSegment ⟨S * segment.1.1, T * segment.1.2⟩
    ⟨S * segment.2.1, T * segment.2.2⟩ t

/-! ### Smooth shading -/

/-- `addVertex`, `addNormal` and `addTexCoord` of one vertex. -/
def Arrays.addAttribs (arrays : Arrays K) (v n : Vec3 K) (t : Vec2 K) : Arrays K :=
  { arrays with
    vertices := arrays.vertices ++ [v]
    normals := arrays.normals ++ [n]
    texCoords := arrays.texCoords ++ [t] }

/-- `sharedIndices[key] = texCoords.size() / 2 - 1` -/
def Arrays.share (arrays : Arrays K) (key : Vec2 K) : Arrays K :=
  { arrays with sharedIndices := (key, arrays.texCoords.length - 1) :: arrays.sharedIndices }

def Arrays.find (arrays : Arrays K) (key : Vec2 K) : Option (Vec2 K × Nat) :=
  arrays.sharedIndices.find? fun entry => entry.1.x = key.x ∧ entry.1.y = key.y

def addSubVertexAttribs (arrays : Arrays K) (v n : Vec3 K) (t : Vec2 K) : Arrays K × Nat :=
  if isSharedTexCoord t then
    match arrays.find t with
    | none =>
      let arrays := arrays.addAttribs v n t
      (arrays.share t, arrays.texCoords.length - 1)
    | some entry => (arrays, entry.2)
  else
    let arrays := arrays.addAttribs v n t
    (arrays, arrays.texCoords.length - 1)

def nonSharedCorners : List Corner :=
  [⟨0, 1, 0⟩, ⟨0, 3, 0⟩, ⟨0, 5, 0⟩, ⟨0, 7, 0⟩, ⟨0, 9, 0⟩,
    ⟨11, 2, 3⟩, ⟨11, 4, 3⟩, ⟨11, 6, 3⟩, ⟨11, 8, 3⟩, ⟨11, 10, 3⟩,
    ⟨1, 0, 1⟩, ⟨1, 10, 1⟩, ⟨6, 1, 2⟩, ⟨6, 11, 2⟩]

def sharedCorners : List Corner :=
  [⟨2, 2, 1⟩, ⟨3, 4, 1⟩, ⟨4, 6, 1⟩, ⟨5, 8, 1⟩, ⟨7, 3, 2⟩, ⟨8, 5, 2⟩, ⟨9, 7, 2⟩, ⟨10, 9, 2⟩]

/-- The normals of the poles are written out. -/
def addSmoothCorner (tmpVertices : List (Vec3 K)) (arrays : Arrays K) (c : Corner) :
    Outcome (Arrays K) := do
  let (v, t) ← c.read tmpVertices
  let n := if c.vertex = 0 then ⟨0, 0, 1⟩ else if c.vertex = 11 then ⟨0, 0, -1⟩
    else computeVertexNormal cmath v
  return arrays.addAttribs v n t

def addSharedCorner (tmpVertices : List (Vec3 K)) (arrays : Arrays K) (c : Corner) :
    Outcome (Arrays K) := do
  let arrays ← addSmoothCorner cmath tmpVertices arrays c
  return arrays.share c.texCoord

def smoothIndices : List (Nat × Nat × Nat) :=
  [(0, 10, 14), (1, 14, 15), (2, 15, 16), (3, 16, 17), (4, 17, 11),
    (10, 12, 14), (12, 18, 14), (14, 18, 15), (18, 19, 15), (15, 19, 16),
    (19, 20, 16), (16, 20, 17), (20, 21, 17), (17, 21, 11), (21, 13, 11),
    (5, 18, 12), (6, 19, 18), (7, 20, 19), (8, 21, 20), (9, 13, 21)]

/-- The icosahedron that `buildVerticesSmooth` begins with. -/
def smoothIcosahedron : Outcome (Arrays K) := do
  let tmpVertices := computeIcosahedronVertices cmath radius
  let arrays ← nonSharedCorners.foldlM (addSmoothCorner cmath tmpVertices) {}
  let arrays ← sharedCorners.foldlM (addSharedCorner cmath tmpVertices) arrays
  return { arrays with indices := smoothIndices }

/-- One turn of the inner loop of `subdivideVerticesSmooth`. -/
def subdivideSmoothTriangle (arrays : Arrays K) (t : Nat × Nat × Nat) : Outcome (Arrays K) := do
  let (i1, i2, i3) := t
  let v1 ← Outcome.elementAt arrays.vertices i1 "vertices"
  let v2 ← Outcome.elementAt arrays.vertices i2 "vertices"
  let v3 ← Outcome.elementAt arrays.vertices i3 "vertices"
  let t1 ← Outcome.elementAt arrays.texCoords i1 "texCoords"
  let t2 ← Outcome.elementAt arrays.texCoords i2 "texCoords"
  let t3 ← Outcome.elementAt arrays.texCoords i3 "texCoords"
  let newV1 := computeHalfVertex cmath v1 v2 radius
  let newV2 := computeHalfVertex cmath v2 v3 radius
  let newV3 := computeHalfVertex cmath v1 v3 radius
  let newT1 := computeHalfTexCoord t1 t2
  let newT2 := computeHalfTexCoord t2 t3
  let newT3 := computeHalfTexCoord t1 t3
  let newN1 := computeVertexNormal cmath newV1
  let newN2 := computeVertexNormal cmath newV2
  let newN3 := computeVertexNormal cmath newV3
  let (arrays, newI1) := addSubVertexAttribs arrays newV1 newN1 newT1
  let (arrays, newI2) := addSubVertexAttribs arrays newV2 newN2 newT2
  let (arrays, newI3) := addSubVertexAttribs arrays newV3 newN3 newT3
  return { arrays with
    indices := arrays.indices ++ [(i1, newI1, newI3), (newI1, i2, newI2), (newI1, newI2, newI3),
      (newI3, newI2, i3)] }

def subdivideVerticesSmooth (subdivision : Nat) (arrays : Arrays K) : Outcome (Arrays K) :=
  (List.range subdivision).foldlM (fun arrays _ =>
    arrays.indices.foldlM (subdivideSmoothTriangle cmath radius) { arrays with indices := [] })
    arrays

def buildVerticesSmooth (subdivision : Nat) : Outcome (Arrays K) := do
  let arrays ← smoothIcosahedron cmath radius
  subdivideVerticesSmooth cmath radius subdivision arrays

/-- The arrays of a new `Icosphere`. -/
def build (subdivision : Nat) (smooth : Bool) : Outcome (Arrays K) :=
  if smooth then buildVerticesSmooth cmath radius subdivision
  else buildVerticesFlat cmath radius subdivision

end

end MUtils.Icosphere
