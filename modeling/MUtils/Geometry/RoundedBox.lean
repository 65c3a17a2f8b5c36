import MUtils.Geometry.StandardShapes
import MUtils.Theory.Vec

/-!
# The mesh of `rounded_box.h`

`Create` goes through three pairs of planes with three copies of one piece of code, in which the
roles of the axes are exchanged. The calls that its loops make do not depend on what earlier calls
have done, so the loops are the list of their calls, and `Create` is these calls in their order.

`N` is not negative, and the grid has less than `2 ^ 31` points.
-/

namespace MUtils.RoundCornerBox

/-- A point of the grid. -/
abbrev Point := Nat × Nat × Nat

/-- A pair of planes, by the axes that `i` and `j` are on. -/
inductive Plane where
  | xy
  | xz
  | yz
  deriving DecidableEq, Repr

namespace Plane

/-- What belongs to `i`, `j` and `k`, in the order of the axes. -/
def arrange : Plane → α → α → α → α × α × α
  | xy, i, j, k => (i, j, k)
  | xz, i, j, k => (i, k, j)
  | yz, i, j, k => (k, i, j)

def vector (plane : Plane) (i j k : K) : Vec3 K :=
  ⟨(plane.arrange i j k).1, (plane.arrange i j k).2.1, (plane.arrange i j k).2.2⟩

/-- The components of `b` along `i`, `j` and `k`. -/
def components : Plane → Vec3 K → K × K × K
  | xy, b => (b.x, b.y, b.z)
  | xz, b => (b.x, b.z, b.y)
  | yz, b => (b.y, b.z, b.x)

def inversed : Plane → Nat → Bool
  | xy, kidx => kidx == 0
  | xz, kidx => kidx == 1
  | yz, kidx => kidx == 0

end Plane

/-- The functions of `glm` that are called. -/
structure Glm (K : Type) where
  length : Vec3 K → K
  normalize : Vec3 K → Vec3 K

structure Builder (K : Type) extends RoundCornerBox K where
  m_index_to_verts : Vec Int
  m_radius : K
  m_N_edge : Nat

/-- A call of `AddVertex` or of `AddFace`, whose indices are translated before. -/
inductive Call (K : Type) where
  | AddVertex (p : Point) (pos base_pos : Vec3 K)
  | AddFace (i j k : Point) (inversed : Bool)

section
variable {K : Type} [Field K] [LinearOrder K] (glm : Glm K)

namespace Builder

def pidx (box : Builder K) (p : Point) : Nat :=
  p.2.2 * box.m_N_edge * box.m_N_edge + p.2.1 * box.m_N_edge + p.1

def push (box : Builder K) (vertex normal : Vec3 K) : Builder K :=
  { box with
    vertices := box.vertices ++ [vertex]
    normals := box.normals ++ [normal]
    normals_length := by rw [List.length_append, box.normals_length, List.length_append]; rfl }

def AddVertex (box : Builder K) (p : Point) (pos base_pos : Vec3 K) : Outcome (Builder K) := do
  let pidx ← Outcome.index (box.pidx p) box.m_index_to_verts.size "m_index_to_verts"
  if box.m_index_to_verts.get pidx < 0 then
    let next_idx := box.vertices.length
    let box := { box with m_index_to_verts := box.m_index_to_verts.set pidx next_idx }
    let dir := pos - base_pos
    if 0 < glm.length dir then
      return box.push (base_pos + (glm.normalize dir).scale box.m_radius) (glm.normalize dir)
    else
      return box.push pos (glm.normalize pos)
  else
    return box

def translateIndices (box : Builder K) (p : Point) : Outcome Int := do
  let pidx ← Outcome.index (box.pidx p) box.m_index_to_verts.size "m_index_to_verts"
  return box.m_index_to_verts.get pidx

/-- An `int` as a component of a `glm::uvec3`. -/
def toUnsigned (i : Int) : Nat := (i % 2 ^ 32).toNat

def AddFace (box : Builder K) (i j k : Int) (inversed : Bool) : Builder K :=
  let face := if inversed then (toUnsigned i, toUnsigned k, toUnsigned j)
    else (toUnsigned i, toUnsigned j, toUnsigned k)
  { box with indices := box.indices ++ [face] }

def perform (box : Builder K) : Call K → Outcome (Builder K)
  | .AddVertex p pos base_pos => box.AddVertex glm p pos base_pos
  | .AddFace i j k inversed => do
    return box.AddFace (← box.translateIndices i) (← box.translateIndices j)
      (← box.translateIndices k) inversed

end Builder

/-- `ks` -/
def ks (N kidx : Nat) : Nat := if kidx = 0 then 0 else N * 2 + 1

def sign (kidx : Nat) : K := if kidx = 0 then -1 else 1

/-- The four calls of the loop over the vertices. -/
def vertexCalls (plane : Plane) (N kidx : Nat) (b : Vec3 K) (radius : K) (i j : Nat) :
    List (Call K) :=
  let k := ks N kidx
  let dx := radius / (N : K)
  let (bi, bj, bk) := plane.components b
  let origin := plane.vector (-bi - radius) (-bj - radius) ((bk + radius) * sign kidx)
  let two : K := (2 : Nat)
  [.AddVertex (plane.arrange i j k) (origin + plane.vector (dx * i) (dx * j) 0)
      (plane.vector (-bi) (-bj) (bk * sign kidx)),
    .AddVertex (plane.arrange (i + N + 1) j k)
      (origin + plane.vector (dx * i + two * bi + radius) (dx * j) 0)
      (plane.vector bi (-bj) (bk * sign kidx)),
    .AddVertex (plane.arrange (i + N + 1) (j + N + 1) k)
      (origin + plane.vector (dx * i + two * bi + radius) (dx * j + two * bj + radius) 0)
      (plane.vector bi bj (bk * sign kidx)),
    .AddVertex (plane.arrange i (j + N + 1) k)
      (origin + plane.vector (dx * i) (dx * j + two * bj + radius) 0)
      (plane.vector (-bi) bj (bk * sign kidx))]

/-- The two faces of a square. -/
def faceCalls (plane : Plane) (N kidx : Nat) (square : Nat × Nat) : List (Call K) :=
  let k := ks N kidx
  let (i, j) := square
  [.AddFace (plane.arrange i j k) (plane.arrange (i + 1) (j + 1) k) (plane.arrange i (j + 1) k)
      (plane.inversed kidx),
    .AddFace (plane.arrange i j k) (plane.arrange (i + 1) j k) (plane.arrange (i + 1) (j + 1) k)
      (plane.inversed kidx)]

end

/-- The squares of a plane in the order of the loops: the corners, the sides, and the middle. -/
def squares (N : Nat) : List (Nat × Nat) :=
  ((List.range N).flatMap fun j => (List.range N).flatMap fun i =>
    [(i, j), (i, j + N + 1), (i + N + 1, j + N + 1), (i + N + 1, j)]) ++
  ((List.range N).flatMap fun i => [(i, N), (N, i), (i + N + 1, N), (N, i + N + 1)]) ++
  [(N, N)]

section
variable {K : Type} [Field K] [LinearOrder K] (glm : Glm K)

def planeCalls (plane : Plane) (N kidx : Nat) (b : Vec3 K) (radius : K) : List (Call K) :=
  ((List.range (N + 1)).flatMap fun j => (List.range (N + 1)).flatMap fun i =>
    vertexCalls plane N kidx b radius i j) ++
  (squares N).flatMap (faceCalls plane N kidx)

def calls (N : Nat) (b : Vec3 K) (radius : K) : List (Call K) :=
  [Plane.xy, .xz, .yz].flatMap fun plane => [0, 1].flatMap fun kidx =>
    planeCalls plane N kidx b radius

/-- Before the loops: a box that has just been constructed, with its table. -/
def start (N : Nat) (radius : K) : Builder K where
  vertices := []
  normals := []
  indices := []
  normals_length := rfl
  m_index_to_verts := (Vec.empty 0).resize (2 * (N + 1) * (2 * (N + 1)) * (2 * (N + 1))) (-1)
  m_radius := radius
  m_N_edge := 2 * (N + 1)

def Create (N : Nat) (b : Vec3 K) (radius : K) : Outcome (Builder K) :=
  (calls N b radius).foldlM (Builder.perform glm) (start N radius)

end

end MUtils.RoundCornerBox
