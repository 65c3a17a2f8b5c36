import Mathlib

/-!
# The vectors and rectangles of `math.h`

Coordinates are in an ordered field, so that arithmetic is exact.
-/

namespace MUtils

structure NVec2 (K : Type) where
  x : K
  y : K
  deriving DecidableEq

structure NVec3 (K : Type) where
  x : K
  y : K
  z : K
  deriving DecidableEq

structure NVec4 (K : Type) where
  x : K
  y : K
  z : K
  w : K
  deriving DecidableEq

/-- The corners; the bottom one has the greater `y`. -/
structure NRect (K : Type) where
  topLeftPx : NVec2 K
  bottomRightPx : NVec2 K
  deriving DecidableEq

variable {K : Type} [Field K] [LinearOrder K]

/-! ### Vectors -/

namespace NVec2

instance : Add (NVec2 K) := ⟨fun lhs rhs => ⟨lhs.x + rhs.x, lhs.y + rhs.y⟩⟩

instance : Sub (NVec2 K) := ⟨fun lhs rhs => ⟨lhs.x - rhs.x, lhs.y - rhs.y⟩⟩

instance : HMul (NVec2 K) K (NVec2 K) := ⟨fun lhs val => ⟨lhs.x * val, lhs.y * val⟩⟩

omit [LinearOrder K]

theorem add_def (lhs rhs : NVec2 K) : lhs + rhs = ⟨lhs.x + rhs.x, lhs.y + rhs.y⟩ := rfl

theorem sub_def (lhs rhs : NVec2 K) : lhs - rhs = ⟨lhs.x - rhs.x, lhs.y - rhs.y⟩ := rfl

end NVec2

namespace NVec3

/-- `operator[]` with a valid index. -/
def get (v : NVec3 K) : Fin 3 → K
  | 0 => v.x
  | 1 => v.y
  | 2 => v.z

/-- `NVec3(T val)` -/
def splat (val : K) : NVec3 K := ⟨val, val, val⟩

def Min (lhs rhs : NVec3 K) : NVec3 K := ⟨min lhs.x rhs.x, min lhs.y rhs.y, min lhs.z rhs.z⟩

def Max (lhs rhs : NVec3 K) : NVec3 K := ⟨max lhs.x rhs.x, max lhs.y rhs.y, max lhs.z rhs.z⟩

end NVec3

/-! ### Colours -/

section
variable [FloorSemiring K]

/-- `uint32_t(val)`, which truncates. It is undefined for values that no `uint32_t` has. -/
def castUInt32 (val : K) : BitVec 32 := BitVec.ofNat 32 ⌊val⌋₊

namespace NVec3

def ToPacked (val : NVec3 K) : BitVec 32 :=
  castUInt32 (val.x * 255) <<< 24 ||| castUInt32 (val.y * 255) <<< 16 |||
    castUInt32 (val.z * 255) <<< 8 ||| 0xFF

def ToPackedARGB (val : NVec3 K) : BitVec 32 :=
  0xFF000000 ||| castUInt32 (val.x * 255) <<< 16 ||| castUInt32 (val.y * 255) <<< 8 |||
    castUInt32 (val.z * 255)

def ToPackedABGR (val : NVec3 K) : BitVec 32 :=
  0xFF000000 ||| castUInt32 (val.x * 255) ||| castUInt32 (val.y * 255) <<< 8 |||
    castUInt32 (val.z * 255) <<< 16

def ToPackedBGRA (val : NVec3 K) : BitVec 32 :=
  0xFF ||| castUInt32 (val.x * 255) <<< 16 ||| castUInt32 (val.y * 255) <<< 24 |||
    castUInt32 (val.z * 255) <<< 8

end NVec3

namespace NVec4

def ToPacked (val : NVec4 K) : BitVec 32 :=
  castUInt32 (val.x * 255) <<< 24 ||| castUInt32 (val.y * 255) <<< 16 |||
    castUInt32 (val.z * 255) <<< 8 ||| castUInt32 (val.w * 255)

def ToPackedARGB (val : NVec4 K) : BitVec 32 :=
  castUInt32 (val.w * 255) <<< 24 ||| castUInt32 (val.x * 255) <<< 16 |||
    castUInt32 (val.y * 255) <<< 8 ||| castUInt32 (val.z * 255)

def ToPackedABGR (val : NVec4 K) : BitVec 32 :=
  castUInt32 (val.w * 255) <<< 24 ||| castUInt32 (val.x * 255) |||
    castUInt32 (val.y * 255) <<< 8 ||| castUInt32 (val.z * 255) <<< 16

def ToPackedBGRA (val : NVec4 K) : BitVec 32 :=
  castUInt32 (val.w * 255) <<< 8 ||| castUInt32 (val.x * 255) <<< 16 |||
    castUInt32 (val.y * 255) <<< 24 ||| castUInt32 (val.z * 255)

end NVec4

end

/-! ### Rectangles -/

namespace NRect

def Contains (r : NRect K) (pt : NVec2 K) : Prop :=
  r.topLeftPx.x ≤ pt.x ∧ r.topLeftPx.y ≤ pt.y ∧ r.bottomRightPx.x > pt.x ∧ r.bottomRightPx.y > pt.y

instance (r : NRect K) (pt : NVec2 K) : Decidable (r.Contains pt) :=
  inferInstanceAs (Decidable (_ ∧ _ ∧ _ ∧ _))

def TopRight (r : NRect K) : NVec2 K := ⟨r.bottomRightPx.x, r.topLeftPx.y⟩

def Left (r : NRect K) : K := r.topLeftPx.x

def Right (r : NRect K) : K := r.TopRight.x

def Top (r : NRect K) : K := r.TopRight.y

def Bottom (r : NRect K) : K := r.bottomRightPx.y

def Height (r : NRect K) : K := r.bottomRightPx.y - r.topLeftPx.y

def Width (r : NRect K) : K := r.bottomRightPx.x - r.topLeftPx.x

def Empty (r : NRect K) : Prop := r.Height = 0 ∨ r.Width = 0

instance (r : NRect K) : Decidable r.Empty := inferInstanceAs (Decidable (_ ∨ _))

def Adjust (r : NRect K) (x y : K) : NRect K :=
  ⟨⟨r.topLeftPx.x + x, r.topLeftPx.y + y⟩, ⟨r.bottomRightPx.x + x, r.bottomRightPx.y + y⟩⟩

def Adjusted (r : NRect K) (v : NVec2 K) : NRect K := r.Adjust v.x v.y

def Move (r : NRect K) (x y : K) : NRect K :=
  let width := r.Width
  let height := r.Height
  ⟨⟨x, y⟩, ⟨x + width, y + height⟩⟩

def Moved (r : NRect K) (v : NVec2 K) : NRect K := r.Move v.x v.y

/-- The first correction of `Clamp` along one axis, of a position and a size. -/
def clampStart (x z left right : K) : K × K :=
  if x > right then (right, 0)
  else if x < left then (left, max 0 ((x + z) - left))
  else (x, z)

/-- The second correction, of the size. -/
def clampSize (x z right : K) : K := if x + z ≥ right then max 0 (right - x) else z

/-- What `Clamp` does along one axis: the same for both. -/
def clampAxis (x z left right : K) : K × K :=
  let (x, z) := clampStart x z left right
  (x, clampSize x z right)

def Clamp (a r : NRect K) : NRect K :=
  let (x, z) := clampAxis a.topLeftPx.x a.Width r.Left r.Right
  let (y, w) := clampAxis a.topLeftPx.y a.Height r.Top r.Bottom
  ⟨⟨x, y⟩, ⟨x + z, y + w⟩⟩

/-- `operator*` with a number. -/
instance : HMul (NRect K) K (NRect K) :=
  ⟨fun lhs val => ⟨lhs.topLeftPx * val, lhs.bottomRightPx * val⟩⟩

/-- `operator*` with a vector. -/
instance : HMul (NRect K) (NVec2 K) (NRect K) :=
  ⟨fun lhs val => ⟨lhs.topLeftPx * val.x, lhs.bottomRightPx * val.y⟩⟩

instance : HAdd (NRect K) (NVec2 K) (NRect K) := ⟨fun lhs pos => lhs.Adjusted pos⟩

end NRect

end MUtils
