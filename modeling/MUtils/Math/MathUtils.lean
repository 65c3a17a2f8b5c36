import MUtils.Theory.Outcome
import MUtils.Math.Math

/-!
# The functions of `math_utils.h`

Rectangles are given by a corner and a size here, in the four components of a vector. The functions
that align an address are templates over unsigned types and so are taken for words of any width;
`size_t` has 64 bits.
-/

namespace MUtils
open Outcome

variable {K : Type} [Field K] [LinearOrder K]

/-! ### Rectangles and bounds -/

def RectContains (rect : NVec4 K) (point : NVec2 K) : Prop :=
  (rect.x ≤ point.x ∧ rect.x + rect.z ≥ point.x) ∧ rect.y ≤ point.y ∧ rect.y + rect.w ≥ point.y

instance (rect : NVec4 K) (point : NVec2 K) : Decidable (RectContains rect point) :=
  inferInstanceAs (Decidable ((_ ∧ _) ∧ _ ∧ _))

/-- What `RectClip` does along one axis: the same for both. -/
def clipAxis (x z clipX clipZ : K) : K × K :=
  let x := if x < clipX then clipX else x
  let z := if x + z > clipX + clipZ then clipZ + clipX - x else z
  (x, z)

def RectClip (rect clip : NVec4 K) : NVec4 K :=
  let (x, z) := clipAxis rect.x rect.z clip.x clip.z
  let (y, w) := clipAxis rect.y rect.w clip.y clip.w
  ⟨x, y, z, w⟩

/-- `std::numeric_limits<float>::max()` -/
def fltMax : K := ((2 ^ 24 - 1) * 2 ^ 104 : Nat)

/-- The loop of `GetBounds` from index `i` on, with `n` elements to go. -/
def boundsLoop (coords : List (NVec3 K)) : Nat → Nat → NVec3 K → NVec3 K →
    Outcome (NVec3 K × NVec3 K)
  | 0, _, min, max => .ok (min, max)
  | n + 1, i, min, max => do
    let coord ← elementAt coords i "coords"
    boundsLoop coords n (i + 1) (min.Min coord) (max.Max coord)

/-- The pointer is null, or it points to some elements. -/
def GetBounds (coords : Option (List (NVec3 K))) (count : Nat) : Outcome (NVec3 K × NVec3 K) :=
  if count = 0 then .ok (.splat 0, .splat 0)
  else
    match coords with
    | none => .ok (.splat 0, .splat 0)
    | some coords => boundsLoop coords count 0 (.splat fltMax) (.splat (-fltMax))

/-! ### Luminance -/

def LuminanceABGR (color : BitVec 32) : K :=
  let red := ((color &&& 0xFF).toNat : K) * 0.299
  let green := (((color &&& 0xFF00) >>> 8).toNat : K) * 0.587
  let blue := (((color &&& 0xFF0000) >>> 16).toNat : K) * 0.114
  (red + green + blue) / (255 : Nat)

def LuminanceARGB (color : BitVec 32) : K :=
  let blue := ((color &&& 0xFF).toNat : K) * 0.299
  let green := (((color &&& 0xFF00) >>> 8).toNat : K) * 0.587
  let red := (((color &&& 0xFF0000) >>> 16).toNat : K) * 0.114
  (red + green + blue) / (255 : Nat)

/-! ### Alignment -/

variable {w : Nat}

def AlignUpWithMask (value : BitVec w) (mask : BitVec 64) : BitVec w :=
  ((value.setWidth 64 + mask) &&& ~~~mask).setWidth w

def AlignDownWithMask (value : BitVec w) (mask : BitVec 64) : BitVec w :=
  (value.setWidth 64 &&& ~~~mask).setWidth w

def AlignUp (value : BitVec w) (alignment : BitVec 64) : BitVec w :=
  AlignUpWithMask value (alignment - 1)

def AlignDown (value : BitVec w) (alignment : BitVec 64) : BitVec w :=
  AlignDownWithMask value (alignment - 1)

def IsAligned (value : BitVec w) (alignment : BitVec 64) : Prop :=
  0 = (value.setWidth 64 &&& (alignment - 1))

instance (value : BitVec w) (alignment : BitVec 64) : Decidable (IsAligned value alignment) :=
  inferInstanceAs (Decidable (_ = _))

def DivideByMultiple (value : BitVec w) (alignment : BitVec 64) : BitVec w :=
  ((value.setWidth 64 + alignment - 1) / alignment).setWidth w

end MUtils
