import MUtils.Math.MathUtils
import MUtils.Theory.Words

/-!
# Packed colours

A packed colour is a word with the bytes of the channels in some order. The packers for three and
for four channels agree on the order, except for `ToPackedBGRA`. `LuminanceABGR` weighs the channels
as it should, and `LuminanceARGB` exchanges the weights of red and blue (`packings_agree_iff`).
-/

namespace MUtils
open Set

section
variable {K : Type} [Field K] [LinearOrder K] [FloorSemiring K]

/-- The channels are from 0 to 1. -/
structure NVec4.InUnit (c : NVec4 K) : Prop where
  x : c.x ∈ Icc 0 1
  y : c.y ∈ Icc 0 1
  z : c.z ∈ Icc 0 1
  w : c.w ∈ Icc 0 1

/-- The colour without its alpha channel. -/
def NVec4.rgb (c : NVec4 K) : NVec3 K := ⟨c.x, c.y, c.z⟩

/-- The colour with the greatest alpha. -/
def NVec4.solid (c : NVec4 K) : NVec4 K := { c with w := 1 }

/-- The byte of a channel. -/
def channel (v : K) : UInt8 := .ofNat ⌊v * (255 : Nat)⌋₊

/-- The luminance of the truncated bytes. -/
def byteLuminance (c : NVec4 K) : K :=
  (0.299 * (channel c.x).toNat + 0.587 * (channel c.y).toNat + 0.114 * (channel c.z).toNat) /
    (255 : Nat)

end

/-! ### Bytes -/

variable {K : Type} [Field K] [LinearOrder K] [IsStrictOrderedRing K] [FloorSemiring K] {v : K}
  {c : NVec4 K}

theorem floor_channel_le (hv : v ∈ Icc 0 1) : ⌊v * 255⌋₊ ≤ 255 := by
  apply Nat.floor_le_of_le
  exact mul_le_of_le_one_left (by norm_num) hv.2

theorem toNat_channel (hv : v ∈ Icc 0 1) : (channel v).toNat = ⌊v * 255⌋₊ := by
  rw [channel, Nat.cast_ofNat]
  exact Nat.mod_eq_of_lt (Nat.lt_succ_of_le (floor_channel_le hv))

theorem castUInt32_eq (hv : v ∈ Icc 0 1) :
    castUInt32 (v * 255) = (channel v).toBitVec.setWidth 32 := by
  have hlt : ⌊v * 255⌋₊ < 2 ^ 32 := (floor_channel_le hv).trans_lt (by decide)
  apply BitVec.eq_of_toNat_eq
  rw [castUInt32, BitVec.toNat_ofNat, BitVec.toNat_setWidth]
  exact congrArg (· % 2 ^ 32) (toNat_channel hv).symm

theorem channel_eq_iff (hv : v ∈ Icc 0 1) : channel v = 255 ↔ v = 1 := by
  have hpos : (0 : K) ≤ v * 255 := mul_nonneg hv.1 (by norm_num)
  have hfloor : channel v = 255 ↔ 255 ≤ ⌊v * 255⌋₊ := by
    rw [← UInt8.toNat_inj, toNat_channel hv]
    exact ⟨Eq.ge, (floor_channel_le hv).antisymm⟩
  rw [hfloor, Nat.le_floor_iff hpos, Nat.cast_ofNat, le_mul_iff_one_le_left (by norm_num)]
  exact ⟨hv.2.antisymm, Eq.ge⟩

theorem channel_one : channel (1 : K) = 255 :=
  (channel_eq_iff ⟨zero_le_one, le_rfl⟩).mpr rfl

theorem channel_zero : channel (0 : K) = 0 := by
  rw [channel, zero_mul, Nat.floor_zero]
  rfl

theorem castUInt32_one : castUInt32 ((1 : K) * 255) = 0xFF := by
  rw [castUInt32_eq ⟨zero_le_one, le_rfl⟩, channel_one]
  rfl

/-! ### Packers -/

section
variable (p q r s : BitVec 32)

theorem or_rotate : p ||| q ||| r ||| s = q ||| r ||| s ||| p := by ac_rfl

theorem or_insert : p ||| q ||| r ||| s = p ||| s ||| q ||| r := by ac_rfl

theorem or_reverse : p ||| q ||| r ||| s = s ||| r ||| q ||| p := by ac_rfl

end

theorem toPackedARGB_eq (hc : c.InUnit) : c.ToPackedARGB =
    ofBytes 32 [channel c.z, channel c.y, channel c.x, channel c.w] := by
  rw [NVec4.ToPackedARGB, castUInt32_eq hc.x, castUInt32_eq hc.y, castUInt32_eq hc.z,
    castUInt32_eq hc.w, ofBytes_four, or_reverse]

theorem toPackedABGR_eq (hc : c.InUnit) : c.ToPackedABGR =
    ofBytes 32 [channel c.x, channel c.y, channel c.z, channel c.w] := by
  rw [NVec4.ToPackedABGR, castUInt32_eq hc.x, castUInt32_eq hc.y, castUInt32_eq hc.z,
    castUInt32_eq hc.w, ofBytes_four, or_rotate]

theorem toPackedBGRA_eq (hc : c.InUnit) : c.ToPackedBGRA =
    ofBytes 32 [channel c.z, channel c.w, channel c.x, channel c.y] := by
  rw [NVec4.ToPackedBGRA, castUInt32_eq hc.x, castUInt32_eq hc.y, castUInt32_eq hc.z,
    castUInt32_eq hc.w, ofBytes_four, ← or_rotate]

theorem rgb_toPackedBGRA_eq (hc : c.InUnit) : c.rgb.ToPackedBGRA =
    ofBytes 32 [255, channel c.z, channel c.x, channel c.y] := by
  rw [NVec3.ToPackedBGRA, NVec4.rgb, castUInt32_eq hc.x, castUInt32_eq hc.y, castUInt32_eq hc.z,
    ofBytes_four, or_insert]
  rfl

theorem rgb_toPacked : c.rgb.ToPacked = c.solid.ToPacked := by
  rw [NVec4.ToPacked, NVec4.solid, castUInt32_one]
  rfl

theorem rgb_toPackedARGB : c.rgb.ToPackedARGB = c.solid.ToPackedARGB := by
  rw [NVec4.ToPackedARGB, NVec4.solid, castUInt32_one]
  rfl

theorem rgb_toPackedABGR : c.rgb.ToPackedABGR = c.solid.ToPackedABGR := by
  rw [NVec4.ToPackedABGR, NVec4.solid, castUInt32_one]
  rfl

theorem rgb_toPackedBGRA_iff (hc : c.InUnit) :
    c.rgb.ToPackedBGRA = c.solid.ToPackedBGRA ↔ c.z = 1 := by
  have hsolid : c.solid.InUnit := ⟨hc.x, hc.y, hc.z, zero_le_one, le_rfl⟩
  rw [rgb_toPackedBGRA_eq hc, toPackedBGRA_eq hsolid, NVec4.solid, channel_one,
    ← channel_eq_iff hc.z]
  constructor
  · intro h
    have hbytes : [255, channel c.z, channel c.x, channel c.y] =
        [channel c.z, 255, channel c.x, channel c.y] := ofBytes_inj rfl le_rfl h
    exact (List.cons.inj hbytes).1.symm
  · intro h
    rw [h]

/-! ### Luminance -/

/-- A byte that is read as a number. -/
theorem toNat_byte {bytes : List UInt8} {b : UInt8} {i : Nat} (hi : i < 4)
    (hb : bytes[i]? = some b) :
    ((ofBytes 32 bytes &&& (0xFF#32 <<< (8 * i))) >>> (8 * i)).toNat = b.toNat := by
  rw [and_shiftRight_ofBytes (by omega) hb, BitVec.toNat_setWidth]
  exact Nat.mod_eq_of_lt (b.toNat_lt.trans (by decide))

theorem toNat_bytes (b₀ b₁ b₂ b₃ : UInt8) :
    (ofBytes 32 [b₀, b₁, b₂, b₃] &&& 0xFF).toNat = b₀.toNat ∧
      ((ofBytes 32 [b₀, b₁, b₂, b₃] &&& 0xFF00) >>> 8).toNat = b₁.toNat ∧
      ((ofBytes 32 [b₀, b₁, b₂, b₃] &&& 0xFF0000) >>> 16).toNat = b₂.toNat :=
  ⟨toNat_byte (i := 0) (by decide) rfl, toNat_byte (i := 1) (by decide) rfl,
    toNat_byte (i := 2) (by decide) rfl⟩

theorem luminanceABGR_eq (hc : c.InUnit) : LuminanceABGR c.ToPackedABGR = byteLuminance c := by
  obtain ⟨hred, hgreen, hblue⟩ :=
    toNat_bytes (channel c.x) (channel c.y) (channel c.z) (channel c.w)
  rw [LuminanceABGR, toPackedABGR_eq hc, hred, hgreen, hblue, byteLuminance]
  ring

/-- The weights of red and blue are exchanged. -/
theorem luminanceARGB_eq (hc : c.InUnit) :
    LuminanceARGB c.ToPackedARGB = byteLuminance ⟨c.z, c.y, c.x, c.w⟩ := by
  obtain ⟨hblue, hgreen, hred⟩ :=
    toNat_bytes (channel c.z) (channel c.y) (channel c.x) (channel c.w)
  rw [LuminanceARGB, toPackedARGB_eq hc, hred, hgreen, hblue, byteLuminance]
  ring

theorem luminanceARGB_iff (hc : c.InUnit) :
    LuminanceARGB c.ToPackedARGB = byteLuminance c ↔ channel c.x = channel c.z := by
  rw [luminanceARGB_eq hc, byteLuminance, byteLuminance, ← UInt8.toNat_inj,
    ← Nat.cast_inj (R := K)]
  constructor
  · intro h
    linarith
  · intro h
    rw [h]

/-- **The packers for three and four channels agree**, of `ToPackedBGRA` just if the blue channel is
full. **The luminances agree** just if the bytes of red and blue are equal. -/
theorem packings_agree_iff (hc : c.InUnit) :
    c.rgb.ToPacked = c.solid.ToPacked ∧ c.rgb.ToPackedARGB = c.solid.ToPackedARGB ∧
      c.rgb.ToPackedABGR = c.solid.ToPackedABGR ∧
      (c.rgb.ToPackedBGRA = c.solid.ToPackedBGRA ↔ c.z = 1) ∧
      LuminanceABGR c.ToPackedABGR = byteLuminance c ∧
      (LuminanceARGB c.ToPackedARGB = byteLuminance c ↔ channel c.x = channel c.z) :=
  ⟨rgb_toPacked, rgb_toPackedARGB, rgb_toPackedABGR, rgb_toPackedBGRA_iff hc, luminanceABGR_eq hc,
    luminanceARGB_iff hc⟩

/-- Magenta. -/
theorem packings_agree_iff_magenta :
    (⟨1, 0, 1⟩ : NVec3 ℚ).ToPackedBGRA = (⟨1, 0, 1, 1⟩ : NVec4 ℚ).ToPackedBGRA ∧
      LuminanceARGB (⟨1, 0, 1, 1⟩ : NVec4 ℚ).ToPackedARGB =
        byteLuminance (⟨1, 0, 1, 1⟩ : NVec4 ℚ) := by
  have hc : (⟨1, 0, 1, 1⟩ : NVec4 ℚ).InUnit := by constructor <;> norm_num
  obtain ⟨-, -, -, hbgra, -, hluminance⟩ := packings_agree_iff hc
  exact ⟨hbgra.mpr rfl, hluminance.mpr rfl⟩

/-- Red. -/
theorem packings_not_agree :
    (⟨1, 0, 0⟩ : NVec3 ℚ).ToPackedBGRA = 0x00FF00FF ∧
      (⟨1, 0, 0, 1⟩ : NVec4 ℚ).ToPackedBGRA = 0x00FFFF00 ∧
      LuminanceARGB (⟨1, 0, 0, 1⟩ : NVec4 ℚ).ToPackedARGB = (0.114 : ℚ) ∧
      LuminanceABGR (⟨1, 0, 0, 1⟩ : NVec4 ℚ).ToPackedABGR = (0.299 : ℚ) := by
  have hc : (⟨1, 0, 0, 1⟩ : NVec4 ℚ).InUnit := by constructor <;> norm_num
  have hbyte : (255 : UInt8).toNat = 255 := rfl
  have hzero : castUInt32 ((0 : ℚ) * 255) = 0 := by
    rw [castUInt32_eq ⟨le_rfl, zero_le_one⟩, channel_zero]
    rfl
  refine ⟨?_, ?_, ?_, ?_⟩
  · rw [NVec3.ToPackedBGRA, castUInt32_one, hzero]
    rfl
  · rw [NVec4.ToPackedBGRA, castUInt32_one, hzero]
    rfl
  · rw [luminanceARGB_eq hc, byteLuminance, channel_one, channel_zero, hbyte]
    norm_num
  · rw [luminanceABGR_eq hc, byteLuminance, channel_one, channel_zero, hbyte]
    norm_num

end MUtils
