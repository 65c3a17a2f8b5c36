import MUtils.Math.MathUtils
import MUtils.Theory.Extrema

/-!
# Bounding boxes

`GetBounds` starts from the greatest and the least value of `float` for every type of coordinates.
So the box it finds is tight along an axis if some coordinate is not beyond these values
(`getBounds_tight_iff`), which for `float` is always so and for `double` is not.
-/

namespace MUtils
open Outcome

section
variable {K : Type}

/-- A fold of vectors is a fold of components. -/
theorem get_foldl {f : NVec3 K → NVec3 K → NVec3 K} {g : K → K → K} {i : Fin 3}
    (hf : ∀ v w, (f v w).get i = g (v.get i) (w.get i)) (v : NVec3 K) (coords : List (NVec3 K)) :
    (coords.foldl f v).get i = (coords.map (·.get i)).foldl g (v.get i) := by
  induction coords generalizing v with
  | nil => rfl
  | cons c coords ih =>
    rw [List.foldl_cons, ih, hf]
    rfl

theorem get_splat (i : Fin 3) (a : K) : (NVec3.splat a).get i = a := by
  fin_cases i <;> rfl

variable [LinearOrder K]

theorem get_min (i : Fin 3) (v w : NVec3 K) : (v.Min w).get i = Min.min (v.get i) (w.get i) := by
  fin_cases i <;> rfl

theorem get_max (i : Fin 3) (v w : NVec3 K) : (v.Max w).get i = Max.max (v.get i) (w.get i) := by
  fin_cases i <;> rfl

theorem boundsLoop_append (before rest : List (NVec3 K)) (min max : NVec3 K) :
    boundsLoop (before ++ rest) rest.length before.length min max =
      .ok (rest.foldl .Min min, rest.foldl .Max max) := by
  induction rest generalizing before min max with
  | nil => rfl
  | cons c rest ih =>
    have hcut : before ++ c :: rest = (before ++ [c]) ++ rest := by simp
    have hlength : before.length + 1 = (before ++ [c]).length := by simp
    rw [List.length_cons, boundsLoop, elementAt_append, ok_bind, hcut, hlength, ih]
    rfl

/-- Along every axis, the box starts at the least of the coordinates and ends at the greatest. -/
structure Tight (coords : List (NVec3 K)) (min max : NVec3 K) : Prop where
  least : ∀ i, IsLeast {v | v ∈ coords.map (·.get i)} (min.get i)
  greatest : ∀ i, IsGreatest {v | v ∈ coords.map (·.get i)} (max.get i)

end

variable {K : Type} [Field K] [LinearOrder K] {coords : List (NVec3 K)}

/-- The floating-point types that coordinates can have. -/
inductive FloatType where
  | float
  | double

/-- `std::numeric_limits<T>::max()` -/
def FloatType.max : FloatType → K
  | .float => fltMax
  | .double => ((2 ^ 53 - 1) * 2 ^ 971 : Nat)

/-- The components are in the finite range of the type. -/
def NVec3.InRange (T : FloatType) (v : NVec3 K) : Prop := ∀ i, |v.get i| ≤ T.max

theorem getBounds_eq (hne : coords ≠ []) : GetBounds (some coords) coords.length =
    .ok (coords.foldl .Min (.splat fltMax), coords.foldl .Max (.splat (-fltMax))) := by
  have hlength : coords.length ≠ 0 := fun h => hne (List.length_eq_zero_iff.mp h)
  rw [GetBounds, if_neg hlength]
  exact boundsLoop_append [] coords _ _

theorem tight_iff : Tight coords (coords.foldl .Min (.splat fltMax))
      (coords.foldl .Max (.splat (-fltMax))) ↔
    ∀ i, (∃ c ∈ coords, c.get i ≤ fltMax) ∧ ∃ c ∈ coords, -fltMax ≤ c.get i := by
  have hleast (i : Fin 3) : IsLeast {v | v ∈ coords.map (·.get i)}
      ((coords.foldl NVec3.Min (NVec3.splat fltMax)).get i) ↔ ∃ c ∈ coords, c.get i ≤ fltMax := by
    rw [get_foldl (get_min i), get_splat, isLeast_foldl_min_iff]
    simp only [List.mem_map, exists_exists_and_eq_and]
  have hgreatest (i : Fin 3) : IsGreatest {v | v ∈ coords.map (·.get i)}
      ((coords.foldl NVec3.Max (NVec3.splat (-fltMax))).get i) ↔
        ∃ c ∈ coords, -fltMax ≤ c.get i := by
    rw [get_foldl (get_max i), get_splat, isGreatest_foldl_max_iff]
    simp only [List.mem_map, exists_exists_and_eq_and]
  constructor
  · intro h i
    exact ⟨(hleast i).mp (h.least i), (hgreatest i).mp (h.greatest i)⟩
  · intro h
    exact ⟨fun i => (hleast i).mpr (h i).1, fun i => (hgreatest i).mpr (h i).2⟩

/-- **The bounding box is tight** just if along every axis some coordinate is not above the greatest
`float` and some coordinate is not below the least one. For `float`s it is. -/
theorem getBounds_tight_iff [IsOrderedAddMonoid K] (T : FloatType) (hne : coords ≠ [])
    (hrange : ∀ c ∈ coords, c.InRange T) :
    ((∃ min max, GetBounds (some coords) coords.length = .ok (min, max) ∧ Tight coords min max) ↔
      ∀ i, (∃ c ∈ coords, c.get i ≤ fltMax) ∧ ∃ c ∈ coords, -fltMax ≤ c.get i) ∧
    (T = .float → ∃ min max, GetBounds (some coords) coords.length = .ok (min, max) ∧
      Tight coords min max) := by
  have hiff : (∃ min max, GetBounds (some coords) coords.length = .ok (min, max) ∧
      Tight coords min max) ↔
      ∀ i, (∃ c ∈ coords, c.get i ≤ fltMax) ∧ ∃ c ∈ coords, -fltMax ≤ c.get i := by
    rw [← tight_iff]
    constructor
    · rintro ⟨min, max, hbounds, htight⟩
      cases (getBounds_eq hne).symm.trans hbounds
      exact htight
    · exact fun htight => ⟨_, _, getBounds_eq hne, htight⟩
  refine ⟨hiff, ?_⟩
  rintro rfl
  obtain ⟨c, hc⟩ := List.exists_mem_of_ne_nil coords hne
  refine hiff.mpr fun i => ?_
  obtain ⟨hlow, hhigh⟩ := abs_le.mp (hrange c hc i)
  exact ⟨⟨c, hc, hhigh⟩, c, hc, hlow⟩

theorem two_pow_le_max {k : Nat} (hk : k ≤ 971) : (2 : ℚ) ^ k ≤ FloatType.max .double :=
  calc (2 : ℚ) ^ k ≤ 2 ^ 971 := pow_le_pow_right₀ (by norm_num) hk
    _ = (2 ^ 971 : Nat) := by rw [Nat.cast_pow, Nat.cast_ofNat]
    _ ≤ ((2 ^ 53 - 1) * 2 ^ 971 : Nat) :=
      Nat.cast_le.mpr (Nat.le_mul_of_pos_left _ (by norm_num))

/-- Coordinates of a `double` that are less than the greatest `float`. -/
theorem getBounds_tight_iff_small : ∃ min max,
    GetBounds (some [(⟨3, -5, 6⟩ : NVec3 ℚ), ⟨9, -8, 6⟩]) 2 = .ok (min, max) ∧
      Tight [⟨3, -5, 6⟩, ⟨9, -8, 6⟩] min max := by
  have hrange : ∀ c ∈ [(⟨3, -5, 6⟩ : NVec3 ℚ), ⟨9, -8, 6⟩], c.InRange .double := by
    intro c hc i
    refine le_trans ?_ (two_pow_le_max (k := 4) (by decide))
    fin_cases hc <;> fin_cases i <;> norm_num [NVec3.get]
  refine (getBounds_tight_iff .double (by simp) hrange).1.mpr fun i => ?_
  refine ⟨⟨_, List.mem_cons_self, ?_⟩, _, List.mem_cons_self, ?_⟩ <;>
    fin_cases i <;> norm_num [NVec3.get, fltMax]

/-- A single point whose coordinates are `double`s that no `float` reaches. -/
theorem getBounds_not_tight : (NVec3.splat (2 ^ 200) : NVec3 ℚ).InRange .double ∧
    GetBounds (some [(NVec3.splat (2 ^ 200) : NVec3 ℚ)]) 1 =
      .ok (.splat fltMax, .splat (2 ^ 200)) ∧
    ¬Tight [(NVec3.splat (2 ^ 200) : NVec3 ℚ)] (.splat fltMax) (.splat (2 ^ 200)) := by
  have hlt : (fltMax : ℚ) < 2 ^ 200 := by norm_num [fltMax]
  have hneg : -(fltMax : ℚ) < 2 ^ 200 := by norm_num [fltMax]
  refine ⟨fun i => ?_, ?_, fun h => ?_⟩
  · rw [get_splat, abs_of_pos (by positivity)]
    exact two_pow_le_max (by decide)
  · refine (getBounds_eq (List.cons_ne_nil _ _)).trans ?_
    simp [NVec3.Min, NVec3.Max, NVec3.splat, hlt.le, hneg.le]
  · have hmem := (h.least 0).1
    rw [get_splat] at hmem
    exact hlt.ne (List.mem_singleton.mp hmem)

end MUtils
