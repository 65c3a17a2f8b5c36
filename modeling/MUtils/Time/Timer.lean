import Mathlib

/-!
# Times, time ranges and timers: `timer.h`

A `DateTime` is a number of seconds, of type `int64_t`. `TimeRange` starts out with both ends at the
least of them. A timer has the time at which it was started, in nanoseconds; what the clock says at
a call is an argument of the model.
-/

namespace MUtils

/-- `std::chrono::time_point` with seconds. -/
def DateTime := {count : Int // -2 ^ 63 ≤ count ∧ count < 2 ^ 63}

instance : LinearOrder DateTime :=
  inferInstanceAs (LinearOrder {count : Int // -2 ^ 63 ≤ count ∧ count < 2 ^ 63})

theorem DateTime.minCount_mem : (-2 ^ 63 : Int) ≤ -2 ^ 63 ∧ (-2 ^ 63 : Int) < 2 ^ 63 :=
  ⟨le_rfl, by decide⟩

/-- `DateTime::min` -/
def DateTime.min : DateTime := ⟨-2 ^ 63, DateTime.minCount_mem⟩

theorem DateTime.min_le (t : DateTime) : DateTime.min ≤ t := t.2.1

/-- The conversion from `uint64_t` wraps around. -/
def datetime_from_seconds (t : UInt64) : DateTime :=
  ⟨(t.toNat : Int).bmod (2 ^ 64), by rw [Int.bmod_def]; split <;> omega⟩

structure TimeRange where
  Start : DateTime := .min
  End : DateTime := .min
  deriving DecidableEq

namespace TimeRange

def Valid (r : TimeRange) : Prop := r.Start ≠ .min ∧ r.End ≠ .min

def InRange (r : TimeRange) (val : DateTime) : Prop := r.Start ≤ val ∧ val ≤ r.End

/-- `IncludeRange(time)` -/
def IncludeRange (r : TimeRange) (time : DateTime) : TimeRange where
  Start := Min.min time r.Start
  End := Max.max time r.End

/-- `IncludeRange(start, end)` -/
def IncludeRange₂ (r : TimeRange) (start «end» : DateTime) : TimeRange :=
  let r := { r with Start := Min.min start r.Start }
  let r := { r with Start := Max.max start r.Start }
  let r := { r with End := Min.min «end» r.End }
  { r with End := Max.max «end» r.End }

end TimeRange

structure timer where
  startTime : Int := 0
  deriving DecidableEq

def timer_restart (_ : timer) (now : Int) : timer := ⟨now⟩

def timer_start (t : timer) (now : Int) : timer := timer_restart t now

/-- The difference is converted to `uint64_t`. -/
def timer_get_elapsed (t : timer) (now : Int) : UInt64 :=
  .ofNat ((now - t.startTime) % 2 ^ 64).toNat

end MUtils
