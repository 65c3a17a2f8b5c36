import Mathlib

/-!
# The spin lock of `thread_utils.h`

`lock` tries to set a flag in three loops: 5 times, 10 times, and then 3000 times over and over. A
thread that has not got the flag is at one of the turns of one of the loops. The pauses between the
turns and the `yield` of the third loop change nothing.
-/

namespace MUtils

structure audio_spin_mutex where
  flag : Bool := false
  deriving DecidableEq, Repr

/-- The next turn of `lock`: in one of the three loops, with its counter. -/
inductive LockPc where
  | first (i : Nat)
  | second (i : Nat)
  | third (i : Nat)
  deriving DecidableEq, Repr

namespace audio_spin_mutex

def iterations : Nat × Nat × Nat := (5, 10, 3000)

/-- `flag.test_and_set`, which is atomic, and whether the flag was clear. -/
def try_lock (m : audio_spin_mutex) : Bool × audio_spin_mutex := (!m.flag, { flag := true })

def unlock (_ : audio_spin_mutex) : audio_spin_mutex := { flag := false }

/-- After a turn that has failed. -/
def nextTurn : LockPc → LockPc
  | .first i => if i + 1 < iterations.1 then .first (i + 1) else .second 0
  | .second i => if i + 1 < iterations.2.1 then .second (i + 1) else .third 0
  | .third i => if i + 1 < iterations.2.2 then .third (i + 1) else .third 0

/-- One turn of `lock`, which returns, or has a next turn. -/
def lockTurn (m : audio_spin_mutex) (pc : LockPc) : Option LockPc × audio_spin_mutex :=
  match m.try_lock with
  | (true, m) => (none, m)
  | (false, m) => (some (nextTurn pc), m)

variable {m : audio_spin_mutex} {pc : LockPc}

theorem lockTurn_free (h : m.flag = false) : m.lockTurn pc = (none, { flag := true }) := by
  simp only [lockTurn, try_lock, h, Bool.not_false]

theorem lockTurn_taken (h : m.flag = true) : m.lockTurn pc = (some (nextTurn pc), m) := by
  cases m
  cases h
  rfl

end audio_spin_mutex

end MUtils
