import MUtils.Theory.Outcome
import MUtils.Time.Timer

/-!
# The scheduler of `callback.cpp`

A callback may call `scheduler_start` and `scheduler_stop` on the scheduler that called it, as often
as it likes and in a different way each time. What it does when it is called is an argument of
`scheduler_update`, a list of such calls with the times at which they are made. Callbacks return.

`timer_get_elapsed_seconds(timer) >= timeout` compares a `double` with a `float`. The comparison is
a parameter `reached` of the model, on the elapsed nanoseconds and a timeout of any type.
-/

namespace MUtils

inductive SchedulerState where
  | Off
  | Started
  | Triggered
  deriving DecidableEq, Repr

structure scheduler (Seconds Callback : Type) [One Seconds] where
  /-- `none` is the empty `std::function`. -/
  callback : Option Callback := none
  cb_timer : timer := {}
  timeout : Seconds := 1
  state : SchedulerState := .Off
  deriving DecidableEq

variable {Seconds Callback : Type} [One Seconds]

def scheduler_start (sched : scheduler Seconds Callback) (now : Int) (seconds : Seconds)
    (fnCallback : Callback) : scheduler Seconds Callback :=
  { sched with
    cb_timer := timer_start sched.cb_timer now
    state := .Started
    timeout := seconds
    callback := some fnCallback }

def scheduler_stop (sched : scheduler Seconds Callback) : scheduler Seconds Callback :=
  { sched with state := .Off }

/-- A call of `scheduler_start` or `scheduler_stop`. -/
inductive Control (Seconds Callback : Type) where
  | start (now : Int) (seconds : Seconds) (fnCallback : Callback)
  | stop
  deriving DecidableEq

def scheduler.control (sched : scheduler Seconds Callback) :
    Control Seconds Callback → scheduler Seconds Callback
  | .start now seconds fnCallback => scheduler_start sched now seconds fnCallback
  | .stop => scheduler_stop sched

/-- With the callback that was called, if one was. An empty function throws. -/
def scheduler_update (reached : UInt64 → Seconds → Bool)
    (effect : Callback → List (Control Seconds Callback)) (sched : scheduler Seconds Callback)
    (now : Int) : Outcome (scheduler Seconds Callback × Option Callback) :=
  if sched.state ≠ .Started then .ok (sched, none)
  else if reached (timer_get_elapsed sched.cb_timer now) sched.timeout then
    match sched.callback with
    | none => .error (.uncaught "std::bad_function_call")
    | some callback =>
      -- sched.callback()
      let sched := (effect callback).foldl scheduler.control sched
      .ok ({ sched with state := .Triggered }, some callback)
  else .ok (sched, none)

end MUtils
