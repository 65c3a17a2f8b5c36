import MUtils.Thread.MemPool

/-!
# The timeline of `timeline.h`

A `Timeline` owns a `TSMemoryPool` of events, and the events that have been stored are the
intrusive list of that pool, kept in order of time. Fields of events are maps from addresses, like
the links. Every method takes the mutex for its whole body, so a call is one step.

A loop over the list is bounded by the number of events ever constructed: a traversal that takes
more steps has come back to an event it had passed and never ends (`Fault.diverged`).
-/

namespace MUtils
open Outcome

/-- A time point of the high resolution clock: nanoseconds in an `int64_t`. -/
@[ext] structure TimePoint where
  ns : Int
  fits : -2 ^ 63 ≤ ns ∧ ns < 2 ^ 63

namespace TimePoint

instance : LinearOrder TimePoint :=
  @LinearOrder.lift' TimePoint Int Int.instLinearOrder ns fun _ _ => TimePoint.ext

/-- `TimePoint::min()` -/
def min : TimePoint := ⟨-2 ^ 63, by decide⟩

/-- The clock's epoch, which is what `TimePoint()` is. -/
def epoch : TimePoint := ⟨0, by decide⟩

theorem min_le (t : TimePoint) : min ≤ t := t.fits.1

end TimePoint

/-- `std::chrono::milliseconds`: a count in an `int64_t`. -/
structure Milliseconds where
  count : Int
  fits : -2 ^ 63 ≤ count ∧ count < 2 ^ 63

/-- No time at all. -/
def Milliseconds.zero : Milliseconds := ⟨0, by decide⟩

/-- What is left of a count of nanoseconds in an `int64_t`. -/
def int64 (v : Int) : Int :=
  v.bmod (2 ^ 64)

/-- A `ctti::type_id_t`. -/
abbrev TypeId := Nat

structure Timeline where
  mem : ListMem
  m_id : ItemPtr → UInt64
  m_time : ItemPtr → TimePoint
  m_duration : ItemPtr → Milliseconds
  m_triggered : ItemPtr → Bool
  GetType : ItemPtr → TypeId
  /-- The address of the timeline's own pool. -/
  self : PoolPtr
  m_timeEventPool : TSMemoryPool

/-- What constructing an event leaves to others: the duration is not set before `SetTime`, and the
type is the event class's. -/
structure RawEvent where
  m_duration : Milliseconds
  type : TypeId

namespace Timeline

/-- `new T(this, id)`, apart from the id. -/
def construct (tl : Timeline) (p : ItemPtr) (raw : RawEvent) : Timeline :=
  { tl with
    mem := { tl.mem with
      m_pPool := Function.update tl.mem.m_pPool p (some tl.self)
      m_pNext := Function.update tl.mem.m_pNext p none
      m_pPrevious := Function.update tl.mem.m_pPrevious p none }
    m_time := Function.update tl.m_time p TimePoint.epoch
    m_duration := Function.update tl.m_duration p raw.m_duration
    m_triggered := Function.update tl.m_triggered p false
    GetType := Function.update tl.GetType p raw.type }

/-- `TSMemoryPool::Alloc` on the timeline's pool, with `TimeLineEvent::Init`. -/
def Alloc (tl : Timeline) (pick : Option Nat) (raw : RawEvent) : ItemPtr × Timeline :=
  let ((pRet, id), pool) := tl.m_timeEventPool.Alloc pick
  let tl := if (tl.m_timeEventPool.try_dequeue pick).isNone then tl.construct pRet raw else tl
  (pRet, { tl with
    m_id := Function.update tl.m_id pRet id
    m_triggered := Function.update tl.m_triggered pRet false
    m_timeEventPool := pool })

/-- No event constructed and none stored. -/
def blank (self : PoolPtr) : Timeline where
  mem := ⟨fun _ => none, fun _ => none, fun _ => none, fun _ => none, fun _ => none⟩
  m_id _ := 0
  m_time _ := TimePoint.epoch
  m_duration _ := .zero
  m_triggered _ := false
  GetType _ := 0
  self := self
  m_timeEventPool := .empty

/-- One round of the loop in the constructor of `TSMemoryPool`. -/
def preallocate (tl : Timeline) (pick : Option Nat) (raw : RawEvent) : Timeline :=
  let (p, tl) := tl.Alloc pick raw
  { tl with m_timeEventPool := tl.m_timeEventPool.Free p }

/-- A new timeline: the pool's constructor allocates once for each element of `picks`. -/
def new (self : PoolPtr) (picks : List (Option Nat × RawEvent)) : Timeline :=
  picks.foldl (fun tl pick => tl.preallocate pick.1 pick.2) (blank self)

def SetTime (tl : Timeline) (ev : ItemPtr) (t : TimePoint) (d : Milliseconds) : Timeline :=
  { tl with
    m_time := Function.update tl.m_time ev t
    m_duration := Function.update tl.m_duration ev d }

/-- `PoolItem::Free` -/
def Free (tl : Timeline) (p : ItemPtr) : Outcome Timeline := do
  let tl := { tl with mem := (list_disconnect tl.mem p).1 }
  let _ ← deref (tl.mem.m_pPool p)
  return { tl with m_timeEventPool := tl.m_timeEventPool.Free p }

/-- A bound on the steps of a traversal that does not come back to where it was. -/
def fuel (tl : Timeline) : Nat := tl.m_timeEventPool.constructed + 1

/-! ### StoreTimeEvent -/

/-- The loop that looks for the last event that is not later than `ev`. -/
def storeLoop (tl : Timeline) (ev : ItemPtr) : Nat → Option ItemPtr → Outcome (Option ItemPtr)
  | 0, _ => .error .diverged
  | _ + 1, none => .ok none
  | fuel + 1, some pCurrent =>
    if tl.m_time ev < tl.m_time pCurrent then storeLoop tl ev fuel (tl.mem.m_pPrevious pCurrent)
    else .ok (some pCurrent)

def StoreTimeEvent (tl : Timeline) (ev : ItemPtr) : Outcome Timeline := do
  assert (tl.mem.m_pNext ev = none) "ev->m_pNext == nullptr"
  assert (tl.mem.m_pPrevious ev = none) "ev->m_pPrevious == nullptr"
  -- Add on the end, but keep events ordered in time
  let pCurrent ← storeLoop tl ev tl.fuel (tl.mem.m_pLast tl.self)
  assert (∀ c ∈ pCurrent, tl.m_time c ≤ tl.m_time ev)
    "pCurrent == nullptr || (pCurrent->m_time <= ev->m_time)"
  let mem ← list_insert_after tl.mem pCurrent ev
  return { tl with mem := mem }

/-! ### ExpireEvents -/

/-- `(startTime - (m_time + m_duration)) > seconds(secondsOld)`. The duration is first converted to
nanoseconds; every intermediate value is an `int64_t`. The seconds are an `int`, so they fit. -/
def Expired (tl : Timeline) (startTime : TimePoint) (secondsOld : Int) (p : ItemPtr) : Prop :=
  let m_duration := int64 ((tl.m_duration p).count * 1000000)
  let m_end := int64 ((tl.m_time p).ns + m_duration)
  secondsOld * 1000000000 < int64 (startTime.ns - m_end)

instance : Decidable (Expired tl startTime secondsOld p) := inferInstanceAs (Decidable (_ < _))

/-- `(startTime - m_time) < seconds(16)` -/
def Recent (tl : Timeline) (startTime : TimePoint) (p : ItemPtr) : Prop :=
  int64 (startTime.ns - (tl.m_time p).ns) < 16 * 1000000000

instance : Decidable (Recent tl startTime p) := inferInstanceAs (Decidable (_ < _))

def expireLoop (startTime : TimePoint) (secondsOld : Int) :
    Nat → Timeline → Option ItemPtr → List ItemPtr → Outcome (List ItemPtr × Timeline)
  | 0, _, _, _ => .error .diverged
  | _ + 1, tl, none, victims => .ok (victims, tl)
  | fuel + 1, tl, some pCurrent, victims =>
    if tl.Expired startTime secondsOld pCurrent then do
      let (mem, pNext) := list_disconnect tl.mem pCurrent
      let tl ← Free { tl with mem := mem } pCurrent
      expireLoop startTime secondsOld fuel tl pNext (victims ++ [pCurrent])
    else if tl.Recent startTime pCurrent then .ok (victims, tl)
    else expireLoop startTime secondsOld fuel tl (tl.mem.m_pNext pCurrent) victims

/-- Also returns the events it freed, in order. -/
def ExpireEvents (tl : Timeline) (startTime : TimePoint) (secondsOld : Int) :
    Outcome (List ItemPtr × Timeline) :=
  expireLoop startTime secondsOld tl.fuel tl (tl.mem.m_pRoot tl.self) []

/-! ### GetTimeEvents and DequeTimeEvents -/

def getLoop (tl : Timeline) : Nat → Option ItemPtr → List ItemPtr → Outcome (List ItemPtr)
  | 0, _, _ => .error .diverged
  | _ + 1, none, ev => .ok ev
  | fuel + 1, some pCurrent, ev => getLoop tl fuel (tl.mem.m_pNext pCurrent) (ev ++ [pCurrent])

def GetTimeEvents (tl : Timeline) : Outcome (List ItemPtr) :=
  getLoop tl tl.fuel (tl.mem.m_pRoot tl.self) []

def dequeLoop (type : TypeId) (upTo : TimePoint) :
    Nat → Timeline → Option ItemPtr → TimePoint → List ItemPtr → Outcome (List ItemPtr × Timeline)
  | 0, _, _, _, _ => .error .diverged
  | _ + 1, tl, none, _, ev => .ok (ev, tl)
  | fuel + 1, tl, some pCurrent, last, ev =>
    if tl.m_triggered pCurrent then
      dequeLoop type upTo fuel tl (tl.mem.m_pNext pCurrent) last ev
    else if upTo < tl.m_time pCurrent then .ok (ev, tl)
    else if tl.GetType pCurrent = type then do
      let tl := { tl with m_triggered := Function.update tl.m_triggered pCurrent true }
      assert (last ≤ tl.m_time pCurrent) "pCurrent->m_time >= last"
      dequeLoop type upTo fuel tl (tl.mem.m_pNext pCurrent) (tl.m_time pCurrent) (ev ++ [pCurrent])
    else dequeLoop type upTo fuel tl (tl.mem.m_pNext pCurrent) last ev

/-- Returns the events that the source leaves in the vector `ev`. -/
def DequeTimeEvents (tl : Timeline) (type : TypeId) (upTo : TimePoint) :
    Outcome (List ItemPtr × Timeline) :=
  dequeLoop type upTo tl.fuel tl (tl.mem.m_pRoot tl.self) TimePoint.min []

end Timeline

end MUtils
