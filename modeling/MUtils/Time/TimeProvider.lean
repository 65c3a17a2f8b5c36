import Mathlib

/-!
# The beat and frame counters of `time_provider.h`

The tick thread reads `m_beat` and `m_frame`, takes the lock, and stores the values it has read plus
one. `SetBeat` and `SetFrame` take the same lock for an assignment. A tick is therefore two steps,
with the locals of the thread in between, and a setter is one.

A beat is a `double`: the model is over any type with addition and a one, so that `m_beat + 1` is
the sum of that type.
-/

namespace MUtils

structure TimeProvider (β : Type) where
  m_beat : β
  m_frame : UInt32
  m_lastBeat : β
  /-- The locals `beat` and `frame` of the tick thread, from the reads to the stores. -/
  tick : Option (β × UInt32)

namespace TimeProvider
variable {β : Type} [Add β] [One β]

/-- `beat = m_beat.load()` and `frame = m_frame.load()`, before the lock is taken. -/
def load (tp : TimeProvider β) : TimeProvider β := { tp with tick := some (tp.m_beat, tp.m_frame) }

/-- What the tick thread does under the lock. -/
def store (beat : β) (frame : UInt32) : TimeProvider β where
  m_lastBeat := beat
  m_frame := frame + 1
  m_beat := beat + 1
  tick := none

def SetBeat (tp : TimeProvider β) (beat : β) : TimeProvider β := { tp with m_beat := beat }

def SetFrame (tp : TimeProvider β) (frame : UInt32) : TimeProvider β := { tp with m_frame := frame }

inductive Action (β : Type) where
  | load
  | store
  | setBeat (beat : β)
  | setFrame (frame : UInt32)
  deriving DecidableEq, Repr

/-- One step of the tick thread or of a thread that calls a setter. -/
inductive Step (tp : TimeProvider β) : Action β → TimeProvider β → Prop
  | load : tp.tick = none → Step tp .load tp.load
  | store : tp.tick = some (beat, frame) → Step tp .store (.store beat frame)
  | setBeat : Step tp (.setBeat beat) (tp.SetBeat beat)
  | setFrame : Step tp (.setFrame frame) (tp.SetFrame frame)

end TimeProvider

end MUtils
