import MUtils.Theory.Outcome

/-!
# The ring buffer of `gl_buffer.cpp`

A `GLBuffer` hands out ranges of one GL buffer, one after the other, and starts again at the front
when it has to. Its cursor `m_offset` counts bytes; what the caller gets is an offset in elements of
its own type. Sizes are `uint32_t`. The GL calls succeed, and all that is kept of them is the byte
range that `glMapBufferRange` is asked for.
-/

namespace MUtils
open Outcome

structure GLBuffer where
  m_offset : Nat
  m_bufferID : Nat
  m_size : Nat
  m_mapped : Bool
  m_reset : Bool
  deriving DecidableEq, Repr

/-- What `Map` hands out: the offset in elements, and the bytes that are mapped. -/
structure Mapped where
  offset : Nat
  start : Nat
  length : Nat
  deriving DecidableEq, Repr

namespace GLBuffer

/-- The constructor, where `bufferID` is what `glGenBuffers` returned. -/
def new (size bufferID : Nat) : GLBuffer where
  m_offset := 0
  m_bufferID := bufferID
  m_size := size
  m_mapped := false
  m_reset := true

def EnsureSize (b : GLBuffer) (size : Nat) : GLBuffer :=
  -- Force it to grow
  if size > b.m_size then { b with m_size := size, m_offset := 0 } else b

/-- What `Map` does once the buffer is large enough. -/
def takeRange (b : GLBuffer) (byteSize typeSize : Nat) : Mapped × GLBuffer :=
  if b.m_reset ∨ (b.m_offset + byteSize) % 2 ^ 32 > b.m_size then
    (⟨0, 0, byteSize⟩, { b with m_offset := byteSize, m_reset := false })
  else
    -- Return the last offset we were up to
    let offset := b.m_offset / typeSize
    (⟨offset, offset * typeSize % 2 ^ 32, byteSize⟩,
      { b with m_offset := (b.m_offset + byteSize) % 2 ^ 32 })

def Map (b : GLBuffer) (num typeSize : Nat) : Outcome (Option Mapped × GLBuffer) := do
  assert (b.m_mapped = false) "!m_mapped"
  if b.m_bufferID = 0 then
    return (none, b)
  let b := { b with m_mapped := true }
  let byteSize := num * typeSize % 2 ^ 32
  let (r, b) := (b.EnsureSize byteSize).takeRange byteSize typeSize
  return (some r, b)

def UnMap (b : GLBuffer) : Outcome GLBuffer := do
  assert (b.m_mapped = true) "m_mapped"
  return { b with m_mapped := false }

end GLBuffer

end MUtils
