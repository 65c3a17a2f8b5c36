import MUtils.Theory.Outcome

/-!
# The iterator of `ringiterator.h`

The container is a vector, and a position in it is an index. What moves a position past the end of
the container, or below its begin, is undefined in C++ and an `outOfRange` here. The iterator has a
reference to its container, so the operations return the container with the iterator.
-/

namespace MUtils

structure RingIterator (α : Type) where
  data : List α
  cursor : Nat
  begin : Nat
  «end» : Nat
  deriving DecidableEq

namespace RingIterator
variable {α : Type}

/-- `RingIterator(v)` -/
def ofContainer (v : List α) : RingIterator α := ⟨v, 0, 0, v.length⟩

/-- `RingIterator(v, i)`, with a position. -/
def ofPosition (v : List α) (i : Nat) : RingIterator α := ⟨v, i, 0, v.length⟩

/-- `RingIterator(v, i, j)`, for a part of the container. -/
def ofRange (v : List α) (i j : Nat) : RingIterator α := ⟨v, i, i, j⟩

/-- `RingIterator(v, i)`, with a number, which is reduced to an index. -/
def ofIndex (v : List α) (i : Nat) : RingIterator α := ⟨v, i % v.length, 0, v.length⟩

/-- `operator*` -/
def deref (it : RingIterator α) : Outcome α :=
  match it.data[it.cursor]? with
  | some a => .ok a
  | none => .error (.outOfRange "data")

/-- `operator++()` -/
def increment (it : RingIterator α) : Outcome (RingIterator α) :=
  if it.cursor < it.data.length then
    let cursor := it.cursor + 1
    .ok { it with cursor := if cursor = it.end then it.begin else cursor }
  else .error (.outOfRange "data")

/-- `operator--()` -/
def decrement (it : RingIterator α) : Outcome (RingIterator α) :=
  let cursor := if it.cursor = it.begin then it.end else it.cursor
  if 0 < cursor then .ok { it with cursor := cursor - 1 } else .error (.outOfRange "data")

/-- `operator++(int)`: the copy that is returned, and the iterator. -/
def postIncrement (it : RingIterator α) : Outcome (RingIterator α × RingIterator α) := do
  let moved ← it.increment
  return (it, moved)

/-- `operator--(int)`: the copy that is returned, and the iterator. -/
def postDecrement (it : RingIterator α) : Outcome (RingIterator α × RingIterator α) := do
  let moved ← it.decrement
  return (it, moved)

/-- `operator+` -/
def plus (it : RingIterator α) : Nat → Outcome (RingIterator α)
  | 0 => .ok it
  | count + 1 => do
    let (_, it) ← it.postIncrement
    it.plus count

/-- `operator-` -/
def minus (it : RingIterator α) : Nat → Outcome (RingIterator α)
  | 0 => .ok it
  | count + 1 => do
    let (_, it) ← it.postDecrement
    it.minus count

/-- `data.insert`, which returns the position of the new element. -/
def insertAt (data : List α) (i : Nat) (x : α) : Outcome (List α × Nat) :=
  if i ≤ data.length then .ok (data.take i ++ x :: data.drop i, i)
  else .error (.outOfRange "data")

def insert (it : RingIterator α) (x : α) : Outcome (RingIterator α) := do
  let (data, i) ← insertAt it.data it.cursor x
  return ofPosition data i

/-- `data.erase` returns the position behind the erased element, which may be the end. -/
def erase (it : RingIterator α) : Outcome (RingIterator α) :=
  if it.cursor < it.data.length then .ok (ofPosition (it.data.eraseIdx it.cursor) it.cursor)
  else .error (.outOfRange "data")

def insertAfter (it : RingIterator α) (x : α) : Outcome (RingIterator α) := do
  let i := if it.cursor ≠ it.end then it.cursor + 1 else it.cursor
  let (data, i) ← insertAt it.data i x
  return ofPosition data i

end RingIterator

end MUtils
