import MUtils.Theory.Outcome

/-!
# The intrusive list and the pools of `mempool.h` and `mempool.cpp`

Items and pools are addresses, and each link field is a map from addresses to what the field holds
(`ListMem`), so an assignment `p->m_pNext = q` is an update of one map. The functions `list_*` are
the ones of the source, statement by statement; they return `Outcome` where they assert.

The free list of a pool is a lock-free queue that is not part of this repository. What it hands
out is an argument of `TSMemoryPool.Alloc`: nothing (the queue reported that it was empty), or any
item that is in it.
-/

namespace MUtils
open Outcome

/-- The address of an `IListItem`. -/
abbrev ItemPtr := Nat

/-- The address of an `IMemoryPool`. -/
abbrev PoolPtr := Nat

@[ext] structure ListMem where
  m_pPool : ItemPtr → Option PoolPtr
  m_pNext : ItemPtr → Option ItemPtr
  m_pPrevious : ItemPtr → Option ItemPtr
  m_pRoot : PoolPtr → Option ItemPtr
  m_pLast : PoolPtr → Option ItemPtr

namespace ListMem

def setNext (m : ListMem) (p : ItemPtr) (v : Option ItemPtr) : ListMem :=
  { m with m_pNext := Function.update m.m_pNext p v }

def setPrevious (m : ListMem) (p : ItemPtr) (v : Option ItemPtr) : ListMem :=
  { m with m_pPrevious := Function.update m.m_pPrevious p v }

def setRoot (m : ListMem) (P : PoolPtr) (v : Option ItemPtr) : ListMem :=
  { m with m_pRoot := Function.update m.m_pRoot P v }

def setLast (m : ListMem) (P : PoolPtr) (v : Option ItemPtr) : ListMem :=
  { m with m_pLast := Function.update m.m_pLast P v }

/-- `if (p) p->m_pNext = v;` -/
def setNextOf (m : ListMem) (p v : Option ItemPtr) : ListMem :=
  match p with
  | some p => m.setNext p v
  | none => m

/-- `if (p) p->m_pPrevious = v;` -/
def setPreviousOf (m : ListMem) (p v : Option ItemPtr) : ListMem :=
  match p with
  | some p => m.setPrevious p v
  | none => m

end ListMem

/-- The two asserts on the ends of the pool's list that close both insertions. -/
def assertEnds (m : ListMem) (pPool : PoolPtr) : Outcome Unit := do
  let root ← deref (m.m_pRoot pPool)
  assert (m.m_pPrevious root = none) "pPool->m_pRoot->m_pPrevious == nullptr"
  let last ← deref (m.m_pLast pPool)
  assert (m.m_pNext last = none) "pPool->m_pLast->m_pNext == nullptr"

def list_insert_before (m : ListMem) (pPos : Option ItemPtr) (pInsert : ItemPtr) :
    Outcome ListMem :=
  let pPool := m.m_pPool pInsert
  match pPos with
  | none =>
    match pPool with
    | some pPool => do
      assert (m.m_pRoot pPool = none) "pPool->m_pRoot == nullptr"
      assert (m.m_pLast pPool = none) "pPool->m_pLast == nullptr"
      return (m.setRoot pPool (some pInsert)).setLast pPool (some pInsert)
    | none => .error (.assertion "!\"No pool?\"")
  | some pPos =>
    let pBefore := m.m_pPrevious pPos
    let m := m.setPrevious pPos (some pInsert)
    let m := m.setPrevious pInsert pBefore
    let m := m.setNextOf pBefore (some pInsert)
    let m := m.setNext pInsert (some pPos)
    match pPool with
    | some pPool =>
      if m.m_pRoot pPool = some pPos then do
        let m := m.setRoot pPool (some pInsert)
        assertEnds m pPool
        return m
      else .ok m
    | none => .ok m

def list_insert_after (m : ListMem) (pPos : Option ItemPtr) (pInsert : ItemPtr) :
    Outcome ListMem :=
  let pPool := m.m_pPool pInsert
  match pPos with
  | none =>
    match pPool with
    | some pPool =>
      match m.m_pRoot pPool with
      -- Insert after NULL means insert before first
      | some root => list_insert_before m (some root) pInsert
      -- Or start again
      | none => do
        assert (m.m_pLast pPool = none) "pPool->m_pLast == nullptr"
        return (m.setRoot pPool (some pInsert)).setLast pPool (some pInsert)
    | none => .error (.assertion "!\"No pool?\"")
  | some pPos => do
    -- Making a new end
    let m := match pPool with
      | some pPool =>
        if m.m_pLast pPool = some pPos then m.setLast pPool (some pInsert) else m
      | none => m
    let pAfter := m.m_pNext pPos
    let m := m.setNext pPos (some pInsert)
    let m := m.setPrevious pInsert (some pPos)
    let m := m.setPreviousOf pAfter (some pInsert)
    let m := m.setNext pInsert pAfter
    match pPool with
    | some pPool =>
      assertEnds m pPool
      return m
    | none => return m

/-- Returns the memory and the item that followed `pEvent`. -/
def list_disconnect (m : ListMem) (pEvent : ItemPtr) : ListMem × Option ItemPtr :=
  let pPool := m.m_pPool pEvent
  let m := match pPool with
    | some pPool =>
      let m := if m.m_pRoot pPool = some pEvent then m.setRoot pPool (m.m_pNext pEvent) else m
      if m.m_pLast pPool = some pEvent then m.setLast pPool (m.m_pPrevious pEvent) else m
    | none => m
  let pNext := m.m_pNext pEvent
  let m := m.setNextOf (m.m_pPrevious pEvent) (m.m_pNext pEvent)
  let m := m.setPreviousOf pNext (m.m_pPrevious pEvent)
  let m := m.setPrevious pEvent none
  let m := m.setNext pEvent none
  let m := match pPool with
    | some pPool =>
      let m := m.setPreviousOf (m.m_pRoot pPool) none
      m.setNextOf (m.m_pLast pPool) none
    | none => m
  (m, pNext)

/-- `while (p && p->link) p = p->link;` for a `p` that is not null. A walk of more than `fuel` steps
never ends. -/
def walkToEnd (link : ItemPtr → Option ItemPtr) : Nat → ItemPtr → Outcome ItemPtr
  | 0, _ => .error .diverged
  | fuel + 1, p =>
    match link p with
    | some q => walkToEnd link fuel q
    | none => .ok p

/-- The loop of `list_root`. -/
def rootLoop (m : ListMem) (pCheck : ItemPtr) : Nat → ItemPtr → Outcome ItemPtr
  | 0, _ => .error .diverged
  | fuel + 1, pEvent =>
    match m.m_pPrevious pEvent with
    | some pEvent => do
      assert (pEvent ≠ pCheck) "pEvent != pCheck"
      rootLoop m pCheck fuel pEvent
    | none => .ok pEvent

def list_root (m : ListMem) (fuel : Nat) (pEvent : ItemPtr) : Outcome ItemPtr :=
  rootLoop m pEvent fuel pEvent

def list_end (m : ListMem) (fuel : Nat) (pEvent : ItemPtr) : Outcome ItemPtr :=
  walkToEnd m.m_pNext fuel pEvent

/-- Returns the memory and the item that followed `pEnd`. A null `pEnd` stands for the end of the
list, a null `pBegin` for its beginning. -/
def list_disconnect_range (m : ListMem) (fuel : Nat) (pBegin pEnd : Option ItemPtr) :
    Outcome (ListMem × Option ItemPtr) := do
  -- Find the end if null
  let pEnd ← match pEnd with
    | none => do
      assert (pBegin ≠ none) "pBegin != nullptr"
      walkToEnd m.m_pNext fuel (← deref pBegin)
    | some pEnd => .ok pEnd
  -- find the beginning if null
  let pBegin ← match pBegin with
    | none => walkToEnd m.m_pPrevious fuel pEnd
    | some pBegin => .ok pBegin
  -- the assert is an assignment: the pool is the one of `pEnd`
  let pPool := m.m_pPool pEnd
  assert (pPool ≠ none) "pPool = pEnd->m_pPool"
  let pPool ← deref pPool
  -- Fix up root
  let m ← if m.m_pRoot pPool = some pBegin then do
      let m := m.setRoot pPool (m.m_pNext pBegin)
      assert (∀ root ∈ m.m_pRoot pPool, m.m_pPrevious root = none)
        "pPool->m_pRoot == nullptr || pPool->m_pRoot->m_pPrevious == nullptr"
      pure m
    else .ok m
  let m ← if m.m_pLast pPool = some pEnd then do
      let m := m.setLast pPool (m.m_pPrevious pEnd)
      assert (∀ last ∈ m.m_pLast pPool, m.m_pNext last = none)
        "pPool->m_pLast == nullptr || pPool->m_pLast->m_pNext == nullptr"
      pure m
    else .ok m
  -- Disconnect from the chain
  let pNext := m.m_pNext pEnd
  assert (pBegin ≠ pEnd) "pBegin != pEnd"
  let m := m.setNextOf (m.m_pPrevious pBegin) (m.m_pNext pEnd)
  let m := m.setPreviousOf (m.m_pNext pEnd) (m.m_pPrevious pBegin)
  let m := m.setPrevious pBegin none
  let m := m.setNext pEnd none
  return (m, pNext)

/-! ### The thread-safe pool -/

/-- The bookkeeping of a `TSMemoryPool<T>`: the queue of free items, oldest first, the id for the
next item handed out, and how many items it has constructed (item `k` is the `k`-th). -/
structure TSMemoryPool where
  m_freeItems : List ItemPtr
  m_nextId : UInt64
  constructed : Nat

namespace TSMemoryPool

def empty : TSMemoryPool := { m_freeItems := [], m_nextId := 0, constructed := 0 }

/-- The item of the queue that `try_dequeue` hands out, if it hands out one. -/
def try_dequeue (pool : TSMemoryPool) (pick : Option Nat) : Option ItemPtr :=
  pick.bind (pool.m_freeItems[·]?)

/-- Returns the item and the id that `Alloc` stores in it. -/
def Alloc (pool : TSMemoryPool) (pick : Option Nat) : (ItemPtr × UInt64) × TSMemoryPool :=
  match pool.try_dequeue pick with
  | none =>
    ((pool.constructed, pool.m_nextId),
      { pool with m_nextId := pool.m_nextId + 1, constructed := pool.constructed + 1 })
  | some pRet =>
    ((pRet, pool.m_nextId),
      { pool with m_freeItems := pool.m_freeItems.erase pRet, m_nextId := pool.m_nextId + 1 })

def Free (pool : TSMemoryPool) (pVal : ItemPtr) : TSMemoryPool :=
  { pool with m_freeItems := pool.m_freeItems ++ [pVal] }

/-- Returns the items that `Clear` deletes, in order. The loop ends when the queue reports that it
is empty, which is at the end of `picks` if not earlier. -/
def Clear (pool : TSMemoryPool) : List Nat → List ItemPtr × TSMemoryPool
  | [] => ([], pool)
  | pick :: picks =>
    match pool.try_dequeue (some pick) with
    | none => ([], pool)
    | some pVictim =>
      let (deleted, pool) :=
        Clear { pool with m_freeItems := pool.m_freeItems.erase pVictim } picks
      (pVictim :: deleted, pool)

end TSMemoryPool

/-! ### The pool for one thread -/

/-- The bookkeeping of a `MemoryPool<T>`: its free items are a vector, used from the back. -/
structure MemoryPool where
  m_freeItems : List ItemPtr
  m_nextId : UInt64
  constructed : Nat

namespace MemoryPool

def empty : MemoryPool := { m_freeItems := [], m_nextId := 0, constructed := 0 }

/-- Returns the item and the id that `Alloc` stores in it. -/
def Alloc (pool : MemoryPool) : (ItemPtr × UInt64) × MemoryPool :=
  match pool.m_freeItems.getLast? with
  | none =>
    ((pool.constructed, pool.m_nextId),
      { pool with m_nextId := pool.m_nextId + 1, constructed := pool.constructed + 1 })
  | some pRet =>
    ((pRet, pool.m_nextId),
      { pool with m_freeItems := pool.m_freeItems.dropLast, m_nextId := pool.m_nextId + 1 })

def Free (pool : MemoryPool) (pVal : ItemPtr) : MemoryPool :=
  { pool with m_freeItems := pool.m_freeItems ++ [pVal] }

/-- Returns the items that `Clear` deletes, in order. They stay in the vector. -/
def Clear (pool : MemoryPool) : List ItemPtr × MemoryPool := (pool.m_freeItems, pool)

end MemoryPool

/-! ### Pools with their items -/

/-- The classes that implement the interface `IMemoryPool`. -/
inductive PoolClass where
  | MemoryPool
  | TSMemoryPool
  deriving DecidableEq, Repr

inductive IMemoryPool where
  | memoryPool (pool : MemoryPool)
  | tsMemoryPool (pool : TSMemoryPool)

namespace IMemoryPool

def empty : PoolClass → IMemoryPool
  | .MemoryPool => memoryPool .empty
  | .TSMemoryPool => tsMemoryPool .empty

def m_freeItems : IMemoryPool → List ItemPtr
  | memoryPool pool => pool.m_freeItems
  | tsMemoryPool pool => pool.m_freeItems

def m_nextId : IMemoryPool → UInt64
  | memoryPool pool => pool.m_nextId
  | tsMemoryPool pool => pool.m_nextId

def constructed : IMemoryPool → Nat
  | memoryPool pool => pool.constructed
  | tsMemoryPool pool => pool.constructed

/-- The queue of the thread-safe pool is a FIFO here, and it hands out an item whenever it has
one: what one thread sees of it. -/
def Alloc : IMemoryPool → (ItemPtr × UInt64) × IMemoryPool
  | memoryPool pool => (pool.Alloc.1, memoryPool pool.Alloc.2)
  | tsMemoryPool pool => ((pool.Alloc (some 0)).1, tsMemoryPool (pool.Alloc (some 0)).2)

def Free : IMemoryPool → ItemPtr → IMemoryPool
  | memoryPool pool, pVal => memoryPool (pool.Free pVal)
  | tsMemoryPool pool, pVal => tsMemoryPool (pool.Free pVal)

/-- `Alloc` with whatever the queue of the thread-safe pool hands out. -/
def AllocWith : IMemoryPool → Option Nat → (ItemPtr × UInt64) × IMemoryPool
  | memoryPool pool, _ => (pool.Alloc.1, memoryPool pool.Alloc.2)
  | tsMemoryPool pool, pick => ((pool.Alloc pick).1, tsMemoryPool (pool.Alloc pick).2)

/-- One round of the loop in the constructors: `m_freeItems.enqueue(Alloc())`. -/
def preallocate (impl : IMemoryPool) (pick : Option Nat) : IMemoryPool :=
  let ((p, _), impl) := impl.AllocWith pick
  impl.Free p

def Clear : IMemoryPool → List Nat → List ItemPtr × IMemoryPool
  | memoryPool pool, _ => (pool.Clear.1, memoryPool pool.Clear.2)
  | tsMemoryPool pool, picks => ((pool.Clear picks).1, tsMemoryPool (pool.Clear picks).2)

end IMemoryPool

/-- A pool and the memory of its items. -/
structure Pool where
  mem : ListMem
  m_id : ItemPtr → UInt64
  /-- The address of the pool. -/
  self : PoolPtr
  impl : IMemoryPool

namespace Pool

/-- `new T(this, id)`, apart from the id. -/
def construct (pool : Pool) (p : ItemPtr) : Pool :=
  { pool with
    mem := { pool.mem with
      m_pPool := Function.update pool.mem.m_pPool p (some pool.self)
      m_pNext := Function.update pool.mem.m_pNext p none
      m_pPrevious := Function.update pool.mem.m_pPrevious p none } }

/-- `T::Init` sets fields of `T`, none of which is modelled. -/
def Alloc (pool : Pool) : ItemPtr × Pool :=
  let ((pRet, id), impl) := pool.impl.Alloc
  let pool := if pool.impl.m_freeItems.isEmpty then pool.construct pRet else pool
  (pRet, { pool with m_id := Function.update pool.m_id pRet id, impl := impl })

/-- `PoolItem::Free` -/
def Free (pool : Pool) (p : ItemPtr) : Outcome Pool := do
  let pool := { pool with mem := (list_disconnect pool.mem p).1 }
  let _ ← deref (pool.mem.m_pPool p)
  return { pool with impl := pool.impl.Free p }

/-- No item constructed. -/
def blank (cls : PoolClass) (self : PoolPtr) : Pool where
  mem := ⟨fun _ => none, fun _ => none, fun _ => none, fun _ => none, fun _ => none⟩
  m_id _ := 0
  self := self
  impl := .empty cls

/-- One round of the loop in the constructors: `m_freeItems.enqueue(Alloc())`. -/
def preallocate (pool : Pool) : Pool :=
  let (p, pool) := pool.Alloc
  { pool with impl := pool.impl.Free p }

/-- The constructors. -/
def new (cls : PoolClass) (self : PoolPtr) (initialSize : Nat) : Pool :=
  preallocate^[initialSize] (blank cls self)

end Pool

end MUtils
