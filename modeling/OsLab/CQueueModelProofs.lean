import OsLab.CircularProofs

/-! # The circular queue of the round-robin simulator, pointer by pointer

    `rr-hash.c` keeps the processes that are ready in malloc'ed nodes, each
    of which points to the next, the last one to the first.  The definitions
    below follow `enqueue`, `delete_begin` and `in_cQueue` over an explicit
    heap.  To follow `NULL` or a pointer to a freed node is a `Fault`, and so
    is a loop that never ends.

    None of the loops changes a node, so that one which has followed more
    pointers than there are nodes has been everywhere it will ever be. -/

namespace CQueueModel

open OsHeap OsLoop OsRing

/-- The ways a call does not return. -/
inductive Fault where
  /-- a node is reached through `NULL` or after it was freed -/
  | badNode
  /-- a loop runs forever -/
  | endless
  deriving DecidableEq, Repr

structure CpuQueueNode where
  pid : Int
  timeLeft : Int
  next : Ptr
  deriving DecidableEq, Repr

/-- The nodes and the global variable. -/
structure State where
  nodes : Heap CpuQueueNode
  cpuQueueHead : Ptr

/-- The queue at the start of the program. -/
def start : State where
  nodes := ∅
  cpuQueueHead := none

/-- The turns granted to a loop. -/
def State.turns (st : State) : Nat := st.nodes.keys.length + 1

/-- `while (tail->next != cpuQueueHead) tail = tail->next`. -/
def findTail (st : State) : Except Fault Addr :=
  loop .endless (hop .badNode CpuQueueNode.next st.nodes st.cpuQueueHead) st.turns st.cpuQueueHead

/-- `a->next = p`. -/
def setNext (nodes : Heap CpuQueueNode) (a : Addr) (p : Ptr) : Heap CpuQueueNode :=
  store nodes a (fun n => { n with next := p })

def enqueue (A : Malloc) (st : State) (ipid ival : Int) : Except Fault State :=
  let newnode := alloc A st.nodes { pid := ipid, timeLeft := ival, next := none }
  let st := { st with nodes := newnode.2 }
  if st.cpuQueueHead = none then
    .ok
      { nodes := setNext st.nodes newnode.1 (some newnode.1)
        cpuQueueHead := some newnode.1 }
  else do
    let tail ← findTail st
    let linked := setNext st.nodes tail (some newnode.1)
    .ok { st with nodes := setNext linked newnode.1 st.cpuQueueHead }

/-- With one node left, `cpuQueueHead` is not changed. -/
def deleteBegin (st : State) : Except Fault State :=
  if st.cpuQueueHead = none then .ok st
  else do
    let del := st.cpuQueueHead
    let head ← follow .badNode st.nodes st.cpuQueueHead
    if st.cpuQueueHead = head.2.next then
      let unlinked := setNext st.nodes head.1 none
      .ok { st with nodes := ← release .badNode unlinked del }
    else
      let tail ← findTail st
      let cpuQueueHead := head.2.next
      let linked := setNext st.nodes tail cpuQueueHead
      .ok { nodes := ← release .badNode linked del, cpuQueueHead := cpuQueueHead }

/-- One turn of the loop of `in_cQueue`. -/
def scanTurn (st : State) (ipid : Int) (tail : Ptr) : Except Fault (Turn Ptr Bool) := do
  let t ← follow .badNode st.nodes tail
  if t.2.next ≠ st.cpuQueueHead then
    let next ← follow .badNode st.nodes t.2.next
    if next.2.pid = ipid then .ok (.done true) else .ok (.again t.2.next)
  else .ok (.done (decide (t.2.pid = ipid)))

def inCQueue (st : State) (ipid : Int) : Except Fault Bool :=
  if st.cpuQueueHead = none then .ok false
  else do
    let tail ← follow .badNode st.nodes st.cpuQueueHead
    if tail.2.pid = ipid then .ok true
    else loop .endless (scanTurn st ipid) st.turns st.cpuQueueHead

/-- `cpuQueueHead = cpuQueueHead->next`. -/
def advance (st : State) : Except Fault State := do
  let head ← follow .badNode st.nodes st.cpuQueueHead
  .ok { st with cpuQueueHead := head.2.next }

/-- A call of `enqueue` or `delete_begin`. -/
inductive Op where
  | enqueue (ipid ival : Int)
  | deleteBegin
  deriving DecidableEq, Repr

def serve (A : Malloc) (st : State) : Op → Except Fault State
  | .enqueue ipid ival => enqueue A st ipid ival
  | .deleteBegin => deleteBegin st

end CQueueModel
