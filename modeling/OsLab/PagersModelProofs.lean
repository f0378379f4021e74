import OsLab.LoopProofs
import OsLab.PagingProofs

/-! # The page-replacement simulators, as the code computes them

    `lru.cpp`, `fifo.cpp` and `random.cpp` run a list of requests over a
    page table of `-1` and `1` and count faults and hits.  LRU and FIFO
    number the pages from 1 in the requests and from 0 in the table; Random
    takes the request for the index.

    The table is a function with a bound that every access checks: an index
    outside the table, `front()` or `back()` of an empty container and an
    `erase` at the end are `Fault`s.  Random consumes a list of answers of
    `rand()`; it has no result when the list is too short for its loop.

    `pageFaults` and `hit` are `int`s in the code and have no bound here.  No
    test of the code reads them: which page is resident, which one goes and
    when a fault is counted are the same at any value of theirs. -/

namespace PagersModel

open OsLoop OsPaging

/-- The ways a simulator does not return. -/
inductive Fault where
  /-- an index outside the page table -/
  | badIndex
  /-- `front()` or `back()` of an empty container -/
  | emptyContainer
  /-- `erase` at the end of the list -/
  | badErase
  /-- the loop over `rand()` is not done -/
  | noDraw
  deriving DecidableEq, Repr

/-- The page table of `pages` entries. -/
structure Table where
  pages : Int
  entry : Int → Int

/-- `vector<int> pageTable(pages, -1)`. -/
def freshTable (pages : Int) : Table where
  pages := pages
  entry := fun _ => -1

/-- `pageTable[i]`. -/
def Table.read (t : Table) (i : Int) : Except Fault Int :=
  if 0 ≤ i ∧ i < t.pages then .ok (t.entry i) else .error .badIndex

/-- `pageTable[i] = v`. -/
def Table.write (t : Table) (i v : Int) : Except Fault Table :=
  if 0 ≤ i ∧ i < t.pages then .ok { t with entry := Function.update t.entry i v }
  else .error .badIndex

/-- `count(pageTable.begin(), pageTable.end(), 1)`. -/
def Table.count (t : Table) : Nat :=
  (List.range t.pages.toNat).countP (fun i : Nat => t.entry i = 1)

/-- The variables of LRU and of FIFO: the container is `pageList`, or
    `pageQueue` from its front to its back. -/
structure Sim where
  pageTable : Table
  container : List Int
  pageFaults : Nat
  hit : Nat

def Sim.fresh (pages : Int) : Sim where
  pageTable := freshTable pages
  container := []
  pageFaults := 0
  hit := 0

/-! ## LRU -/

/-- The table and the list once there is an empty slot. -/
def lruEvict (frames : Int) (st : Sim) : Except Fault (Table × List Int) :=
  if (st.container.length : Int) = frames then
    match st.container.getLast? with
    | none => .error .emptyContainer
    | some victimPage => do
        .ok (← st.pageTable.write victimPage (-1), st.container.dropLast)
  else .ok (st.pageTable, st.container)

/-- One turn of the loop of `LRU`. -/
def lruTurn (frames : Int) (st : Sim) (request : Int) : Except Fault Sim := do
  let page := request - 1
  if (← st.pageTable.read page) = -1 then
    let evicted ← lruEvict frames st
    let table ← evicted.1.write page 1
    .ok { st with
      pageTable := table
      container := page :: evicted.2
      pageFaults := st.pageFaults + 1 }
  else if page ∈ st.container then
    .ok { st with container := page :: st.container.erase page, hit := st.hit + 1 }
  else .error .badErase

def LRU (pages frames : Int) (requests : List Int) : Except Fault Sim :=
  runAll (lruTurn frames) (Sim.fresh pages) requests

/-! ## FIFO -/

def fifoEvict (frames : Int) (st : Sim) : Except Fault (Table × List Int) :=
  if (st.container.length : Int) = frames then
    match st.container with
    | [] => .error .emptyContainer
    | victimPage :: rest => do
        .ok (← st.pageTable.write victimPage (-1), rest)
  else .ok (st.pageTable, st.container)

/-- One turn of the loop of `FIFO`. -/
def fifoTurn (frames : Int) (st : Sim) (request : Int) : Except Fault Sim := do
  let page := request - 1
  if (← st.pageTable.read page) = -1 then
    let evicted ← fifoEvict frames st
    let table ← evicted.1.write page 1
    .ok { st with
      pageTable := table
      container := evicted.2 ++ [page]
      pageFaults := st.pageFaults + 1 }
  else .ok { st with hit := st.hit + 1 }

def FIFO (pages frames : Int) (requests : List Int) : Except Fault Sim :=
  runAll (fifoTurn frames) (Sim.fresh pages) requests

/-! ## Random -/

/-- The variables of `Random`, and the answers `rand()` has yet to give. -/
structure RandomSim where
  pageTable : Table
  pageFaults : Nat
  hit : Nat
  draws : List Nat

/-- Draw until a resident page is found. -/
def findVictim (t : Table) : List Nat → Except Fault (Int × List Nat)
  | [] => .error .noDraw
  | r :: rest => do
      let victimPage := (r : Int) % t.pages
      if (← t.read victimPage) = 1 then .ok (victimPage, rest) else findVictim t rest

/-- The table and the draws once there is an empty slot. -/
def randomEvict (frames : Int) (st : RandomSim) : Except Fault (Table × List Nat) :=
  if (st.pageTable.count : Int) = frames then do
    let found ← findVictim st.pageTable st.draws
    .ok (← st.pageTable.write found.1 (-1), found.2)
  else .ok (st.pageTable, st.draws)

/-- One turn of the loop of `Random`. -/
def randomTurn (frames : Int) (st : RandomSim) (request : Int) : Except Fault RandomSim := do
  if (← st.pageTable.read request) = -1 then
    let evicted ← randomEvict frames st
    let table ← evicted.1.write request 1
    .ok { st with
      pageTable := table
      draws := evicted.2
      pageFaults := st.pageFaults + 1 }
  else .ok { st with hit := st.hit + 1 }

/-- The run of `Random` for a sequence of answers of `rand()`. -/
def Random (pages frames : Int) (requests : List Int) (draws : List Nat) :
    Except Fault RandomSim :=
  runAll (randomTurn frames)
    { pageTable := freshTable pages, pageFaults := 0, hit := 0, draws := draws } requests

end PagersModel
