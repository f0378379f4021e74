import OsLab.HeapProofs
import OsLab.LoopProofs

/-! # The buddy allocator, as the code computes it

    `buddy.cpp` keeps three structures in step: a binary tree of malloc'ed
    nodes with child and parent pointers, one linked list of free nodes per
    block size (`freeMap`), and the table of running processes
    (`runningRec`).  The definitions below follow its functions statement by
    statement over an explicit heap.

    The order of `malloc`'s answers is a parameter.  Everything the program
    can run into is a `Fault`: leaving through `exit`, following a `NULL` or
    freed pointer, signed overflow, and a loop that never leaves.  The
    `LLNode` cells of one list are modelled by the list of the tree nodes
    they point to. -/

namespace BuddyModel

open OsHeap OsLoop

/-- A tree node. -/
structure BSTree where
  left : Ptr
  size : Int
  isUsed : Int
  pid : Int
  pname : Char
  bytesOccupied : Int
  parent : Ptr
  right : Ptr
  deriving DecidableEq, Repr

/-- The ways a call does not return. -/
inductive Fault where
  /-- `exit(code)` -/
  | exit (code : Int)
  /-- a tree node is reached through `NULL` or after it was freed -/
  | badNode
  /-- the first cell of an empty free list is read -/
  | emptyList
  /-- an `int` leaves its range -/
  | overflow
  /-- a loop runs forever -/
  | endless
  deriving DecidableEq, Repr

/-- The lines the program prints. -/
inductive Line where
  | cantFulfill (pname : Char) (pbytes : Int)
  | minSizeNode
  deriving DecidableEq, Repr

/-- The global variables. -/
structure State where
  nodes : Heap BSTree
  root : Ptr
  freeMap : DefMap Int (List Addr)
  runningRec : DefMap Char Ptr
  pidGlobal : Int
  totalSize : Int
  minGranularity : Int
  stdout : List Line

/-- Turns granted to a loop.  An `int` that is doubled overflows or sticks at
    zero within 32 turns, and a path of halved `int` sizes is shorter still,
    so a loop that is not done after 64 turns never is. -/
def turns : Nat := 64

def intMax : Int := 2147483647

/-- `i * 2` on an `int`. -/
def double (i : Int) : Except Fault Int :=
  if i * 2 ≤ intMax then .ok (i * 2) else .error .overflow

/-- `(int)pow(2, e)`. -/
def pow2 (e : Int) : Except Fault Int :=
  if e < 0 then .ok 0
  else if 2 ^ e.toNat ≤ intMax then .ok (2 ^ e.toNat) else .error .overflow

/-- The list a size maps to. -/
def State.freeList (st : State) (s : Int) : List Addr := get st.freeMap s

/-- The record at a node. -/
def State.node (st : State) (a : Addr) : Option BSTree := st.nodes.lookup a

/-! ## Nodes and lists -/

def create (sizeIn : Int) : BSTree where
  left := none
  size := sizeIn
  isUsed := 0
  pid := -1
  pname := '_'
  bytesOccupied := 0
  parent := none
  right := none

/-- `LL_insert(&head, create_free_node(node))`. -/
def llInsert (head : List Addr) (newnode : Addr) : List Addr :=
  match head with
  | [] => [newnode]
  | first :: rest => newnode :: first :: rest

/-- `free_map[s] = free_map[s]->next`. -/
def dropHead (st : State) (s : Int) : Except Fault State :=
  match st.freeList s with
  | [] => .error .emptyList
  | _ :: next => .ok { st with freeMap := st.freeMap.insert s next }

/-- The `while` loop of `coalesce`: unlink every cell of either child. -/
def unlink (leftTemp rightTemp : Ptr) : List Addr → List Addr
  | [] => []
  | temp :: next =>
      if some temp = leftTemp then unlink leftTemp rightTemp next
      else if some temp = rightTemp then unlink leftTemp rightTemp next
      else temp :: unlink leftTemp rightTemp next

/-- How `coalesce` takes the children out of the list of their size.  The head
    is looked at first, and when it is one of them the rest is not searched. -/
def unlinkChildren (leftTemp rightTemp : Ptr) : List Addr → Except Fault (List Addr)
  | [] => .error .emptyList
  | temp :: next =>
      if some temp = leftTemp then .ok next
      else if some temp = rightTemp then .ok next
      else .ok (temp :: unlink leftTemp rightTemp next)

def findReqdPowerOf2 (st : State) (pbytes : Int) : Except Fault Int :=
  if pbytes > st.totalSize then .error (.exit 3)
  else
    loop .endless
      (fun i => if i < pbytes then do .ok (.again (← double i)) else .ok (.done i))
      turns st.minGranularity

def split (A : Malloc) (st : State) (node : Addr) : Except Fault State := do
  let n ← follow .badNode st.nodes (some node)
  let half := n.2.size.tdiv 2
  if half < st.minGranularity then
    .ok { st with stdout := st.stdout ++ [.minSizeNode] }
  else
    let l := alloc A st.nodes (create half)
    let r := alloc A l.2 (create half)
    let linked := store r.2 node (fun n => { n with left := some l.1, right := some r.1 })
    let up := store (store linked l.1 (fun n => { n with parent := some node }))
      r.1 (fun n => { n with parent := some node })
    .ok { st with
      nodes := up
      freeMap := st.freeMap.insert half (llInsert (st.freeList half) r.1) }

/-- `node` is the parent whose children are merged. -/
def coalesce (st : State) (node : Addr) : Except Fault State := do
  let n ← follow .badNode st.nodes (some node)
  let leftTemp := n.2.left
  let rightTemp := n.2.right
  let unlinked := store st.nodes node (fun n => { n with left := none, right := none })
  let lt ← follow .badNode unlinked leftTemp
  let childSize := lt.2.size
  let cells ← unlinkChildren leftTemp rightTemp (st.freeList childSize)
  let nodes₁ ← release .badNode unlinked leftTemp
  let nodes₂ ← release .badNode nodes₁ rightTemp
  .ok { st with nodes := nodes₂, freeMap := st.freeMap.insert childSize cells }

/-! ## Freeing -/

/-- One turn of the coalescing loop of `send_query`. -/
def mergeTurn (s : State × Addr) : Except Fault (Turn (State × Addr) (State × Addr)) :=
  if some s.2 = s.1.root then .ok (.done s)
  else do
    let t ← follow .badNode s.1.nodes (some s.2)
    let p ← follow .badNode s.1.nodes t.2.parent
    if p.2.left = some s.2 then do
      let sibling ← follow .badNode s.1.nodes p.2.right
      if sibling.2.isUsed = 0 then do
        .ok (.again (← coalesce s.1 p.1, p.1))
      else .ok (.done s)
    else if p.2.right = some s.2 then do
      let sibling ← follow .badNode s.1.nodes p.2.left
      if sibling.2.isUsed = 0 then do
        .ok (.again (← coalesce s.1 p.1, p.1))
      else .ok (.done s)
    else .ok (.again s)

/-- The record a freed node is left with. -/
def vacate (n : BSTree) : BSTree :=
  { n with bytesOccupied := 0, isUsed := 0, pid := -1, pname := '_' }

/-- The state in which the coalescing loop is entered. -/
def beginFree (st : State) (pnameIn : Char) : Except Fault (State × Addr) := do
  let loc := get st.runningRec pnameIn
  let erased := (touch st.runningRec pnameIn).erase pnameIn
  let temp ← follow .badNode st.nodes loc
  .ok ({ st with
    nodes := store st.nodes temp.1 (fun n => { n with isUsed := 0 })
    runningRec := erased }, temp.1)

/-- What follows the coalescing loop.  At the root the call returns before
    the node is put in a list. -/
def endFree (s : State × Addr) : Except Fault State := do
  let t ← follow .badNode s.1.nodes (some s.2)
  let vacated := { s.1 with nodes := store s.1.nodes s.2 vacate }
  if some s.2 = s.1.root then .ok vacated
  else .ok { vacated with
    freeMap := s.1.freeMap.insert t.2.size (llInsert (s.1.freeList t.2.size) s.2) }

/-- `send_query` with `pbytes == 0`. -/
def freeQuery (st : State) (pnameIn : Char) : Except Fault State := do
  let s ← beginFree st pnameIn
  let s' ← loop .endless mergeTurn turns s
  endFree s'

/-! ## Allocating -/

/-- One turn of the availability search: the map and `can_get`. -/
def searchTurn (totalSize : Int) (s : DefMap Int (List Addr) × Int) :
    Except Fault (Turn (DefMap Int (List Addr) × Int)
      (DefMap Int (List Addr) × Option Int)) :=
  if s.2 ≤ totalSize then
    if get s.1 s.2 ≠ [] then .ok (.done (touch s.1 s.2, some s.2))
    else do .ok (.again (touch s.1 s.2, ← double s.2))
  else .ok (.done (s.1, none))

/-- The availability search; `none` stands for `flag == 0`. -/
def search (st : State) (want : Int) :
    Except Fault (DefMap Int (List Addr) × Option Int) :=
  loop .endless (searchTurn st.totalSize) turns (st.freeMap, want)

/-- One turn of the splitting loop: the state, `curr` and `temp`. -/
def splitTurn (A : Malloc) (want : Int) (s : State × Addr × Int) :
    Except Fault (Turn (State × Addr × Int) (State × Addr)) :=
  if s.2.2 = want then .ok (.done (s.1, s.2.1))
  else do
    let st₁ ← split A s.1 s.2.1
    let used := store st₁.nodes s.2.1 (fun n => { n with isUsed := 1 })
    let n ← follow .badNode used (some s.2.1)
    let c ← follow .badNode used n.2.left
    .ok (.again ({ st₁ with nodes := used }, c.1, c.2.size))

/-- The first node of the list of size `canGet`, and the node carved out of it
    by splitting; the list loses its head afterwards. -/
def carve (A : Malloc) (st : State) (want canGet : Int) :
    Except Fault (State × Addr) :=
  match st.freeList canGet with
  | [] => .error .emptyList
  | curr :: _ => do
      let s ← if want = canGet then .ok (st, curr)
        else loop .endless (splitTurn A want) turns (st, curr, canGet)
      .ok (← dropHead s.1 canGet, s.2)

/-- Hand node `curr` to a process. -/
def allot (st : State) (curr : Addr) (pnameIn : Char) (pbytes : Int) :
    Except Fault State := do
  let _ ← follow .badNode st.nodes (some curr)
  .ok { st with
    nodes := store st.nodes curr (fun n => { n with
      bytesOccupied := pbytes, isUsed := 1, pid := st.pidGlobal + 1, pname := pnameIn })
    pidGlobal := st.pidGlobal + 1
    runningRec := st.runningRec.insert pnameIn (some curr) }

/-- `send_query` with `pbytes != 0`. -/
def allocQuery (A : Malloc) (st : State) (pnameIn : Char) (pbytes : Int) :
    Except Fault State := do
  let want ← findReqdPowerOf2 st pbytes
  let found ← search st want
  let searched := { st with freeMap := found.1 }
  match found.2 with
  | none => .ok { searched with stdout := st.stdout ++ [.cantFulfill pnameIn pbytes] }
  | some canGet => do
      let s ← carve A searched want canGet
      allot s.1 s.2 pnameIn pbytes

/-- A request line `P S`. -/
structure Query where
  pname : Char
  pbytes : Int
  deriving DecidableEq, Repr

def sendQuery (A : Malloc) (st : State) (q : Query) : Except Fault State :=
  if q.pbytes = 0 then freeQuery st q.pname else allocQuery A st q.pname q.pbytes

/-! ## A test case -/

/-- `clear`, the recursive release of a tree. -/
def clear : Nat → Heap BSTree → Ptr → Except Fault (Heap BSTree)
  | _, h, none => .ok h
  | 0, _, some _ => .error .endless
  | n + 1, h, some a => do
      let nd ← follow .badNode h (some a)
      let h₁ ← clear n h nd.2.left
      let h₂ ← clear n h₁ nd.2.right
      release .badNode h₂ (some a)

def initializeFreeMap (minGranularity totalSize : Int) :
    Except Fault (DefMap Int (List Addr)) :=
  loop .endless
    (fun s : DefMap Int (List Addr) × Int =>
      if s.2 ≤ totalSize then do .ok (.again (s.1.insert s.2 [], ← double s.2))
      else .ok (.done s.1))
    turns (∅, minGranularity)

/-- The set-up of a test case in `main`, for a header it accepts. -/
def startCase (A : Malloc) (st : State) (U L : Int) : Except Fault State := do
  let cleared ← clear turns st.nodes st.root
  let totalSize ← pow2 U
  let minGranularity ← pow2 L
  let root := alloc A cleared (create totalSize)
  let lists ← initializeFreeMap minGranularity totalSize
  .ok { st with
    nodes := root.2
    root := some root.1
    freeMap := lists.insert totalSize (llInsert (get lists totalSize) root.1)
    runningRec := ∅
    totalSize := totalSize
    minGranularity := minGranularity }

/-- The globals before a test case: no tree yet.  `pid_global` and what was
    printed are all that outlives an earlier case. -/
def boot (pidGlobal : Int) (stdout : List Line) : State where
  nodes := ∅
  root := none
  freeMap := ∅
  runningRec := ∅
  pidGlobal := pidGlobal
  totalSize := 0
  minGranularity := 0
  stdout := stdout

/-- A test case: the set-up and the request lines that follow it. -/
def testCase (A : Malloc) (st : State) (U L : Int) (reqs : List Query) :
    Except Fault State := do
  let st₀ ← startCase A st U L
  runAll (sendQuery A) st₀ reqs

end BuddyModel
