import OsLab.SjfModelProofs

/-! # The round-robin simulator, as the code computes it

    `rr-hash.c` reads its input as `sjf-hash.c` does, but serves the CPU
    from a circular queue of processes with the time they have left, a
    quantum of two units at a time.  Its main loop turns once per unit of
    time: the loop that enters processes into the queue, the CPU part, the
    I/O part, and the printing of the queue.  The flag `done` is set before
    the loop and nowhere else.

    `delete_begin` frees the only node of a queue and leaves the head
    pointing to it, which is `freed`.  Following that pointer, or that of an
    empty list, is a `Fault`.  What the program prints is left out.

    `time`, `first_time`, `waiting_time` and `age` are `int`s in the code and
    have no bound here.  `time` is compared with the arrival times for the
    waiting times and for nothing else, and `age` among the I/O bursts: who is
    in the queue, in which order, and who leaves it is decided without them,
    so a count past the largest `int` changes nothing of what is proved about
    the queue and the CPU. -/

namespace RrModel

open OsLoop
open SjfModel (ProcessNode BurstType Line readBursts intMax)

/-- The ways a turn does not go on. -/
inductive Fault where
  /-- a null pointer is followed -/
  | nullNode
  /-- a node of the queue is read after it was freed -/
  | freedNode
  /-- the loop runs forever -/
  | endless
  deriving DecidableEq, Repr

structure LogNode where
  arrivalTime : Int
  waitingTime : Int
  firstTime : Int
  status : Int
  deriving DecidableEq, Repr

structure CpuQueueNode where
  pid : Nat
  timeLeft : Int
  deriving DecidableEq, Repr

/-- The circular queue: its nodes from `cpuQueueHead` on, none for `NULL`, or
    a head that points to a freed node. -/
inductive CpuQueue where
  | ring (nodes : List CpuQueueNode)
  | freed
  deriving DecidableEq, Repr

/-- The CPU or the I/O device. -/
structure Device where
  idle : Bool
  currPid : Nat
  timeLeft : Int
  deriving DecidableEq, Repr

structure State where
  j : Nat
  time : Int
  proc : Nat → List ProcessNode
  processLog : Nat → LogNode
  cpuQueue : CpuQueue
  cpu : Device
  ioDevice : Device

def timeQuantum : Int := 2

/-! ## The circular queue -/

/-- The nodes that are reached from the head. -/
def CpuQueue.nodes : CpuQueue → Except Fault (List CpuQueueNode)
  | .ring nodes => .ok nodes
  | .freed => .error .freedNode

def inCQueue (q : CpuQueue) (ipid : Nat) : Except Fault Bool := do
  .ok ((← q.nodes).any (fun n => n.pid = ipid))

/-- The new node comes last, before the head. -/
def enqueue (q : CpuQueue) (ipid : Nat) (ival : Int) : Except Fault CpuQueue := do
  .ok (.ring ((← q.nodes) ++ [{ pid := ipid, timeLeft := ival }]))

def deleteBegin (q : CpuQueue) : Except Fault CpuQueue := do
  match ← q.nodes with
  | [] => .ok (.ring [])
  | [_] => .ok .freed
  | _ :: node :: rest => .ok (.ring (node :: rest))

/-- `cpuQueueHead`, for reading a field of it. -/
def CpuQueue.head (q : CpuQueue) : Except Fault CpuQueueNode := do
  match ← q.nodes with
  | [] => .error .nullNode
  | node :: _ => .ok node

/-- `cpuQueueHead = cpuQueueHead->next`. -/
def CpuQueue.advance (q : CpuQueue) : Except Fault CpuQueue := do
  match ← q.nodes with
  | [] => .error .nullNode
  | node :: rest => .ok (.ring (rest ++ [node]))

/-! ## One turn of the main loop -/

def State.setLog (s : State) (p : Nat) (f : LogNode → LogNode) : State :=
  { s with processLog := Function.update s.processLog p (f (s.processLog p)) }

/-- One turn of the loop that enters processes into the queue. -/
def enter (s : State) (k : Nat) : Except Fault State :=
  match s.proc k with
  | [] => .ok s
  | node :: next => do
      if ← inCQueue s.cpuQueue k then .ok s
      else
        match node.type with
        | .C => .ok { s with cpuQueue := ← enqueue s.cpuQueue k node.val }
        | .I =>
            .ok { s with
              proc := Function.update s.proc k ({ node with age := node.age + 1 } :: next) }

def enterAll (s : State) : Except Fault State := runAll enter s (List.range s.j)

/-- The loop of `update` over the pids `rs`. -/
def updateFrom : List Nat → State → Except Fault State
  | [], s => .ok s
  | r :: rs, s =>
      if (s.processLog r).arrivalTime > s.time then .ok s
      else do
        if (← inCQueue s.cpuQueue r) ∧ r ≠ s.cpu.currPid then
          updateFrom rs (s.setLog r (fun n => { n with waitingTime := n.waitingTime + 1 }))
        else updateFrom rs s

def update (s : State) : Except Fault State := updateFrom (List.range s.j) s

def findMin (a b : Int) : Int := if a < b then a else b

/-- A process whose burst is used up leaves the queue, and the burst its
    list. -/
def leave (s : State) : Except Fault State := do
  if (← s.cpuQueue.head).timeLeft = 0 then
    let cpuQueue ← deleteBegin s.cpuQueue
    match s.proc s.cpu.currPid with
    | [] => .error .nullNode
    | _ :: next =>
        .ok { s with
          cpuQueue := cpuQueue
          proc := Function.update s.proc s.cpu.currPid next }
  else .ok s

/-- The CPU takes the head of the queue for a quantum at most. -/
def allot (s : State) (head : CpuQueueNode) (rest : List CpuQueueNode) : Except Fault State :=
  let timeLeft := findMin timeQuantum head.timeLeft
  match s.proc head.pid with
  | [] => .error .nullNode
  | node :: next =>
      let logged := s.setLog head.pid (fun n => { n with
        status := 2
        firstTime := if n.firstTime = -1 then s.time else n.firstTime })
      .ok { logged with
        cpuQueue := .ring ({ head with timeLeft := head.timeLeft - timeLeft } :: rest)
        proc := Function.update s.proc head.pid ({ node with val := node.val - timeLeft } :: next)
        cpu := { idle := false, currPid := head.pid, timeLeft := timeLeft - 1 } }

/-- The CPU becomes idle, and its process ready. -/
def release (s : State) : State :=
  { s.setLog s.cpu.currPid (fun n => { n with status := 1 }) with
    cpu := { s.cpu with idle := true } }

/-- The CPU part of a turn. -/
def cpuPart (s : State) : Except Fault State :=
  if s.cpu.idle then do
    match ← s.cpuQueue.nodes with
    | [] => .ok s
    | head :: rest =>
        let s ← allot s head rest
        if s.cpu.timeLeft = 0 then leave (release s) else .ok s
  else do
    let s ← update s
    let s := { s with cpu := { s.cpu with timeLeft := s.cpu.timeLeft - 1 } }
    if s.cpu.timeLeft = 0 then
      let s ← leave (release s)
      .ok { s with cpuQueue := ← s.cpuQueue.advance }
    else .ok s

/-- The scan for the youngest I/O burst, from `min_age` and `pid_next` on. -/
def scanIo (s : State) : List Nat → Int → Option Nat → Except Fault (Option Nat)
  | [], _, pidNext => .ok pidNext
  | k :: ks, minAge, pidNext =>
      if k = s.cpu.currPid then scanIo s ks minAge pidNext
      else
        match s.proc k with
        | [] => .error .nullNode
        | node :: _ =>
            if node.type = .I ∧ node.age < minAge then scanIo s ks node.age (some k)
            else scanIo s ks minAge pidNext

def ioNext (s : State) : Except Fault (Option Nat) := scanIo s (List.range s.j) intMax none

/-- The I/O part of a turn. -/
def ioPart (s : State) : Except Fault State :=
  if s.ioDevice.idle then do
    match ← ioNext s with
    | none => .ok s
    | some pidNext =>
        match s.proc pidNext with
        | [] => .error .nullNode
        | node :: _ =>
            .ok { s.setLog pidNext (fun n => { n with status := 3 }) with
              ioDevice :=
                { idle := decide (node.val - 1 = 0), currPid := pidNext, timeLeft := node.val - 1 } }
  else if s.ioDevice.timeLeft - 1 = 0 then
    .ok { s.setLog s.ioDevice.currPid (fun n => { n with status := 1 }) with
      ioDevice := { s.ioDevice with idle := true, timeLeft := s.ioDevice.timeLeft - 1 } }
  else .ok { s with ioDevice := { s.ioDevice with timeLeft := s.ioDevice.timeLeft - 1 } }

/-- The pointers that `printstuff` follows. -/
def printstuff (s : State) : Except Fault (List Nat) := do
  .ok ((← s.cpuQueue.nodes).map CpuQueueNode.pid)

/-- One turn of `while(!done)`; no turn sets `done`. -/
def tick (s : State) : Except Fault (Turn State State) := do
  let s ← enterAll s
  let s ← cpuPart s
  let s ← ioPart s
  let _ ← printstuff s
  .ok (.again { s with time := s.time + 1 })

/-! ## The input -/

/-- The record a line starts with. -/
def newLog (l : Line) : LogNode where
  arrivalTime := l.arrival
  waitingTime := 0
  firstTime := -1
  status := 0

/-- Idle, with the zeros of a global. -/
def freshDevice : Device where
  idle := true
  currPid := 0
  timeLeft := 0

/-- The state in which the main loop is entered. -/
def loaded (lines : List Line) : State where
  j := lines.length
  time := 0
  proc := fun k => readBursts 0 [] ((lines[k]?.map Line.bursts).getD [])
  processLog := fun k => newLog (lines[k]?.getD { arrival := 0, bursts := [] })
  cpuQueue := .ring []
  cpu := freshDevice
  ioDevice := freshDevice

/-- Every burst list is empty. -/
def Consumed (s : State) : Prop := ∀ k < s.j, s.proc k = []

/-! ## What a turn serves -/

/-- The process the CPU serves in the turn from `s`. -/
def onCpu (s : State) : Option Nat :=
  match enterAll s with
  | .error _ => none
  | .ok s' =>
      if s'.cpu.idle then
        match s'.cpuQueue with
        | .ring (head :: _) => some head.pid
        | _ => none
      else some s'.cpu.currPid

/-- The process the I/O device serves in the turn from `s`. -/
def onIo (s : State) : Option Nat :=
  match enterAll s >>= cpuPart with
  | .error _ => none
  | .ok s' =>
      if s'.ioDevice.idle then
        match ioNext s' with
        | .error _ => none
        | .ok pidNext => pidNext
      else some s'.ioDevice.currPid

end RrModel
