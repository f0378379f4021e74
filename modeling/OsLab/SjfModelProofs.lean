import OsLab.LoopProofs

/-! # The shortest-job-first simulator, as the code computes it

    `sjf-hash.c` keeps one list of unserved bursts per process, one record
    per process in `processLog`, and a CPU and an I/O device that serve one
    burst each.  Its main loop turns once per unit of time: the CPU part,
    the I/O part, and the check whether every list is empty.

    The global variables start as zero, so before the first dispatch both
    devices name process 0.  The pid `-1` is modelled by `none`.  The arrays
    are functions of the pid: every index used is a pid that `find_next` has
    answered with, which is below `j`.  Following an empty list is a `Fault`.

    Times and counters are `int`s.  A sum that is none is a `Fault` where the
    program forms it: a service time (`Loads`), the clock and the time of a
    completion (`Overflows`), and the sum in a response ratio (`Ratio`).  The
    waiting times and the ages need no such test, as they count turns and
    stay behind the clock (`SjfStatistics.counters_le`).  What the program
    prints along the way and the two ratios, which are floats, are left
    out. -/

namespace SjfModel

open OsLoop

/-- The largest `int`. -/
def intMax : Int := 2147483647

/-- The least `int`. -/
def intMin : Int := -2147483648

/-- The letter of a burst, `'C'` or `'I'`. -/
inductive BurstType where
  | C
  | I
  deriving DecidableEq, Repr

structure ProcessNode where
  val : Int
  type : BurstType
  age : Int
  deriving DecidableEq, Repr

structure ProcessLogNode where
  arrivalTime : Int
  waitingTime : Int
  numBursts : Int
  firstTime : Int
  lastTime : Int
  turnaroundTime : Int
  responseTime : Int
  serviceTime : Int
  status : Int
  deriving DecidableEq, Repr

/-- The CPU or the I/O device. -/
structure Device where
  idle : Bool
  currPid : Option Nat
  timeLeft : Int
  deriving DecidableEq, Repr

structure State where
  j : Nat
  time : Int
  proc : Nat → List ProcessNode
  processLog : Nat → ProcessLogNode
  cpu : Device
  ioDevice : Device

/-- The ways a turn does not go on. -/
inductive Fault where
  /-- the head of an empty list is read -/
  | nullNode
  /-- `processLog[-1]` is written -/
  | badIndex
  /-- a sum is no `int` -/
  | overflow
  /-- the loop runs forever -/
  | endless
  deriving DecidableEq, Repr

/-! ## Selection -/

/-- The variables of the scan: `least_bt`, `least_bt_ind`, `least_age`. -/
structure Least where
  bt : Int
  ind : Option Nat
  age : Int

/-- The scan over the pids `rs`; it stops at the first process that has not
    arrived. -/
def scan (s : State) (itype : BurstType) : List Nat → Least → Least
  | [], l => l
  | r :: rs, l =>
      if (s.processLog r).arrivalTime > s.time then l
      else
        match s.proc r with
        | [] => scan s itype rs l
        | node :: _ =>
            if node.val < l.bt ∧ node.type = itype ∧ (s.time = 0 ∨ some r ≠ s.cpu.currPid) then
              if itype = .I ∧ node.age < l.age then
                scan s itype rs { bt := node.val, ind := some r, age := node.age }
              else scan s itype rs { l with bt := node.val, ind := some r }
            else scan s itype rs l

def findNext (s : State) (itype : BurstType) : Option Nat :=
  (scan s itype (List.range s.j) { bt := intMax, ind := none, age := intMax }).ind

/-! ## One turn of the main loop -/

def State.setLog (s : State) (p : Nat) (f : ProcessLogNode → ProcessLogNode) : State :=
  { s with processLog := Function.update s.processLog p (f (s.processLog p)) }

/-- The loop of `update` over the pids `rs`. -/
def updateFrom : List Nat → State → State
  | [], s => s
  | r :: rs, s =>
      if (s.processLog r).arrivalTime > s.time then s
      else
        match s.proc r with
        | [] => updateFrom rs s
        | node :: _ =>
            if node.type = .C then
              updateFrom rs (s.setLog r (fun n => { n with waitingTime := n.waitingTime + 1 }))
            else updateFrom rs s

def update (s : State) : State := updateFrom (List.range s.j) s

/-- A device takes a burst and serves its first unit. -/
def takeBurst (pidNext : Nat) (node : ProcessNode) : Device where
  idle := decide (node.val - 1 = 0)
  currPid := some pidNext
  timeLeft := node.val - 1

/-- The process the CPU part dispatches when the CPU is idle. -/
def cpuNext (s : State) : Option Nat :=
  match findNext s .C with
  | none => none
  | some pidNext =>
      if some pidNext = s.ioDevice.currPid ∧ s.ioDevice.timeLeft ≥ 1 then none else some pidNext

/-- The CPU part of a turn: the state and `flag_pid`. -/
def cpuPart (s : State) : Except Fault (State × Option Nat) :=
  if s.cpu.idle then
    match cpuNext s with
    | none => .ok (s, none)
    | some pidNext =>
        match s.proc pidNext with
        | [] => .error .nullNode
        | node :: next =>
            let logged := s.setLog pidNext (fun n => { n with
              status := 2
              firstTime := if n.firstTime = -1 then s.time else n.firstTime })
            .ok ({ logged with
              cpu := takeBurst pidNext node
              proc := Function.update s.proc pidNext next }, some pidNext)
  else
    let waited := update s
    if s.cpu.timeLeft = 1 then
      match s.cpu.currPid with
      | none => .error .badIndex
      | some pid =>
          .ok ({ waited.setLog pid (fun n => { n with status := 1 }) with
            cpu := { idle := true, currPid := none, timeLeft := s.cpu.timeLeft - 1 } },
            s.cpu.currPid)
    else
      .ok ({ waited with cpu := { s.cpu with timeLeft := s.cpu.timeLeft - 1 } }, s.cpu.currPid)

/-- The process the I/O part dispatches when the device is idle. -/
def ioNext (s : State) (flagPid : Option Nat) : Option Nat :=
  match findNext s .I with
  | none => none
  | some pidNext => if flagPid = some pidNext then none else some pidNext

/-- The I/O part of a turn. -/
def ioPart (s : State) (flagPid : Option Nat) : Except Fault State :=
  if s.ioDevice.idle then
    match ioNext s flagPid with
    | none => .ok s
    | some pidNext =>
        match s.proc pidNext with
        | [] => .error .nullNode
        | node :: next =>
            .ok { s.setLog pidNext (fun n => { n with status := 3 }) with
              ioDevice := takeBurst pidNext node
              proc := Function.update s.proc pidNext next }
  else if s.ioDevice.timeLeft = 1 then
    match s.ioDevice.currPid with
    | none => .error .badIndex
    | some pid =>
        .ok { s.setLog pid (fun n => { n with status := 1 }) with
          ioDevice := { s.ioDevice with idle := true, timeLeft := s.ioDevice.timeLeft - 1 } }
  else
    .ok { s with ioDevice := { s.ioDevice with timeLeft := s.ioDevice.timeLeft - 1 } }

/-- A burst that waits for the I/O device ages. -/
def grow : List ProcessNode → List ProcessNode
  | [] => []
  | node :: next =>
      if node.type = .I then { node with age := node.age + 1 } :: next else node :: next

/-- What the closing check records about a process whose list is empty. -/
def close (time timeLeft : Int) (n : ProcessLogNode) : ProcessLogNode :=
  { n with
    lastTime := if n.lastTime < 0 then time - 1 + timeLeft else n.lastTime
    status := 4 }

/-- The end of a turn forms a sum that is no `int`: `time++`, or the time of a
    completion, `time-1+cpu.time_left`, for a list that is empty for the first
    time. -/
def Overflows (s : State) : Prop :=
  intMax ≤ s.time ∨
    ∃ k < s.j, s.proc k = [] ∧ (s.processLog k).lastTime < 0 ∧ intMax < s.time + s.cpu.timeLeft

instance (s : State) : Decidable (Overflows s) :=
  inferInstanceAs (Decidable (_ ∨ ∃ k < s.j, _))

/-- The end of a turn: time passes, and every process is looked at. -/
def endTurn (s : State) : State :=
  { s with
    time := s.time + 1
    proc := fun k => if k < s.j then grow (s.proc k) else s.proc k
    processLog := fun k =>
      if k < s.j ∧ s.proc k = [] then close (s.time + 1) s.cpu.timeLeft (s.processLog k)
      else s.processLog k }

/-- Every burst list is empty. -/
def Consumed (s : State) : Prop := ∀ k < s.j, s.proc k = []

instance (s : State) : Decidable (Consumed s) :=
  inferInstanceAs (Decidable (∀ k < s.j, s.proc k = []))

/-- One turn of `while(!done)`. -/
def tick (s : State) : Except Fault (Turn State State) := do
  let served ← cpuPart s
  let s ← ioPart served.1 served.2
  if Overflows s then .error .overflow
  else if Consumed (endTurn s) then .ok (.done (endTurn s))
  else .ok (.again (endTurn s))

/-- The sum of the waiting and the service time, in the response ratio, is an
    `int` for every process. -/
def Ratio (s : State) : Prop :=
  ∀ k < s.j, (s.processLog k).waitingTime + (s.processLog k).serviceTime ≤ intMax

instance (s : State) : Decidable (Ratio s) :=
  inferInstanceAs (Decidable (∀ k < s.j, _))

/-- The statistics, once the loop has ended. -/
def statistics (s : State) : Except Fault State :=
  if Ratio s then
    .ok { s with
      processLog := fun k =>
        if k < s.j then
          { s.processLog k with
            turnaroundTime := (s.processLog k).lastTime - (s.processLog k).arrivalTime
            responseTime := (s.processLog k).firstTime - (s.processLog k).arrivalTime }
        else s.processLog k }
  else .error .overflow

/-! ## The input -/

/-- A line of the input: an arrival time and the bursts before the `-1`. -/
structure Line where
  arrival : Int
  bursts : List Int
  deriving DecidableEq, Repr

def insertNode (head : List ProcessNode) (ival : Int) (itype : BurstType) : List ProcessNode :=
  head ++ [{ val := ival, type := itype, age := 0 }]

/-- The reading of a line from its `n`-th burst on: every other burst is for
    the CPU. -/
def readBursts (n : Nat) (head : List ProcessNode) : List Int → List ProcessNode
  | [] => head
  | temp :: rest =>
      readBursts (n + 1) (insertNode head temp (if n % 2 = 0 then .C else .I)) rest

/-- The record a line starts with. -/
def newLog (l : Line) : ProcessLogNode where
  arrivalTime := l.arrival
  waitingTime := 0
  numBursts := 0
  firstTime := -1
  lastTime := -1
  turnaroundTime := -1
  responseTime := -1
  serviceTime := l.bursts.sum
  status := 0

/-- The device as the program starts: idle, with the zeros of a global. -/
def freshDevice : Device where
  idle := true
  currPid := some 0
  timeLeft := 0

/-- The state in which the main loop is entered. -/
def loaded (lines : List Line) : State where
  j := lines.length
  time := 0
  proc := fun k => readBursts 0 [] ((lines[k]?.map Line.bursts).getD [])
  processLog := fun k => newLog (lines[k]?.getD { arrival := 0, bursts := [] })
  cpu := freshDevice
  ioDevice := freshDevice

/-- The service times that the reading of a line goes through are `int`s. -/
def Loads (l : Line) : Prop :=
  ∀ read ∈ l.bursts.inits, intMin ≤ read.sum ∧ read.sum ≤ intMax

instance (l : Line) : Decidable (Loads l) :=
  inferInstanceAs (Decidable (∀ read ∈ l.bursts.inits, _))

/-- The reading of the input. -/
def load (lines : List Line) : Except Fault State :=
  if ∀ l ∈ lines, Loads l then .ok (loaded lines) else .error .overflow

theorem load_ok {lines : List Line} {s : State} :
    load lines = .ok s ↔ (∀ l ∈ lines, Loads l) ∧ s = loaded lines := by
  rw [load]
  constructor
  · intro h
    split at h
    · next hloads =>
        cases h
        exact ⟨hloads, rfl⟩
    · cases h
  · rintro ⟨hloads, rfl⟩
    exact if_pos hloads

/-- What the program is written for: at most 100 processes, sorted by their
    arrival, with positive bursts below the largest `int`. -/
structure WellFormed (lines : List Line) : Prop where
  few : lines.length ≤ 100
  sorted : lines.Pairwise (fun a b => a.arrival ≤ b.arrival)
  arrivals : ∀ l ∈ lines, 0 ≤ l.arrival
  bursts : ∀ l ∈ lines, ∀ v ∈ l.bursts, 0 < v ∧ v < intMax

instance (lines : List Line) : Decidable (WellFormed lines) :=
  decidable_of_iff (lines.length ≤ 100 ∧ lines.Pairwise (fun a b => a.arrival ≤ b.arrival) ∧
    (∀ l ∈ lines, 0 ≤ l.arrival) ∧ ∀ l ∈ lines, ∀ v ∈ l.bursts, 0 < v ∧ v < intMax)
    ⟨fun h => ⟨h.1, h.2.1, h.2.2.1, h.2.2.2⟩, fun h => ⟨h.few, h.sorted, h.arrivals, h.bursts⟩⟩

/-! ## What the parts of a turn leave alone -/

section Frame

variable {s : State} {p : Nat} {f : ProcessLogNode → ProcessLogNode}

/-- Apart from the records, and but for arrival times in them, the states
    agree. -/
structure SameLists (s s' : State) : Prop where
  j : s'.j = s.j
  time : s'.time = s.time
  proc : s'.proc = s.proc
  cpu : s'.cpu = s.cpu
  ioDevice : s'.ioDevice = s.ioDevice
  arrival : ∀ r, (s'.processLog r).arrivalTime = (s.processLog r).arrivalTime

theorem SameLists.refl (s : State) : SameLists s s := ⟨rfl, rfl, rfl, rfl, rfl, fun _ => rfl⟩

theorem SameLists.trans {s s' s'' : State} (h : SameLists s s') (h' : SameLists s' s'') :
    SameLists s s'' where
  j := h'.j.trans h.j
  time := h'.time.trans h.time
  proc := h'.proc.trans h.proc
  cpu := h'.cpu.trans h.cpu
  ioDevice := h'.ioDevice.trans h.ioDevice
  arrival := fun r => (h'.arrival r).trans (h.arrival r)

/-- A record that keeps its arrival time can be replaced. -/
theorem arrival_update {log : Nat → ProcessLogNode} {n : ProcessLogNode}
    (hn : n.arrivalTime = (log p).arrivalTime) (r : Nat) :
    (Function.update log p n r).arrivalTime = (log r).arrivalTime := by
  by_cases hr : r = p
  · rw [hr, Function.update_self, hn]
  · rw [Function.update_of_ne hr]

theorem setLog_same (hf : ∀ n, (f n).arrivalTime = n.arrivalTime) :
    SameLists s (s.setLog p f) :=
  ⟨rfl, rfl, rfl, rfl, rfl, arrival_update (hf _)⟩

theorem updateFrom_same (rs : List Nat) : ∀ s : State, SameLists s (updateFrom rs s) := by
  induction rs with
  | nil => intro s; exact SameLists.refl s
  | cons r rs ih =>
      intro s
      simp only [updateFrom]
      split
      · exact SameLists.refl s
      · split
        · exact ih s
        · split
          · refine SameLists.trans ?_ (ih _)
            exact setLog_same (fun _ => rfl)
          · exact ih s

theorem update_same (s : State) : SameLists s (update s) := updateFrom_same _ s

end Frame

end SjfModel
