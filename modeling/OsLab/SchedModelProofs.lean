import OsLab.LoopProofs

/-! # The user-space scheduler, as the code computes it

    The policy of SCHED in the pseudo-FIFO version: the table `schedproc`,
    the entry points `do_noquantum`, `do_start_scheduling`,
    `do_stop_scheduling` and `do_nice`, and the timer's `balance_queues`.
    Priorities are `unsigned int`, so that `priority -= 1` wraps.

    What `schedule.c` takes from other files is an `Env`: the constants of
    the kernel headers, `accept_message` and the two functions that turn an
    endpoint into a slot.  The kernel answers `sys_schedctl` and
    `sys_schedule` from a list; when the list is used up it answers `OK`, so
    that every loop that waits for an answer other than `EBADCPU` ends. -/

namespace SchedModel

/-- The error codes; every other code of the kernel is `other`. -/
inductive Errno where
  | eperm
  | ebadept
  | einval
  | ebadcpu
  | other (code : Nat)
  deriving DecidableEq, Repr

/-- What a function returns: `none` is `OK`. -/
abbrev Rv := Option Errno

/-- `struct schedproc`, less the cpu mask. -/
structure Schedproc where
  endpoint : Int32
  parent : Int32
  flags : UInt32
  maxPriority : UInt32
  priority : UInt32
  timeSlice : UInt32
  cpu : UInt32
  deriving DecidableEq, Repr

/-- The bit of `flags` that marks a slot as taken. -/
def inUse : UInt32 := 0x1

/-- `flags & IN_USE`. -/
def Schedproc.InUse (p : Schedproc) : Prop := p.flags &&& inUse ≠ 0

instance (p : Schedproc) : Decidable p.InUse := inferInstanceAs (Decidable (_ ≠ _))

/-- The processors, in a kernel built with `CONFIG_SMP`. -/
structure Machine where
  processorsCount : Nat
  bspId : UInt32
  rsProcNr : Int32

/-- A message of type `SCHEDULING_START` or `SCHEDULING_INHERIT`. -/
inductive StartType where
  | schedulingStart
  | schedulingInherit
  deriving DecidableEq, Repr

structure StartMessage where
  mSource : Int32
  mType : StartType
  endpoint : Int32
  parent : Int32
  maxprio : Int32
  quantum : Int32
  deriving DecidableEq, Repr

structure StopMessage where
  mSource : Int32
  endpoint : Int32
  deriving DecidableEq, Repr

structure NiceMessage where
  mSource : Int32
  endpoint : Int32
  maxprio : UInt32
  deriving DecidableEq, Repr

/-- What `schedule.c` takes from the headers and from `utility.c`; the table
    has `procs` slots. -/
structure Env (procs : Nat) where
  nrSchedQueues : UInt32
  userQ : UInt32
  smp : Option Machine
  acceptMessage : Int32 → Bool
  schedIsokendpt : (Fin procs → Schedproc) → Int32 → Except Errno (Fin procs)
  schedIsemtyendpt : (Fin procs → Schedproc) → Int32 → Except Errno (Fin procs)

/-- `MIN_USER_Q`. -/
def Env.minUserQ {procs : Nat} (E : Env procs) : UInt32 := E.nrSchedQueues - 1

/-- What the headers and `utility.c` promise: there is more than one queue,
    a queue number is an `int`, `USER_Q` is a queue, and the endpoint that
    `sched_isokendpt` accepts is that of a taken slot. -/
structure Env.Documented {procs : Nat} (E : Env procs) : Prop where
  many : 2 ≤ E.nrSchedQueues
  small : E.nrSchedQueues.toNat < 2 ^ 31
  user : E.userQ < E.nrSchedQueues
  taken : ∀ table e i, E.schedIsokendpt table e = .ok i → (table i).InUse

/-- The arguments of a call of `sys_schedule`. -/
structure ScheduleCall where
  endpoint : Int32
  newPrio : Int32
  newQuantum : Int32
  newCpu : Int32
  deriving DecidableEq, Repr

/-- The globals of the file, the answers the kernel has yet to give and the
    calls of `sys_schedule` so far. -/
structure State (procs : Nat) where
  schedproc : Fin procs → Schedproc
  cpuProc : UInt32 → UInt32
  answers : List Rv
  calls : List ScheduleCall

def scheduleChangePrio : UInt32 := 0x1

def scheduleChangeQuantum : UInt32 := 0x2

def scheduleChangeCpu : UInt32 := 0x4

def scheduleChangeAll : UInt32 :=
  scheduleChangePrio ||| scheduleChangeQuantum ||| scheduleChangeCpu

/-- `CPU_DEAD`, stored in an `unsigned`. -/
def cpuDead : UInt32 := 0xffffffff

def defaultUserTimeSlice : UInt32 := 200

section

variable {procs : Nat}

/-- `*rmp = p` for the slot of `rmp`. -/
def State.setSlot (st : State procs) (i : Fin procs) (p : Schedproc) : State procs :=
  { st with schedproc := Function.update st.schedproc i p }

/-- The next answer of the kernel. -/
def kernelAnswer (st : State procs) : Rv × State procs :=
  (st.answers.headD none, { st with answers := st.answers.tail })

def sysSchedule (c : ScheduleCall) (st : State procs) : Rv × State procs :=
  kernelAnswer { st with calls := st.calls ++ [c] }

/-- The loop of `pick_cpu`: the least loaded processor other than the boot
    processor.  The loads are unsigned, so that `cpu_is_available` holds of
    every one. -/
def leastLoaded (M : Machine) (cpuProc : UInt32 → UInt32) : UInt32 :=
  (((List.range M.processorsCount).map UInt32.ofNat).foldl (fun best c =>
    if 0 ≤ cpuProc c ∧ c ≠ M.bspId ∧ cpuProc c < best.2 then (c, cpuProc c) else best)
    (M.bspId, 0xffffffff)).1

def pickCpu (E : Env procs) (i : Fin procs) (st : State procs) : State procs :=
  match E.smp with
  | none => st.setSlot i { st.schedproc i with cpu := 0 }
  | some M =>
      if M.processorsCount = 1 ∨ (st.schedproc i).parent = M.rsProcNr then
        st.setSlot i { st.schedproc i with cpu := M.bspId }
      else
        let cpu := leastLoaded M st.cpuProc
        let st := st.setSlot i { st.schedproc i with cpu := cpu }
        { st with cpuProc := Function.update st.cpuProc cpu (st.cpuProc cpu + 1) }

def scheduleProcess (E : Env procs) (i : Fin procs) (flags : UInt32) (st : State procs) :
    Rv × State procs :=
  let st := pickCpu E i st
  let rmp := st.schedproc i
  sysSchedule
    { endpoint := rmp.endpoint
      newPrio := if flags &&& scheduleChangePrio ≠ 0 then rmp.priority.toInt32 else -1
      newQuantum := if flags &&& scheduleChangeQuantum ≠ 0 then rmp.timeSlice.toInt32 else -1
      newCpu := if flags &&& scheduleChangeCpu ≠ 0 then rmp.cpu.toInt32 else -1 } st

def scheduleProcessLocal (E : Env procs) (i : Fin procs) (st : State procs) : Rv × State procs :=
  scheduleProcess E i (scheduleChangePrio ||| scheduleChangeQuantum) st

/-! ## The entry points -/

def doNoquantum (E : Env procs) (mSource : Int32) (st : State procs) : Rv × State procs :=
  match E.schedIsokendpt st.schedproc mSource with
  | .error _ => (some .ebadept, st)
  | .ok i =>
      let rmp := st.schedproc i
      let st :=
        if rmp.priority < E.minUserQ then st.setSlot i { rmp with priority := rmp.priority - 1 }
        else st
      scheduleProcessLocal E i st

def doStopScheduling (E : Env procs) (m : StopMessage) (st : State procs) : Rv × State procs :=
  if ¬ E.acceptMessage m.mSource then (some .eperm, st)
  else
    match E.schedIsokendpt st.schedproc m.endpoint with
    | .error _ => (some .ebadept, st)
    | .ok i =>
        let rmp := st.schedproc i
        let st :=
          match E.smp with
          | none => st
          | some _ =>
              { st with cpuProc := Function.update st.cpuProc rmp.cpu (st.cpuProc rmp.cpu - 1) }
        (none, st.setSlot i { rmp with flags := 0 })

/-- `while ((rv = schedule_process(rmp, SCHEDULE_CHANGE_ALL)) == EBADCPU)`,
    for as many turns as the kernel has answers left. -/
def scheduleUntilCpu (E : Env procs) (i : Fin procs) : Nat → State procs → Rv × State procs
  | 0, st => scheduleProcess E i scheduleChangeAll st
  | n + 1, st =>
      let tried := scheduleProcess E i scheduleChangeAll st
      if tried.1 = some .ebadcpu then
        let st := tried.2
        let st := { st with cpuProc := Function.update st.cpuProc (st.schedproc i).cpu cpuDead }
        scheduleUntilCpu E i n (pickCpu E i st)
      else tried

/-- The end of `do_start_scheduling`: the kernel hands the process over, and
    it is scheduled. -/
def takeOver (E : Env procs) (i : Fin procs) (st : State procs) : Rv × State procs :=
  let kernel := kernelAnswer st
  let st := kernel.2
  if kernel.1 ≠ none then kernel
  else
    let st := pickCpu E i (st.setSlot i { st.schedproc i with flags := inUse })
    scheduleUntilCpu E i st.answers.length st

/-- The special case for init, the parent of itself. -/
def populateInit (E : Env procs) (p : Schedproc) : Schedproc :=
  if p.endpoint = p.parent then
    { p with
      priority := E.userQ
      timeSlice := defaultUserTimeSlice
      cpu := match E.smp with | none => p.cpu | some M => M.bspId }
  else p

def doStartScheduling (E : Env procs) (m : StartMessage) (st : State procs) : Rv × State procs :=
  if ¬ E.acceptMessage m.mSource then (some .eperm, st)
  else
    match E.schedIsemtyendpt st.schedproc m.endpoint with
    | .error rv => (some rv, st)
    | .ok i =>
        let rmp :=
          { st.schedproc i with
            endpoint := m.endpoint
            parent := m.parent
            maxPriority := m.maxprio.toUInt32 }
        if E.nrSchedQueues ≤ rmp.maxPriority then (some .einval, st.setSlot i rmp)
        else
          let rmp := populateInit E rmp
          match m.mType with
          | .schedulingStart =>
              takeOver E i (st.setSlot i
                { rmp with priority := rmp.maxPriority, timeSlice := m.quantum.toUInt32 })
          | .schedulingInherit =>
              let st := st.setSlot i rmp
              match E.schedIsokendpt st.schedproc m.parent with
              | .error rv => (some rv, st)
              | .ok parent =>
                  takeOver E i (st.setSlot i
                    { rmp with
                      priority := (st.schedproc parent).priority
                      timeSlice := (st.schedproc parent).timeSlice })

def doNice (E : Env procs) (m : NiceMessage) (st : State procs) : Rv × State procs :=
  if ¬ E.acceptMessage m.mSource then (some .eperm, st)
  else
    match E.schedIsokendpt st.schedproc m.endpoint with
    | .error _ => (some .ebadept, st)
    | .ok i =>
        let rmp := st.schedproc i
        if E.nrSchedQueues ≤ m.maxprio then (some .einval, st)
        else
          let tried := scheduleProcessLocal E i
            (st.setSlot i { rmp with priority := m.maxprio, maxPriority := m.maxprio })
          if tried.1 ≠ none then
            -- roll back the two priorities
            (tried.1, tried.2.setSlot i
              { tried.2.schedproc i with
                priority := rmp.priority
                maxPriority := rmp.maxPriority })
          else tried

/-- One slot of `balance_queues`: a process below its highest priority is
    scheduled again, at the priority it has. -/
def balanceSlot (E : Env procs) (st : State procs) (i : Fin procs) : State procs :=
  if (st.schedproc i).InUse ∧ (st.schedproc i).maxPriority < (st.schedproc i).priority then
    (scheduleProcessLocal E i st).2
  else st

def balanceQueues (E : Env procs) (st : State procs) : State procs :=
  (List.finRange procs).foldl (balanceSlot E) st

/-! ## Runs -/

/-- What SCHED serves. -/
inductive Event where
  | noquantum (mSource : Int32)
  | start (m : StartMessage)
  | stop (m : StopMessage)
  | nice (m : NiceMessage)
  | balance
  deriving DecidableEq, Repr

def serve (E : Env procs) (st : State procs) : Event → State procs
  | .noquantum mSource => (doNoquantum E mSource st).2
  | .start m => (doStartScheduling E m st).2
  | .stop m => (doStopScheduling E m st).2
  | .nice m => (doNice E m st).2
  | .balance => balanceQueues E st

end

end SchedModel
