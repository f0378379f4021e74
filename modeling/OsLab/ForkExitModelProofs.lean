import OsLab.LoopProofs

/-! # Creating and ending processes in PM

    `forkexit.c` of Assignment 02 is the process manager's side of `fork`,
    `exit` and `waitpid`.  Every process has a slot of the table `mproc`.  An
    exit tells VFS at once and the parent when it asks; the slot is released
    only when both are done with the process.

    The handlers send signals, and a signal may end its receiver, so
    `exit_proc` can run inside `exit_proc`.  `signal.c` is not among the
    sources: the handlers take `sig_proc` as an argument, and `sigProc` ties
    the knot with whatever reaction the environment picks.  Nor are `main.c`
    and `utility.c`: which calls PM takes, how it tells VFS and what it does
    with VFS's answer about a live process are up to the environment too. -/

namespace OsForkExit

open OsLoop

variable {n : Nat}

/-- The slots of `mproc`: `NR_PROCS` is `n + 1`, and slot 0 is PM's own. -/
abbrev Slot (n : Nat) := Fin (n + 1)

inductive Signal where
  | sigchld
  | sigkill
  | sigstop
  | sighup

/-- What PM panics with.  The last group is the kernel, VM or VFS giving up. -/
inductive Panic where
  | noChildSlot
  | wrongChildSlot
  | schedulerAssert
  | alreadyZombie
  | badParent
  | notZombie
  | tellingAgain
  | badTracer
  | notTraceZombie
  | vfsNotIdle
  | signalToExiting
  | fuel
  | sysTimes
  | sysStop
  | vmWillexit
  | vfsDied
  | sysClear
  | vmExit

/-- A panic that is not PM's own doing. -/
def Panic.Outside : Panic → Prop
  | .sysTimes | .sysStop | .vmWillexit | .vfsDied | .sysClear | .vmExit => True
  | _ => False

/-- The requests PM makes of VFS; `other` is any request of PM's other files. -/
inductive VfsMsg where
  | pmFork (endpt pendpt cpid reuid regid : Int)
  | pmSrvFork (endpt pendpt cpid reuid regid : Int)
  | pmExit (endpt : Int)
  | pmDumpcore (endpt : Int) (termSig : BitVec 8) (path : String)
  | other

/-- The bits of `mp_flags`. -/
structure Flags where
  inUse : Bool := false
  waiting : Bool := false
  zombie : Bool := false
  procStopped : Bool := false
  alarmOn : Bool := false
  exiting : Bool := false
  toldParent : Bool := false
  traceStopped : Bool := false
  vfsCall : Bool := false
  newParent : Bool := false
  privProc : Bool := false
  traceExit : Bool := false
  traceZombie : Bool := false
  delayCall : Bool := false
  tainted : Bool := false
deriving DecidableEq

/-- A slot of the table.  `tracer` 0 is `NO_TRACER` and `scheduler` `none` is
    `NONE`; `mail` is the request VFS has not answered yet. -/
structure Mproc (n : Nat) where
  flags : Flags
  endpoint : Int
  pid : Int
  procgrp : Int
  wpid : Int
  parent : Slot n
  tracer : Slot n
  traceFork : Bool
  sigtrace : List Nat
  childUtime : Nat
  childStime : Nat
  exitStatus : BitVec 8
  sigStatus : BitVec 8
  realuid : Int
  effuid : Int
  realgid : Int
  effgid : Int
  interval : List Nat
  scheduler : Option Int
  name : String
  replyStatus : BitVec 32
  replyData : Int
  mail : Option VfsMsg

/-- The errors the calls answer; `vm` is VM's refusal to fork. -/
inductive Errno where
  | eagain
  | eperm
  | echild
  | vm (code : Int)

/-- What a call answers; `suspend` is no answer yet. -/
inductive Answer where
  | suspend
  | fails (e : Errno)
  | value (v : Int)

/-- The turns of a process's life that no message shows: it starts, ends with
    a status and a signal, is handed to INIT, is the one the reply just sent
    tells of, is let go by VFS, with or without a core file, and leaves its
    slot. -/
inductive Mark (n : Nat) where
  | born (pid : Int) (parent : Slot n)
  | died (status : BitVec 32) (sig : BitVec 8)
  | adopted
  | reported
  | settled (core : Bool)
  | freed

/-- What PM sends and prints, and the turns of the slots' processes. -/
inductive Event (n : Nat) where
  | reply (dest : Slot n) (result : Answer) (status : BitVec 32)
  | tellVfs (of : Slot n) (m : VfsMsg)
  | sysKill (dest : Slot n)
  | printCreated (pid : Int)
  | printExited (pid : Int)
  | life (c : Slot n) (m : Mark n)

/-- PM's globals; `mp` is the slot of the process being served. -/
structure Pm (n : Nat) where
  mproc : Slot n → Mproc n
  procsInUse : Int
  nextChild : Slot n
  nextSrvChild : Slot n
  mp : Slot n
  log : List (Event n)

/-- A handler that may panic. -/
abbrev Act (n : Nat) := Pm n → Except Panic (Pm n)

/-! ## Table updates -/

def Pm.set (s : Pm n) (c : Slot n) (p : Mproc n) : Pm n :=
  { s with mproc := Function.update s.mproc c p }

def Pm.modify (s : Pm n) (c : Slot n) (f : Mproc n → Mproc n) : Pm n := s.set c (f (s.mproc c))

def Pm.setFlags (s : Pm n) (c : Slot n) (f : Flags → Flags) : Pm n :=
  s.modify c fun p => { p with flags := f p.flags }

def Pm.emit (s : Pm n) (e : Event n) : Pm n := { s with log := s.log ++ [e] }

/-- VFS has the request `m` about `c`. -/
def Pm.told (s : Pm n) (c : Slot n) (m : VfsMsg) : Pm n :=
  (s.modify c fun p =>
    { p with flags := { p.flags with vfsCall := true }, mail := some m }).emit (.tellVfs c m)

/-- A live process: in use and not on its way out. -/
def Mproc.live (p : Mproc n) : Bool := p.flags.inUse && !p.flags.exiting

/-- Stop with a panic unless the call it reports on went well. -/
def require (e : Panic) (ok : Bool) : Act n := fun s => if ok then .ok s else .error e

/-! ## The rest of PM -/

/-- The answer VFS owes is to an exit, with a core dump or not. -/
def VfsMsg.ending : VfsMsg → Option Bool
  | .pmExit _ => some false
  | .pmDumpcore _ _ _ => some true
  | _ => none

def Mproc.ending (p : Mproc n) : Option Bool := p.mail.bind VfsMsg.ending

/-- How the parts of one record agree. -/
structure Wf (p : Mproc n) : Prop where
  zombie : p.flags.zombie = true →
    p.flags.exiting = true ∧ p.flags.toldParent = false ∧ p.flags.traceZombie = false
  told : p.flags.toldParent = true → p.flags.exiting = true ∧ p.flags.traceZombie = false
  traced : p.flags.traceZombie = true → p.flags.exiting = true ∧ p.tracer ≠ 0
  waiting : p.flags.exiting = true → p.flags.waiting = false
  stopped : p.flags.exiting = true → p.flags.traceStopped = false
  mail : p.flags.vfsCall = p.mail.isSome
  lastMail : p.flags.exiting = true → p.flags.vfsCall = true → p.ending ≠ none
  dumping : p.flags.exiting = true → p.ending = some true →
    p.flags.zombie = false ∧ p.flags.toldParent = false ∧ p.flags.traceZombie = false
  traceExit : p.flags.traceExit = true → p.tracer ≠ 0
  pid : 0 ≤ p.pid
  procgrp : 0 ≤ p.procgrp
  scheduler : p.flags.privProc = true → p.scheduler = none
  parent : p.parent ≠ 0

/-- What the rest of PM may do to a live process: its place in the life cycle
    stays, a wait may be broken off, and a request to VFS may start. -/
structure Adjusted (p q : Mproc n) : Prop where
  inUse : q.flags.inUse = p.flags.inUse
  exiting : q.flags.exiting = p.flags.exiting
  zombie : q.flags.zombie = p.flags.zombie
  toldParent : q.flags.toldParent = p.flags.toldParent
  traceZombie : q.flags.traceZombie = p.flags.traceZombie
  waiting : q.flags.waiting = true → p.flags.waiting = true
  endpoint : q.endpoint = p.endpoint
  pid : q.pid = p.pid
  wpid : q.wpid = p.wpid
  parent : q.parent = p.parent
  exitStatus : q.exitStatus = p.exitStatus
  sigStatus : q.sigStatus = p.sigStatus
  procgrp : 0 ≤ q.procgrp
  tracer : q.tracer = p.tracer ∨ q.tracer = 0
  traceExit : q.flags.traceExit = true → q.tracer ≠ 0
  scheduler : q.flags.privProc = true → q.scheduler = none
  vfs : (q.flags.vfsCall = p.flags.vfsCall ∧ q.mail = p.mail) ∨
    (p.flags.vfsCall = false ∧ q.flags.vfsCall = true ∧ q.mail = some .other)

/-- Such a change of the records the table may hold. -/
structure Adjust (n : Nat) where
  run : Mproc n → Mproc n
  adjusted : ∀ p, Wf p → p.live = true → Adjusted p (run p)

/-- `setsid` makes its caller the leader of a process group. -/
def setsid : Adjust n where
  run p := { p with procgrp := p.pid }
  adjusted _ hp _ :=
    { inUse := rfl, exiting := rfl, zombie := rfl, toldParent := rfl, traceZombie := rfl
      waiting := fun hw => hw, endpoint := rfl, pid := rfl, wpid := rfl, parent := rfl
      exitStatus := rfl, sigStatus := rfl, procgrp := hp.pid, tracer := .inl rfl
      traceExit := hp.traceExit, scheduler := hp.scheduler, vfs := .inl ⟨rfl, rfl⟩ }

/-- What becomes of a signalled process: some live processes' records change,
    or the process ends, with or without a core dump. -/
inductive Reaction (n : Nat) where
  | adjust (changes : List (Slot n × Adjust n))
  | terminate (signo : Fin 128) (core : Bool)

/-- How PM goes on when VFS has answered about a live process: it may end the
    process with a status, as for a child that cannot be scheduled, and wakes
    some processes, as the two that `fork` leaves without a reply. -/
structure Resume (n : Nat) where
  ends : Option (BitVec 32)
  wakes : List (Slot n × Answer)

/-- The kernel, VM, VFS and the files of PM that are not modelled.  The main
    loop discards the calls of processes on their way out, and no user process
    calls while VFS is busy with it; a service may, as `do_srv_fork` wakes it
    before VFS has answered.  Telling VFS about a process it is not busy with
    sends the request.  PM does not end itself. -/
structure Env (n : Nat) where
  initProcNr : Slot n
  init_ne_pm : initProcNr ≠ 0
  vfsProcNr : Int
  rsProcNr : Int
  schedProcNr : Int
  nsig : Nat
  vmFork : Pm n → Slot n → Except Int Int
  freePid : (Slot n → Mproc n) → Int
  freePid_fresh : ∀ t c, (t c).flags.inUse = true → (t c).pid ≠ freePid t
  freePid_nonneg : ∀ t, 0 ≤ freePid t
  sysTimes : Pm n → Int → Option (Nat × Nat)
  sysStop : Pm n → Int → Bool
  vmWillexit : Pm n → Int → Bool
  sysClear : Pm n → Int → Bool
  vmExit : Pm n → Int → Bool
  react : Pm n → Slot n → Signal → Reaction n
  group : Pm n → Int → List (Slot n)
  tellVfs : Slot n → VfsMsg → Act n
  tellVfs_idle : ∀ s c m, (s.mproc c).flags.vfsCall = false → tellVfs c m s = .ok (s.told c m)
  accepts : Pm n → Slot n → Bool
  accepts_live : ∀ s c, accepts s c = true → c ≠ 0 ∧ (s.mproc c).live = true
  accepts_idle : ∀ s c, accepts s c = true →
    (s.mproc c).flags.vfsCall = false ∨ (s.mproc c).flags.privProc = true
  resume : Pm n → Slot n → VfsMsg → Resume n
  resume_pm : ∀ s m, (resume s 0 m).ends = none

/-! ## Telling of a death -/

def reply (dest : Slot n) (result : Answer) (s : Pm n) : Pm n :=
  s.emit (.reply dest result (s.mproc dest).replyStatus)

/-- `W_EXITCODE` -/
def wExitcode (ret sig : BitVec 32) : BitVec 32 := (ret <<< 8) ||| sig

/-- `W_STOPCODE` -/
def wStopcode (sig : BitVec 32) : BitVec 32 := (sig <<< 8) ||| 0x7f

/-- `WEXITSTATUS` -/
def wExitstatus (w : BitVec 32) : BitVec 32 := (w.sshiftRight 8) &&& 0xff

/-- `WTERMSIG` -/
def wTermsig (w : BitVec 32) : BitVec 32 := w &&& 0x7f

/-- `WCOREDUMP` -/
def wCoredump (w : BitVec 32) : BitVec 32 := w &&& 0x80

def waitTest (rmp child : Mproc n) : Bool :=
  rmp.flags.waiting &&
    (rmp.wpid == -1 || rmp.wpid == child.pid || -rmp.wpid == child.procgrp)

def tellParent (child : Slot n) : Act n := fun s =>
  let c := s.mproc child
  if c.parent = 0 then .error .badParent
  else if !c.flags.zombie then .error .notZombie
  else if c.flags.toldParent then .error .tellingAgain
  else
    let status := wExitcode (c.exitStatus.signExtend 32) (c.sigStatus.signExtend 32)
    let s := s.modify c.parent fun p => { p with replyStatus := status }
    let s := reply c.parent (.value c.pid) s
    let s := s.setFlags c.parent fun f => { f with waiting := false }
    let s := s.setFlags child fun f => { f with zombie := false, toldParent := true }
    .ok (s.emit (.life child .reported))

def tellTracer (child : Slot n) : Act n := fun s =>
  let c := s.mproc child
  if c.tracer = 0 then .error .badTracer
  else if !c.flags.traceZombie then .error .notTraceZombie
  else
    let status := wExitcode (c.exitStatus.signExtend 32) (c.sigStatus.signExtend 32 &&& 0xff)
    let s := s.modify c.tracer fun p => { p with replyStatus := status }
    let s := reply c.tracer (.value c.pid) s
    let s := s.setFlags c.tracer fun f => { f with waiting := false }
    .ok (s.setFlags child fun f => { f with traceZombie := false, zombie := true })

def cleanup (rmp : Slot n) (s : Pm n) : Pm n :=
  let s := s.modify rmp fun p =>
    { p with pid := 0, flags := {}, childUtime := 0, childStime := 0 }
  { s with procsInUse := s.procsInUse - 1 }.emit (.life rmp .freed)

/-- The record of a process whose tracer has died. -/
def Mproc.untraced (p : Mproc n) : Mproc n :=
  { p with tracer := 0, flags := { p.flags with traceExit := false } }

section Handlers

variable (E : Env n) (sig : Slot n → Signal → Act n)

def checkParent (child : Slot n) (tryCleanup : Bool) : Act n := fun s =>
  let parent := (s.mproc child).parent
  if (s.mproc parent).flags.exiting then .ok s
  else if waitTest (s.mproc parent) (s.mproc child) then do
    let s ← tellParent child s
    .ok (if tryCleanup && !(s.mproc child).flags.vfsCall then cleanup child s else s)
  else sig parent .sigchld s

def zombify (rmp : Slot n) : Act n := fun s =>
  let p := s.mproc rmp
  if p.flags.traceZombie || p.flags.zombie then .error .alreadyZombie
  else if p.tracer ≠ 0 ∧ p.tracer ≠ p.parent then
    let s := s.setFlags rmp fun f => { f with traceZombie := true }
    if !waitTest (s.mproc p.tracer) (s.mproc rmp) then .ok s
    else do
      let s ← tellTracer rmp s
      checkParent sig rmp false s
  else
    let s := s.setFlags rmp fun f => { f with zombie := true }
    checkParent sig rmp false s

def tracerDied (child : Slot n) : Act n := fun s =>
  let s := s.modify child Mproc.untraced
  if !(s.mproc child).flags.exiting then sig child .sigkill s
  else if (s.mproc child).flags.traceZombie then
    let s := s.setFlags child fun f => { f with traceZombie := false, zombie := true }
    checkParent sig child true s
  else .ok s

/-! ## Exit -/

/-- The exiting process's times and those of its children go to its parent. -/
def accountTimes (rmp : Slot n) : Act n := fun s =>
  let p := s.mproc rmp
  match E.sysTimes s p.endpoint with
  | none => .error .sysTimes
  | some t => .ok (s.modify p.parent fun q =>
      { q with childUtime := q.childUtime + (t.1 + p.childUtime)
               childStime := q.childStime + (t.2 + p.childStime) })

def stop (rmp : Slot n) : Act n := fun s =>
  if (s.mproc rmp).flags.procStopped then .ok s
  else do
    let s ← require .sysStop (E.sysStop s (s.mproc rmp).endpoint) s
    .ok (s.setFlags rmp fun f => { f with procStopped := true })

/-- The flags a process keeps on its way out. -/
def Flags.leave (f : Flags) : Flags :=
  { inUse := f.inUse, vfsCall := f.vfsCall, privProc := f.privProc, traceExit := f.traceExit
    procStopped := f.procStopped, exiting := true }

/-- Mark the process as exiting and keep its status for the parent. -/
def markExiting (rmp : Slot n) (exitStatus : BitVec 32) (s : Pm n) : Pm n :=
  let s := s.modify rmp fun p =>
    { p with flags := p.flags.leave, exitStatus := exitStatus.setWidth 8 }
  s.emit (.life rmp (.died exitStatus (s.mproc rmp).sigStatus))

/-- The record of a child handed to INIT; a VFS call under way is marked. -/
def Mproc.adopted (p : Mproc n) : Mproc n :=
  { p with parent := E.initProcNr
           flags := { p.flags with newParent := p.flags.newParent || p.flags.vfsCall } }

/-- Make INIT the parent of `c`, and tell it of a zombie. -/
def adopt (c : Slot n) : Act n := fun s =>
  let s := (s.modify c (Mproc.adopted E)).emit (.life c .adopted)
  if (s.mproc c).flags.zombie then checkParent sig c true s else .ok s

/-- One slot of the loop that disinherits the children of `procNr`. -/
def disinherit (procNr : Slot n) (s : Pm n) (c : Slot n) : Except Panic (Pm n) :=
  if !(s.mproc c).flags.inUse then .ok s
  else do
    let s ← (if (s.mproc c).tracer = procNr then tracerDied sig c s else .ok s)
    if (s.mproc c).parent = procNr then adopt E sig c s else .ok s

/-- `check_sig(-procgrp, SIGHUP)`: the signal goes to live processes only. -/
def checkSig (procgrp : Int) : Act n := fun s =>
  runAll (fun s c => if c ≠ 0 ∧ (s.mproc c).live = true then sig c .sighup s else .ok s) s
    (E.group s procgrp)

def exitProc (rmp : Slot n) (exitStatus : BitVec 32) (dumpCore : Bool) : Act n := fun s => do
  let p := s.mproc rmp
  let dumpCore := dumpCore && p.realuid == p.effuid && !p.flags.privProc
  let procgrp := if p.pid = (s.mproc s.mp).procgrp then (s.mproc s.mp).procgrp else 0
  let s := if p.flags.alarmOn then s.setFlags rmp fun f => { f with alarmOn := false } else s
  let s ← accountTimes E rmp s
  let s ← stop E rmp s
  let s ← require .vmWillexit (E.vmWillexit s p.endpoint) s
  if p.endpoint = E.initProcNr.val then .ok s
  else if p.endpoint = E.vfsProcNr then .error .vfsDied
  else do
    let s ← E.tellVfs rmp
      (if dumpCore then .pmDumpcore p.endpoint p.sigStatus p.name else .pmExit p.endpoint) s
    let s ← require .sysClear (!p.flags.privProc || E.sysClear s p.endpoint) s
    let s := markExiting rmp exitStatus s
    let s ← (if dumpCore then .ok s else zombify sig rmp s)
    let s ← runAll (disinherit E sig rmp) s (List.finRange (n + 1))
    if procgrp ≠ 0 then checkSig E sig procgrp s else .ok s

def exitRestart (rmp : Slot n) (dumpCore : Bool) : Act n := fun s => do
  let s := s.modify rmp fun p => { p with scheduler := none }
  let s ← (if dumpCore then zombify sig rmp s else .ok s)
  let s ← require .sysClear
    ((s.mproc rmp).flags.privProc || E.sysClear s (s.mproc rmp).endpoint) s
  let s ← require .vmExit (E.vmExit s (s.mproc rmp).endpoint) s
  let s := if (s.mproc rmp).flags.traceExit then
      reply (s.mproc rmp).tracer (.value 0)
        (s.modify (s.mproc rmp).tracer fun p => { p with replyData := 0 })
    else s
  .ok (if (s.mproc rmp).flags.toldParent then cleanup rmp s else s)

end Handlers

/-! ## Signals -/

/-- Apply a change to a process that is still live. -/
def adjustSlot (s : Pm n) (x : Slot n × Adjust n) : Pm n :=
  if (s.mproc x.1).live then s.modify x.1 x.2.run else s

/-- `sig_proc` with at most `k` exits inside one another.  It panics on a
    process that is on its way out; one that VFS is busy with is not ended. -/
def sigProc (E : Env n) : Nat → Slot n → Signal → Act n
  | 0, _, _, _ => .error .fuel
  | k + 1, c, g, s =>
      if !(s.mproc c).live then .error .signalToExiting
      else
        match E.react s c g with
        | .adjust changes => .ok (changes.foldl adjustSlot s)
        | .terminate signo core =>
            if (s.mproc c).flags.vfsCall then .ok s
            else exitProc E (sigProc E k) c 0 core
              (s.modify c fun p => { p with sigStatus := BitVec.ofNat 8 signo.val })

/-! ## The calls -/

def lastFew : Int := 2

/-- One turn of the search for a free slot. -/
def probe (s : Pm n) (x : Slot n × Nat) : Except Panic (Turn (Slot n × Nat) (Slot n × Nat)) :=
  let next := x.1 + 1
  let tried := x.2 + 1
  if (s.mproc next).flags.inUse = true ∧ tried ≤ n + 1 then .ok (.again (next, tried))
  else .ok (.done (next, tried))

/-- The search for a slot for the child, from the one after `start`. -/
def childSlot (start : Slot n) (s : Pm n) : Except Panic (Slot n) := do
  let x ← loop .fuel (probe s) (n + 2) (start, 0)
  if x.2 > n + 1 then .error .noChildSlot
  else if (s.mproc x.1).flags.inUse then .error .wrongChildSlot
  else .ok x.1

/-- The table has no room for another process of this user. -/
def tableFull (rmp : Mproc n) (s : Pm n) : Prop :=
  s.procsInUse = n + 1 ∨ s.procsInUse ≥ n + 1 - lastFew ∧ rmp.effuid ≠ 0

instance (rmp : Mproc n) (s : Pm n) : Decidable (tableFull rmp s) :=
  inferInstanceAs (Decidable (_ ∨ _))

/-- A copy of the parent's record with no tracer but for `TO_TRACEFORK`. -/
def copyProc (parent : Slot n) (rmp : Mproc n) : Mproc n :=
  let rmc := { rmp with parent := parent }
  if rmc.traceFork then rmc else { rmc with tracer := 0, traceFork := false, sigtrace := [] }

/-- The child's own administration; no request to VFS is about it yet. -/
def resetProc (endpoint : Int) (rmc : Mproc n) : Mproc n :=
  { rmc with
    childUtime := 0, childStime := 0, exitStatus := 0, sigStatus := 0, endpoint := endpoint
    interval := rmc.interval.map fun _ => 0, mail := none }

/-- The record `do_fork` makes for the child. -/
def forkProc (E : Env n) (parent : Slot n) (endpoint : Int) (rmp : Mproc n) : Mproc n :=
  let rmc := copyProc parent rmp
  let rmc := if rmc.flags.privProc then { rmc with scheduler := some E.schedProcNr } else rmc
  let f := rmc.flags
  resetProc endpoint
    { rmc with flags := { inUse := f.inUse, delayCall := f.delayCall, tainted := f.tainted } }

/-- The record `do_srv_fork` makes for the child. -/
def srvForkProc (parent : Slot n) (endpoint uid gid : Int) (rmp : Mproc n) : Mproc n :=
  let rmc := copyProc parent rmp
  let f := rmc.flags
  { resetProc endpoint
    { rmc with flags := { inUse := f.inUse, privProc := f.privProc, delayCall := f.delayCall } }
    with realuid := uid, effuid := uid, realgid := gid, effgid := gid }

/-- Put the child's record in the table, with a pid no process has. -/
def install (E : Env n) (child : Slot n) (rmc : Mproc n) (s : Pm n) : Pm n :=
  let s := { s with procsInUse := s.procsInUse + 1 }.set child rmc
  let pid := E.freePid s.mproc
  (s.modify child fun p => { p with pid := pid }).emit (.life child (.born pid rmc.parent))

def doFork (E : Env n) (sig : Slot n → Signal → Act n) (s : Pm n) :
    Except Panic (Answer × Pm n) := do
  let rmp := s.mproc s.mp
  if tableFull rmp s then .ok (.fails .eagain, s)
  else do
    let child ← childSlot s.nextChild s
    let s := { s with nextChild := child }
    match E.vmFork s child with
    | .error e => .ok (.fails (.vm e), s)
    | .ok endpoint =>
        if rmp.flags.privProc = true ∧ rmp.scheduler ≠ none then .error .schedulerAssert
        else do
          let s := install E child (forkProc E s.mp endpoint rmp) s
          let s := s.emit (.printCreated (s.mproc child).pid)
          let s ← E.tellVfs child (.pmFork endpoint rmp.endpoint (s.mproc child).pid (-1) (-1)) s
          let s ← (if (s.mproc child).tracer ≠ 0 then sig child .sigstop s else .ok s)
          .ok (.suspend, s)

def doSrvFork (E : Env n) (sig : Slot n → Signal → Act n) (uid gid : Int) (s : Pm n) :
    Except Panic (Answer × Pm n) := do
  let rmp := s.mproc s.mp
  if rmp.endpoint ≠ E.rsProcNr then .ok (.fails .eperm, s)
  else if tableFull rmp s then .ok (.fails .eagain, s)
  else do
    let child ← childSlot s.nextSrvChild s
    let s := { s with nextSrvChild := child }
    match E.vmFork s child with
    | .error e => .ok (.fails (.vm e), s)
    | .ok endpoint => do
        let s := install E child (srvForkProc s.mp endpoint uid gid rmp) s
        let s ← E.tellVfs child (.pmSrvFork endpoint rmp.endpoint (s.mproc child).pid uid gid) s
        let s ← (if (s.mproc child).tracer ≠ 0 then sig child .sigstop s else .ok s)
        let s := reply child (.value 0) s
        .ok (.value (s.mproc child).pid, s)

def doExit (E : Env n) (sig : Slot n → Signal → Act n) (status : BitVec 32) (s : Pm n) :
    Except Panic (Answer × Pm n) :=
  if (s.mproc s.mp).flags.privProc then .ok (.suspend, s.emit (.sysKill s.mp))
  else do
    let s ← exitProc E sig s.mp status false s
    .ok (.suspend, s.emit (.printExited (s.mproc s.mp).pid))

/-- A child `pidarg` asks for. -/
def qualifies (who : Slot n) (pidarg : Int) (rp : Mproc n) : Bool :=
  rp.flags.inUse && !rp.flags.toldParent &&
    (rp.parent == who || rp.tracer == who) && (rp.parent == who || !rp.flags.zombie) &&
    !(decide (pidarg > 0) && pidarg != rp.pid) &&
    !(decide (pidarg < -1) && -pidarg != rp.procgrp)

/-- The lowest signal a stopped child has for its tracer, below `_NSIG`. -/
def pendingStop (nsig : Nat) (rp : Mproc n) : Option Nat :=
  (List.range' 1 (nsig - 1)).find? fun i => rp.sigtrace.contains i

/-- The loop of `do_waitpid` over the slots; `children` counts the acceptable
    ones seen.  The answer is missing when no child had news. -/
def waitScan (E : Env n) (sig : Slot n → Signal → Act n) (who : Slot n) (pidarg : Int) :
    List (Slot n) → Nat → Pm n → Except Panic (Except Nat Answer × Pm n)
  | [], children, s => .ok (.error children, s)
  | c :: rest, children, s =>
      let rp := s.mproc c
      if !qualifies who pidarg rp then waitScan E sig who pidarg rest children s
      else if rp.tracer = who ∧ rp.flags.traceZombie = true then do
        let s ← tellTracer c s
        let s ← checkParent sig c true s
        .ok (.ok .suspend, s)
      else
        match (if rp.tracer = who ∧ rp.flags.traceStopped = true then pendingStop E.nsig rp
          else none) with
        | some i =>
            let s := s.modify c fun p => { p with sigtrace := p.sigtrace.filter (· != i) }
            let s := s.modify who fun p => { p with replyStatus := wStopcode (BitVec.ofNat 32 i) }
            .ok (.ok (.value rp.pid), s)
        | none =>
            if rp.parent = who ∧ rp.flags.zombie = true then do
              let s ← tellParent c s
              .ok (.ok .suspend, if !(s.mproc c).flags.vfsCall then cleanup c s else s)
            else waitScan E sig who pidarg rest (children + 1) s

/-- The record of a process that begins to wait. -/
def Mproc.awaits (pidarg : Int) (p : Mproc n) : Mproc n :=
  { p with flags := { p.flags with waiting := true }, wpid := pidarg }

def doWaitpid (E : Env n) (sig : Slot n → Signal → Act n) (pid : Int) (wnohang : Bool) (s : Pm n) :
    Except Panic (Answer × Pm n) := do
  let pidarg := if pid = 0 then -(s.mproc s.mp).procgrp else pid
  let (found, s) ← waitScan E sig s.mp pidarg (List.finRange (n + 1)) 0 s
  match found with
  | .ok answer => .ok (answer, s)
  | .error children =>
      if children = 0 then .ok (.fails .echild, s)
      else if wnohang then .ok (.value 0, s)
      else .ok (.suspend, s.modify s.mp (Mproc.awaits pidarg))

/-! ## PM at work -/

inductive Request where
  | fork
  | srvFork (uid gid : Int)
  | exit (status : BitVec 32)
  | waitpid (pid : Int) (wnohang : Bool)

/-- What may happen next: a call, a signal from elsewhere while `mp` is being
    served, an answer of VFS, which says whether a core file was written, and
    what PM's other calls do to a process. -/
inductive Step (n : Nat) where
  | call (who : Slot n) (r : Request)
  | signal (mp c : Slot n) (g : Signal)
  | vfsReply (mp c : Slot n) (core : Bool)
  | adjust (c : Slot n) (a : Adjust n)
  | attach (c tracer : Slot n)

def serve (E : Env n) (sig : Slot n → Signal → Act n) (r : Request) (s : Pm n) :
    Except Panic (Answer × Pm n) :=
  match r with
  | .fork => doFork E sig s
  | .srvFork uid gid => doSrvFork E sig uid gid s
  | .exit status => doExit E sig status s
  | .waitpid pid wnohang => doWaitpid E sig pid wnohang s

/-- The record of a process VFS is done with; that it has written a core file
    shows in the status as `WCOREFLAG`. -/
def Mproc.settled (core : Bool) (p : Mproc n) : Mproc n :=
  { p with
    flags := { p.flags with vfsCall := false, newParent := false }
    sigStatus := if core then p.sigStatus ||| 0x80 else p.sigStatus
    mail := none }

/-- PM goes on after an answer about a live process. -/
def goOn (E : Env n) (sig : Slot n → Signal → Act n) (c : Slot n) (r : Resume n) : Act n :=
  fun s => do
    let s ← (match r.ends with
      | some status => exitProc E sig c status false s
      | none => .ok s)
    .ok (r.wakes.foldl (fun s x => reply x.1 x.2 s) s)

/-- VFS has answered for `c`: an exit goes into its second half. -/
def vfsReply (E : Env n) (sig : Slot n → Signal → Act n) (c : Slot n) (core : Bool) : Act n :=
  fun s =>
    let idle := s.modify c (Mproc.settled false)
    match (s.mproc c).mail with
    | some (.pmExit _) => exitRestart E sig c false (idle.emit (.life c (.settled false)))
    | some (.pmDumpcore _ _ _) =>
        exitRestart E sig c true
          ((s.modify c (Mproc.settled core)).emit (.life c (.settled core)))
    | some m => goOn E sig c (E.resume s c m) idle
    | none => .ok idle

/-- One turn of PM's main loop. -/
def step (E : Env n) (s : Pm n) : Step n → Except Panic (Pm n)
  | .call who r =>
      if E.accepts s who then do
        let (answer, s) ← serve E (sigProc E (n + 1)) r { s with mp := who }
        match answer with
        | .suspend => .ok s
        | result => .ok (reply who result s)
      else .ok s
  | .signal mp c g =>
      if c ≠ 0 ∧ (s.mproc c).live = true then sigProc E (n + 1) c g { s with mp := mp } else .ok s
  | .vfsReply mp c core =>
      if (s.mproc c).flags.vfsCall then vfsReply E (sigProc E (n + 1)) c core { s with mp := mp }
      else .ok s
  | .adjust c a => .ok (adjustSlot s (c, a))
  | .attach c tracer =>
      if c ≠ 0 ∧ tracer ≠ 0 ∧ c ≠ tracer ∧ (s.mproc c).live = true ∧
          (s.mproc tracer).live = true then
        .ok (s.modify c fun p => { p with tracer := tracer })
      else .ok s

end OsForkExit
