import OsLab.SchedModelProofs

/-! # Priorities stay in range

    Scheduling a process changes no slot but for its cpu, and offers the
    kernel the priority of the slot (`Offers`).  Every entry point writes
    only priorities that are queues, with one exception: `do_noquantum`
    takes 1 from a priority that may be 0.

    So the priorities of the taken slots, and those offered to the kernel,
    are queues throughout a run if and only if no process runs out of
    quantum at priority 0 (`priorities_exact`). -/

namespace SchedRange

open OsLoop SchedModel

variable {procs : Nat} {E : Env procs} {st st' st'' : State procs} {i : Fin procs}

/-- The call asks for a queue, not for -1. -/
def Queue (E : Env procs) (c : ScheduleCall) : Prop :=
  0 ≤ c.newPrio.toInt ∧ c.newPrio.toInt < E.nrSchedQueues.toNat

/-- The taken slots have priorities in range, and so had the calls. -/
structure InRange (E : Env procs) (st : State procs) : Prop where
  slots : ∀ i, (st.schedproc i).InUse → (st.schedproc i).priority < E.nrSchedQueues
  calls : ∀ c ∈ st.calls, Queue E c

/-- The priority of a queue is the same as an `int`. -/
theorem toInt32_queue (hE : E.Documented) {p : UInt32} (h : p < E.nrSchedQueues) :
    0 ≤ p.toInt32.toInt ∧ p.toInt32.toInt < E.nrSchedQueues.toNat := by
  have hlt : p.toNat < E.nrSchedQueues.toNat := UInt32.lt_iff_toNat_lt.mp h
  have hsmall := hE.small
  have hint : p.toInt32.toInt = p.toNat :=
    BitVec.toInt_eq_toNat_of_lt (x := p.toBitVec) (by simp only [UInt32.toNat_toBitVec]; omega)
  omega

/-- A step up from a queue below 0 is a queue; from queue 0 it is none. -/
theorem pred_queue (hE : E.Documented) {p : UInt32} (h : p < E.nrSchedQueues) :
    p - 1 < E.nrSchedQueues ↔ p ≠ 0 := by
  have hsmall := hE.small
  rw [UInt32.lt_iff_toNat_lt] at h ⊢
  constructor
  · rintro hpred rfl
    -- 0 - 1 wraps around to the largest number
    have hmax : ((0 : UInt32) - 1).toNat = 2 ^ 32 - 1 := by decide
    omega
  · intro h0
    have hpos : 0 < p.toNat := Nat.pos_of_ne_zero (fun hz => h0 (UInt32.toNat_inj.mp hz))
    have hle : (1 : UInt32) ≤ p := UInt32.le_iff_toNat_le.mpr hpos
    rw [UInt32.toNat_sub_of_le _ _ hle]
    exact Nat.lt_of_le_of_lt (Nat.sub_le _ _) h

theorem minUserQ_pos (hE : E.Documented) : 0 < E.minUserQ := by
  have hle : (1 : UInt32) ≤ E.nrSchedQueues := UInt32.le_trans (by decide) hE.many
  have hmany : 2 ≤ E.nrSchedQueues.toNat := UInt32.le_iff_toNat_le.mp hE.many
  rw [UInt32.lt_iff_toNat_lt, Env.minUserQ, UInt32.toNat_sub_of_le _ _ hle]
  show 0 < E.nrSchedQueues.toNat - 1
  omega

/-! ## Scheduling -/

/-- The slots are taken as before, with the same priorities. -/
structure SameQueues (st st' : State procs) : Prop where
  flags : ∀ j, (st'.schedproc j).flags = (st.schedproc j).flags
  priority : ∀ j, (st'.schedproc j).priority = (st.schedproc j).priority
  maxPriority : ∀ j, (st'.schedproc j).maxPriority = (st.schedproc j).maxPriority

@[simp] theorem setSlot_self (st : State procs) (i : Fin procs) (p : Schedproc) :
    (st.setSlot i p).schedproc i = p := by
  simp only [State.setSlot, Function.update_self]

theorem setSlot_of_ne (st : State procs) {i j : Fin procs} (p : Schedproc) (h : j ≠ i) :
    (st.setSlot i p).schedproc j = st.schedproc j := by
  simp only [State.setSlot, Function.update_of_ne h]

theorem setSlot_cpu (st : State procs) (i : Fin procs) (c : UInt32) :
    SameQueues st (st.setSlot i { st.schedproc i with cpu := c }) := by
  have hslot : ∀ j, (st.setSlot i { st.schedproc i with cpu := c }).schedproc j =
      { st.schedproc j with cpu := if j = i then c else (st.schedproc j).cpu } := by
    intro j
    by_cases hj : j = i
    · rw [hj, setSlot_self, if_pos rfl]
    · rw [setSlot_of_ne st _ hj, if_neg hj]
  exact ⟨fun j => by rw [hslot], fun j => by rw [hslot], fun j => by rw [hslot]⟩

theorem pickCpu_same (E : Env procs) (i : Fin procs) (st : State procs) :
    SameQueues st (pickCpu E i st) := by
  rw [pickCpu]
  split
  · exact setSlot_cpu st i 0
  · split
    · exact setSlot_cpu st i _
    · obtain ⟨hflags, hprio, hmax⟩ := setSlot_cpu st i (leastLoaded _ st.cpuProc)
      exact ⟨hflags, hprio, hmax⟩

/-- Picking a processor does not talk to the kernel. -/
theorem pickCpu_quiet (E : Env procs) (i : Fin procs) (st : State procs) :
    (pickCpu E i st).calls = st.calls ∧ (pickCpu E i st).answers = st.answers := by
  rw [pickCpu]
  split
  · exact ⟨rfl, rfl⟩
  · split
    · exact ⟨rfl, rfl⟩
    · exact ⟨rfl, rfl⟩

/-- Between the states, the kernel is offered the priority of slot `i`. -/
structure Offers (i : Fin procs) (st st' : State procs) : Prop where
  same : SameQueues st st'
  calls : ∀ c ∈ st'.calls, c ∈ st.calls ∨ c.newPrio = (st.schedproc i).priority.toInt32

theorem Offers.trans (h : Offers i st st') (h' : Offers i st' st'') : Offers i st st'' where
  same :=
    { flags := fun j => (h'.same.flags j).trans (h.same.flags j)
      priority := fun j => (h'.same.priority j).trans (h.same.priority j)
      maxPriority := fun j => (h'.same.maxPriority j).trans (h.same.maxPriority j) }
  calls c hc := by
    rcases h'.calls c hc with hold | hnew
    · exact h.calls c hold
    · exact Or.inr (by rw [hnew, h.same.priority i])

theorem pickCpu_offers (E : Env procs) (i : Fin procs) (st : State procs) :
    Offers i st (pickCpu E i st) where
  same := pickCpu_same E i st
  calls c hc := Or.inl (by rwa [(pickCpu_quiet E i st).1] at hc)

theorem scheduleProcess_offers (E : Env procs) {flags : UInt32}
    (hflags : flags &&& scheduleChangePrio ≠ 0) (i : Fin procs) (st : State procs) :
    Offers i st (scheduleProcess E i flags st).2 := by
  obtain ⟨hsflags, hsprio, hsmax⟩ := pickCpu_same E i st
  refine ⟨⟨hsflags, hsprio, hsmax⟩, fun c hc => ?_⟩
  rcases List.mem_append.mp hc with hold | hnew
  · rw [(pickCpu_quiet E i st).1] at hold
    exact Or.inl hold
  · rw [List.mem_singleton.mp hnew]
    refine Or.inr ?_
    show (if flags &&& scheduleChangePrio ≠ 0 then _ else _) = _
    rw [if_pos hflags, hsprio i]

theorem scheduleProcessLocal_offers (E : Env procs) (i : Fin procs) (st : State procs) :
    Offers i st (scheduleProcessLocal E i st).2 :=
  scheduleProcess_offers E (by decide) i st

theorem scheduleUntilCpu_offers (E : Env procs) (i : Fin procs) :
    ∀ (n : Nat) (st : State procs), Offers i st (scheduleUntilCpu E i n st).2 := by
  intro n
  induction n with
  -- every try offers the same priority, whatever processor it picks
  | zero => exact scheduleProcess_offers E (by decide) i
  | succ n ih =>
      intro st
      have htry : Offers i st (scheduleProcess E i scheduleChangeAll st).2 :=
        scheduleProcess_offers E (by decide) i st
      rw [scheduleUntilCpu]
      split
      · have hdead : ∀ (s : State procs) f, Offers i s { s with cpuProc := f } :=
          fun s f => ⟨⟨fun _ => rfl, fun _ => rfl, fun _ => rfl⟩, fun _ hc => Or.inl hc⟩
        exact ((htry.trans (hdead _ _)).trans (pickCpu_offers E i _)).trans (ih _)
      · exact htry

/-- With a turn for each answer the loop ends: what it gets last is not
    `EBADCPU`. -/
theorem scheduleUntilCpu_ends (E : Env procs) (i : Fin procs) :
    ∀ (n : Nat) (st : State procs), st.answers.length ≤ n →
      (scheduleUntilCpu E i n st).1 ≠ some .ebadcpu := by
  have hanswer : ∀ st : State procs,
      (scheduleProcess E i scheduleChangeAll st).1 = st.answers.headD none ∧
        (scheduleProcess E i scheduleChangeAll st).2.answers = st.answers.tail := by
    intro st
    have hpick := (pickCpu_quiet E i st).2
    exact ⟨congrArg (List.headD · none) hpick, congrArg List.tail hpick⟩
  intro n
  induction n with
  | zero =>
      intro st hlen
      rw [scheduleUntilCpu, (hanswer st).1, List.eq_nil_of_length_eq_zero (Nat.le_zero.mp hlen)]
      exact nofun
  | succ n ih =>
      intro st hlen
      rw [scheduleUntilCpu]
      dsimp only
      split
      · refine ih _ ?_
        rw [(pickCpu_quiet E i _).2, (hanswer st).2, List.length_tail]
        omega
      · next hgood => exact hgood

/-- What an offer of a queue keeps. -/
theorem Offers.inRange (hE : E.Documented) (h : Offers i st st') (hst : InRange E st)
    (hi : (st.schedproc i).priority < E.nrSchedQueues) : InRange E st' where
  slots j hj := by
    rw [h.same.priority j]
    refine hst.slots j ?_
    rw [Schedproc.InUse, ← h.same.flags j]
    exact hj
  calls c hc := by
    rcases h.calls c hc with hold | hnew
    · exact hst.calls c hold
    · rw [Queue, hnew]
      exact toInt32_queue hE hi

/-- Filling a slot keeps the range when the new priority is a queue, or the
    slot is not taken. -/
theorem setSlot_inRange {p : Schedproc} (hst : InRange E st)
    (hp : p.InUse → p.priority < E.nrSchedQueues) : InRange E (st.setSlot i p) where
  slots j hj := by
    by_cases h : j = i
    · subst h
      rw [setSlot_self] at hj ⊢
      exact hp hj
    · rw [setSlot_of_ne st p h] at hj ⊢
      exact hst.slots j hj
  calls := hst.calls

/-! ## The entry points -/

/-- The event takes 1 from a priority of 0. -/
def Underflows (E : Env procs) (st : State procs) : Event → Prop
  | .noquantum mSource => ∃ i, E.schedIsokendpt st.schedproc mSource = .ok i ∧
      (st.schedproc i).priority = 0
  | _ => False

/-- Scheduling a taken slot keeps the range exactly when its priority is a
    queue. -/
theorem scheduleLocal_inRange (hE : E.Documented) {p : Schedproc} (hst : InRange E st)
    (hp : p.InUse) : InRange E (scheduleProcessLocal E i (st.setSlot i p)).2 ↔
      p.priority < E.nrSchedQueues := by
  have hoff := scheduleProcessLocal_offers E i (st.setSlot i p)
  have hflags := hoff.same.flags i
  have hprio := hoff.same.priority i
  rw [setSlot_self] at hflags hprio
  constructor
  · intro h
    rw [← hprio]
    refine h.slots i ?_
    rw [Schedproc.InUse, hflags]
    exact hp
  · intro hlt
    refine hoff.inRange hE (setSlot_inRange hst (fun _ => hlt)) ?_
    rw [setSlot_self]
    exact hlt

/-- Running out of quantum keeps the range exactly when the priority is
    above 0. -/
theorem doNoquantum_inRange (hE : E.Documented) (hst : InRange E st) (mSource : Int32) :
    InRange E (doNoquantum E mSource st).2 ↔ ¬ Underflows E st (.noquantum mSource) := by
  rw [doNoquantum]
  split
  · next e herr =>
    refine ⟨?_, fun _ => hst⟩
    rintro - ⟨i, hi, -⟩
    rw [herr] at hi
    exact nomatch hi
  · next i hok =>
    have huse : (st.schedproc i).InUse := hE.taken _ _ _ hok
    have hi := hst.slots i huse
    have hunder : Underflows E st (.noquantum mSource) ↔ (st.schedproc i).priority = 0 := by
      constructor
      · rintro ⟨j, hj, h0⟩
        rw [hok] at hj
        cases hj
        exact h0
      · exact fun h0 => ⟨i, hok, h0⟩
    rw [hunder]
    dsimp only
    split
    · next hmin =>
      have hlocal := scheduleLocal_inRange (i := i) hE
        (p := { st.schedproc i with priority := (st.schedproc i).priority - 1 }) hst huse
      exact hlocal.trans (pred_queue hE hi)
    · next hmin =>
      refine ⟨fun _ h0 => hmin ?_, fun _ => ?_⟩
      · rw [h0]
        exact minUserQ_pos hE
      · exact (scheduleProcessLocal_offers E i st).inRange hE hst hi

theorem doStopScheduling_inRange (hst : InRange E st) (m : StopMessage) :
    InRange E (doStopScheduling E m st).2 := by
  rw [doStopScheduling]
  split
  · exact hst
  · split
    · exact hst
    · next i hok =>
      have hfree : ¬ ({ st.schedproc i with flags := 0 } : Schedproc).InUse := by
        simp only [Schedproc.InUse]
        decide
      refine setSlot_inRange ?_ (fun h => absurd h hfree)
      split
      · exact hst
      · exact ⟨hst.slots, hst.calls⟩

/-- The end of the start keeps the range when the slot has a queue. -/
theorem takeOver_inRange (hE : E.Documented) (hst : InRange E st)
    (hi : (st.schedproc i).priority < E.nrSchedQueues) : InRange E (takeOver E i st).2 := by
  have hkernel : InRange E (kernelAnswer st).2 := ⟨hst.slots, hst.calls⟩
  rw [takeOver]
  dsimp only
  split
  · exact hkernel
  · have htaken := setSlot_inRange (i := i)
      (p := { (kernelAnswer st).2.schedproc i with flags := inUse }) hkernel (fun _ => hi)
    refine Offers.inRange hE (i := i) ?_ htaken ?_
    · exact (pickCpu_offers E i _).trans (scheduleUntilCpu_offers E i _ _)
    · rw [setSlot_self]
      exact hi

theorem populateInit_priority (hE : E.Documented) {p : Schedproc}
    (hp : p.InUse → p.priority < E.nrSchedQueues) :
    (populateInit E p).InUse → (populateInit E p).priority < E.nrSchedQueues := by
  rw [populateInit]
  split
  · exact fun _ => hE.user
  · exact hp

theorem populateInit_maxPriority (E : Env procs) (p : Schedproc) :
    (populateInit E p).maxPriority = p.maxPriority := by
  rw [populateInit]
  split
  · rfl
  · rfl

theorem doStartScheduling_inRange (hE : E.Documented) (hst : InRange E st) (m : StartMessage) :
    InRange E (doStartScheduling E m st).2 := by
  rw [doStartScheduling]
  split
  · exact hst
  · split
    · exact hst
    · next i hok =>
      dsimp only
      split
      -- the slot has its new `maxPriority` by now, but not a new priority
      · exact setSlot_inRange hst (hst.slots i)
      · next hmax =>
        have hqueue : ∀ p : Schedproc, p.maxPriority = m.maxprio.toUInt32 →
            (populateInit E p).maxPriority < E.nrSchedQueues := by
          intro p hp
          rw [populateInit_maxPriority, hp]
          exact UInt32.not_le.mp hmax
        have hfilled : InRange E (st.setSlot i (populateInit E
            { st.schedproc i with
              endpoint := m.endpoint
              parent := m.parent
              maxPriority := m.maxprio.toUInt32 })) :=
          setSlot_inRange hst (populateInit_priority hE (hst.slots i))
        split
        · refine takeOver_inRange hE (setSlot_inRange hst fun _ => ?_) ?_
          · exact hqueue _ rfl
          · rw [setSlot_self]
            exact hqueue _ rfl
        · split
          · exact hfilled
          · next parent hparent =>
            have hprio := hfilled.slots parent (hE.taken _ _ _ hparent)
            refine takeOver_inRange hE (setSlot_inRange hfilled fun _ => hprio) ?_
            rw [setSlot_self]
            exact hprio

theorem doNice_inRange (hE : E.Documented) (hst : InRange E st) (m : NiceMessage) :
    InRange E (doNice E m st).2 := by
  rw [doNice]
  split
  · exact hst
  · split
    · exact hst
    · next i hok =>
      have huse : (st.schedproc i).InUse := hE.taken _ _ _ hok
      dsimp only
      split
      · exact hst
      · next hmax =>
        have htried := (scheduleLocal_inRange (i := i) hE hst (p := { st.schedproc i with
          priority := m.maxprio, maxPriority := m.maxprio }) huse).mpr (UInt32.not_le.mp hmax)
        split
        -- the kernel refused, and the old values are put back
        · exact setSlot_inRange htried (fun _ => hst.slots i huse)
        · exact htried

theorem balanceQueues_inRange (hE : E.Documented) (hst : InRange E st) :
    InRange E (balanceQueues E st) := by
  rw [balanceQueues]
  induction List.finRange procs generalizing st with
  | nil => exact hst
  | cons i rest ih =>
      refine ih ?_
      rw [balanceSlot]
      split
      · next hslot =>
        exact (scheduleProcessLocal_offers E i st).inRange hE hst (hst.slots i hslot.1)
      · exact hst

/-- Every event keeps the range, but for a quantum that ends at priority 0. -/
theorem serve_inRange (hE : E.Documented) (hst : InRange E st) (event : Event) :
    InRange E (serve E st event) ↔ ¬ Underflows E st event := by
  cases event with
  | noquantum mSource => exact doNoquantum_inRange hE hst mSource
  | start m => exact ⟨fun _ => id, fun _ => doStartScheduling_inRange hE hst m⟩
  | stop m => exact ⟨fun _ => id, fun _ => doStopScheduling_inRange hst m⟩
  | nice m => exact ⟨fun _ => id, fun _ => doNice_inRange hE hst m⟩
  | balance => exact ⟨fun _ => id, fun _ => balanceQueues_inRange hE hst⟩

/-- **PRIORITIES STAY IN RANGE** throughout a run if and only if no process
    of it runs out of quantum at priority 0. -/
theorem priorities_exact (hE : E.Documented) (hst : InRange E st) (events : List Event) :
    Throughout (serve E) (InRange E) st events ↔ NeverTakes (serve E) (Underflows E) st events :=
  throughout_iff (fun _ event h => serve_inRange hE h event) hst

/-! ## Two runs -/

/-- Eight slots, of which an endpoint is the number. -/
def slotOf (e : Int32) : Except Errno (Fin 8) :=
  if h : e.toInt.toNat < 8 ∧ 0 ≤ e then .ok ⟨e.toInt.toNat, h.1⟩ else .error .einval

/-- A kernel of 16 queues and one processor; PM is endpoint 0, RS is 2. -/
def smallEnv : Env 8 where
  nrSchedQueues := 16
  userQ := 7
  smp := none
  acceptMessage source := source = 0 ∨ source = 2
  schedIsokendpt table e := do
    let i ← slotOf e
    if e = (table i).endpoint ∧ (table i).InUse then .ok i else .error (.other 1)
  schedIsemtyendpt table e := do
    let i ← slotOf e
    if (table i).InUse then .error (.other 1) else .ok i

theorem smallEnv_documented : smallEnv.Documented where
  many := by decide
  small := by decide
  user := by decide
  taken table e i h := by
    obtain ⟨j, -, hj⟩ := bind_ok.mp h
    split at hj
    · next hslot =>
      cases hj
      exact hslot.2
    · exact nomatch hj

/-- The table at boot. -/
def boot (procs : Nat) (answers : List Rv) : State procs where
  schedproc := fun _ => ⟨0, 0, 0, 0, 0, 0, 0⟩
  cpuProc := fun _ => 0
  answers := answers
  calls := []

theorem boot_inRange (E : Env procs) (answers : List Rv) : InRange E (boot procs answers) where
  slots i h := absurd h (show ¬ (0 : UInt32) &&& inUse ≠ 0 by decide)
  calls := List.forall_mem_nil _

/-- RS starts a process at queue `maxprio`, which then runs out of quantum. -/
def startAndExpire (maxprio : Int32) : List Event :=
  [.start ⟨2, .schedulingStart, 5, 2, maxprio, 200⟩, .noquantum 5]

theorem priorities_exact_run :
    Throughout (serve smallEnv) (InRange smallEnv) (boot 8 []) (startAndExpire 3) ↔
      NeverTakes (serve smallEnv) (Underflows smallEnv) (boot 8 []) (startAndExpire 3) :=
  priorities_exact smallEnv_documented (boot_inRange smallEnv []) (startAndExpire 3)

/-- **A PROCESS OF QUEUE 0** that runs out of quantum is left with priority
    4294967295, and the kernel is asked to leave its priority unchanged. -/
theorem priority_wraps :
    ((startAndExpire 0).foldl (serve smallEnv) (boot 8 [])).calls.map ScheduleCall.newPrio =
        [0, -1] ∧
      ¬ Throughout (serve smallEnv) (InRange smallEnv) (boot 8 []) (startAndExpire 0) := by
  refine ⟨by decide, fun h => ?_⟩
  have hlast : InRange smallEnv ((startAndExpire 0).foldl (serve smallEnv) (boot 8 [])) := h.2.2
  have hwrap : ¬ (((startAndExpire 0).foldl (serve smallEnv) (boot 8 [])).schedproc 5).priority <
      smallEnv.nrSchedQueues := by decide
  exact hwrap (hlast.slots 5 (by decide))

end SchedRange
