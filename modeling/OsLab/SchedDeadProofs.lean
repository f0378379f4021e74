import OsLab.SchedRangeProofs

/-! # A processor the kernel refuses

    When the kernel answers `EBADCPU`, `do_start_scheduling` stores `CPU_DEAD`
    for the processor, with the comment "don't try this CPU ever again".  The
    loads are unsigned, so the test `cpu_is_available` never fails; what keeps
    a dead processor from being picked is that no load is below the largest
    number (`leastLoaded_ne`).

    `do_stop_scheduling` takes 1 from the load of the processor of the process
    that stops.  When that one is dead it no longer is: a processor stays dead
    exactly as long as no process that it holds stops, and until then no call
    names it (`dead_exact`).  With two processors, a `pick_cpu` of a user
    process right after such a stop picks it, and the 1 it adds to the load
    makes the entry `CPU_DEAD` again (`revived_pick`). -/

namespace SchedDead

open OsLoop SchedModel SchedRange

variable {procs : Nat} {E : Env procs} {M : Machine} {c : UInt32} {st st' st'' : State procs}
  {i : Fin procs}

/-- The call asks for processor `c`. -/
def Names (c : UInt32) (call : ScheduleCall) : Prop :=
  call.newCpu = c.toInt32 ∧ call.newCpu ≠ -1

/-- A process that stops is held by processor `c`. -/
def StopsOn (E : Env procs) (c : UInt32) (st : State procs) : Event → Prop
  | .stop m => E.acceptMessage m.mSource = true ∧
      ∃ i, E.schedIsokendpt st.schedproc m.endpoint = .ok i ∧ (st.schedproc i).cpu = c
  | _ => False

/-- At each event of a run. -/
def AtEach (E : Env procs) (P : State procs → Event → Prop) : State procs → List Event → Prop
  | _, [] => True
  | st, ev :: rest => P st ev ∧ AtEach E P (serve E st ev) rest

/-- Between the states processor `c` is left alone. -/
structure Avoids (c : UInt32) (st st' : State procs) : Prop where
  load : st'.cpuProc c = st.cpuProc c
  calls : ∃ calls, st'.calls = st.calls ++ calls ∧ ∀ call ∈ calls, ¬ Names c call

theorem Avoids.quiet (hload : st'.cpuProc c = st.cpuProc c) (hcalls : st'.calls = st.calls) :
    Avoids c st st' :=
  ⟨hload, [], by rw [hcalls, List.append_nil], by simp⟩

theorem Avoids.trans (h : Avoids c st st') (h' : Avoids c st' st'') : Avoids c st st'' := by
  obtain ⟨calls, hcalls, hnames⟩ := h.calls
  obtain ⟨calls', hcalls', hnames'⟩ := h'.calls
  refine ⟨h'.load.trans h.load, calls ++ calls', ?_, ?_⟩
  · rw [hcalls', hcalls, List.append_assoc]
  · intro call hcall
    rcases List.mem_append.mp hcall with hold | hnew
    · exact hnames call hold
    · exact hnames' call hnew

/-! ## Picking a processor -/

/-- No load is below that of a dead processor. -/
theorem not_lt_dead (load : UInt32) : ¬ cpuDead < load := by
  rw [UInt32.lt_iff_toNat_lt]
  have hmax := load.toNat_lt
  have hdead : cpuDead.toNat = 2 ^ 32 - 1 := by decide
  omega

theorem leastLoaded_ne {cpuProc : UInt32 → UInt32} (hc : c ≠ M.bspId)
    (hdead : cpuProc c = cpuDead) : leastLoaded M cpuProc ≠ c := by
  rw [leastLoaded]
  have hloop : ∀ (cpus : List UInt32) (best : UInt32 × UInt32), best.1 ≠ c →
      (cpus.foldl (fun best c => if 0 ≤ cpuProc c ∧ c ≠ M.bspId ∧ cpuProc c < best.2
        then (c, cpuProc c) else best) best).1 ≠ c := by
    intro cpus
    induction cpus with
    | nil =>
        intro best hbest
        exact hbest
    | cons cpu cpus ih =>
        intro best hbest
        rw [List.foldl_cons]
        refine ih _ ?_
        split
        · next hpicked =>
            rintro rfl
            rw [hdead] at hpicked
            exact not_lt_dead _ hpicked.2.2
        · exact hbest
  exact hloop _ _ hc.symm

/-- A dead processor is not picked. -/
theorem pickCpu_avoids (hsmp : E.smp = some M) (hc : c ≠ M.bspId) (hdead : st.cpuProc c = cpuDead)
    (i : Fin procs) :
    Avoids c st (pickCpu E i st) ∧ ((pickCpu E i st).schedproc i).cpu ≠ c := by
  have hcalls := (pickCpu_quiet E i st).1
  rw [pickCpu, hsmp] at hcalls ⊢
  dsimp only at hcalls ⊢
  split at hcalls
  · next hbsp =>
      rw [if_pos hbsp, setSlot_self]
      exact ⟨.quiet rfl rfl, hc.symm⟩
  · next hload =>
      have hne : leastLoaded M st.cpuProc ≠ c := leastLoaded_ne hc hdead
      rw [if_neg hload]
      refine ⟨.quiet (Function.update_of_ne hne.symm _ _) rfl, ?_⟩
      show ((st.setSlot i _).schedproc i).cpu ≠ c
      rw [setSlot_self]
      exact hne

/-! ## Stopping -/

/-- A stop elsewhere. -/
theorem doStop_avoids (hsmp : E.smp = some M) (m : StopMessage)
    (hother : ¬ StopsOn E c st (.stop m)) :
    Avoids c st (doStopScheduling E m st).2 := by
  rw [doStopScheduling]
  split
  · exact .quiet rfl rfl
  next haccept =>
  split
  · exact .quiet rfl rfl
  next i hi =>
  have hcpu : c ≠ (st.schedproc i).cpu := fun he => hother ⟨by simpa using haccept, i, hi, he.symm⟩
  rw [hsmp]
  exact .quiet (Function.update_of_ne hcpu _ _) rfl

/-- A stop takes 1 from the load of the processor. -/
theorem stop_load (hsmp : E.smp = some M) {ev : Event} (hstop : StopsOn E c st ev) :
    (serve E st ev).cpuProc c = st.cpuProc c - 1 := by
  cases ev with
  | stop m =>
      obtain ⟨haccept, i, hi, rfl⟩ := hstop
      show (doStopScheduling E m st).2.cpuProc _ = _
      rw [doStopScheduling, if_neg (not_not.mpr haccept), hi, hsmp]
      exact Function.update_self _ _ _
  | noquantum mSource => cases hstop
  | start m => cases hstop
  | nice m => cases hstop
  | balance => cases hstop

/-! ## Scheduling -/

section Schedule

variable (hsmp : E.smp = some M) (hc : c ≠ M.bspId)

include hsmp hc

theorem scheduleProcess_avoids (hdead : st.cpuProc c = cpuDead) (i : Fin procs) (flags : UInt32) :
    Avoids c st (scheduleProcess E i flags st).2 ∧
      ((scheduleProcess E i flags st).2.schedproc i).cpu ≠ c := by
  obtain ⟨hpick, hcpu⟩ := pickCpu_avoids hsmp hc hdead i
  refine ⟨hpick.trans ⟨rfl, _, rfl, ?_⟩, hcpu⟩
  intro call hcall
  rw [List.mem_singleton.mp hcall]
  rintro ⟨hname, hasked⟩
  dsimp only at hname hasked
  split at hname
  · have hsame := congrArg Int32.toUInt32 hname
    rw [UInt32.toUInt32_toInt32, UInt32.toUInt32_toInt32] at hsame
    exact hcpu hsame
  · next hflag =>
      rw [if_neg hflag] at hasked
      exact hasked rfl

theorem scheduleUntilCpu_avoids (i : Fin procs) (n : Nat) (hdead : st.cpuProc c = cpuDead) :
    Avoids c st (scheduleUntilCpu E i n st).2 := by
  induction n generalizing st with
  | zero => exact (scheduleProcess_avoids hsmp hc hdead i _).1
  | succ n ih =>
      obtain ⟨htried, hcpu⟩ := scheduleProcess_avoids hsmp hc hdead i scheduleChangeAll
      rw [scheduleUntilCpu]
      dsimp only
      split
      · -- another processor is marked as dead
        have hmarked : Avoids c st { (scheduleProcess E i scheduleChangeAll st).2 with
            cpuProc := Function.update (scheduleProcess E i scheduleChangeAll st).2.cpuProc
              ((scheduleProcess E i scheduleChangeAll st).2.schedproc i).cpu cpuDead } :=
          htried.trans (.quiet (Function.update_of_ne hcpu.symm _ _) rfl)
        have hpicked := (pickCpu_avoids hsmp hc (hmarked.load.trans hdead) i).1
        have hboth := hmarked.trans hpicked
        exact hboth.trans (ih (hboth.load.trans hdead))
      · exact htried

theorem takeOver_avoids (i : Fin procs) (hdead : st.cpuProc c = cpuDead) :
    Avoids c st (takeOver E i st).2 := by
  rw [takeOver]
  dsimp only
  split
  · exact .quiet rfl rfl
  · have htaken : Avoids c st ((kernelAnswer st).2.setSlot i
        { (kernelAnswer st).2.schedproc i with flags := inUse }) := .quiet rfl rfl
    have hpicked := htaken.trans (pickCpu_avoids hsmp hc (htaken.load.trans hdead) i).1
    exact hpicked.trans (scheduleUntilCpu_avoids hsmp hc i _ (hpicked.load.trans hdead))

/-! ## The entry points -/

theorem scheduleLocal_avoids (hdead : st.cpuProc c = cpuDead) (i : Fin procs) :
    Avoids c st (scheduleProcessLocal E i st).2 :=
  (scheduleProcess_avoids hsmp hc hdead i _).1

theorem doNoquantum_avoids (hdead : st.cpuProc c = cpuDead) (mSource : Int32) :
    Avoids c st (doNoquantum E mSource st).2 := by
  rw [doNoquantum]
  split
  · exact .quiet rfl rfl
  · next i _ =>
      dsimp only
      split
      · have hset : Avoids c st (st.setSlot i
            { st.schedproc i with priority := (st.schedproc i).priority - 1 }) := .quiet rfl rfl
        exact hset.trans (scheduleLocal_avoids hsmp hc (hset.load.trans hdead) i)
      · exact scheduleLocal_avoids hsmp hc hdead i

theorem doNice_avoids (hdead : st.cpuProc c = cpuDead) (m : NiceMessage) :
    Avoids c st (doNice E m st).2 := by
  rw [doNice]
  split
  · exact .quiet rfl rfl
  split
  · exact .quiet rfl rfl
  next i _ =>
  dsimp only
  split
  · exact .quiet rfl rfl
  · have hset : Avoids c st (st.setSlot i
        { st.schedproc i with priority := m.maxprio, maxPriority := m.maxprio }) := .quiet rfl rfl
    have htried := hset.trans (scheduleLocal_avoids hsmp hc (hset.load.trans hdead) i)
    split
    · exact htried.trans (.quiet rfl rfl)
    · exact htried

theorem doStart_avoids (hdead : st.cpuProc c = cpuDead) (m : StartMessage) :
    Avoids c st (doStartScheduling E m st).2 := by
  have htake : ∀ (s : State procs) (i : Fin procs) (p : Schedproc), Avoids c st s →
      Avoids c st (takeOver E i (s.setSlot i p)).2 := by
    intro s i p hs
    have hset : Avoids c st (s.setSlot i p) := hs.trans (.quiet rfl rfl)
    exact hset.trans (takeOver_avoids hsmp hc i (hset.load.trans hdead))
  rw [doStartScheduling]
  split
  · exact .quiet rfl rfl
  split
  · exact .quiet rfl rfl
  next i _ =>
  dsimp only
  split
  · exact .quiet rfl rfl
  split
  · exact htake st i _ (.quiet rfl rfl)
  split
  · exact .quiet rfl rfl
  · exact htake _ i _ (.quiet rfl rfl)

theorem balance_avoids (slots : List (Fin procs)) (hdead : st.cpuProc c = cpuDead) :
    Avoids c st (slots.foldl (balanceSlot E) st) := by
  induction slots generalizing st with
  | nil => exact .quiet rfl rfl
  | cons i slots ih =>
      have hslot : Avoids c st (balanceSlot E st i) := by
        rw [balanceSlot]
        split
        · exact scheduleLocal_avoids hsmp hc hdead i
        · exact .quiet rfl rfl
      exact hslot.trans (ih (hslot.load.trans hdead))

/-- **A DEAD PROCESSOR IS LEFT ALONE** by every event but one. -/
theorem serve_avoids (hdead : st.cpuProc c = cpuDead) (ev : Event) (hother : ¬ StopsOn E c st ev) :
    Avoids c st (serve E st ev) := by
  cases ev with
  | noquantum mSource => exact doNoquantum_avoids hsmp hc hdead mSource
  | start m => exact doStart_avoids hsmp hc hdead m
  | stop m => exact doStop_avoids hsmp m hother
  | nice m => exact doNice_avoids hsmp hc hdead m
  | balance => exact balance_avoids hsmp hc _ hdead

end Schedule

/-! ## Runs -/

section Runs

variable (hsmp : E.smp = some M) (hc : c ≠ M.bspId)

include hsmp hc

theorem event_dead (hdead : st.cpuProc c = cpuDead) (ev : Event) :
    (serve E st ev).cpuProc c = cpuDead ↔ ¬ StopsOn E c st ev := by
  constructor
  · intro hstill hstop
    rw [stop_load hsmp hstop, hdead] at hstill
    exact absurd hstill (by decide)
  · intro hother
    exact (serve_avoids hsmp hc hdead ev hother).load.trans hdead

/-- A run leaves the processor dead exactly when no event revives it. -/
theorem run_dead (events : List Event) (hdead : st.cpuProc c = cpuDead) :
    AtEach E (fun st ev => (serve E st ev).cpuProc c = cpuDead) st events ↔
      AtEach E (fun st ev => ¬ StopsOn E c st ev) st events := by
  induction events generalizing st with
  | nil => exact Iff.rfl
  | cons ev events ih =>
      constructor
      · rintro ⟨hstill, hrest⟩
        exact ⟨(event_dead hsmp hc hdead ev).mp hstill, (ih hstill).mp hrest⟩
      · rintro ⟨hother, hrest⟩
        have hstill := (event_dead hsmp hc hdead ev).mpr hother
        exact ⟨hstill, (ih hstill).mpr hrest⟩

theorem run_avoids (events : List Event) (hdead : st.cpuProc c = cpuDead)
    (hother : AtEach E (fun st ev => ¬ StopsOn E c st ev) st events) :
    Avoids c st (events.foldl (serve E) st) := by
  induction events generalizing st with
  | nil => exact .quiet rfl rfl
  | cons ev events ih =>
      have hev := serve_avoids hsmp hc hdead ev hother.1
      exact hev.trans (ih (hev.load.trans hdead) hother.2)

end Runs

/-- With one other processor, it is picked when its load is below the
    largest. -/
theorem leastLoaded_other {cpuProc : UInt32 → UInt32} (hcount : M.processorsCount = 2)
    (hbsp : M.bspId < 2) (hlt : c < 2) (hc : c ≠ M.bspId) (hload : cpuProc c < cpuDead) :
    leastLoaded M cpuProc = c := by
  have htwo : ∀ {cpu : UInt32}, cpu < 2 → cpu = 0 ∨ cpu = 1 := by
    intro cpu hcpu
    have hnat : cpu.toNat < 2 := UInt32.lt_iff_toNat_lt.mp hcpu
    rcases Nat.lt_or_ge cpu.toNat 1 with h | h
    · exact Or.inl (UInt32.toNat_inj.mp (by simp; omega))
    · exact Or.inr (UInt32.toNat_inj.mp (by simp; omega))
  have hload' : cpuProc c < 4294967295 := hload
  rw [leastLoaded, hcount]
  rcases htwo hlt with rfl | rfl
  · have hone : M.bspId = 1 := (htwo hbsp).resolve_left hc.symm
    simp [List.range_succ, hone, hload']
  · have hzero : M.bspId = 0 := (htwo hbsp).resolve_right hc.symm
    simp [List.range_succ, hzero, hload']

/-- **REVIVED FOR ONE PICK**: with two processors, the first `pick_cpu` of a
    user process after the stop picks the dead one, and marks it dead again. -/
theorem revived_pick (hsmp : E.smp = some M) (hc : c ≠ M.bspId) (hdead : st.cpuProc c = cpuDead)
    {ev : Event} (hstop : StopsOn E c st ev) (hcount : M.processorsCount = 2)
    (hbsp : M.bspId < 2) (hlt : c < 2)
    (huser : ((serve E st ev).schedproc i).parent ≠ M.rsProcNr) :
    ((pickCpu E i (serve E st ev)).schedproc i).cpu = c ∧
      (pickCpu E i (serve E st ev)).cpuProc c = cpuDead := by
  have hafter : (serve E st ev).cpuProc c = cpuDead - 1 := by
    rw [stop_load hsmp hstop, hdead]
  have hload : (serve E st ev).cpuProc c < cpuDead := by
    rw [hafter]
    decide
  have hleast := leastLoaded_other hcount hbsp hlt hc hload
  have hpick : ¬ (M.processorsCount = 1 ∨ ((serve E st ev).schedproc i).parent = M.rsProcNr) := by
    rintro (hone | hsystem)
    · rw [hcount] at hone
      cases hone
    · exact huser hsystem
  rw [pickCpu, hsmp]
  dsimp only
  rw [if_neg hpick, hleast]
  constructor
  · show ((State.setSlot _ i _).schedproc i).cpu = c
    rw [setSlot_self]
  · show Function.update (serve E st ev).cpuProc c _ c = cpuDead
    rw [Function.update_self]
    show (serve E st ev).cpuProc c + 1 = cpuDead
    rw [hafter]
    decide

/-- **DEAD FOR AS LONG AS NO PROCESS THERE STOPS**: a refused processor other
    than the boot processor keeps `CPU_DEAD` through a run exactly when no
    process that it holds is stopped, and then the kernel is never asked for
    it; with two processors, one `pick_cpu` of a user process right after such
    a stop picks it and makes it `CPU_DEAD` again. -/
theorem dead_exact (hsmp : E.smp = some M) (hc : c ≠ M.bspId) (hdead : st.cpuProc c = cpuDead)
    (events : List Event) :
    (AtEach E (fun st ev => (serve E st ev).cpuProc c = cpuDead) st events ↔
      AtEach E (fun st ev => ¬ StopsOn E c st ev) st events) ∧
    (AtEach E (fun st ev => ¬ StopsOn E c st ev) st events →
      ∃ calls, (events.foldl (serve E) st).calls = st.calls ++ calls ∧
        ∀ call ∈ calls, ¬ Names c call) ∧
    (∀ ev, StopsOn E c st ev → M.processorsCount = 2 → M.bspId < 2 → c < 2 →
      ∀ i, ((serve E st ev).schedproc i).parent ≠ M.rsProcNr →
        ((pickCpu E i (serve E st ev)).schedproc i).cpu = c ∧
          (pickCpu E i (serve E st ev)).cpuProc c = cpuDead) :=
  ⟨run_dead hsmp hc events hdead, fun hother => (run_avoids hsmp hc events hdead hother).calls,
    fun _ hstop hcount hbsp hlt _ huser =>
      revived_pick hsmp hc hdead hstop hcount hbsp hlt huser⟩

/-- Two processors; the kernel has refused the second, which holds user
    processes. -/
def twoCpus : Env 8 := { smallEnv with smp := some ⟨2, 0, 2⟩ }

def refused : State 8 where
  schedproc i := ⟨Int32.ofNat i.val, 1, inUse, 7, 8, 200, 1⟩
  cpuProc cpu := if cpu = 1 then cpuDead else 0
  answers := []
  calls := []

theorem dead_exact_refused : ∃ calls,
    ([Event.noquantum 3, .balance].foldl (serve twoCpus) refused).calls = refused.calls ++ calls ∧
      ∀ call ∈ calls, ¬ Names 1 call := by
  have hcpu : (1 : UInt32) ≠ (⟨2, 0, 2⟩ : Machine).bspId := by decide
  exact (dead_exact (E := twoCpus) rfl hcpu rfl [.noquantum 3, .balance]).2.1 ⟨id, id, trivial⟩

end SchedDead
