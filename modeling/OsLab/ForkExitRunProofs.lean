import OsLab.ForkExitCallsProofs

/-! # PM over whole runs

    Every state PM reaches from boot has its table in order, whatever the
    processes ask, whatever signals arrive, and whenever VFS answers.  The log
    of every slot is a sequence of lives as `Life.next` allows them, and the
    answers of `fork` and `waitpid` are read off the table. -/

namespace OsForkExit

open OsLoop OsOutcome

variable {n : Nat} {E : Env n} {D : Slot n → Prop} {s s' : Pm n} {c : Slot n}
variable {sig : Slot n → Signal → Act n}

/-! ## Whole runs -/

/-- The table PM starts with: live processes nobody traces, INIT among them. -/
structure Boot (E : Env n) (s : Pm n) : Prop where
  flags : ∀ c, (s.mproc c).flags.inUse = true →
    (s.mproc c).flags = { inUse := true, privProc := (s.mproc c).flags.privProc }
  unused : ∀ c, (s.mproc c).flags.inUse = false → (s.mproc c).flags = {}
  mail : ∀ c, (s.mproc c).mail = none
  tracer : ∀ c, (s.mproc c).tracer = 0
  pid : ∀ c, 0 ≤ (s.mproc c).pid ∧ 0 ≤ (s.mproc c).procgrp
  scheduler : ∀ c, (s.mproc c).flags.privProc = true → (s.mproc c).scheduler = none
  parent : ∀ c, (s.mproc c).flags.inUse = true → (s.mproc c).parent ≠ 0 ∧
    (s.mproc (s.mproc c).parent).flags.inUse = true ∧
    ((s.mproc c).parent = c → c = E.initProcNr)
  pids : ∀ c d, (s.mproc c).flags.inUse = true → (s.mproc d).flags.inUse = true →
    (s.mproc c).pid = (s.mproc d).pid → c = d
  count : s.procsInUse = used s.mproc
  init : (s.mproc E.initProcNr).flags.inUse = true ∧
    (s.mproc E.initProcNr).endpoint = E.initProcNr.val
  pm : (s.mproc 0).flags.inUse = true

theorem Boot.wf (h : Boot E s) (hc : (s.mproc c).flags.inUse = true) : Wf (s.mproc c) where
  zombie hf := by rw [h.flags c hc] at hf; cases hf
  told hf := by rw [h.flags c hc] at hf; cases hf
  traced hf := by rw [h.flags c hc] at hf; cases hf
  waiting hf := by rw [h.flags c hc] at hf; cases hf
  stopped hf := by rw [h.flags c hc] at hf; cases hf
  mail := by rw [h.flags c hc, h.mail c]; rfl
  lastMail hf := by rw [h.flags c hc] at hf; cases hf
  dumping hf := by rw [h.flags c hc] at hf; cases hf
  traceExit hf := by rw [h.flags c hc] at hf; cases hf
  pid := (h.pid c).1
  procgrp := (h.pid c).2
  scheduler := h.scheduler c
  parent := (h.parent c hc).1

theorem Boot.sound (h : Boot E s) : Sound E Nobody s := by
  have hlive : ∀ c, (s.mproc c).flags.inUse = true → (s.mproc c).live = true := by
    intro c hc
    rw [Mproc.live, h.flags c hc]
    rfl
  have hend : ∀ c, (s.mproc c).ending = none := by
    intro c
    rw [Mproc.ending, h.mail c]
    rfl
  have hlinked : ∀ c, (s.mproc c).flags.inUse = true → Linked E Nobody s.mproc c := by
    intro c hc
    obtain ⟨-, hpu, hself⟩ := h.parent c hc
    exact
      { parent := .of_live (hlive _ hpu)
        parentSelf := hself
        tracer := fun h0 => absurd (h.tracer c) h0
        tracerSelf := fun h0 => absurd (h.tracer c) h0 }
  refine ⟨{ wf := fun c hc => h.wf hc, linked := hlinked, pids := h.pids, count := h.count,
            init := ⟨hlive _ h.init.1, h.init.2⟩, pm := ⟨hlive _ h.pm, h.tracer 0⟩,
            busy := fun d hd => hd.elim, unused := h.unused }, fun c hc => ?_⟩
  exact .of_live (h.wf hc) (Mproc.live_iff.mp (hlive c hc)).2 (hend c)

/-- **EVERY RUN** from boot. -/
theorem run_yields (xs : List (Step n)) (h : Boot E s) :
    Yields Panic.Outside (runAll (step E) s xs) fun s' => Sound E Nobody s' ∧ Follows E s s' := by
  refine yields_run (I := fun s' => Sound E Nobody s' ∧ Follows E s s') ?_ ⟨h.sound, .refl s⟩
  rintro s₁ x ⟨hs₁, hf₁⟩
  refine yields_mono (step_yields x hs₁) ?_
  rintro s₂ ⟨hs₂, hf₂⟩
  exact ⟨hs₂, hf₁.trans hf₂⟩

/-- A machine of three slots whose kernel and VM do what they are asked.  When
    VFS has answered a fork, the child and the parent are woken. -/
def smallEnv : Env 2 where
  initProcNr := 1
  init_ne_pm := by decide
  vfsProcNr := 50
  rsProcNr := 51
  schedProcNr := 52
  nsig := 26
  vmFork _ c := .ok (100 + c.val)
  freePid t := (((List.finRange 3).map fun c => (t c).pid.toNat).foldr max ⊥ : Nat) + 1
  freePid_fresh t c _ := by
    have hle := List.le_max_of_le
      (List.mem_map.mpr ⟨c, List.mem_finRange c, rfl⟩ :
        (t c).pid.toNat ∈ (List.finRange 3).map fun c => (t c).pid.toNat) le_rfl
    omega
  freePid_nonneg t := by omega
  sysTimes _ _ := some (3, 1)
  sysStop _ _ := true
  vmWillexit _ _ := true
  sysClear _ _ := true
  vmExit _ _ := true
  react _ _ _ := .adjust []
  group _ _ := []
  tellVfs c m s := if (s.mproc c).flags.vfsCall then .error .vfsNotIdle else .ok (s.told c m)
  tellVfs_idle s c m hv := by rw [hv]; rfl
  accepts s c := c != 0 && (s.mproc c).live && !(s.mproc c).flags.vfsCall
  accepts_live s c h := by
    simp only [Bool.and_eq_true, bne_iff_ne] at h
    exact h.1
  accepts_idle s c h := by
    simp only [Bool.and_eq_true, Bool.not_eq_true'] at h
    exact .inl h.2
  resume s c m :=
    match m with
    | .pmFork _ _ pid _ _ => ⟨none, [(c, .value 0), ((s.mproc c).parent, .value pid)]⟩
    | _ => ⟨none, []⟩
  resume_pm s m := by cases m <;> rfl

/-- PM in slot 0 and INIT, being served, in slot 1. -/
def smallBoot : Pm 2 where
  mproc c :=
    { flags := if c = 2 then {} else { inUse := true }
      endpoint := c.val, pid := c.val, procgrp := c.val, wpid := 0, parent := 1, tracer := 0
      traceFork := false, sigtrace := [], childUtime := 0, childStime := 0, exitStatus := 0
      sigStatus := 0, realuid := 0, effuid := 0, realgid := 0, effgid := 0, interval := [0, 0, 0]
      scheduler := none, name := "", replyStatus := 0, replyData := 0, mail := none }
  procsInUse := 2
  nextChild := 0
  nextSrvChild := 0
  mp := 1
  log := []

theorem smallBoot_boot : Boot smallEnv smallBoot where
  flags := by decide
  unused := by decide
  mail _ := rfl
  tracer _ := rfl
  pid := by decide
  scheduler _ _ := rfl
  parent := by decide
  pids := by decide
  count := by decide
  init := by decide
  pm := by decide

/-- INIT forks, the child becomes a group leader and exits with 7, VFS answers
    both times, and INIT waits for the child. -/
def smallRun : List (Step 2) :=
  [.call 1 .fork, .vfsReply 0 2 false, .adjust 2 setsid, .call 2 (.exit 7), .vfsReply 0 2 false,
    .call 1 (.waitpid (-1) false)]

/-- **THE TABLE IS IN ORDER** after every run: the count of processes is
    right, no two share a pid, and every process has a live parent other than
    PM, and a live tracer if it has one. -/
theorem table_in_order {xs : List (Step n)} (h : Boot E s) (hrun : runAll (step E) s xs = .ok s') :
    s'.procsInUse = used s'.mproc ∧
    (∀ c d, (s'.mproc c).flags.inUse = true → (s'.mproc d).flags.inUse = true →
      (s'.mproc c).pid = (s'.mproc d).pid → c = d) ∧
    ∀ c, (s'.mproc c).flags.inUse = true →
      (s'.mproc c).parent ≠ 0 ∧ (s'.mproc (s'.mproc c).parent).live = true ∧
      ((s'.mproc c).tracer ≠ 0 → (s'.mproc (s'.mproc c).tracer).live = true) := by
  have hs := ((run_yields xs h).1 s' hrun).1
  refine ⟨hs.base.count, hs.base.pids, fun c hc => ?_⟩
  have hl := hs.base.linked c hc
  exact ⟨(hs.base.wf c hc).parent, hl.parent.live, fun h0 => (hl.tracer h0).live⟩

theorem table_in_order_smallRun : ∃ s', runAll (step smallEnv) smallBoot smallRun = .ok s' ∧
    s'.procsInUse = used s'.mproc := by
  obtain ⟨s', hrun, -⟩ := ok_of_any (x := runAll (step smallEnv) smallBoot smallRun)
    (p := fun _ => true) (by decide)
  exact ⟨s', hrun, (table_in_order smallBoot_boot hrun).1⟩

/-- **NO PANIC OF ITS OWN**: PM stops only when the kernel or VM fails it, or
    VFS dies. -/
theorem panics_outside {xs : List (Step n)} {e : Panic} (h : Boot E s)
    (hrun : runAll (step E) s xs = .error e) : e.Outside :=
  (run_yields xs h).2 e hrun

theorem panics_outside_sysTimes : Panic.sysTimes.Outside :=
  panics_outside (E := { smallEnv with sysTimes := fun _ _ => none }) { smallBoot_boot with }
    (rfl : runAll (step { smallEnv with sysTimes := fun _ _ => none }) smallBoot smallRun =
      .error .sysTimes)

/-- `who` waits for a process such as `c`, by the rules of `do_waitpid`. -/
def Awaits (t : Slot n → Mproc n) (who c : Slot n) : Prop :=
  (t who).flags.waiting = true ∧ qualifies who (t who).wpid (t c) = true

instance (t : Slot n → Mproc n) (who c : Slot n) : Decidable (Awaits t who c) :=
  inferInstanceAs (Decidable (_ ∧ _))

/-- `wait_test` overlooks a wait only where `do_waitpid` made `pidarg` of a
    process group 0: it takes 0 for the pid or the group that is asked for. -/
theorem waitTest_overlooks {t : Slot n → Mproc n} {who : Slot n} (h : Awaits t who c)
    (hno : waitTest (t who) (t c) = false) : (t who).wpid = 0 ∧ (t c).procgrp ≠ 0 := by
  obtain ⟨hwait, hq⟩ := h
  simp only [waitTest, hwait, Bool.true_and, Bool.or_eq_false_iff, beq_eq_false_iff_ne] at hno
  obtain ⟨⟨hany, hpid⟩, hgrp⟩ := hno
  simp only [qualifies, Bool.and_eq_true, Bool.not_eq_true', Bool.and_eq_false_iff,
    decide_eq_false_iff_not, bne_eq_false_iff_eq] at hq
  obtain ⟨⟨-, hpos⟩, hneg⟩ := hq
  omega

/-- **NO DEATH IS MISSED**: between two events an exiting process is a zombie
    its parent does not wait for, is kept for a tracer that does not wait for
    it, was reported and is held by VFS alone, or waits for its core dump.
    Only a wait of process group 0 for its own group is overlooked. -/
theorem no_death_missed {xs : List (Step n)} (h : Boot E s)
    (hrun : runAll (step E) s xs = .ok s') (hc : (s'.mproc c).flags.inUse = true)
    (hx : (s'.mproc c).flags.exiting = true) :
    ((s'.mproc c).flags.zombie = true ∧ (Awaits s'.mproc (s'.mproc c).parent c →
      (s'.mproc (s'.mproc c).parent).wpid = 0 ∧ (s'.mproc c).procgrp ≠ 0)) ∨
    ((s'.mproc c).flags.traceZombie = true ∧ (s'.mproc c).tracer ≠ 0 ∧
      (Awaits s'.mproc (s'.mproc c).tracer c →
        (s'.mproc (s'.mproc c).tracer).wpid = 0 ∧ (s'.mproc c).procgrp ≠ 0)) ∨
    ((s'.mproc c).flags.toldParent = true ∧ (s'.mproc c).flags.vfsCall = true) ∨
    (s'.mproc c).flags.vfsCall = true ∧ (s'.mproc c).ending = some true := by
  have hs := ((run_yields xs h).1 s' hrun).1
  have ht := hs.tended c hc
  have hw := hs.base.wf c hc
  rcases ht.known hx with hz | hz | hz | hz
  · exact .inl ⟨hz, fun ha => waitTest_overlooks ha (ht.parent hz)⟩
  · exact .inr (.inr (.inl ⟨hz, ht.told hz⟩))
  · exact .inr (.inl ⟨hz, (hw.traced hz).2, fun ha => waitTest_overlooks ha (ht.tracer hz)⟩)
  · refine .inr (.inr (.inr ⟨?_, hz⟩))
    cases hv : (s'.mproc c).flags.vfsCall with
    | true => rfl
    | false => simp [Mproc.ending, hw.mail_none hv] at hz

theorem no_death_missed_smallRun : ∃ s',
    runAll (step smallEnv) smallBoot (smallRun.take 5) = .ok s' ∧
    (((s'.mproc 2).flags.zombie = true ∧ (Awaits s'.mproc (s'.mproc 2).parent 2 →
      (s'.mproc (s'.mproc 2).parent).wpid = 0 ∧ (s'.mproc 2).procgrp ≠ 0)) ∨
    ((s'.mproc 2).flags.traceZombie = true ∧ (s'.mproc 2).tracer ≠ 0 ∧
      (Awaits s'.mproc (s'.mproc 2).tracer 2 →
        (s'.mproc (s'.mproc 2).tracer).wpid = 0 ∧ (s'.mproc 2).procgrp ≠ 0)) ∨
    ((s'.mproc 2).flags.toldParent = true ∧ (s'.mproc 2).flags.vfsCall = true) ∨
    (s'.mproc 2).flags.vfsCall = true ∧ (s'.mproc 2).ending = some true) := by
  obtain ⟨s', hrun, hc⟩ := ok_of_any (x := runAll (step smallEnv) smallBoot (smallRun.take 5))
    (p := fun s => (s.mproc 2).flags.inUse && (s.mproc 2).flags.exiting) (by decide)
  rw [Bool.and_eq_true] at hc
  exact ⟨s', hrun, no_death_missed smallBoot_boot hrun hc.1 hc.2⟩

/-- Such a wait is overlooked indeed. -/
example : ∃ s', runAll (step smallEnv)
      { smallBoot with mproc := fun c => { smallBoot.mproc c with procgrp := 0 } }
      [.call 1 .fork, .vfsReply 0 2 false, .adjust 2 setsid, .call 1 (.waitpid 0 false),
        .call 2 (.exit 7), .vfsReply 0 2 false] = .ok s' ∧
    (s'.mproc 2).flags.zombie = true ∧ Awaits s'.mproc 1 2 := by
  obtain ⟨s', hrun, hp⟩ := ok_of_any (x := runAll (step smallEnv)
      { smallBoot with mproc := fun c => { smallBoot.mproc c with procgrp := 0 } }
      [.call 1 .fork, .vfsReply 0 2 false, .adjust 2 setsid, .call 1 (.waitpid 0 false),
        .call 2 (.exit 7), .vfsReply 0 2 false])
    (p := fun s' => (s'.mproc 2).flags.zombie && decide (Awaits s'.mproc 1 2)) (by decide)
  rw [Bool.and_eq_true, decide_eq_true_eq] at hp
  exact ⟨s', hrun, hp⟩

/-- **EVERY SLOT LEADS ONE LIFE AFTER ANOTHER**: read event by event, the log
    takes each slot along its lives.  A process is reported at most once, by a
    reply to its parent with its own status and signal, and its slot is
    released as soon as it was reported and VFS has let go of it. -/
theorem lives_follow {xs : List (Step n)} (h : Boot E s) (hlog : s.log = [])
    (hrun : runAll (step E) s xs = .ok s') (c : Slot n) :
    (∃ last, s'.log.foldlM (Life.read E c) (none, (s.mproc c).life) =
      some (last, (s'.mproc c).life)) ∧
    ∀ pid parent status sig, (s'.mproc c).life ≠ .dying pid parent status sig true true := by
  obtain ⟨hs, new, hnew, hf⟩ := (run_yields xs h).1 s' hrun
  rw [hlog, List.nil_append] at hnew
  refine ⟨by rw [hnew]; exact hf c none, fun pid parent status sig heq => ?_⟩
  unfold Mproc.life at heq
  cases hu : (s'.mproc c).flags.inUse with
  | false => rw [hu] at heq; cases heq
  | true =>
      cases hx : (s'.mproc c).flags.exiting with
      | false => rw [hu, hx] at heq; cases heq
      | true =>
          rw [hu, hx] at heq
          injection heq with _ _ _ _ ht hv
          rw [(hs.tended c hu).told ht] at hv
          cases hv

theorem lives_follow_smallRun : ∃ s', runAll (step smallEnv) smallBoot smallRun = .ok s' ∧
    ∃ last, s'.log.foldlM (Life.read smallEnv 2) (none, .free) = some (last, .free) := by
  obtain ⟨s', hrun, hfree⟩ := ok_of_any (x := runAll (step smallEnv) smallBoot smallRun)
    (p := fun s => !(s.mproc 2).flags.inUse) (by decide)
  have hlife : (s'.mproc 2).life = .free := Mproc.life_free (by simpa using hfree)
  obtain ⟨last, hlast⟩ := (lives_follow smallBoot_boot rfl hrun 2).1
  rw [hlife] at hlast
  exact ⟨s', hrun, last, hlast⟩

/-! ## What a caller gets -/

/-- How many slots are free. -/
def unusedSlots (t : Slot n → Mproc n) : Nat :=
  (Finset.univ.filter fun c => (t c).flags.inUse = false).card

theorem used_add_unused (t : Slot n → Mproc n) : used t + unusedSlots t = n + 1 := by
  have hsum := Finset.card_filter_add_card_filter_not
    (s := (Finset.univ : Finset (Slot n))) (fun c => (t c).flags.inUse = true)
  simpa [used, unusedSlots] using hsum

/-- The count of processes decides about the free slots. -/
theorem tableFull_iff (h : Base E D s) (p : Mproc n) :
    tableFull p s ↔ unusedSlots s.mproc = 0 ∨ unusedSlots s.mproc ≤ 2 ∧ p.effuid ≠ 0 := by
  have hsum := used_add_unused s.mproc
  have hcount := h.count
  unfold tableFull lastFew
  constructor
  · rintro (hf | ⟨hf, he⟩)
    · exact .inl (by omega)
    · exact .inr ⟨by omega, he⟩
  · rintro (hf | ⟨hf, he⟩)
    · exact .inl (by omega)
    · exact .inr ⟨by omega, he⟩

/-- The table after a fork into `child`. -/
def Pm.forked (E : Env n) (s : Pm n) (child : Slot n) (endpoint : Int) : Pm n :=
  let s' := install E child (forkProc E s.mp endpoint (s.mproc s.mp)) { s with nextChild := child }
  let pid := (s'.mproc child).pid
  (s'.emit (.printCreated pid)).told child
    (.pmFork endpoint (s.mproc s.mp).endpoint pid (-1) (-1))

/-- The child's record then. -/
theorem forked_mproc (child : Slot n) (endpoint : Int) : ∃ m,
    (s.forked E child endpoint).mproc child =
      { forkProc E s.mp endpoint (s.mproc s.mp) with
        pid := E.freePid (({ s with nextChild := child } : Pm n).set child
          (forkProc E s.mp endpoint (s.mproc s.mp))).mproc
        flags := { (forkProc E s.mp endpoint (s.mproc s.mp)).flags with vfsCall := true }
        mail := some m } :=
  ⟨_, by simp [Pm.forked, Pm.told, install, Pm.set]; rfl⟩

theorem forked_log (child : Slot n) (endpoint : Int) :
    (s.forked E child endpoint).log = s.log ++
      [.life child (.born ((s.forked E child endpoint).mproc child).pid
          (forkProc E s.mp endpoint (s.mproc s.mp)).parent),
        .printCreated ((s.forked E child endpoint).mproc child).pid,
        .tellVfs child (.pmFork endpoint (s.mproc s.mp).endpoint
          ((s.forked E child endpoint).mproc child).pid (-1) (-1))] := by
  simp [Pm.forked, Pm.told, install, Pm.emit, Pm.modify, Pm.set]

/-- A fork that VM agrees to, of a caller whose tracer does not want the
    child. -/
theorem doFork_ok {child : Slot n} {endpoint : Int} (h : Sound E Nobody s)
    (hlive : (s.mproc s.mp).live = true) (hroom : ¬tableFull (s.mproc s.mp) s)
    (hslot : childSlot s.nextChild s = .ok child)
    (hvm : E.vmFork { s with nextChild := child } child = .ok endpoint)
    (htr : (s.mproc s.mp).tracer = 0 ∨ (s.mproc s.mp).traceFork = false) :
    doFork E sig s = .ok (.suspend, s.forked E child endpoint) := by
  obtain ⟨m, hrec⟩ := forked_mproc (E := E) (s := s) child endpoint
  have hpriv : ¬((s.mproc s.mp).flags.privProc = true ∧ (s.mproc s.mp).scheduler ≠ none) := by
    rintro ⟨hb, hn⟩
    exact hn ((h.base.wf s.mp (Mproc.live_iff.mp hlive).1).scheduler hb)
  have htracer : ((s.forked E child endpoint).mproc child).tracer = 0 := by
    rw [hrec]
    refine (forkProc_keeps s.mp endpoint (s.mproc s.mp)).2.2.1.trans ?_
    rcases htr with ht | ht
    · exact (copyProc_keeps s.mp (s.mproc s.mp)).2.2.1.elim (fun h => h.trans ht) id
    · simp [copyProc, ht]
  let s₁ := install E child (forkProc E s.mp endpoint (s.mproc s.mp)) { s with nextChild := child }
  have hidle : ((s₁.emit (.printCreated (s₁.mproc child).pid)).mproc child).flags.vfsCall =
      false := by
    simp [s₁, install, Pm.set, (forkProc_keeps (E := E) s.mp endpoint (s.mproc s.mp)).1]
  have htell := E.tellVfs_idle _ child
    (.pmFork endpoint (s.mproc s.mp).endpoint (s₁.mproc child).pid (-1) (-1)) hidle
  simp only [doFork, if_neg hroom, hslot, bind, Except.bind, hvm, if_neg hpriv, Pm.mproc_emit]
  rw [show E.tellVfs child _ _ = Except.ok (s.forked E child endpoint) from htell]
  simp only
  rw [if_neg (by rw [htracer]; simp)]

/-- **WHO MAY FORK AND WHERE**: the last two free slots are the superuser's;
    else the child gets the first free slot round the table, a pid of its own
    that is printed and told to VFS, and the caller as parent, and no other
    slot changes. -/
theorem fork_outcome (sig : Slot n → Signal → Act n) {xs : List (Step n)} {s₀ : Pm n}
    (who : Slot n) (h : Boot E s₀) (hrun : runAll (step E) s₀ xs = .ok s)
    (hlive : (s.mproc who).live = true) (h0 : who ≠ 0) :
    ((unusedSlots s.mproc = 0 ∨ unusedSlots s.mproc ≤ 2 ∧ (s.mproc who).effuid ≠ 0) →
      doFork E sig { s with mp := who } = .ok (.fails .eagain, { s with mp := who })) ∧
    (¬(unusedSlots s.mproc = 0 ∨ unusedSlots s.mproc ≤ 2 ∧ (s.mproc who).effuid ≠ 0) →
      ∃ j ≤ n, (s.mproc (slotAfter s.nextChild (j + 1))).flags.inUse = false ∧
        (∀ i < j, (s.mproc (slotAfter s.nextChild (i + 1))).flags.inUse = true) ∧
        ∀ endpoint, E.vmFork { s with mp := who, nextChild := slotAfter s.nextChild (j + 1) }
            (slotAfter s.nextChild (j + 1)) = .ok endpoint →
          ((s.mproc who).tracer = 0 ∨ (s.mproc who).traceFork = false) →
          ∃ s' pid, doFork E sig { s with mp := who } = .ok (.suspend, s') ∧
            (∀ c, (s.mproc c).flags.inUse = true → (s.mproc c).pid ≠ pid) ∧
            (s'.mproc (slotAfter s.nextChild (j + 1))).live = true ∧
            (s'.mproc (slotAfter s.nextChild (j + 1))).pid = pid ∧
            (s'.mproc (slotAfter s.nextChild (j + 1))).parent = who ∧
            (∀ c, c ≠ slotAfter s.nextChild (j + 1) → s'.mproc c = s.mproc c) ∧
            s'.log = s.log ++ [.life (slotAfter s.nextChild (j + 1)) (.born pid who),
              .printCreated pid, .tellVfs (slotAfter s.nextChild (j + 1))
                (.pmFork endpoint (s.mproc who).endpoint pid (-1) (-1))]) := by
  have hs := ((run_yields xs h).1 s hrun).1
  have hs₁ : Sound E Nobody { s with mp := who } := hs.same rfl rfl
  rw [← tableFull_iff hs₁.base]
  refine ⟨fun hfull => by simp [doFork, hfull], fun hroom => ?_⟩
  obtain ⟨j, hj, hslot, hfree, hearlier⟩ := childSlot_first (s := { s with mp := who }) s.nextChild
    (exists_free hs₁.base fun hfull => hroom (.inl hfull))
  refine ⟨j, hj, hfree, hearlier, fun endpoint hvm htr => ?_⟩
  generalize slotAfter s.nextChild (j + 1) = child at hslot hfree hvm ⊢
  let s₁ : Pm n := { s with mp := who }
  obtain ⟨m, hrec⟩ := forked_mproc (E := E) (s := s₁) child endpoint
  have hkeeps := forkProc_keeps (E := E) who endpoint (s.mproc who)
  refine ⟨s₁.forked E child endpoint, _, doFork_ok hs₁ hlive hroom hslot hvm htr, ?_, ?_, rfl,
    ?_, ?_, ?_⟩
  · intro c hc
    have hcc : c ≠ child := by
      rintro rfl
      rw [show (s.mproc c).flags.inUse = false from hfree] at hc
      cases hc
    rw [hrec]
    have hfresh := E.freePid_fresh (({ s₁ with nextChild := child } : Pm n).set child
      (forkProc E who endpoint (s.mproc who))).mproc c
    simp only [Pm.mproc_set, if_neg hcc] at hfresh
    exact hfresh hc
  · have hb : Newborn s₁ { forkProc E who endpoint (s.mproc who) with pid := 0 } :=
      forkProc_newborn hs₁ hlive h0 le_rfl
    rw [hrec]
    exact hb.live
  · rw [hrec]
    exact hkeeps.2.1
  · intro c hc
    simp [Pm.forked, Pm.told, install, hc, s₁]
  · have hlog := forked_log (E := E) (s := s₁) child endpoint
    rw [show (forkProc E s₁.mp endpoint (s₁.mproc s₁.mp)).parent = who from hkeeps.2.1] at hlog
    exact hlog

theorem fork_outcome_smallBoot : ∃ s',
    doFork smallEnv (sigProc smallEnv 3) { smallBoot with mp := 1 } = .ok (.suspend, s') ∧
    ∃ c, (s'.mproc c).live = true ∧ (s'.mproc c).parent = 1 := by
  obtain ⟨j, -, -, -, hfork⟩ := (fork_outcome (sigProc smallEnv 3) 1 smallBoot_boot
    (rfl : runAll (step smallEnv) smallBoot [] = .ok smallBoot) rfl (by decide)).2
    (by decide)
  obtain ⟨s', pid, hok, -, hlive, -, hparent, -⟩ := hfork _ rfl (.inl rfl)
  exact ⟨s', hok, _, hlive, hparent⟩

/-- `c` has something for `who` now: a death, or a signal it stopped for. -/
def Due (E : Env n) (who : Slot n) (pidarg : Int) (p : Mproc n) : Prop :=
  qualifies who pidarg p = true ∧
    (p.tracer = who ∧ p.flags.traceZombie = true ∨
      (p.tracer = who ∧ p.flags.traceStopped = true ∧ pendingStop E.nsig p ≠ none) ∨
      p.parent = who ∧ p.flags.zombie = true)

instance (who : Slot n) (pidarg : Int) (p : Mproc n) : Decidable (Due E who pidarg p) :=
  inferInstanceAs (Decidable (_ ∧ _))

/-- The scan passes over the slots that have nothing, and counts. -/
theorem waitScan_skip (sig : Slot n → Signal → Act n) (who : Slot n) {pidarg : Int}
    (rest : List (Slot n)) :
    ∀ (before : List (Slot n)) (children : Nat),
      (∀ c ∈ before, ¬Due E who pidarg (s.mproc c)) →
      waitScan E sig who pidarg (before ++ rest) children s =
        waitScan E sig who pidarg rest
          (children + before.countP fun c => qualifies who pidarg (s.mproc c)) s := by
  intro before
  induction before with
  | nil => intro children _; rfl
  | cons c before ih =>
      intro children hno
      have hc := hno c (by simp)
      have hrest : ∀ d ∈ before, ¬Due E who pidarg (s.mproc d) := fun d hd => hno d (by simp [hd])
      rw [List.cons_append, waitScan]
      cases hq : qualifies who pidarg (s.mproc c) with
      | false =>
          simp only [Bool.not_false, if_true]
          rw [ih children hrest, List.countP_cons_of_neg (by simp [hq])]
      | true =>
          have h₁ : ¬((s.mproc c).tracer = who ∧ (s.mproc c).flags.traceZombie = true) :=
            fun hz => hc ⟨hq, .inl hz⟩
          have h₃ : ¬((s.mproc c).parent = who ∧ (s.mproc c).flags.zombie = true) :=
            fun hz => hc ⟨hq, .inr (.inr hz)⟩
          have h₂ : (if (s.mproc c).tracer = who ∧ (s.mproc c).flags.traceStopped = true then
              pendingStop E.nsig (s.mproc c) else none) = none := by
            split
            · rename_i hst
              by_contra hp
              exact hc ⟨hq, .inr (.inl ⟨hst.1, hst.2, hp⟩)⟩
            · rfl
          simp only [Bool.not_true, Bool.false_eq_true, if_false, if_neg h₁, h₂, if_neg h₃]
          rw [ih (children + 1) hrest, List.countP_cons_of_pos (by simp [hq])]
          congr 1
          omega

/-- Without news the scan counts the qualifying processes. -/
theorem waitScan_none (sig : Slot n → Signal → Act n) {who : Slot n} {pidarg : Int}
    (hno : ∀ c, ¬Due E who pidarg (s.mproc c)) :
    waitScan E sig who pidarg (List.finRange (n + 1)) 0 s =
      .ok (.error ((List.finRange (n + 1)).countP
        fun c => qualifies who pidarg (s.mproc c)), s) := by
  have hskip := waitScan_skip sig who [] (List.finRange (n + 1)) 0 fun c _ => hno c
  rw [List.append_nil] at hskip
  rw [hskip, waitScan, Nat.zero_add]

/-- The table after the scan has found the zombie `c`. -/
def Pm.collected (s : Pm n) (c : Slot n) : Pm n :=
  if (s.mproc c).flags.vfsCall then s.report c else cleanup c (s.report c)

/-- The scan stops at the first slot with news, if it is a zombie child. -/
theorem waitScan_zombie (sig : Slot n → Signal → Act n) {who : Slot n} {pidarg : Int}
    (h : Base E D s) (hbefore : ∀ d < c, ¬Due E who pidarg (s.mproc d))
    (hq : qualifies who pidarg (s.mproc c) = true) (hp : (s.mproc c).parent = who)
    (hz : (s.mproc c).flags.zombie = true) :
    waitScan E sig who pidarg (List.finRange (n + 1)) 0 s = .ok (.ok .suspend, s.collected c) := by
  have hu := qualifies_inUse hq
  have hw := h.wf c hu
  have hx := (hw.zombie hz).1
  obtain ⟨before, after, hsplit⟩ := List.append_of_mem (List.mem_finRange c)
  have hlt : ∀ d ∈ before, d < c := by
    intro d hd
    have hsort := List.pairwise_lt_finRange (n + 1)
    rw [hsplit, List.pairwise_append] at hsort
    exact hsort.2.2 d hd c (by simp)
  have h₁ : ¬((s.mproc c).tracer = who ∧ (s.mproc c).flags.traceZombie = true) := by
    rintro ⟨-, ht⟩
    rw [(hw.zombie hz).2.2] at ht; cases ht
  have h₂ : ¬((s.mproc c).tracer = who ∧ (s.mproc c).flags.traceStopped = true) := by
    rintro ⟨-, ht⟩
    rw [hw.stopped hx] at ht; cases ht
  have hv : ((s.report c).mproc c).flags.vfsCall = (s.mproc c).flags.vfsCall := by
    rw [report_mproc (h.parent_ne hu hx)]; rfl
  rw [hsplit, waitScan_skip sig who (c :: after) before 0 fun d hd => hbefore d (hlt d hd),
    waitScan]
  simp only [hq, Bool.not_true, Bool.false_eq_true, if_false, if_neg h₁, if_neg h₂,
    if_pos (And.intro hp hz), tellParent_ok hw hz, bind, Except.bind, hv]
  rw [Pm.collected]
  cases (s.mproc c).flags.vfsCall with
  | true => rfl
  | false => rfl

/-- No qualifying process. -/
theorem doWaitpid_echild (sig : Slot n → Signal → Act n) {pid pidarg : Int} (wnohang : Bool)
    (harg : pidarg = if pid = 0 then -(s.mproc s.mp).procgrp else pid)
    (hq : ∀ c, qualifies s.mp pidarg (s.mproc c) = false) :
    doWaitpid E sig pid wnohang s = .ok (.fails .echild, s) := by
  have hno : ∀ c, ¬Due E s.mp pidarg (s.mproc c) := by
    rintro c ⟨hc, -⟩
    rw [hq c] at hc
    cases hc
  have hcount : (List.finRange (n + 1)).countP
      (fun c => qualifies s.mp pidarg (s.mproc c)) = 0 := by
    rw [List.countP_eq_zero]
    intro c _
    simp [hq c]
  simp only [doWaitpid, ← harg, waitScan_none sig hno, hcount, bind, Except.bind, if_true]

/-- Qualifying processes without news. -/
theorem doWaitpid_idle (sig : Slot n → Signal → Act n) {pid pidarg : Int} (wnohang : Bool)
    (harg : pidarg = if pid = 0 then -(s.mproc s.mp).procgrp else pid)
    (hq : qualifies s.mp pidarg (s.mproc c) = true)
    (hno : ∀ c, ¬Due E s.mp pidarg (s.mproc c)) :
    doWaitpid E sig pid wnohang s = .ok (if wnohang then (.value 0, s) else
      (.suspend, s.modify s.mp (Mproc.awaits pidarg))) := by
  have hcount : (List.finRange (n + 1)).countP
      (fun c => qualifies s.mp pidarg (s.mproc c)) ≠ 0 := by
    rw [Ne, List.countP_eq_zero]
    intro hno'
    exact hno' c (by simp) hq
  simp only [doWaitpid, ← harg, waitScan_none sig hno, bind, Except.bind, if_neg hcount]
  cases wnohang with
  | true => rfl
  | false => rfl

/-- A zombie child in the lowest slot with news. -/
theorem doWaitpid_zombie (sig : Slot n → Signal → Act n) {pid pidarg : Int} (wnohang : Bool)
    (h : Base E D s) (harg : pidarg = if pid = 0 then -(s.mproc s.mp).procgrp else pid)
    (hbefore : ∀ d < c, ¬Due E s.mp pidarg (s.mproc d))
    (hq : qualifies s.mp pidarg (s.mproc c) = true) (hp : (s.mproc c).parent = s.mp)
    (hz : (s.mproc c).flags.zombie = true) :
    doWaitpid E sig pid wnohang s = .ok (.suspend, s.collected c) := by
  simp only [doWaitpid, ← harg, waitScan_zombie sig h hbefore hq hp hz, bind, Except.bind]

theorem collected_log : (s.collected c).log = s.log ++
    [.reply (s.mproc c).parent (.value (s.mproc c).pid) (s.mproc c).status, .life c .reported] ++
      (if (s.mproc c).flags.vfsCall then [] else [.life c .freed]) := by
  rw [Pm.collected]
  cases (s.mproc c).flags.vfsCall with
  | true => simp [report_log]
  | false => simp [cleanup, Pm.emit, Pm.modify, Pm.set, report_log]

theorem collected_inUse (h : Base E D s) (hc : (s.mproc c).flags.inUse = true)
    (hx : (s.mproc c).flags.exiting = true) :
    ((s.collected c).mproc c).flags.inUse = (s.mproc c).flags.vfsCall := by
  rw [Pm.collected]
  cases (s.mproc c).flags.vfsCall with
  | true => rw [if_pos rfl, report_mproc (h.parent_ne hc hx)]; exact hc
  | false => rw [if_neg (by simp), cleanup_mproc, if_pos rfl]

/-- What a report leaves of the other processes. -/
theorem collected_life {d : Slot n} (hd : d ≠ c) :
    ((s.collected c).mproc d).life = (s.mproc d).life := by
  have hreport : ((s.report c).mproc d).life = (s.mproc d).life := by
    rw [show (s.report c).mproc d = (s.wake (s.mproc c).parent (s.mproc c).pid
      (s.mproc c).status).mproc d by simp [Pm.report, hd], wake_mproc]
    split
    · rename_i hdp
      rw [hdp]; rfl
    · rfl
  rw [Pm.collected]
  split
  · exact hreport
  · rw [cleanup_mproc, if_neg hd]; exact hreport

/-- **WHAT `waitpid` ANSWERS**: no qualifying process is an error; without
    news the caller blocks or gets 0; else the death in the lowest slot is
    reported with its status and signal, and a slot VFS is done with is
    free at once. -/
theorem waitpid_outcome (sig : Slot n → Signal → Act n) {xs : List (Step n)} {s₀ : Pm n}
    (who : Slot n) (pid : Int) {pidarg : Int} (wnohang : Bool) (h : Boot E s₀)
    (hrun : runAll (step E) s₀ xs = .ok s)
    (harg : pidarg = if pid = 0 then -(s.mproc who).procgrp else pid) :
    ((∀ c, qualifies who pidarg (s.mproc c) = false) →
      doWaitpid E sig pid wnohang { s with mp := who } =
        .ok (.fails .echild, { s with mp := who })) ∧
    ((∃ c, qualifies who pidarg (s.mproc c) = true) → (∀ c, ¬Due E who pidarg (s.mproc c)) →
      doWaitpid E sig pid wnohang { s with mp := who } =
        .ok (if wnohang then (.value 0, { s with mp := who }) else
          (.suspend, ({ s with mp := who } : Pm n).modify who (Mproc.awaits pidarg)))) ∧
    ∀ c, (∀ d < c, ¬Due E who pidarg (s.mproc d)) → qualifies who pidarg (s.mproc c) = true →
      (s.mproc c).parent = who → (s.mproc c).flags.zombie = true →
      ∃ s' w, doWaitpid E sig pid wnohang { s with mp := who } = .ok (.suspend, s') ∧
        Tells w (s.mproc c).exitStatus (s.mproc c).sigStatus ∧
        s'.log = s.log ++ [.reply who (.value (s.mproc c).pid) w, .life c .reported] ++
            (if (s.mproc c).flags.vfsCall then [] else [.life c .freed]) ∧
        (s'.mproc c).flags.inUse = (s.mproc c).flags.vfsCall ∧
        ∀ d, d ≠ c → (s'.mproc d).life = (s.mproc d).life := by
  have hs : Sound E Nobody { s with mp := who } := ((run_yields xs h).1 s hrun).1.same rfl rfl
  refine ⟨fun hq => doWaitpid_echild sig wnohang harg hq, fun ⟨c, hc⟩ hno => ?_,
    fun c hbefore hq hp hz => ?_⟩
  · exact doWaitpid_idle sig (c := c) wnohang harg hc hno
  · have hu := qualifies_inUse hq
    have hx := ((hs.base.wf c hu).zombie hz).1
    refine ⟨Pm.collected { s with mp := who } c, (s.mproc c).status,
      doWaitpid_zombie sig wnohang hs.base harg hbefore hq hp hz, status_tells _, ?_,
      collected_inUse hs.base hu hx, fun d hd => collected_life hd⟩
    rw [← hp]
    exact collected_log

theorem waitpid_outcome_smallRun :
    (∃ s, runAll (step smallEnv) smallBoot (smallRun.take 3) = .ok s ∧
      doWaitpid smallEnv (sigProc smallEnv 3) (-1) false { s with mp := 1 } =
        .ok (.suspend, ({ s with mp := 1 } : Pm 2).modify 1 (Mproc.awaits (-1)))) ∧
    ∃ s, runAll (step smallEnv) smallBoot (smallRun.take 5) = .ok s ∧
      ∃ s' w, doWaitpid smallEnv (sigProc smallEnv 3) (-1) false { s with mp := 1 } =
        .ok (.suspend, s') ∧ Tells w 7 0 ∧ (s'.mproc 2).flags.inUse = false := by
  refine ⟨?_, ?_⟩
  · obtain ⟨s, hrun, hp⟩ := ok_of_any (x := runAll (step smallEnv) smallBoot (smallRun.take 3))
      (p := fun s => decide (qualifies 1 (-1) (s.mproc 2) = true ∧
        ∀ c, ¬Due smallEnv 1 (-1) (s.mproc c))) (by decide)
    obtain ⟨hq, hno⟩ := of_decide_eq_true hp
    exact ⟨s, hrun, (waitpid_outcome (sigProc smallEnv 3) 1 (-1) false smallBoot_boot hrun
      (show (-1 : Int) = if (-1 : Int) = 0 then -(s.mproc 1).procgrp else -1 from rfl)).2.1
      ⟨2, hq⟩ hno⟩
  · obtain ⟨s, hrun, hp⟩ := ok_of_any (x := runAll (step smallEnv) smallBoot (smallRun.take 5))
      (p := fun s => decide ((∀ d < 2, ¬Due smallEnv 1 (-1) (s.mproc d)) ∧
        qualifies 1 (-1) (s.mproc 2) = true ∧ (s.mproc 2).parent = 1 ∧
        (s.mproc 2).flags.zombie = true ∧ (s.mproc 2).exitStatus = 7 ∧
        (s.mproc 2).sigStatus = 0 ∧ (s.mproc 2).flags.vfsCall = false)) (by decide)
    obtain ⟨hbefore, hq, hparent, hz, hstatus, hsig, hv⟩ := of_decide_eq_true hp
    obtain ⟨s', w, hok, htells, -, hfree, -⟩ :=
      (waitpid_outcome (sigProc smallEnv 3) 1 (-1) false smallBoot_boot hrun
        (show (-1 : Int) = if (-1 : Int) = 0 then -(s.mproc 1).procgrp else -1 from rfl)).2.2 2
        hbefore hq hparent hz
    rw [hstatus, hsig] at htells
    exact ⟨s, hrun, s', w, hok, htells, hfree.trans hv⟩

end OsForkExit
