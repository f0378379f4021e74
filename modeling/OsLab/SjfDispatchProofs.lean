import OsLab.SjfServiceProofs

/-! # Whom the CPU takes

    An idle CPU asks `find_next` for the shortest CPU burst and gives the
    turn up when the answer is in service at the I/O device.  But
    `find_next` passes over the process that `cpu.curr_pid` still names, and
    looks at processes in I/O service as well, so the turn can go to another
    process than the shortest ready one, or to none. -/

namespace SjfDispatch

open OsLoop OsGantt SjfModel SjfTurn SjfService

/-- The device is serving process `p`. -/
def InService (d : Device) (p : Nat) : Prop := d.idle = false ∧ d.currPid = some p

/-- An arrived process whose next burst is for the CPU and which is not in
    I/O service. -/
def Ready (s : State) (p : Nat) : Prop :=
  p < s.j ∧ (s.processLog p).arrivalTime ≤ s.time ∧
    (∃ node ∈ (s.proc p).head?, node.type = .C) ∧ ¬ InService s.ioDevice p

/-- The policy: the CPU takes the ready process with the shortest burst, the
    lowest pid on ties, and nothing when no process is ready. -/
structure Policy (s : State) : Prop where
  shortest : ∀ p, Best (Ready s) (headVal s) p → onCpu s = some p
  nothing : (∀ p, ¬ Ready s p) → onCpu s = none

/-- The shortest ready process is not the one `cpu.curr_pid` names, unless
    the simulation just begins, and no process in I/O service that is a
    candidate comes before it. -/
def Unobstructed (s : State) : Prop :=
  ∀ p, Best (Ready s) (headVal s) p → (s.time = 0 ∨ s.cpu.currPid ≠ some p) ∧
    ∀ q, InService s.ioDevice q → Candidate s .C q →
      headVal s p < headVal s q ∨ (headVal s p = headVal s q ∧ p ≤ q)

section Dispatch

variable {lines : List Line} {chart : Chart} {s : State} {p : Nat}

/-- Arrivals are sorted, so that everyone before an arrived process has
    arrived. -/
theorem arrived_of (hwf : WellFormed lines) (h : Inv lines chart s) (hp : p < s.j)
    (harr : (s.processLog p).arrivalTime ≤ s.time) : Arrived s p := by
  intro q hq
  have hp' : p < lines.length := h.j ▸ hp
  have hq' : q < lines.length := lt_of_le_of_lt hq hp'
  rw [h.arrival p _ (List.getElem?_eq_getElem hp')] at harr
  rw [h.arrival q _ (List.getElem?_eq_getElem hq')]
  rcases Nat.lt_or_eq_of_le hq with hlt | rfl
  · exact le_trans (List.pairwise_iff_getElem.mp hwf.sorted q p hq' hp' hlt) harr
  · exact harr

/-- A ready process is a candidate unless `cpu.curr_pid` names it. -/
theorem Ready.candidate (hwf : WellFormed lines) (h : Inv lines chart s) (hr : Ready s p)
    (hfree : s.time = 0 ∨ s.cpu.currPid ≠ some p) : Candidate s .C p := by
  obtain ⟨hp, harr, ⟨node, hnode, htype⟩, -⟩ := hr
  have hmem : node ∈ s.proc p := List.mem_of_mem_head? hnode
  refine ⟨hp, arrived_of hwf h hp harr, ⟨node, hnode, htype, ?_⟩, ?_⟩
  · exact (Inv.range hwf h.kept (h.j ▸ hp) hmem).2
  · exact hfree.imp id Ne.symm

/-- A candidate is ready or in I/O service. -/
theorem Candidate.ready (hc : Candidate s .C p) : Ready s p ∨ InService s.ioDevice p := by
  obtain ⟨hp, harr, ⟨node, hnode, htype, -⟩, -⟩ := hc
  by_cases hio : InService s.ioDevice p
  · exact Or.inr hio
  · exact Or.inl ⟨hp, harr p (le_refl p), ⟨node, hnode, htype⟩, hio⟩

/-- The test on the I/O device tells whether it serves the process. -/
theorem inService_iff (h : Inv lines chart s) :
    InService s.ioDevice p ↔ s.ioDevice.currPid = some p ∧ 1 ≤ s.ioDevice.timeLeft := by
  constructor
  · exact fun hio => ⟨hio.2, (h.io.busy hio.1).1⟩
  · rintro ⟨hpid, hleft⟩
    refine ⟨?_, hpid⟩
    cases hidle : s.ioDevice.idle with
    | false => rfl
    | true =>
        have := h.io.left hidle
        omega

/-- With nobody ready the CPU takes nobody. -/
theorem none_of_not_ready (h : Inv lines chart s) (hidle : s.cpu.idle = true)
    (hno : ∀ p, ¬ Ready s p) : onCpu s = none := by
  rw [onCpu, if_pos hidle]
  refine Option.eq_none_iff_forall_ne_some.mpr (fun p hp => ?_)
  obtain ⟨hfind, hio⟩ := cpuNext_some.mp hp
  rcases Candidate.ready (findNext_some hfind).1 with hr | hser
  · exact hno p hr
  · exact hio ((inService_iff h).mp hser)

/-- The CPU takes a ready process when it is the best candidate. -/
theorem onCpu_ready (h : Inv lines chart s) (hidle : s.cpu.idle = true) (hr : Ready s p) :
    onCpu s = some p ↔ Best (Candidate s .C) (headVal s) p := by
  rw [onCpu, if_pos hidle, cpuNext_some]
  constructor
  · exact fun hp => findNext_some hp.1
  · intro hbest
    refine ⟨?_, fun hio => hr.2.2.2 ((inService_iff h).mpr hio)⟩
    rcases findNext_spec s .C with ⟨q, hq, hq'⟩ | ⟨-, hno⟩
    · rw [hbest.unique hq']
      exact hq
    · exact absurd hbest.1 (hno p)

/-- **THE POLICY IS KEPT** in a turn with an idle CPU if and only if the
    shortest ready process is not obstructed. -/
theorem dispatch_exact (hwf : WellFormed lines) {s₀ : State} (hload : load lines = .ok s₀)
    (hv : Visits tick s₀ s) (hidle : s.cpu.idle = true) : Policy s ↔ Unobstructed s := by
  obtain ⟨-, rfl⟩ := load_ok.mp hload
  obtain ⟨chart, h⟩ := inv_of_visits hwf hload hv
  constructor
  · intro hpol p hp
    -- what is dispatched is the best of all candidates, obstructing ones included
    have hbest := (onCpu_ready h hidle hp.1).mp (hpol.shortest p hp)
    exact ⟨hbest.1.2.2.2.imp id Ne.symm, fun q _ hq => hbest.2 q hq⟩
  · intro hun
    refine ⟨fun p hp => ?_, none_of_not_ready h hidle⟩
    obtain ⟨hfree, hbefore⟩ := hun p hp
    refine (onCpu_ready h hidle hp.1).mpr ⟨Ready.candidate hwf h hp.1 hfree, fun q hq => ?_⟩
    rcases Candidate.ready hq with hr | hser
    · exact hp.2 q hr
    · exact hbefore q hser hq

end Dispatch

theorem dispatch_exact_start :
    Policy (loaded twoLines) ↔ Unobstructed (loaded twoLines) :=
  dispatch_exact (by decide) (load_ok.mpr ⟨by decide, rfl⟩) .refl rfl

/-- **THE LATE PROCESS IS PASSED OVER**: at time 1 the CPU is idle and the
    only process is ready, and nothing is dispatched, for `cpu.curr_pid` is
    0 from the start. -/
theorem dispatch_passes_over : ∃ s, WellFormed lateLine ∧
    load lateLine = .ok (loaded lateLine) ∧ Visits tick (loaded lateLine) s ∧ s.time = 1 ∧
    s.cpu.idle = true ∧ Best (Ready s) (headVal s) 0 ∧ onCpu s = none ∧ ¬ Policy s := by
  obtain ⟨s, hs, htime, hidle, hj, harr, hhead, hio, hnone⟩ : ∃ s,
      tick (loaded lateLine) = .ok (.again s) ∧ s.time = 1 ∧ s.cpu.idle = true ∧ s.j = 1 ∧
        (s.processLog 0).arrivalTime = 1 ∧ (s.proc 0).head? = some ⟨3, .C, 0⟩ ∧
        s.ioDevice.idle = true ∧ onCpu s = none :=
    ⟨_, rfl, rfl, rfl, rfl, rfl, rfl, rfl, rfl⟩
  have hready : Ready s 0 := by
    refine ⟨by omega, by omega, ⟨_, hhead, rfl⟩, fun hser => ?_⟩
    exact nomatch hio.symm.trans hser.1
  have hbest : Best (Ready s) (headVal s) 0 := by
    refine ⟨hready, fun q hq => Or.inr ?_⟩
    obtain rfl : q = 0 := by
      have := hq.1
      omega
    exact ⟨rfl, le_refl 0⟩
  refine ⟨s, by decide, load_ok.mpr ⟨by decide, rfl⟩, .single hs, htime, hidle, hbest, hnone,
    fun hpol => ?_⟩
  exact nomatch hnone.symm.trans (hpol.shortest 0 hbest)

end SjfDispatch
