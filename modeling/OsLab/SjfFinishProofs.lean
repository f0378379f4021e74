import OsLab.SjfTurnaroundProofs

/-! # When the simulation finishes

    Every device in service uses up one unit of the work that is left
    (`tick_work`), so the loop can only go on forever by turns in which
    neither device serves.  Once everyone has arrived, such a turn means
    that every list left over is that of the process `cpu.curr_pid` names.
    That process is passed over for both devices until the CPU takes
    another one.  From the moment no other list holds a CPU burst this
    cannot happen any more (`Blocked`).

    Besides, the clock and the time of a completion have to be `int`s, which
    the state before the turn tells (`Fits`).  The simulation finishes exactly
    when its input is read and it gets to no turn of either kind
    (`finishes_exact`). -/

namespace SjfFinish

open OsLoop OsGantt SjfModel SjfTurn SjfService SjfStatistics SjfTurnaround

/-- The input is read, and the main loop ends, with every burst list
    consumed. -/
def Finishes (lines : List Line) : Prop :=
  ∃ s₀, load lines = .ok s₀ ∧ ∃ fuel s, loop .endless tick fuel s₀ = .ok s ∧ Consumed s

/-- The CPU is idle, `cpu.curr_pid` names a process whose list is not empty,
    and no other list holds a CPU burst. -/
def Blocked (s : State) : Prop :=
  s.cpu.idle = true ∧ 0 < s.time ∧ ∃ p < s.j, s.cpu.currPid = some p ∧ s.proc p ≠ [] ∧
    ∀ q < s.j, q ≠ p → ∀ node ∈ s.proc q, node.type ≠ .C

/-- What the CPU has left once the turn from `s` has served a unit. -/
def cpuLeft (s : State) : Int :=
  if s.cpu.idle then
    match cpuNext s with
    | none => s.cpu.timeLeft
    | some p => headVal s p - 1
  else s.cpu.timeLeft - 1

/-- In the turn from `s` a device takes the last burst of `p`. -/
def TakesLast (s : State) (p : Nat) : Prop :=
  (s.proc p).length = 1 ∧
    ((s.cpu.idle = true ∧ onCpu s = some p) ∨ (s.ioDevice.idle = true ∧ onIo s = some p))

/-- The clock has not come to the largest `int`, and when the last burst of a
    process is taken, the time at which the CPU will have served what it has
    left is an `int`. -/
def Fits (s : State) : Prop :=
  s.time < intMax ∧ ∀ p < s.j, TakesLast s p → s.time + cpuLeft s ≤ intMax

/-! ## The work that is left -/

/-- The units on a list. -/
def units (ns : List ProcessNode) : Int := (ns.map ProcessNode.val).sum

/-- The units on all lists. -/
def onLists (j : Nat) (proc : Nat → List ProcessNode) : Int := ∑ k ∈ Finset.range j, units (proc k)

/-- All units that have not been served. -/
def workLeft (s : State) : Int := onLists s.j s.proc + s.cpu.timeLeft + s.ioDevice.timeLeft

/-- One unit is served, or none. -/
def unitOf (who : Option Nat) : Int := if who = none then 0 else 1

section Work

variable {m : BurstType} {d d' : Device} {chart : Chart} {t : Int} {next who : Option Nat}
  {proc proc' : Nat → List ProcessNode} {j : Nat}

theorem onLists_update {p : Nat} (hp : p < j) {node : ProcessNode} {later : List ProcessNode}
    (hhead : proc p = node :: later) :
    onLists j (Function.update proc p later) + node.val = onLists j proc := by
  have hmem : p ∈ Finset.range j := Finset.mem_range.mpr hp
  rw [onLists, onLists, ← Finset.add_sum_erase _ _ hmem, ← Finset.add_sum_erase _ _ hmem]
  have hrest : ∑ k ∈ (Finset.range j).erase p, units (Function.update proc p later k) =
      ∑ k ∈ (Finset.range j).erase p, units (proc k) := by
    refine Finset.sum_congr rfl (fun k hk => ?_)
    rw [Function.update_of_ne (Finset.ne_of_mem_erase hk)]
  have hunits : units (proc p) = node.val + units later := by
    rw [hhead, units, List.map_cons, List.sum_cons]
    rfl
  rw [hrest, Function.update_self, hunits]
  omega

/-- **A UNIT IS SERVED** when the device serves. -/
theorem step_work (hstep : Step d d' proc proc' next who) (h : Served m d chart t)
    (hnext : ∀ {p}, next = some p → p < j) :
    onLists j proc' + d'.timeLeft + unitOf who = onLists j proc + d.timeLeft := by
  cases hstep with
  | rest hidle hnone hd hproc =>
      rw [hd, hproc, unitOf, if_pos rfl, add_zero]
  | take p node later hidle hp hhead hd hproc =>
      -- the head comes off its list, and all but one unit of it is left
      have hleft := h.left hidle
      have hlists := onLists_update (hnext hp) hhead
      rw [hd, hproc, unitOf, if_neg (fun he => nomatch he)]
      show _ + (node.val - 1) + 1 = _
      omega
  | serve p hbusy hpid hleft hidle hkeep hproc =>
      rw [hproc, unitOf, if_neg (fun he => nomatch he)]
      omega

theorem units_kind {ns ns' : List ProcessNode} (h : ns.map kind = ns'.map kind) :
    units ns = units ns' := by
  have hsnd : ∀ ns : List ProcessNode, ns.map ProcessNode.val = (ns.map kind).map Prod.snd := by
    intro ns
    rw [List.map_map]
    rfl
  rw [units, units, hsnd, hsnd, h]

end Work

section Turns

variable {lines : List Line} {chart : Chart} {s s₁ s₂ : State}

/-- **EVERY DEVICE IN SERVICE USES UP A UNIT** of the work that is left. -/
theorem tick_work (hwf : WellFormed lines) (h : Inv lines chart s) (ht : Turned s s₁ s₂) :
    workLeft (endTurn s₂) + unitOf (onCpu s) + unitOf (onIo s) = workLeft s := by
  have hj₁ : s₁.j = s.j := ht.clock₁.j
  have hcpu := step_work (j := s.j) ht.cpu h.cpu
    (fun hp => (findNext_some (cpuNext_some.mp hp).1).1.1)
  have hio := step_work (j := s.j) ht.io (cpu_half hwf h ht).io
    (fun hp => hj₁ ▸ (findNext_some (ioNext_some.mp hp).1).1.1)
  have hlists : onLists (endTurn s₂).j (endTurn s₂).proc = onLists s.j s₂.proc := by
    have hj : (endTurn s₂).j = s.j := ht.clock₂.j.trans hj₁
    rw [hj]
    exact Finset.sum_congr rfl (fun k _ => units_kind (endTurn_kind s₂ k))
  have hleft : (endTurn s₂).cpu.timeLeft = s₁.cpu.timeLeft := by
    show s₂.cpu.timeLeft = _
    rw [ht.cpu₂]
  rw [workLeft, workLeft, hlists, hleft]
  show _ + s₂.ioDevice.timeLeft + _ + _ = _
  omega

theorem left_nonneg {m : BurstType} {d : Device} {t : Int} (h : Served m d chart t) :
    0 ≤ d.timeLeft := by
  cases hidle : d.idle with
  | true => exact le_of_eq (h.left hidle).symm
  | false =>
      have := (h.busy hidle).1
      omega

theorem work_nonneg (hwf : WellFormed lines) (h : Inv lines chart s) : 0 ≤ workLeft s := by
  have hlists : 0 ≤ onLists s.j s.proc := by
    refine Finset.sum_nonneg (fun k hk => List.sum_nonneg (fun v hv => ?_))
    obtain ⟨node, hnode, rfl⟩ := List.mem_map.mp hv
    exact (Inv.range hwf h.kept (h.j ▸ Finset.mem_range.mp hk) hnode).1.le
  have hcpu := left_nonneg h.cpu
  have hio := left_nonneg h.io
  rw [workLeft]
  omega

/-! ## Turns without service -/

/-- A device that serves nobody is idle, and stays as it is. -/
theorem step_still {d d' : Device} {proc proc' : Nat → List ProcessNode} {next : Option Nat}
    (h : Step d d' proc proc' next none) : d.idle = true ∧ next = none ∧ d' = d ∧ proc' = proc := by
  cases h with
  | rest hidle hnext hd hproc => exact ⟨hidle, hnext, hd, hproc⟩

/-- **NOBODY IS SERVED** although everyone has arrived and some list is left:
    the simulation is blocked. -/
theorem blocked_of_still (hwf : WellFormed lines) (h : Inv lines chart s) (ht : Turned s s₁ s₂)
    (harr : ∀ p < s.j, (s.processLog p).arrivalTime ≤ s.time) (hcpu : onCpu s = none)
    (hio : onIo s = none) (hleft : ¬ Consumed s) : Blocked s := by
  have hstepC := ht.cpu
  have hstepI := ht.io
  rw [hcpu] at hstepC hstepI
  rw [hio] at hstepI
  obtain ⟨hidle, hnextC, hcpu₁, hproc₁⟩ := step_still hstepC
  obtain ⟨hidleI, hnextI, -, -⟩ := step_still hstepI
  have hnoC : ∀ q, ¬ Candidate s .C q := by
    rcases findNext_spec s .C with ⟨r, hr, -⟩ | ⟨-, hno⟩
    · have hguard : ¬ (s.ioDevice.currPid = some r ∧ 1 ≤ s.ioDevice.timeLeft) := fun hg => by
        have := h.io.left hidleI
        omega
      rw [cpuNext_some.mpr ⟨hr, hguard⟩] at hnextC
      cases hnextC
    · exact hno
  have hnoI : ∀ q, ¬ Candidate s₁ .I q := by
    rcases findNext_spec s₁ .I with ⟨r, hr, -⟩ | ⟨-, hno⟩
    · have htaken : ioNext s₁ none = some r := ioNext_some.mpr ⟨hr, Option.some_ne_none r |>.symm⟩
      cases hnextI.symm.trans htaken
    · exact hno
  -- the process of a list that is left is the one `cpu.curr_pid` names
  have hnamed : ∀ p < s.j, s.proc p ≠ [] → s.time ≠ 0 ∧ s.cpu.currPid = some p := by
    intro p hp hne
    obtain ⟨node, later, hhead⟩ := List.exists_cons_of_ne_nil hne
    have hmem : node ∈ s.proc p := by rw [hhead]; exact List.mem_cons_self
    have hval := (Inv.range hwf h.kept (h.j ▸ hp) hmem).2
    have hall : Arrived s p := fun q hq => harr q (lt_of_le_of_lt hq hp)
    have hmemhead : node ∈ (s.proc p).head? := by rw [hhead]; rfl
    -- otherwise its head would be a candidate for one of the devices
    by_contra hfree
    have hfree' : s.time = 0 ∨ some p ≠ s.cpu.currPid := by
      by_cases h0 : s.time = 0
      · exact Or.inl h0
      · exact Or.inr (fun he => hfree ⟨h0, he.symm⟩)
    cases htype : node.type with
    | C => exact hnoC p ⟨hp, hall, ⟨node, hmemhead, htype, hval⟩, hfree'⟩
    | I =>
        refine hnoI p ⟨ht.clock₁.j ▸ hp, fun q hq => ?_, ⟨node, hproc₁ ▸ hmemhead, htype, hval⟩, ?_⟩
        · rw [ht.clock₁.arrival, ht.clock₁.time]
          exact hall q hq
        · rw [ht.clock₁.time, hcpu₁]
          exact hfree'
  obtain ⟨p, hp, hne⟩ : ∃ p, p < s.j ∧ s.proc p ≠ [] := by
    by_contra hall
    exact hleft (fun k hk => by_contra fun hne => hall ⟨k, hk, hne⟩)
  obtain ⟨h0, hpid⟩ := hnamed p hp hne
  have htime := h.time
  refine ⟨hidle, by omega, p, hp, hpid, hne, fun q hq hqp node hnode => ?_⟩
  have hpid' := (hnamed q hq (List.ne_nil_of_mem hnode)).2
  exact absurd (Option.some.inj (hpid'.symm.trans hpid)) hqp

/-- A list whose process is not taken stays as it is. -/
theorem step_other {d d' : Device} {proc proc' : Nat → List ProcessNode} {next who : Option Nat}
    (h : Step d d' proc proc' next who) {q : Nat} (hq : next ≠ some q) : proc' q = proc q := by
  cases h with
  | rest hidle hnext hd hproc => rw [hproc]
  | take p n later hidle hnext hhead hd hproc =>
      have hqp : q ≠ p := fun he => hq (he ▸ hnext)
      rw [hproc, Function.update_of_ne hqp]
  | serve p hbusy hpid hleft hidle hkeep hproc => rw [hproc]

/-- **ONCE BLOCKED, ALWAYS BLOCKED**: neither device takes the process that
    `cpu.curr_pid` names, and the CPU has nobody else to take. -/
theorem blocked_turn (ht : Turned s s₁ s₂) (h : Blocked s) :
    Blocked (endTurn s₂) ∧ ¬ Consumed (endTurn s₂) := by
  obtain ⟨hidle, htime, p, hp, hpid, hne, hothers⟩ := h
  have hj : (endTurn s₂).j = s.j := ht.clock₂.j.trans ht.clock₁.j
  have hnextC : cpuNext s = none := by
    refine Option.eq_none_iff_forall_ne_some.mpr (fun q hq => ?_)
    have hc := (findNext_some (cpuNext_some.mp hq).1).1
    obtain ⟨node, later, hhead, htype, -⟩ := hc.cons
    have hqp : q ≠ p := by
      rintro rfl
      exact (hc.2.2.2.resolve_left (by omega)) hpid.symm
    exact hothers q hc.1 hqp node (by rw [hhead]; exact List.mem_cons_self) htype
  have hcpu : s₁.cpu = s.cpu ∧ s₁.proc = s.proc := by
    have hstep := ht.cpu
    rw [onCpu, if_pos hidle, hnextC] at hstep
    obtain ⟨-, -, h1, h2⟩ := step_still hstep
    exact ⟨h1, h2⟩
  -- the I/O device leaves the list of `p` alone
  have hkeep : s₂.proc p = s.proc p := by
    rw [← hcpu.2]
    refine step_other ht.io (fun hq => ?_)
    have hc := (findNext_some (ioNext_some.mp hq).1).1.2.2.2
    rw [ht.clock₁.time, hcpu.1] at hc
    exact (hc.resolve_left (by omega)) hpid.symm
  have hne' : (endTurn s₂).proc p ≠ [] := by
    intro he
    have hkind := endTurn_kind s₂ p
    rw [he, hkeep] at hkind
    exact hne (List.map_eq_nil_iff.mp hkind.symm)
  have hcpu' : (endTurn s₂).cpu = s.cpu := by
    show s₂.cpu = s.cpu
    rw [ht.cpu₂, hcpu.1]
  refine ⟨⟨?_, ?_, p, hj ▸ hp, ?_, hne', fun q hq hqp node hnode htype => ?_⟩,
    fun hall => hne' (hall p (hj ▸ hp))⟩
  · rw [hcpu']
    exact hidle
  · show 0 < s₂.time + 1
    rw [ht.clock₂.time, ht.clock₁.time]
    omega
  · rw [hcpu']
    exact hpid
  · have hmem : kind node ∈ (s₂.proc q).map kind := by
      rw [← endTurn_kind]
      exact List.mem_map_of_mem hnode
    obtain ⟨n, hn, heq⟩ := List.mem_map.mp hmem
    have hn' : n ∈ s.proc q := hcpu.2 ▸ step_mem ht.io hn
    have htype' : n.type = node.type := congrArg Prod.fst heq
    exact hothers q (hj ▸ hq) hqp n hn' (htype'.trans htype)

end Turns

/-! ## The sums at the end of a turn -/

section Ends

variable {lines : List Line} {past : List State} {s s₁ s₂ : State} {d d' : Device}
  {proc proc' : Nat → List ProcessNode} {next who : Option Nat} {q : Nat}

theorem left_eq (ht : Turned s s₁ s₂) : s₂.cpu.timeLeft = cpuLeft s := by
  have hstep := ht.cpu
  rw [ht.cpu₂, cpuLeft]
  generalize onCpu s = who at hstep
  cases hstep with
  | rest hidle hnext hd hproc => rw [if_pos hidle, hnext, hd]
  | take p node later hidle hnext hhead hd hproc =>
      rw [if_pos hidle, hnext, hd]
      dsimp only
      rw [headVal_cons hhead]
      rfl
  | serve p hbusy hpid hleft hidle hkeep hproc =>
      rw [if_neg (by rw [hbusy]; exact Bool.false_ne_true), hleft]

/-- A list gets empty when an idle device takes its last burst. -/
theorem step_empty (h : Step d d' proc proc' next who) : proc' q = [] ↔
    proc q = [] ∨ ((proc q).length = 1 ∧ d.idle = true ∧ who = some q) := by
  cases h with
  | rest hidle hnext hd hproc =>
      rw [hproc]
      exact ⟨Or.inl, fun hor => hor.resolve_right
        (fun htaken => Option.some_ne_none q htaken.2.2.symm)⟩
  | take p node later hidle hnext hhead hd hproc =>
      rw [hproc]
      by_cases hqp : q = p
      · subst hqp
        rw [Function.update_self, hhead, List.length_cons, Nat.add_eq_right, List.length_eq_zero_iff]
        constructor
        · exact fun hnil => Or.inr ⟨hnil, hidle, rfl⟩
        · exact fun hor => (hor.resolve_left (List.cons_ne_nil _ _)).1
      · rw [Function.update_of_ne hqp]
        exact ⟨Or.inl, fun hor => hor.resolve_right
          (fun htaken => hqp (Option.some.inj htaken.2.2).symm)⟩
  | serve p hbusy hpid hleft hidle hkeep hproc =>
      rw [hproc]
      exact ⟨Or.inl, fun hor => hor.resolve_right
        (fun htaken => Bool.false_ne_true (hbusy.symm.trans htaken.2.1))⟩

/-- A list whose process is not served stays as it is. -/
theorem step_unserved (h : Step d d' proc proc' next who) (hq : who ≠ some q) :
    proc' q = proc q := by
  cases h with
  | rest hidle hnext hd hproc => rw [hproc]
  | take p node later hidle hnext hhead hd hproc =>
      have hqp : q ≠ p := fun he => hq (congrArg some he.symm)
      rw [hproc, Function.update_of_ne hqp]
  | serve p hbusy hpid hleft hidle hkeep hproc => rw [hproc]

/-- The turn empties the list whose last burst it takes. -/
theorem emptied_iff (hwf : WellFormed lines) (h : TurnFrom lines past s s₁ s₂)
    (hlist : s.proc q ≠ []) : s₂.proc q = [] ↔ TakesLast s q := by
  have hapart := (inv_turn hwf h.inv h.turned).1.apart q
  rw [step_empty h.turned.io, step_empty h.turned.cpu, or_iff_right hlist, TakesLast]
  constructor
  · rintro (⟨hone, hidle, hcpu⟩ | ⟨hone, hidle, hio⟩)
    · exact ⟨hone, Or.inl ⟨hidle, hcpu⟩⟩
    · rw [step_unserved h.turned.cpu (fun hcpu => hapart ⟨hcpu, hio⟩)] at hone
      exact ⟨hone, Or.inr ⟨hidle, hio⟩⟩
  · rintro ⟨hone, ⟨hidle, hcpu⟩ | ⟨hidle, hio⟩⟩
    · exact Or.inl ⟨hone, hidle, hcpu⟩
    · rw [step_unserved h.turned.cpu (fun hcpu => hapart ⟨hcpu, hio⟩)]
      exact Or.inr ⟨hone, hidle, hio⟩

/-- **WHEN THE END OF A TURN OVERFLOWS** is told by the state before it. -/
theorem overflows_iff (hwf : WellFormed lines) (h : TurnFrom lines past s s₁ s₂)
    (hnoted : ∀ p l, lines[p]? = some l → Noted past s p) : Overflows s₂ ↔ ¬ Fits s := by
  have hj : s₂.j = s.j := h.turned.clock₂.j.trans h.turned.clock₁.j
  have hleft : s₂.cpu.timeLeft = cpuLeft s := left_eq h.turned
  have hlast : ∀ p < s.j, s₂.proc p = [] ∧ (s₂.processLog p).lastTime < 0 ↔ TakesLast s p := by
    intro p hp
    have hl : lines[p]? = some _ := List.getElem?_eq_getElem (h.inv.j ▸ hp)
    rw [(turn_records h p).last, (hnoted p _ hl).pending hwf h.inv]
    constructor
    · exact fun hboth => (emptied_iff hwf h hboth.2).mp hboth.1
    · intro htakes
      have hlist : s.proc p ≠ [] := fun hnil => by
        rw [TakesLast, hnil] at htakes
        exact nomatch htakes.1
      exact ⟨(emptied_iff hwf h hlist).mpr htakes, hlist⟩
  rw [Overflows, Fits, h.turned.time, hj, hleft, not_and_or, not_lt]
  refine or_congr Iff.rfl ?_
  rw [not_forall]
  constructor
  · rintro ⟨p, hp, hempty, hneg, hsum⟩
    exact ⟨p, fun hall => not_le.mpr hsum (hall hp ((hlast p hp).mp ⟨hempty, hneg⟩))⟩
  · rintro ⟨p, hno⟩
    rw [Classical.not_imp, Classical.not_imp, not_le] at hno
    obtain ⟨hp, htakes, hsum⟩ := hno
    obtain ⟨hempty, hneg⟩ := (hlast p hp).mpr htakes
    exact ⟨p, hp, hempty, hneg, hsum⟩

end Ends

/-! ## Runs -/

section Run

variable {lines : List Line} {s : State}

/-- A turn from a visited state. -/
theorem visited_turn (hwf : WellFormed lines) (hbursts : ∀ l ∈ lines, l.bursts ≠ [])
    (hload : load lines = .ok (loaded lines)) (hv : Visits tick (loaded lines) s) :
    ∃ past s₁ s₂, TurnFrom lines past s s₁ s₂ ∧ (Overflows s₂ ↔ ¬ Fits s) ∧
      tick s = ending s₂ := by
  obtain ⟨past, hturns⟩ := turns_of_visits hload hv
  obtain ⟨hinv, hnoted⟩ := hturns.inv
    (I := fun past s => ∀ p l, lines[p]? = some l → Noted past s p) hwf
    (fun p l hl => noted_loaded hl (hbursts l (List.mem_of_getElem? hl)))
    (fun past s s₁ s₂ hturn hI p l hl => noted_turn hwf hturn hl (hI p l hl))
  obtain ⟨s₁, s₂, ht, htick⟩ := tick_spec hinv.cpu.named hinv.io.named
  have hfrom : TurnFrom lines past s s₁ s₂ := ⟨hinv, ht⟩
  exact ⟨past, s₁, s₂, hfrom, overflows_iff hwf hfrom hnoted, htick⟩

/-- A loop that gets blocked does not end. -/
theorem blocked_forever (hwf : WellFormed lines) (hbursts : ∀ l ∈ lines, l.bursts ≠ [])
    (hv : Visits tick (loaded lines) s) (hb : Blocked s) : ¬ Finishes lines := by
  rintro ⟨s₀, hload, fuel, r, hloop, -⟩
  obtain ⟨hloads, rfl⟩ := load_ok.mp hload
  have hstays : ∀ x x', Visits tick (loaded lines) x → Blocked x → tick x = .ok (.again x') →
      Blocked x' := by
    intro x x' hx hbx hagain
    obtain ⟨past, s₁, s₂, hturn, -, htick⟩ := visited_turn hwf hbursts hload hx
    obtain ⟨rfl, -, -⟩ := ending_again (htick.symm.trans hagain)
    exact (blocked_turn hturn.turned hbx).1
  obtain ⟨m, hloop'⟩ := loop_visits hv hloop
  obtain ⟨x, hvx, hdone⟩ := loop_ok hloop'
  obtain ⟨hx, hbx⟩ : Visits tick (loaded lines) x ∧ Blocked x := by
    refine visits_inv (I := fun x => Visits tick (loaded lines) x ∧ Blocked x) ?_ hvx ⟨hv, hb⟩
    rintro y z ⟨hy, hby⟩ hyz
    exact ⟨hy.tail hyz, hstays y z hy hby hyz⟩
  -- the turn that leaves the loop would have consumed every list
  obtain ⟨past, s₁, s₂, hturn, -, htick⟩ := visited_turn hwf hbursts hload hx
  obtain ⟨-, -, hall⟩ := ending_done (htick.symm.trans hdone)
  exact (blocked_turn hturn.turned hbx).2 hall

/-- A loop that ends has no turn whose end overflows. -/
theorem fits_of_finishes (hwf : WellFormed lines) (hbursts : ∀ l ∈ lines, l.bursts ≠ [])
    (hfin : Finishes lines) (hv : Visits tick (loaded lines) s) : Fits s := by
  obtain ⟨s₀, hload, fuel, r, hloop, -⟩ := hfin
  obtain ⟨-, rfl⟩ := load_ok.mp hload
  obtain ⟨past, s₁, s₂, -, hiff, htick⟩ := visited_turn hwf hbursts hload hv
  by_contra hno
  have hfail : tick s = .error .overflow := htick.trans (if_pos (hiff.mpr hno))
  obtain ⟨m, hloop'⟩ := loop_visits hv hloop
  cases m with
  | zero => cases hloop'
  | succ m =>
      rw [loop_fail hfail m] at hloop'
      cases hloop'

/-- A time by which everyone has arrived. -/
theorem exists_last (lines : List Line) : ∃ T : Int, ∀ l ∈ lines, l.arrival ≤ T := by
  induction lines with
  | nil => exact ⟨0, fun _ hl => nomatch hl⟩
  | cons l rest ih =>
      obtain ⟨T, hT⟩ := ih
      refine ⟨max l.arrival T, fun l' hl' => ?_⟩
      rcases List.mem_cons.mp hl' with rfl | hmem
      · exact le_max_left _ _
      · exact le_trans (hT l' hmem) (le_max_right _ _)

/-- How much there is still to wait and to serve. -/
def remaining (T : Int) (s : State) : Nat := (T - s.time).toNat + (workLeft s).toNat

/-- A turn from a state that is not blocked brings the end nearer. -/
theorem remaining_turn (hwf : WellFormed lines) {chart : Chart} {s₁ s₂ : State} {T : Int}
    (hT : ∀ l ∈ lines, l.arrival ≤ T) (h : Inv lines chart s) (ht : Turned s s₁ s₂)
    (hleft : ¬ Consumed s) (hb : ¬ Blocked s) : remaining T (endTurn s₂) < remaining T s := by
  have htime : (endTurn s₂).time = s.time + 1 := ht.endTime
  have hwork := tick_work hwf h ht
  have hpos := work_nonneg hwf h
  have hpos' := work_nonneg hwf (inv_turn hwf h ht).2
  have hunit : ∀ who, 0 ≤ unitOf who := by
    intro who
    rw [unitOf]
    split <;> decide
  have h1 := hunit (onCpu s)
  have h2 := hunit (onIo s)
  rw [remaining, remaining, htime]
  -- before `T` the waiting gets shorter, after it the work does
  by_cases hlate : s.time < T
  · omega
  · -- everyone has arrived, so somebody is served
    have harr : ∀ p < s.j, (s.processLog p).arrivalTime ≤ s.time := by
      intro p hp
      have hp' : p < lines.length := h.j ▸ hp
      rw [h.arrival p _ (List.getElem?_eq_getElem hp')]
      exact le_trans (hT _ (List.getElem_mem hp')) (not_lt.mp hlate)
    by_cases hcpu : onCpu s = none
    · by_cases hio : onIo s = none
      · exact absurd (blocked_of_still hwf h ht harr hcpu hio hleft) hb
      · have hone : unitOf (onIo s) = 1 := by rw [unitOf, if_neg hio]
        omega
    · have hone : unitOf (onCpu s) = 1 := by rw [unitOf, if_neg hcpu]
      omega

/-- **THE SIMULATION FINISHES** if and only if its input is read, and it is
    never blocked and comes to no sum that is no `int`. -/
theorem finishes_exact (hwf : WellFormed lines) (hsome : lines ≠ [])
    (hbursts : ∀ l ∈ lines, l.bursts ≠ []) :
    Finishes lines ↔ (∀ l ∈ lines, Loads l) ∧
      ∀ s, Visits tick (loaded lines) s → ¬ Blocked s ∧ Fits s := by
  constructor
  · intro hfin
    obtain ⟨s₀, hload, -⟩ := id hfin
    exact ⟨(load_ok.mp hload).1, fun s hv =>
      ⟨fun hb => blocked_forever hwf hbursts hv hb hfin, fits_of_finishes hwf hbursts hfin hv⟩⟩
  · rintro ⟨hloads, hnever⟩
    have hload : load lines = .ok (loaded lines) := load_ok.mpr ⟨hloads, rfl⟩
    obtain ⟨T, hT⟩ := exists_last lines
    have hstart : ¬ Consumed (loaded lines) := by
      obtain ⟨l, rest, rfl⟩ := List.exists_cons_of_ne_nil hsome
      intro hall
      have hkind := loaded_kind (show (l :: rest)[0]? = some l from rfl)
      rw [hall 0 (Nat.zero_lt_succ _), burstList] at hkind
      exact hbursts l List.mem_cons_self (List.mapIdx_eq_nil_iff.mp hkind.symm)
    have hend : ∃ r, loop .endless tick (remaining T (loaded lines) + 1) (loaded lines) = .ok r ∧
        Consumed r := by
      refine loop_total (I := fun x => Visits tick (loaded lines) x ∧ ¬ Consumed x)
        (remaining T) ?_ ⟨.refl, hstart⟩ (Nat.lt_succ_self _)
      rintro x ⟨hx, hleft⟩
      obtain ⟨past, s₁, s₂, hturn, hiff, htick⟩ := visited_turn hwf hbursts hload hx
      obtain ⟨hnb, hfits⟩ := hnever x hx
      rw [ending, if_neg (fun ho => hiff.mp ho hfits)] at htick
      by_cases hdone : Consumed (endTurn s₂)
      · rw [if_pos hdone] at htick
        exact Or.inl ⟨_, htick, hdone⟩
      · rw [if_neg hdone] at htick
        exact Or.inr ⟨_, htick, ⟨hx.tail htick, hdone⟩,
          remaining_turn hwf hT hturn.inv hturn.turned hleft hnb⟩
    exact ⟨_, hload, _, hend⟩

end Run

theorem finishes_exact_two : Finishes twoLines ↔ (∀ l ∈ twoLines, Loads l) ∧
    ∀ s, Visits tick (loaded twoLines) s → ¬ Blocked s ∧ Fits s :=
  finishes_exact (by decide) (by decide) (by decide)

/-- **A LATE PROCESS IS NEVER SERVED**: with one process that arrives at
    time 1 the loop goes on forever. -/
theorem late_never_finishes : WellFormed lateLine ∧ ¬ Finishes lateLine := by
  have hwf : WellFormed lateLine := by decide
  obtain ⟨s, hs, hidle, htime, hj, hpid, hhead⟩ : ∃ s,
      tick (loaded lateLine) = .ok (.again s) ∧ s.cpu.idle = true ∧ s.time = 1 ∧ s.j = 1 ∧
        s.cpu.currPid = some 0 ∧ s.proc 0 = [⟨3, .C, 0⟩] :=
    ⟨_, rfl, rfl, rfl, rfl, rfl, rfl⟩
  refine ⟨hwf, blocked_forever hwf (by decide) (.single hs)
    ⟨hidle, by omega, 0, by omega, hpid, ?_, ?_⟩⟩
  · rw [hhead]
    exact List.cons_ne_nil _ _
  · intro q hq hne
    exact absurd (show q = 0 by omega) hne

end SjfFinish
