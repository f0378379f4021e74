import OsLab.GanttProofs
import OsLab.SjfTurnProofs

/-! # The bursts a run serves

    A run of the simulator draws a chart: a device that takes the head of a
    list starts a bar of the head's length.  A device in service is under
    its last bar, and everything else on it has ended (`Served`).  One turn
    keeps this for both devices and the chart orderly, so every turn of
    every run obeys the execution law (`execution_law`). -/

namespace SjfService

open OsLoop OsGantt SjfModel SjfTurn

/-- A chart of the two devices, by the letter of the bursts they serve. -/
abbrev Chart := List (Bar BurstType Nat)

/-- The bar a device starts in its part of a turn. -/
def started (m : BurstType) (d : Device) (proc : Nat → List ProcessNode) (t : Int)
    (next : Option Nat) : Chart :=
  if d.idle then
    match next with
    | none => []
    | some p =>
        match proc p with
        | [] => []
        | node :: _ => [{ machine := m, owner := p, start := t, length := node.val }]
  else []

/-- The bars started in the turn from `s`. -/
def starts (s : State) : Chart :=
  match cpuPart s with
  | .error _ => []
  | .ok (s₁, flagPid) =>
      started .C s.cpu s.proc s.time (cpuNext s) ++
        started .I s₁.ioDevice s₁.proc s₁.time (ioNext s₁ flagPid)

/-- The states at the start of a turn, with the chart so far. -/
inductive Runs (lines : List Line) : Chart → State → Prop
  | start {s : State} (hload : load lines = .ok s) : Runs lines [] s
  | turn {chart : Chart} {s s' : State} (h : Runs lines chart s)
      (ht : tick s = .ok (.again s')) : Runs lines (chart ++ starts s) s'

/-- The burst list of a line: every other burst is for the CPU. -/
def burstList (l : Line) : List (BurstType × Int) :=
  l.bursts.mapIdx (fun n v => (if n % 2 = 0 then .C else .I, v))

/-- The burst a bar serves. -/
def work (b : Bar BurstType Nat) : BurstType × Int := (b.machine, b.length)

/-- The burst of a list node. -/
def kind (n : ProcessNode) : BurstType × Int := (n.type, n.val)

/-- The execution law of the turn from `s`, with the chart up to and including
    this turn; `proc` has the lists that its two parts leave. -/
structure Law (lines : List Line) (chart : Chart) (s : State) (proc : Nat → List ProcessNode) :
    Prop where
  /-- no process is served by both devices -/
  apart : ∀ p, ¬ (onCpu s = some p ∧ onIo s = some p)
  /-- bursts start once their process has arrived -/
  arrived : ∀ b ∈ chart, ∃ l, lines[b.owner]? = some l ∧ l.arrival ≤ b.start
  /-- and once the last burst of the device and of the process has ended -/
  orderly : Orderly chart
  /-- the CPU serves what the chart says -/
  cpu : ∀ p, onCpu s = some p ↔ ∃ b ∈ chart, b.machine = .C ∧ b.owner = p ∧ b.Covers s.time
  /-- and so does the I/O device -/
  io : ∀ p, onIo s = some p ↔ ∃ b ∈ chart, b.machine = .I ∧ b.owner = p ∧ b.Covers s.time
  /-- nothing is lost, repeated or reordered -/
  kept : ∀ p l, lines[p]? = some l → burstList l = (ended chart p (s.time + 1)).map work ++
    (underWay chart p (s.time + 1)).map work ++ (proc p).map kind
  /-- at most one burst of a process is in service -/
  single : ∀ p, (underWay chart p (s.time + 1)).length ≤ 1

/-! ## One device -/

/-- A device and its bars at the start of the turn at `t`. -/
structure Served (m : BurstType) (d : Device) (chart : Chart) (t : Int) : Prop where
  left : d.idle = true → d.timeLeft = 0
  rest : d.idle = true → ∀ b ∈ chart, b.machine = m → b.finish ≤ t
  busy : d.idle = false → 1 ≤ d.timeLeft ∧ ∃ b ∈ chart, b.machine = m ∧
    d.currPid = some b.owner ∧ b.start < t ∧ b.finish = t + d.timeLeft ∧
    ∀ a ∈ chart, a.machine = m → a = b ∨ a.finish ≤ t

section Device

variable {m : BurstType} {d d' : Device} {chart : Chart} {t : Int} {next who : Option Nat}
  {proc proc' : Nat → List ProcessNode}

theorem Served.named (h : Served m d chart t) : Named d := fun hbusy => by
  obtain ⟨-, b, -, -, hpid, -⟩ := h.busy hbusy
  exact ⟨b.owner, hpid⟩

/-- The bars of a process that the device does not serve have ended. -/
theorem Served.free (h : Served m d chart t) {p : Nat}
    (hp : d.idle = false → d.currPid ≠ some p) {b : Bar BurstType Nat} (hb : b ∈ chart)
    (hm : b.machine = m) (ho : b.owner = p) : b.finish ≤ t := by
  cases hidle : d.idle with
  | true => exact h.rest hidle b hb hm
  | false =>
      obtain ⟨-, c, -, -, hpid, -, -, hall⟩ := h.busy hidle
      rcases hall b hb hm with rfl | hend
      · exact absurd (ho ▸ hpid) (hp hidle)
      · exact hend

/-- The bars of other devices do not matter. -/
theorem Served.other (h : Served m d chart t) {more : Chart}
    (hmore : ∀ b ∈ more, b.machine ≠ m) : Served m d (chart ++ more) t := by
  have hold : ∀ b ∈ chart ++ more, b.machine = m → b ∈ chart := fun b hb hm =>
    (List.mem_append.mp hb).resolve_right (fun hb' => hmore b hb' hm)
  refine ⟨h.left, fun hidle b hb hm => h.rest hidle b (hold b hb hm) hm, fun hbusy => ?_⟩
  obtain ⟨hleft, b, hb, hm, hpid, hstart, hend, hall⟩ := h.busy hbusy
  exact ⟨hleft, b, List.mem_append_left more hb, hm, hpid, hstart, hend,
    fun a ha hma => hall a (hold a ha hma) hma⟩

/-- A bar that is started. -/
theorem mem_started {b : Bar BurstType Nat} (hb : b ∈ started m d proc t next) :
    b.machine = m ∧ next = some b.owner ∧ b.start = t := by
  simp only [started] at hb
  split at hb
  · split at hb
    · exact nomatch hb
    · split at hb
      · exact nomatch hb
      · rw [List.mem_singleton.mp hb]
        exact ⟨rfl, rfl, rfl⟩
  · exact nomatch hb

theorem started_take {p : Nat} {node : ProcessNode} {later : List ProcessNode}
    (hidle : d.idle = true) (hhead : proc p = node :: later) :
    started m d proc t (some p) =
      [{ machine := m, owner := p, start := t, length := node.val }] := by
  simp only [started, if_pos hidle, hhead]

theorem started_rest : started m d proc t none = [] := by
  simp only [started]
  split <;> rfl

theorem started_busy (hbusy : d.idle = false) : started m d proc t next = [] := by
  simp only [started, hbusy, Bool.false_eq_true, if_false]

/-- **A DEVICE KEEPS TO ITS BARS** in its part of a turn. -/
theorem step_served (hstep : Step d d' proc proc' next who) (h : Served m d chart t)
    (hval : ∀ {p node}, next = some p → node ∈ proc p → 0 < node.val) :
    Served m d' (chart ++ started m d proc t next) (t + 1) := by
  cases hstep with
  | rest hidle hnext hd hproc =>
      rw [hnext, started_rest, List.append_nil, hd]
      refine ⟨h.left, fun _ b hb hm => ?_, fun hbusy => nomatch hidle.symm.trans hbusy⟩
      have := h.rest hidle b hb hm
      omega
  | take p node later hidle hnext hhead hd hproc =>
      have hpos : 0 < node.val := hval hnext (by rw [hhead]; exact List.mem_cons_self)
      rw [hnext, started_take hidle hhead, hd]
      have hend : ∀ b ∈ chart, b.machine = m → b.finish ≤ t + 1 := fun b hb hm => by
        have := h.rest hidle b hb hm
        omega
      -- a burst of one unit is over at once, and leaves the device idle
      refine ⟨fun hi => of_decide_eq_true hi, fun hi b hb hm => ?_, fun hi => ⟨?_, _,
        List.mem_append_right chart (List.mem_singleton_self _), rfl, rfl, ?_, ?_, ?_⟩⟩
      · have hone : node.val - 1 = 0 := of_decide_eq_true hi
        rcases List.mem_append.mp hb with hb' | hb'
        · exact hend b hb' hm
        · rw [List.mem_singleton.mp hb']
          show t + node.val ≤ t + 1
          omega
      · have hne : node.val - 1 ≠ 0 := of_decide_eq_false hi
        show 1 ≤ node.val - 1
        omega
      · show t < t + 1
        omega
      · show t + node.val = t + 1 + (node.val - 1)
        omega
      · intro a ha hma
        rcases List.mem_append.mp ha with ha' | ha'
        · exact Or.inr (hend a ha' hma)
        · exact Or.inl (List.mem_singleton.mp ha')
  | serve p hbusy hpid hleft hidle hkeep hproc =>
      obtain ⟨hpos, b, hb, hm, hpid', hstart, hend, hall⟩ := h.busy hbusy
      rw [started_busy hbusy, List.append_nil]
      -- the bar of a busy device ends when its last unit is served
      refine ⟨fun hi => ?_, fun hi a ha hma => ?_, fun hi => ⟨?_, b, hb, hm, ?_, ?_, ?_, ?_⟩⟩
      · have hone : d.timeLeft = 1 := of_decide_eq_true (hidle.symm.trans hi)
        omega
      · have hone : d.timeLeft = 1 := of_decide_eq_true (hidle.symm.trans hi)
        rcases hall a ha hma with rfl | hend'
        · omega
        · omega
      · have hne : d.timeLeft ≠ 1 := of_decide_eq_false (hidle.symm.trans hi)
        omega
      · have hne : d.timeLeft ≠ 1 := of_decide_eq_false (hidle.symm.trans hi)
        exact (hkeep hne).trans (hpid.symm.trans hpid')
      · omega
      · omega
      · intro a ha hma
        exact (hall a ha hma).imp id (fun hend' => by omega)

/-- The process in service is the owner of the bar under way. -/
theorem step_observed (hstep : Step d d' proc proc' next who) (h : Served m d chart t)
    (hval : ∀ {p node}, next = some p → node ∈ proc p → 0 < node.val) (p : Nat) :
    who = some p ↔ ∃ b ∈ chart ++ started m d proc t next,
      b.machine = m ∧ b.owner = p ∧ b.Covers t := by
  cases hstep with
  | rest hidle hnext hd hproc =>
      rw [hnext, started_rest, List.append_nil]
      refine ⟨fun he => absurd he (Option.some_ne_none p).symm, ?_⟩
      rintro ⟨b, hb, hm, -, hcov⟩
      exact absurd hcov.2 (not_lt.mpr (h.rest hidle b hb hm))
  | take q node later hidle hnext hhead hd hproc =>
      have hpos : 0 < node.val := hval hnext (by rw [hhead]; exact List.mem_cons_self)
      rw [hnext, started_take hidle hhead]
      constructor
      · intro he
        obtain rfl : q = p := Option.some.inj he
        refine ⟨_, List.mem_append_right chart (List.mem_singleton_self _), rfl, rfl, ?_, ?_⟩
        · show t ≤ t
          omega
        · show t < t + node.val
          omega
      · rintro ⟨b, hb, hm, rfl, hcov⟩
        rcases List.mem_append.mp hb with hb' | hb'
        · exact absurd hcov.2 (not_lt.mpr (h.rest hidle b hb' hm))
        · rw [List.mem_singleton.mp hb']
  | serve q hbusy hpid hleft hidle hkeep hproc =>
      obtain ⟨hpos, b, hb, hm, hpid', hstart, hend, hall⟩ := h.busy hbusy
      obtain rfl : q = b.owner := Option.some.inj (hpid.symm.trans hpid')
      rw [started_busy hbusy, List.append_nil]
      constructor
      · intro he
        refine ⟨b, hb, hm, Option.some.inj he, ?_, ?_⟩ <;> omega
      · rintro ⟨a, ha, hma, rfl, hcov⟩
        rcases hall a ha hma with rfl | hend'
        · rfl
        · exact absurd hcov.2 (not_lt.mpr hend')

/-- What is started comes off the list. -/
theorem step_kept (hstep : Step d d' proc proc' next who)
    (htype : ∀ {p node later}, next = some p → proc p = node :: later → node.type = m) (q : Nat) :
    (bars (chart ++ started m d proc t next) q).map work ++ (proc' q).map kind =
      (bars chart q).map work ++ (proc q).map kind := by
  cases hstep with
  | rest hidle hnext hd hproc => rw [hnext, started_rest, List.append_nil, hproc]
  | take p node later hidle hnext hhead hd hproc =>
      rw [hnext, started_take hidle hhead, bars_append, hproc, List.map_append, List.append_assoc]
      refine congrArg _ ?_
      by_cases hqp : q = p
      · rw [hqp, Function.update_self, hhead, bars, List.filter_cons_of_pos (by simp)]
        show (m, node.val) :: later.map kind = (node.type, node.val) :: later.map kind
        rw [htype hnext hhead]
      · rw [Function.update_of_ne hqp, bars,
          List.filter_cons_of_neg (by simpa using fun he : p = q => hqp he.symm)]
        rfl
  | serve p hbusy hpid hleft hidle hkeep hproc =>
      rw [started_busy hbusy, List.append_nil, hproc]

/-- What is started comes after what has ended. -/
theorem step_orderly (hstep : Step d d' proc proc' next who) (h : Served m d chart t)
    (ho : Orderly chart) (hfree : ∀ {p b}, d.idle = true → next = some p → b ∈ chart →
      b.owner = p → b.finish ≤ t) : Orderly (chart ++ started m d proc t next) := by
  cases hstep with
  | rest hidle hnext hd hproc =>
      rw [hnext, started_rest, List.append_nil]
      exact ho
  | take p node later hidle hnext hhead hd hproc =>
      rw [hnext, started_take hidle hhead]
      refine Orderly.append ho (fun a ha hor => ?_)
      rcases hor with hma | hpa
      · exact h.rest hidle a ha hma
      · exact hfree hidle hnext ha hpa
  | serve p hbusy hpid hleft hidle hkeep hproc =>
      rw [started_busy hbusy, List.append_nil]
      exact ho

end Device

/-! ## Both devices -/

/-- What holds at the start of a turn. -/
structure Inv (lines : List Line) (chart : Chart) (s : State) : Prop where
  j : s.j = lines.length
  time : 0 ≤ s.time
  arrival : ∀ p l, lines[p]? = some l → (s.processLog p).arrivalTime = l.arrival
  cpu : Served .C s.cpu chart s.time
  io : Served .I s.ioDevice chart s.time
  orderly : Orderly chart
  started : ∀ b ∈ chart, b.start < s.time
  arrived : ∀ b ∈ chart, ∃ l, lines[b.owner]? = some l ∧ l.arrival ≤ b.start
  kept : ∀ p l, lines[p]? = some l →
    (bars chart p).map work ++ (s.proc p).map kind = burstList l

section Load

theorem readBursts_kind (vs : List Int) : ∀ (n : Nat) (head : List ProcessNode),
    (readBursts n head vs).map kind =
      head.map kind ++ vs.mapIdx (fun i v => (if (n + i) % 2 = 0 then .C else .I, v)) := by
  induction vs with
  | nil => intro n head; rw [readBursts, List.mapIdx_nil, List.append_nil]
  | cons v vs ih =>
      intro n head
      rw [readBursts, ih, insertNode, List.map_append, List.append_assoc, List.mapIdx_cons]
      simp only [Nat.add_assoc, Nat.add_comm 1, Nat.add_zero]
      rfl

/-- The lists are read as the lines have them. -/
theorem loaded_kind {lines : List Line} {p : Nat} {l : Line} (h : lines[p]? = some l) :
    ((loaded lines).proc p).map kind = burstList l := by
  show (readBursts 0 [] ((lines[p]?.map Line.bursts).getD [])).map kind = _
  rw [h, readBursts_kind, burstList]
  simp only [Nat.zero_add]
  rfl

/-- The invariant holds at the start. -/
theorem inv_loaded (lines : List Line) : Inv lines [] (loaded lines) where
  j := rfl
  time := le_refl _
  arrival := by
    intro p l h
    show (newLog (lines[p]?.getD _)).arrivalTime = l.arrival
    rw [h]
    rfl
  cpu := ⟨fun _ => rfl, fun _ _ hb => (nomatch hb), fun h => (nomatch h)⟩
  io := ⟨fun _ => rfl, fun _ _ hb => (nomatch hb), fun h => (nomatch h)⟩
  orderly := List.Pairwise.nil
  started := fun _ hb => nomatch hb
  arrived := fun _ hb => nomatch hb
  kept := fun _ _ h => loaded_kind h

/-- The bursts of a well-formed input are positive and below the largest
    `int`. -/
theorem burstList_range {lines : List Line} (hwf : WellFormed lines) {p : Nat} {l : Line}
    (h : lines[p]? = some l) {m : BurstType} {v : Int} (hv : (m, v) ∈ burstList l) :
    0 < v ∧ v < intMax := by
  obtain ⟨i, hi, heq⟩ := List.mem_mapIdx.mp hv
  obtain ⟨-, rfl⟩ := Prod.mk.inj heq
  exact hwf.bursts l (List.mem_of_getElem? h) _ (List.getElem_mem hi)

theorem grow_kind (ns : List ProcessNode) : (grow ns).map kind = ns.map kind := by
  cases ns with
  | nil => rfl
  | cons node next =>
      rw [grow]
      split <;> rfl

theorem endTurn_kind (s : State) (p : Nat) :
    ((endTurn s).proc p).map kind = (s.proc p).map kind := by
  show ((if p < s.j then grow (s.proc p) else s.proc p) : List ProcessNode).map kind = _
  split
  · exact grow_kind _
  · rfl

theorem endTurn_arrival (s : State) (p : Nat) :
    ((endTurn s).processLog p).arrivalTime = (s.processLog p).arrivalTime := by
  show (ite _ _ _ : ProcessLogNode).arrivalTime = _
  split <;> rfl

end Load

section Turn

variable {lines : List Line} {chart : Chart} {s s₁ s₂ : State}

/-- A burst still on a list is one of the input. -/
theorem Inv.range (hwf : WellFormed lines)
    (hkept : ∀ p l, lines[p]? = some l →
      (bars chart p).map work ++ (s.proc p).map kind = burstList l)
    {p : Nat} (hp : p < lines.length) {node : ProcessNode} (hnode : node ∈ s.proc p) :
    0 < node.val ∧ node.val < intMax := by
  obtain ⟨l, hl⟩ : ∃ l, lines[p]? = some l := ⟨_, List.getElem?_eq_getElem hp⟩
  have hmem : kind node ∈ burstList l := by
    rw [← hkept p l hl]
    exact List.mem_append_right _ (List.mem_map_of_mem hnode)
  exact burstList_range hwf hl hmem

theorem Turned.starts (h : Turned s s₁ s₂) : starts s =
    started .C s.cpu s.proc s.time (cpuNext s) ++
      started .I s.ioDevice s₁.proc s.time (ioNext s₁ (onCpu s)) := by
  rw [SjfService.starts, h.part₁, ← h.io₁, ← h.clock₁.time]

/-- What holds between the two parts of a turn, with the bar of the CPU. -/
structure Half (lines : List Line) (chart : Chart) (s s₁ : State) : Prop where
  cpu : Served .C s₁.cpu chart (s.time + 1)
  io : Served .I s.ioDevice chart s.time
  seen : ∀ p, onCpu s = some p ↔ ∃ b ∈ chart, b.machine = .C ∧ b.owner = p ∧ b.Covers s.time
  orderly : Orderly chart
  started : ∀ b ∈ chart, b.start ≤ s.time
  arrived : ∀ b ∈ chart, ∃ l, lines[b.owner]? = some l ∧ l.arrival ≤ b.start
  kept : ∀ p l, lines[p]? = some l →
    (bars chart p).map work ++ (s₁.proc p).map kind = burstList l

/-- What holds before time passes, with the bars of both devices. -/
structure Whole (lines : List Line) (chart : Chart) (s s₁ s₂ : State) : Prop where
  cpu : Served .C s₁.cpu chart (s.time + 1)
  io : Served .I s₂.ioDevice chart (s.time + 1)
  seenC : ∀ p, onCpu s = some p ↔ ∃ b ∈ chart, b.machine = .C ∧ b.owner = p ∧ b.Covers s.time
  seenI : ∀ p, onIo s = some p ↔ ∃ b ∈ chart, b.machine = .I ∧ b.owner = p ∧ b.Covers s.time
  orderly : Orderly chart
  started : ∀ b ∈ chart, b.start ≤ s.time
  arrived : ∀ b ∈ chart, ∃ l, lines[b.owner]? = some l ∧ l.arrival ≤ b.start
  kept : ∀ p l, lines[p]? = some l →
    (bars chart p).map work ++ (s₂.proc p).map kind = burstList l

/-- A candidate's line has arrived. -/
theorem Candidate.line (hj : s.j = lines.length)
    (harr : ∀ p l, lines[p]? = some l → (s.processLog p).arrivalTime = l.arrival)
    {m : BurstType} {p : Nat} (hc : Candidate s m p) :
    ∃ l, lines[p]? = some l ∧ l.arrival ≤ s.time := by
  have hp : p < lines.length := hj ▸ hc.1
  refine ⟨lines[p], List.getElem?_eq_getElem hp, ?_⟩
  rw [← harr p _ (List.getElem?_eq_getElem hp)]
  exact hc.2.1 p (le_refl p)

theorem Candidate.head_type {m : BurstType} {p : Nat} (hc : Candidate s m p)
    {node : ProcessNode} {later : List ProcessNode} (hhead : s.proc p = node :: later) :
    node.type = m := by
  obtain ⟨n, next, hn, htype, -⟩ := hc.cons
  rw [hhead] at hn
  rw [(List.cons.inj hn).1]
  exact htype

/-- **THE CPU PART**: what the CPU takes is not in service at the I/O device. -/
theorem cpu_half (hwf : WellFormed lines) (h : Inv lines chart s) (ht : Turned s s₁ s₂) :
    Half lines (chart ++ started .C s.cpu s.proc s.time (cpuNext s)) s s₁ := by
  have hcand : ∀ {p}, cpuNext s = some p → Candidate s .C p := fun hp =>
    (findNext_some (cpuNext_some.mp hp).1).1
  have hval : ∀ {p node}, cpuNext s = some p → node ∈ s.proc p → 0 < node.val := fun hp hn =>
    (Inv.range hwf h.kept (h.j ▸ (hcand hp).1) hn).1
  have hfree : ∀ {p b}, s.cpu.idle = true → cpuNext s = some p → b ∈ chart → b.owner = p →
      b.finish ≤ s.time := by
    intro p b hidle hp hb ho
    cases hm : b.machine with
    | C => exact h.cpu.rest hidle b hb hm
    | I =>
        -- a process in I/O service is refused by the test after `find_next`
        refine h.io.free (fun hbusy hpid => ?_) hb hm ho
        exact (cpuNext_some.mp hp).2 ⟨hpid, (h.io.busy hbusy).1⟩
  refine ⟨step_served ht.cpu h.cpu hval, h.io.other (fun b hb he => ?_),
    step_observed ht.cpu h.cpu hval, step_orderly ht.cpu h.cpu h.orderly hfree, ?_, ?_, ?_⟩
  · exact nomatch (mem_started hb).1.symm.trans he
  · intro b hb
    rcases List.mem_append.mp hb with hb' | hb'
    · exact le_of_lt (h.started b hb')
    · exact le_of_eq (mem_started hb').2.2
  · intro b hb
    rcases List.mem_append.mp hb with hb' | hb'
    · exact h.arrived b hb'
    · obtain ⟨-, hnext, hstart⟩ := mem_started hb'
      rw [hstart]
      exact Candidate.line h.j h.arrival (hcand hnext)
  · intro p l hl
    rw [step_kept ht.cpu (fun hp hhead => Candidate.head_type (hcand hp) hhead)]
    exact h.kept p l hl

/-- **THE I/O PART**: what the device takes is not in service at the CPU. -/
theorem io_half (hwf : WellFormed lines) (h : Inv lines chart s) (ht : Turned s s₁ s₂)
    {chart₁ : Chart} (hhalf : Half lines chart₁ s s₁) :
    Whole lines (chart₁ ++ started .I s.ioDevice s₁.proc s.time (ioNext s₁ (onCpu s))) s s₁ s₂ := by
  have hj : s₁.j = lines.length := ht.clock₁.j.trans h.j
  have harr : ∀ p l, lines[p]? = some l → (s₁.processLog p).arrivalTime = l.arrival :=
    fun p l hl => (ht.clock₁.arrival p).trans (h.arrival p l hl)
  have hcand : ∀ {p}, ioNext s₁ (onCpu s) = some p → Candidate s₁ .I p := fun hp =>
    (findNext_some (ioNext_some.mp hp).1).1
  have hval : ∀ {p node}, ioNext s₁ (onCpu s) = some p → node ∈ s₁.proc p → 0 < node.val :=
    fun hp hn => (Inv.range hwf hhalf.kept (hj ▸ (hcand hp).1) hn).1
  have hfree : ∀ {p b}, s.ioDevice.idle = true → ioNext s₁ (onCpu s) = some p → b ∈ chart₁ →
      b.owner = p → b.finish ≤ s.time := by
    intro p b hidle hp hb ho
    cases hm : b.machine with
    | I => exact hhalf.io.rest hidle b hb hm
    | C =>
        -- and one the CPU serves in this turn is the one `flag_pid` names
        refine not_lt.mp (fun hlt => (ioNext_some.mp hp).2 ?_)
        exact (hhalf.seen p).mpr ⟨b, hb, hm, ho, hhalf.started b hb, hlt⟩
  have hother : ∀ b ∈ started .I s.ioDevice s₁.proc s.time (ioNext s₁ (onCpu s)),
      b.machine ≠ .C := fun b hb he => nomatch (mem_started hb).1.symm.trans he
  refine ⟨hhalf.cpu.other hother, step_served ht.io hhalf.io hval, fun p => ?_,
    step_observed ht.io hhalf.io hval, step_orderly ht.io hhalf.io hhalf.orderly hfree, ?_, ?_, ?_⟩
  · rw [hhalf.seen]
    constructor
    · rintro ⟨b, hb, hrest⟩
      exact ⟨b, List.mem_append_left _ hb, hrest⟩
    · rintro ⟨b, hb, hm, hrest⟩
      exact ⟨b, (List.mem_append.mp hb).resolve_right (fun hb' => hother b hb' hm), hm, hrest⟩
  · intro b hb
    rcases List.mem_append.mp hb with hb' | hb'
    · exact hhalf.started b hb'
    · exact le_of_eq (mem_started hb').2.2
  · intro b hb
    rcases List.mem_append.mp hb with hb' | hb'
    · exact hhalf.arrived b hb'
    · obtain ⟨-, hnext, hstart⟩ := mem_started hb'
      rw [hstart, ← ht.clock₁.time]
      exact Candidate.line hj harr (hcand hnext)
  · intro p l hl
    rw [step_kept ht.io (fun hp hhead => Candidate.head_type (hcand hp) hhead)]
    exact hhalf.kept p l hl

/-- **ONE TURN** obeys the law and keeps the invariant. -/
theorem inv_turn (hwf : WellFormed lines) (h : Inv lines chart s) (ht : Turned s s₁ s₂) :
    Law lines (chart ++ starts s) s s₂.proc ∧ Inv lines (chart ++ starts s) (endTurn s₂) := by
  have hw := io_half hwf h ht (cpu_half hwf h ht)
  rw [Turned.starts ht, ← List.append_assoc]
  generalize chart ++ started .C s.cpu s.proc s.time (cpuNext s) ++
    started .I s.ioDevice s₁.proc s.time (ioNext s₁ (onCpu s)) = chart' at hw ⊢
  have htime : (endTurn s₂).time = s.time + 1 := ht.endTime
  have hstart : ∀ b ∈ chart', b.start < s.time + 1 := fun b hb => by
    have := hw.started b hb
    omega
  refine ⟨⟨?_, hw.arrived, hw.orderly, hw.seenC, hw.seenI, ?_, ?_⟩,
    ⟨?_, ?_, ?_, ?_, ?_, hw.orderly, ?_, hw.arrived, ?_⟩⟩
  · rintro p ⟨hc, hi⟩
    -- two bars of one process that cover one time are the same bar
    obtain ⟨a, ha, hma, hpa, hat⟩ := (hw.seenC p).mp hc
    obtain ⟨b, hb, hmb, hpb, hbt⟩ := (hw.seenI p).mp hi
    have hab := hw.orderly.unique ha hb hat hbt (Or.inr (hpa.trans hpb.symm))
    rw [hab, hmb] at hma
    exact nomatch hma
  · intro p l hl
    rw [← List.map_append, ← (hw.orderly.split p hstart).1]
    exact (hw.kept p l hl).symm
  · intro p
    exact (hw.orderly.split p hstart).2
  · exact ht.clock₂.j.trans (ht.clock₁.j.trans h.j)
  · rw [htime]
    have := h.time
    omega
  · intro p l hl
    rw [endTurn_arrival, ht.clock₂.arrival, ht.clock₁.arrival]
    exact h.arrival p l hl
  · rw [htime]
    show Served .C s₂.cpu chart' (s.time + 1)
    rw [ht.cpu₂]
    exact hw.cpu
  · rw [htime]
    exact hw.io
  · rw [htime]
    exact hstart
  · intro p l hl
    rw [endTurn_kind]
    exact hw.kept p l hl

end Turn

/-! ## Runs -/

section Run

variable {lines : List Line}

/-- The invariant holds at the start of every turn of a run. -/
theorem Runs.inv (hwf : WellFormed lines) {chart : Chart} {s : State} (h : Runs lines chart s) :
    Inv lines chart s := by
  induction h with
  | start hload =>
      obtain ⟨-, rfl⟩ := load_ok.mp hload
      exact inv_loaded lines
  | turn _ ht ih =>
      obtain ⟨s₁, s₂, hturned, htick⟩ := tick_spec ih.cpu.named ih.io.named
      obtain ⟨rfl, -, -⟩ := ending_again (htick.symm.trans ht)
      exact (inv_turn hwf ih hturned).2

/-- **THE EXECUTION LAW** holds of every turn of every run.  Neither part of a
    turn fails; at its end the turn leaves the loop, goes on, or fails because
    the clock or the time of a completion is no `int` any more. -/
theorem execution_law (hwf : WellFormed lines) {chart : Chart} {s : State}
    (h : Runs lines chart s) :
    ∃ s₁ s₂, cpuPart s = .ok (s₁, onCpu s) ∧ ioPart s₁ (onCpu s) = .ok s₂ ∧
      Law lines (chart ++ starts s) s s₂.proc ∧ tick s = ending s₂ := by
  have hinv := h.inv hwf
  obtain ⟨s₁, s₂, hturned, htick⟩ := tick_spec hinv.cpu.named hinv.io.named
  exact ⟨s₁, s₂, hturned.part₁, hturned.part₂, (inv_turn hwf hinv hturned).1, htick⟩

/-- Every state the loop visits starts a turn of a run. -/
theorem runs_of_visits {s : State} (h : Visits tick (loaded lines) s)
    (hload : load lines = .ok (loaded lines)) : ∃ chart, Runs lines chart s := by
  induction h with
  | refl => exact ⟨[], .start hload⟩
  | tail _ ht ih =>
      obtain ⟨chart, hr⟩ := ih
      exact ⟨chart ++ starts _, .turn hr ht⟩

theorem inv_of_visits (hwf : WellFormed lines) (hload : load lines = .ok (loaded lines))
    {s : State} (h : Visits tick (loaded lines) s) : ∃ chart, Inv lines chart s := by
  obtain ⟨chart, hr⟩ := runs_of_visits h hload
  exact ⟨chart, hr.inv hwf⟩

end Run

/-- Two processes that share both devices. -/
def twoLines : List Line := [⟨0, [3, 2, 4]⟩, ⟨1, [2, 2]⟩]

/-- One process that arrives at time 1. -/
def lateLine : List Line := [⟨1, [3]⟩]

theorem execution_law_start : ∃ s₁ s₂, cpuPart (loaded twoLines) =
      .ok (s₁, onCpu (loaded twoLines)) ∧ ioPart s₁ (onCpu (loaded twoLines)) = .ok s₂ ∧
    Law twoLines ([] ++ starts (loaded twoLines)) (loaded twoLines) s₂.proc ∧
    tick (loaded twoLines) = ending s₂ :=
  execution_law (by decide) (.start (load_ok.mpr ⟨by decide, rfl⟩))

end SjfService
